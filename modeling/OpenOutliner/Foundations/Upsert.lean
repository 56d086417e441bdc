import Mathlib.Data.Finset.Insert
import OpenOutliner.Foundations.OrderedMap

/-!
`INSERT ... ON CONFLICT DO UPDATE ... WHERE`, one proposed row after the other. A row that the statement has
inserted or updated must not be met again; one that the guard has left as it was may be.
-/

namespace OpenOutliner.Foundations

variable {K V : Type} [DecidableEq K]

/-- The table within the statement, and the keys of the rows that it has inserted or updated. -/
structure UpsertRun (K V : Type) [DecidableEq K] where
  table : OrderedMap K V
  written : Finset K

/-- A proposal is a key with what it makes of the row that it finds; the guard holds it off where that is
the row itself. -/
def UpsertRun.propose [DecidableEq V] (s : UpsertRun K V) (e : K × (Option V → V)) : Option (UpsertRun K V) :=
  if e.1 ∈ s.written then none
  else
    match s.table.get e.1 with
    | none => some ⟨s.table.set e.1 (e.2 none), insert e.1 s.written⟩
    | some old =>
      if e.2 (some old) = old then some s
      else some ⟨s.table.set e.1 (e.2 (some old)), insert e.1 s.written⟩

def insertOrUpdate [DecidableEq V] (table : OrderedMap K V) (es : List (K × (Option V → V))) :
    Option (UpsertRun K V) :=
  es.foldlM UpsertRun.propose ⟨table, ∅⟩

/-- What a statement that does not fail has done: a row is what the last proposal of its key makes of the
row before the statement, and those before the last would have left that row as it was. -/
structure InsertedOrUpdated (table : OrderedMap K V) (es : List (K × (Option V → V)))
    (s : UpsertRun K V) : Prop where
  kept : ∀ k, (∀ e ∈ es, e.1 ≠ k) → s.table.get k = table.get k
  row : ∀ k, (∃ e ∈ es, e.1 = k) → ∃ front make back, es = front ++ (k, make) :: back ∧
    s.table.get k = some (make (table.get k)) ∧ (∀ e ∈ back, e.1 ≠ k) ∧
    ∀ e ∈ front, e.1 = k → table.get k = some (e.2 (table.get k))
  written : ∀ k, k ∈ s.written ↔ s.table.get k ≠ table.get k

variable [DecidableEq V] {table : OrderedMap K V} {es : List (K × (Option V → V))} {e : K × (Option V → V)}
  {s s' : UpsertRun K V}

theorem propose_eq : s.propose e =
    if e.1 ∈ s.written then none
    else if s.table.get e.1 = some (e.2 (s.table.get e.1)) then some s
    else some ⟨s.table.set e.1 (e.2 (s.table.get e.1)), insert e.1 s.written⟩ := by
  unfold UpsertRun.propose
  cases s.table.get e.1 with
  | none => simp
  | some old => simp [eq_comm]

theorem InsertedOrUpdated.propose (h : InsertedOrUpdated table es s) (hstep : s.propose e = some s') :
    InsertedOrUpdated table (es ++ [e]) s' := by
  rw [propose_eq] at hstep
  split at hstep
  · cases hstep
  · rename_i hfree
    have hbefore : s.table.get e.1 = table.get e.1 := by
      by_contra hne
      exact hfree ((h.written e.1).mpr hne)
    have hothers : ∀ k, k ≠ e.1 → (∃ e' ∈ es ++ [e], e'.1 = k) → ∃ e' ∈ es, e'.1 = k := by
      rintro k hk ⟨e', hmem, rfl⟩
      obtain hmem | hmem := List.mem_append.mp hmem
      · exact ⟨e', hmem, rfl⟩
      · exact absurd (congrArg Prod.fst (List.mem_singleton.mp hmem)) hk
    have hfront : ∀ e' ∈ es, e'.1 = e.1 → table.get e.1 = some (e'.2 (table.get e.1)) := by
      intro e' hmem hkey
      obtain ⟨front, make, back, rfl, hrow, hback, hnoop⟩ := h.row e.1 ⟨e', hmem, hkey⟩
      rw [hbefore] at hrow
      obtain hmem | hmem := List.mem_append.mp hmem
      · exact hnoop e' hmem hkey
      · obtain rfl | hmem := List.mem_cons.mp hmem
        · exact hrow
        · exact absurd hkey (hback e' hmem)
    have hlast : ∀ final : Option V, final = some (e.2 (table.get e.1)) → ∃ front make back,
        es ++ [e] = front ++ (e.1, make) :: back ∧ final = some (make (table.get e.1)) ∧
        (∀ e' ∈ back, e'.1 ≠ e.1) ∧
        ∀ e' ∈ front, e'.1 = e.1 → table.get e.1 = some (e'.2 (table.get e.1)) :=
      fun _ hfinal => ⟨es, e.2, [], rfl, hfinal, by simp, hfront⟩
    have hextend : ∀ k, k ≠ e.1 → ∀ final : Option V, (∃ front make back, es = front ++ (k, make) :: back ∧
        final = some (make (table.get k)) ∧ (∀ e' ∈ back, e'.1 ≠ k) ∧
        ∀ e' ∈ front, e'.1 = k → table.get k = some (e'.2 (table.get k))) →
        ∃ front make back, es ++ [e] = front ++ (k, make) :: back ∧ final = some (make (table.get k)) ∧
        (∀ e' ∈ back, e'.1 ≠ k) ∧ ∀ e' ∈ front, e'.1 = k → table.get k = some (e'.2 (table.get k)) := by
      rintro k hk final ⟨front, make, back, rfl, hrow, hback, hnoop⟩
      refine ⟨front, make, back ++ [e], by simp, hrow, ?_, hnoop⟩
      intro e' hmem
      obtain hmem | hmem := List.mem_append.mp hmem
      · exact hback e' hmem
      · exact List.mem_singleton.mp hmem ▸ hk.symm
    split at hstep
    · -- the guard holds the proposal off
      rename_i hsame
      cases hstep
      refine ⟨fun k hk => h.kept k fun e' hmem => hk e' (List.mem_append_left _ hmem), ?_, h.written⟩
      intro k hk
      by_cases hke : k = e.1
      · subst hke
        apply hlast
        rw [hsame, hbefore]
      · exact hextend k hke _ (h.row k (hothers k hke hk))
    · rename_i hdiffers
      cases hstep
      refine ⟨?_, ?_, ?_⟩
      · intro k hk
        have hke : k ≠ e.1 := fun he => hk e (by simp) he.symm
        rw [OrderedMap.get_set_of_ne _ _ hke]
        exact h.kept k fun e' hmem => hk e' (List.mem_append_left _ hmem)
      · intro k hk
        by_cases hke : k = e.1
        · subst hke
          apply hlast
          rw [OrderedMap.get_set_self, hbefore]
        · rw [OrderedMap.get_set_of_ne _ _ hke]
          exact hextend k hke _ (h.row k (hothers k hke hk))
      · intro k
        rw [Finset.mem_insert]
        by_cases hke : k = e.1
        · subst hke
          rw [OrderedMap.get_set_self, ← hbefore]
          exact iff_of_true (Or.inl rfl) fun he => hdiffers he.symm
        · rw [OrderedMap.get_set_of_ne _ _ hke, h.written]
          exact ⟨fun hor => hor.resolve_left hke, Or.inr⟩

theorem insertOrUpdate_spec (h : insertOrUpdate table es = some s) : InsertedOrUpdated table es s := by
  have hfold : ∀ (done todo : List (K × (Option V → V))) (mid : UpsertRun K V),
      InsertedOrUpdated table done mid →
      todo.foldlM UpsertRun.propose mid = some s → InsertedOrUpdated table (done ++ todo) s := by
    intro done todo
    induction todo generalizing done with
    | nil =>
      intro mid hmid hrun
      cases hrun
      rwa [List.append_nil]
    | cons e todo ih =>
      intro mid hmid hrun
      obtain ⟨next, hnext, hrun⟩ := Option.bind_eq_some_iff.mp hrun
      rw [← List.singleton_append, ← List.append_assoc]
      exact ih (done ++ [e]) next (hmid.propose hnext) hrun
  have hstart : InsertedOrUpdated table [] ⟨table, ∅⟩ := ⟨fun _ _ => rfl, by simp, by simp⟩
  exact hfold [] es _ hstart h

theorem insertOrUpdate_idle (h : ∀ e ∈ es, table.get e.1 = some (e.2 (table.get e.1))) :
    insertOrUpdate table es = some ⟨table, ∅⟩ := by
  unfold insertOrUpdate
  induction es with
  | nil => rfl
  | cons e es ih =>
    obtain ⟨he, hes⟩ := List.forall_mem_cons.mp h
    have hidle : UpsertRun.propose ⟨table, ∅⟩ e = some ⟨table, ∅⟩ := by
      rw [propose_eq, if_neg (Finset.notMem_empty _), if_pos he]
    rw [List.foldlM_cons, hidle]
    exact ih hes

end OpenOutliner.Foundations
