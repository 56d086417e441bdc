import OpenOutliner.Foundations.Machine
import OpenOutliner.Foundations.ReadCommitted
import OpenOutliner.Server.ItemsRepo

namespace OpenOutliner

open Foundations

structure ItemRecord (Uuid : Type) where
  row : ItemRow Uuid
  color : Option JsString
  metadata : JsString
deriving DecidableEq

/-- The fields of an update as they reach the statement, none for those that are not set. -/
structure MetadataUpdate where
  color : Option JsString
  metadata : Option JsString

section Statements

variable {Uuid : Type} [DecidableEq Uuid]

def upsertRecord (now : ℤ) (parentId : Option Uuid) (item : ProjectedItem) :
    Option (ItemRecord Uuid) → ItemRecord Uuid
  | none => ⟨upsertRow now parentId item none, none, js ['{', '}']⟩
  | some old => { old with row := upsertRow now parentId item (some old.row) }

def tombstone (now : ℤ) (r : ItemRecord Uuid) : ItemRecord Uuid :=
  { r with row := { r.row with deletedAt := some now, version := r.row.version + 1 } }

def updateItemMetadata (expectedVersion : ℤ) (fields : MetadataUpdate) (r : ItemRecord Uuid) :
    Option (ItemRecord Uuid) :=
  if (r.row.version : ℤ) = expectedVersion ∧ r.row.deletedAt = none then
    some ⟨{ r.row with version := r.row.version + 1 }, fields.color.or r.color,
      fields.metadata.getD r.metadata⟩
  else none

end Statements

/-- `T` names the transactions of projections. -/
inductive ItemAction (T Uuid : Type)
  | upsert (t : T) (u : Uuid) (now : ℤ) (parentId : Option Uuid) (item : ProjectedItem)
  | markMissing (t : T) (u : Uuid) (now : ℤ)
  | updateItem (u : Uuid) (expectedVersion : ℤ) (fields : MetadataUpdate)
  | commit (t : T)
  | rollback (t : T)

namespace ItemVersions

variable {T Uuid : Type} [DecidableEq T] [DecidableEq Uuid]

abbrev ItemTable (T Uuid : Type) := Table T Uuid (ItemRecord Uuid)

/-- The statement of one `UpdateItem` and its commit; none while it waits for the lock of a row that
meets its condition. After the wait it starts again with the row as committed by then. -/
def callUpdateItem (b : ItemTable T Uuid) (u : Uuid) (expectedVersion : ℤ) (fields : MetadataUpdate) :
    Option (ItemTable T Uuid × Option (ItemRecord Uuid)) :=
  match (b.committed.get u).bind (updateItemMetadata expectedVersion fields) with
  | none => some (b, none)
  | some updated =>
    match b.pending.get u with
    | none => some ({ b with committed := b.committed.set u updated }, some updated)
    | some _ => none

def step (b : ItemTable T Uuid) : ItemAction T Uuid → Option (ItemTable T Uuid)
  | .upsert t u now parentId item => b.write t (u, some (upsertRecord now parentId item ((b.view t).get u)))
  | .markMissing t u now =>
    match (b.view t).get u with
    | none => some b
    | some r => if r.row.deletedAt = none then b.write t (u, some (tombstone now r)) else some b
  | .updateItem u expectedVersion fields => (callUpdateItem b u expectedVersion fields).map Prod.fst
  | .commit t => some (b.commit t)
  | .rollback t => some (b.release t)

def Grew (r r' : ItemRecord Uuid) : Prop := r' = r ∨ r.row.version < r'.row.version

omit [DecidableEq Uuid] in
theorem Grew.trans {r r' r'' : ItemRecord Uuid} (h : Grew r r') (h' : Grew r' r'') : Grew r r'' := by
  rcases h with rfl | h
  · exact h'
  · rcases h' with rfl | h'
    · exact Or.inr h
    · exact Or.inr (h.trans h')

omit [DecidableEq Uuid] in
theorem Grew.unique {r r' : ItemRecord Uuid} (h : Grew r r') (hv : r'.row.version = r.row.version) : r' = r :=
  h.resolve_right fun hlt => by omega

theorem upsertRecord_grew (now : ℤ) (parentId : Option Uuid) (item : ProjectedItem) (r : ItemRecord Uuid) :
    Grew r (upsertRecord now parentId item (some r)) := by
  rw [upsertRecord, upsertRow]
  generalize (if item.deleted = true then r.row.deletedAt.or (some now) else none) = deletedAt
  split
  · exact Or.inl rfl
  · exact Or.inr (Nat.lt_succ_self _)

omit [DecidableEq Uuid] in
theorem tombstone_grew (now : ℤ) (r : ItemRecord Uuid) : Grew r (tombstone now r) :=
  Or.inr (Nat.lt_succ_self _)

omit [DecidableEq Uuid] in
theorem updateItemMetadata_some {expectedVersion : ℤ} {fields : MetadataUpdate} {r updated : ItemRecord Uuid}
    (h : updateItemMetadata expectedVersion fields r = some updated) :
    expectedVersion = r.row.version ∧ r.row.deletedAt = none ∧
    updated.row = { r.row with version := r.row.version + 1 } := by
  unfold updateItemMetadata at h
  split at h
  · rename_i hmatch
    cases h
    exact ⟨hmatch.1.symm, hmatch.2, rfl⟩
  · cases h

def Inv (b : ItemTable T Uuid) : Prop :=
  ∀ u t v, b.pending.get u = some (t, v) → ∃ p, v = some p ∧ ∀ r, b.committed.get u = some r → Grew r p

def Rel (b b' : ItemTable T Uuid) : Prop :=
  ∀ u r, b.committed.get u = some r → ∃ r', b'.committed.get u = some r' ∧ Grew r r'

variable {b b' : ItemTable T Uuid} {s t : T} {u : Uuid} {a : ItemAction T Uuid}

section

omit [DecidableEq T]

theorem inv_empty (rows : OrderedMap Uuid (ItemRecord Uuid)) : Inv (T := T) ⟨rows, .empty⟩ := by
  intro u t v hp
  cases hp

theorem Rel.refl (b : ItemTable T Uuid) : Rel b b := fun _ r hr => ⟨r, hr, Or.inl rfl⟩

theorem Rel.trans {b'' : ItemTable T Uuid} (h : Rel b b') (h' : Rel b' b'') : Rel b b'' := by
  intro u r hr
  obtain ⟨r', hr', hgrew⟩ := h u r hr
  obtain ⟨r'', hr'', hgrew'⟩ := h' u r' hr'
  exact ⟨r'', hr'', hgrew.trans hgrew'⟩

end

theorem Inv.view (h : Inv b) (t : T) (u : Uuid) {r : ItemRecord Uuid} (hr : b.committed.get u = some r) :
    ∃ r', (b.view t).get u = some r' ∧ Grew r r' := by
  by_cases hp : ∃ v, b.pending.get u = some (t, v)
  · obtain ⟨v, hp⟩ := hp
    obtain ⟨p, rfl, hgrew⟩ := h u t v hp
    exact ⟨p, Table.view_own hp, hgrew r hr⟩
  · exact ⟨r, by rw [Table.view_other fun v hv => hp ⟨v, hv⟩, hr], Or.inl rfl⟩

theorem inv_write (h : Inv b) {p : ItemRecord Uuid} (hgrew : ∀ r, (b.view t).get u = some r → Grew r p)
    (hwrite : b.write t (u, some p) = some b') : Inv b' ∧ Rel b b' := by
  have hw := Table.write_wrote hwrite
  refine ⟨?_, fun u r hr => ⟨r, by rw [hw.committed, hr], Or.inl rfl⟩⟩
  intro u' t' v hp
  rw [hw.committed]
  by_cases hu : u' = u
  · subst hu
    obtain ⟨w, hin, hp'⟩ := hw.written u' (by simp)
    rw [hp] at hp'
    obtain ⟨rfl, rfl⟩ := Prod.mk.inj (Option.some.inj hp')
    obtain ⟨-, rfl⟩ := Prod.mk.inj (List.mem_singleton.mp hin)
    refine ⟨p, rfl, fun r hr => ?_⟩
    obtain ⟨r', hr', hgrew'⟩ := h.view t' u' hr
    exact hgrew'.trans (hgrew r' hr')
  · rw [hw.kept u' (by simpa using hu)] at hp
    exact h u' t' v hp

theorem inv_step (h : Inv b) (hstep : step b a = some b') : Inv b' ∧ Rel b b' := by
  cases a with
  | upsert t u now parentId item =>
    refine inv_write h (fun r hr => ?_) hstep
    rw [hr]
    exact upsertRecord_grew now parentId item r
  | markMissing t u now =>
    simp only [step] at hstep
    split at hstep
    · cases hstep
      exact ⟨h, Rel.refl b⟩
    · rename_i r hview
      split at hstep
      · refine inv_write h (fun r' hr' => ?_) hstep
        obtain rfl := Option.some.inj (hview.symm.trans hr')
        exact tombstone_grew now r
      · cases hstep
        exact ⟨h, Rel.refl b⟩
  | updateItem u expectedVersion fields =>
    obtain ⟨⟨b'', answer⟩, hcall, rfl⟩ := Option.map_eq_some_iff.mp hstep
    unfold callUpdateItem at hcall
    split at hcall
    · cases hcall
      exact ⟨h, Rel.refl b⟩
    · rename_i updated hupdated
      split at hcall
      · rename_i hfree
        cases hcall
        obtain ⟨r, hr, hmatch⟩ := Option.bind_eq_some_iff.mp hupdated
        obtain ⟨-, -, hrow⟩ := updateItemMetadata_some hmatch
        constructor
        · intro u' t' v hp
          have hne : u' ≠ u := by
            rintro rfl
            rw [hfree] at hp
            cases hp
          dsimp only
          rw [OrderedMap.get_set_of_ne _ _ hne]
          exact h u' t' v hp
        · intro u' r' hr'
          by_cases hu : u' = u
          · subst hu
            obtain rfl := Option.some.inj (hr.symm.trans hr')
            exact ⟨updated, OrderedMap.get_set_self _ _ _, Or.inr (by rw [hrow]; exact Nat.lt_succ_self _)⟩
          · exact ⟨r', by dsimp only; rw [OrderedMap.get_set_of_ne _ _ hu, hr'], Or.inl rfl⟩
      · cases hcall
  | commit t =>
    cases hstep
    constructor
    · intro u s v hp
      obtain ⟨hp, hne⟩ := Table.release_pending.mp hp
      obtain ⟨p, rfl, hgrew⟩ := h u s v hp
      refine ⟨p, rfl, fun r hr => hgrew r ?_⟩
      change (b.view t).get u = some r at hr
      rwa [Table.view_other] at hr
      intro w hw
      rw [hp] at hw
      exact hne (Prod.mk.inj (Option.some.inj hw)).1
    · exact fun u r hr => h.view t u hr
  | rollback t =>
    cases hstep
    constructor
    · intro u s v hp
      exact h u s v (Table.release_pending.mp hp).1
    · exact Rel.refl b

/-- In every run the version of a row grows with each change of it, and an update succeeds exactly on the
version that its caller names: then the row is still what any reader of that version saw. -/
theorem update_item_optimistic {rows : OrderedMap Uuid (ItemRecord Uuid)} {σ τ : ItemTable T Uuid}
    (h : Runs step (fun _ _ => True) ⟨rows, .empty⟩ σ) (hrun : Runs step (fun _ _ => True) σ τ) {u : Uuid}
    {seen : ItemRecord Uuid} (hseen : σ.committed.get u = some seen) :
    ∃ current, τ.committed.get u = some current ∧ (current = seen ∨ seen.row.version < current.row.version) ∧
      ∀ v fields τ' answer, callUpdateItem τ u v fields = some (τ', answer) →
        (∀ updated, answer = some updated → v = current.row.version ∧ current.row.deletedAt = none ∧
          τ'.committed.get u = some updated ∧
          updated.row = { current.row with version := current.row.version + 1 } ∧
          (v = seen.row.version → current = seen)) ∧
        (v ≠ current.row.version → answer = none) ∧ (answer = none → τ' = τ) := by
  have hinv : Inv σ := h.invariant (fun hi _ hs => (inv_step hi hs).1) (inv_empty rows)
  have hrel : Rel σ τ :=
    hrun.relates Rel.refl Rel.trans (fun hi _ hs => (inv_step hi hs).1)
      (fun hi _ hs => (inv_step hi hs).2) hinv
  obtain ⟨current, hcurrent, hgrew⟩ := hrel u seen hseen
  refine ⟨current, hcurrent, hgrew, ?_⟩
  intro v fields τ' answer hcall
  rw [callUpdateItem, hcurrent, Option.bind_some] at hcall
  split at hcall
  · cases hcall
    exact ⟨by simp, fun _ => rfl, fun _ => rfl⟩
  · rename_i updated hupdated
    obtain ⟨hv, hlive, hrow⟩ := updateItemMetadata_some hupdated
    split at hcall
    · cases hcall
      refine ⟨?_, fun hne => absurd hv hne, by simp⟩
      rintro _ ⟨⟩
      exact ⟨hv, hlive, OrderedMap.get_set_self _ _ _, hrow, fun hs => hgrew.unique (by omega)⟩
    · cases hcall

section Example

def noteItem (deleted : Bool) : ProjectedItem :=
  ⟨js ['n'], none, js ['a', '0'], .bullet, [], none, false, false, deleted⟩

def noteActions : List (ItemAction Bool Unit) :=
  [.upsert true () 1 none (noteItem false), .commit true, .updateItem () 1 ⟨some (js ['r', 'e', 'd']), none⟩]

def noteRecord (version : ℕ) (color : Option JsString) : ItemRecord Unit :=
  ⟨itemRow none (noteItem false) none version, color, js ['{', '}']⟩

theorem update_item_optimistic_note : ∃ σ τ : ItemTable Bool Unit,
    execute step ⟨.empty, .empty⟩ (noteActions.take 2) = some σ ∧
    execute step σ (noteActions.drop 2) = some τ ∧
    σ.committed.get () = some (noteRecord 1 none) ∧
    τ.committed.get () = some (noteRecord 2 (some (js ['r', 'e', 'd']))) ∧
    -- the caller that still has version 1 is refused
    ∀ fields τ' answer, callUpdateItem τ () 1 fields = some (τ', answer) → answer = none ∧ τ' = τ := by
  have hrun : ∃ σ τ : ItemTable Bool Unit, execute step ⟨.empty, .empty⟩ (noteActions.take 2) = some σ ∧
      execute step σ (noteActions.drop 2) = some τ ∧ σ.committed.get () = some (noteRecord 1 none) ∧
      τ.committed.get () = some (noteRecord 2 (some (js ['r', 'e', 'd']))) :=
    ⟨_, _, rfl, rfl, by decide, by decide⟩
  obtain ⟨σ, τ, hσ, hτ, hseen, hnow⟩ := hrun
  refine ⟨σ, τ, hσ, hτ, hseen, hnow, fun fields τ' answer hcall => ?_⟩
  obtain ⟨current, hcurrent, -, hcalls⟩ := update_item_optimistic (execute_runs hσ) (execute_runs hτ) hseen
  obtain rfl := Option.some.inj (hnow.symm.trans hcurrent)
  obtain ⟨-, hstale, hkeep⟩ := hcalls 1 fields τ' answer hcall
  exact ⟨hstale (by decide), hkeep (hstale (by decide))⟩

end Example

end ItemVersions

end OpenOutliner
