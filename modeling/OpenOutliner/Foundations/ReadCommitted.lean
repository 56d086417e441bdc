import OpenOutliner.Foundations.OrderedMap

/-!
A keyed table under READ COMMITTED. A statement sees the committed rows and what its own transaction
wrote; a row that a transaction wrote is locked until the transaction ends.
-/

namespace OpenOutliner.Foundations

/-- `pending` holds the uncommitted row versions, a deleted row as `none`. -/
structure Table (T K V : Type) where
  committed : OrderedMap K V
  pending : OrderedMap K (T × Option V)

namespace Table

variable {T K V : Type} [DecidableEq T] [DecidableEq K]

def applyWrite (rows : OrderedMap K V) (e : K × Option V) : OrderedMap K V :=
  match e.2 with
  | some v => rows.set e.1 v
  | none => rows.delete e.1

def writesOf (b : Table T K V) (t : T) : OrderedMap K (Option V) :=
  b.pending.filterMapEntries fun _ e => if e.1 = t then some e.2 else none

def view (b : Table T K V) (t : T) : OrderedMap K V := (b.writesOf t).entries.foldl applyWrite b.committed

/-- None while another transaction has the row locked. -/
def write (t : T) (b : Table T K V) (e : K × Option V) : Option (Table T K V) :=
  if (b.pending.get e.1).any fun p => decide (p.1 ≠ t) then none
  else some { b with pending := b.pending.set e.1 (t, e.2) }

def writeAll (b : Table T K V) (t : T) (es : List (K × Option V)) : Option (Table T K V) :=
  es.foldlM (write t) b

def update (b : Table T K V) (t : T) (k : K) (f : V → V) : Option (Table T K V) :=
  match (b.view t).get k with
  | none => some b
  | some v => b.write t (k, some (f v))

def release (b : Table T K V) (t : T) : Table T K V :=
  { b with pending := b.pending.filterMapEntries fun _ e => if e.1 = t then none else some e }

def commit (b : Table T K V) (t : T) : Table T K V := { b.release t with committed := b.view t }

variable {b b' : Table T K V} {s t : T} {k : K} {v : Option V} {es : List (K × Option V)}

theorem get_applyWrite (rows : OrderedMap K V) (e : K × Option V) (k : K) :
    (applyWrite rows e).get k = if k = e.1 then e.2 else rows.get k := by
  unfold applyWrite
  split
  · rename_i v hv
    rw [OrderedMap.get_set, hv]
  · rename_i hv
    rw [OrderedMap.get_delete, hv]

theorem get_foldl_applyWrite (rows : OrderedMap K V) (m : OrderedMap K (Option V)) (k : K) :
    (m.entries.foldl applyWrite rows).get k = (m.get k).getD (rows.get k) := by
  have hfold : ∀ (es : List (K × Option V)) (rows : OrderedMap K V), (es.map Prod.fst).Nodup →
      (es.foldl applyWrite rows).get k = ((es.find? fun e => e.1 = k).map Prod.snd).getD (rows.get k) := by
    intro es
    induction es with
    | nil => exact fun rows _ => rfl
    | cons e es ih =>
      intro rows hes
      obtain ⟨hk, hes⟩ := List.nodup_cons.mp hes
      rw [List.foldl_cons, ih _ hes, get_applyWrite]
      by_cases he : e.1 = k
      · have hnone : (es.find? fun e => e.1 = k) = none := by
          rw [List.find?_eq_none]
          intro e' he' heq
          apply hk
          rw [he, ← of_decide_eq_true heq]
          exact List.mem_map_of_mem he'
        rw [hnone, List.find?_cons_of_pos (by simpa using he), if_pos he.symm]
        rfl
      · rw [List.find?_cons_of_neg (by simpa using he), if_neg fun h => he h.symm]
  exact hfold m.entries rows m.nodup

theorem get_view (b : Table T K V) (t : T) (k : K) : (b.view t).get k =
    ((b.pending.get k).bind fun e => if e.1 = t then some e.2 else none).getD (b.committed.get k) := by
  rw [view, get_foldl_applyWrite, writesOf, OrderedMap.get_filterMapEntries]

theorem view_own (h : b.pending.get k = some (t, v)) : (b.view t).get k = v := by
  rw [get_view, h, Option.bind_some, if_pos rfl, Option.getD_some]

theorem view_other (h : ∀ v, b.pending.get k ≠ some (t, v)) : (b.view t).get k = b.committed.get k := by
  rw [get_view]
  cases hp : b.pending.get k with
  | none => rfl
  | some e =>
    have he : e.1 ≠ t := by
      rintro rfl
      exact h e.2 hp
    rw [Option.bind_some, if_neg he, Option.getD_none]

theorem release_pending : (b.release t).pending.get k = some (s, v) ↔
    b.pending.get k = some (s, v) ∧ s ≠ t := by
  rw [release, OrderedMap.get_filterMapEntries, Option.bind_eq_some_iff]
  constructor
  · rintro ⟨e, he, hcond⟩
    split at hcond
    · cases hcond
    · rename_i hne
      cases hcond
      exact ⟨he, hne⟩
  · rintro ⟨hp, hne⟩
    exact ⟨_, hp, if_neg hne⟩

structure Wrote (b : Table T K V) (t : T) (es : List (K × Option V)) (b' : Table T K V) : Prop where
  committed : b'.committed = b.committed
  written : ∀ k ∈ es.map Prod.fst, ∃ v, (k, v) ∈ es ∧ b'.pending.get k = some (t, v)
  free : ∀ k ∈ es.map Prod.fst, ∀ s v, b.pending.get k = some (s, v) → s = t
  kept : ∀ k ∉ es.map Prod.fst, b'.pending.get k = b.pending.get k

omit [DecidableEq T] in
theorem Wrote.nil (b : Table T K V) (t : T) : Wrote b t [] b := ⟨rfl, by simp, by simp, fun _ _ => rfl⟩

theorem write_wrote {e : K × Option V} (h : write t b e = some b') : Wrote b t [e] b' := by
  unfold write at h
  split at h
  · cases h
  · rename_i hfree
    cases h
    refine ⟨rfl, ?_, ?_, ?_⟩
    · intro k hk
      obtain rfl := List.mem_singleton.mp hk
      exact ⟨e.2, List.mem_singleton_self _, OrderedMap.get_set_self _ _ _⟩
    · intro k hk s v hp
      obtain rfl := List.mem_singleton.mp hk
      simpa [hp] using hfree
    · intro k hk
      exact OrderedMap.get_set_of_ne _ _ (by simpa using hk)

theorem writeAll_wrote (h : b.writeAll t es = some b') : Wrote b t es b' := by
  induction es generalizing b with
  | nil =>
    cases h
    exact Wrote.nil _ t
  | cons e es ih =>
    obtain ⟨mid, hmid, h⟩ := Option.bind_eq_some_iff.mp h
    have hfirst := write_wrote hmid
    have hrest := ih h
    refine ⟨hrest.committed.trans hfirst.committed, ?_, ?_, ?_⟩
    · intro k hk
      by_cases hkr : k ∈ es.map Prod.fst
      · obtain ⟨v, hv, hp⟩ := hrest.written k hkr
        exact ⟨v, List.mem_cons_of_mem _ hv, hp⟩
      · have hke : k ∈ [e].map Prod.fst := by
          simpa using (List.mem_cons.mp hk).resolve_right hkr
        obtain ⟨v, hv, hp⟩ := hfirst.written k hke
        exact ⟨v, List.mem_cons.mpr (Or.inl (List.mem_singleton.mp hv)), (hrest.kept k hkr).trans hp⟩
    · intro k hk s v hp
      by_cases hke : k ∈ [e].map Prod.fst
      · exact hfirst.free k hke s v hp
      · rw [← hfirst.kept k hke] at hp
        exact hrest.free k ((List.mem_cons.mp hk).resolve_left fun he => hke (by simp [he])) s v hp
    · intro k hk
      rw [List.map_cons, List.mem_cons, not_or] at hk
      rw [hrest.kept k hk.2, hfirst.kept k (by simpa using hk.1)]

theorem update_wrote {f : V → V} (h : b.update t k f = some b') :
    ∃ es : List (K × Option V), (∀ e ∈ es, e.1 = k) ∧ Wrote b t es b' := by
  unfold update at h
  split at h
  · cases h
    exact ⟨[], by simp, Wrote.nil b t⟩
  · exact ⟨_, by simp, write_wrote h⟩

namespace Wrote

variable (h : Wrote b t es b')

include h

omit [DecidableEq T] in
theorem pending_other (hs : s ≠ t) : b'.pending.get k = some (s, v) ↔ b.pending.get k = some (s, v) := by
  by_cases hk : k ∈ es.map Prod.fst
  · obtain ⟨w, -, hp⟩ := h.written k hk
    constructor
    · intro hs'
      rw [hp] at hs'
      cases hs'
      exact absurd rfl hs
    · exact fun hs' => absurd (h.free k hk s v hs') hs
  · rw [h.kept k hk]

omit [DecidableEq T] in
theorem pending_own (hp : b'.pending.get k = some (t, v)) : (k, v) ∈ es ∨ b.pending.get k = some (t, v) := by
  by_cases hk : k ∈ es.map Prod.fst
  · obtain ⟨w, hw, hp'⟩ := h.written k hk
    rw [hp] at hp'
    cases hp'
    exact Or.inl hw
  · exact Or.inr (h.kept k hk ▸ hp)

theorem view_written (hnd : (es.map Prod.fst).Nodup) (he : (k, v) ∈ es) : (b'.view t).get k = v := by
  obtain ⟨w, hw, hp⟩ := h.written k (List.mem_map_of_mem he)
  have heq := List.inj_on_of_nodup_map hnd he hw rfl
  rw [view_own hp, ← (Prod.mk.inj heq).2]

theorem view_kept (hk : k ∉ es.map Prod.fst) : (b'.view t).get k = (b.view t).get k := by
  rw [get_view, get_view, h.kept k hk, h.committed]

end Wrote

/-- What a transaction that has not ended leaves alone: committed rows and the other transactions' row
versions. -/
structure Leaves (t : T) (b b' : Table T K V) : Prop where
  committed : b'.committed = b.committed
  others : ∀ k s v, s ≠ t → (b'.pending.get k = some (s, v) ↔ b.pending.get k = some (s, v))

omit [DecidableEq T] in
theorem Leaves.refl (t : T) (b : Table T K V) : Leaves t b b := ⟨rfl, fun _ _ _ _ => Iff.rfl⟩

omit [DecidableEq T] in
theorem Wrote.leaves (h : Wrote b t es b') : Leaves t b b' :=
  ⟨h.committed, fun _ _ _ hs => h.pending_other hs⟩

theorem release_leaves (b : Table T K V) (t : T) : Leaves t b (b.release t) :=
  ⟨rfl, fun _ _ _ hs => release_pending.trans (and_iff_left hs)⟩

theorem commit_others (b : Table T K V) (t : T) (hs : s ≠ t) :
    (b.commit t).pending.get k = some (s, v) ↔ b.pending.get k = some (s, v) :=
  release_pending.trans (and_iff_left hs)

theorem Leaves.view (h : Leaves s b b') (hs : t ≠ s) : (b'.view t).get k = (b.view t).get k := by
  by_cases hp : ∃ v, b.pending.get k = some (t, v)
  · obtain ⟨v, hp⟩ := hp
    rw [view_own hp, view_own ((h.others k t v hs).mpr hp)]
  · rw [view_other fun v hv => hp ⟨v, hv⟩, view_other fun v hv => hp ⟨v, (h.others k t v hs).mp hv⟩,
      h.committed]

theorem view_commit (hs : t ≠ s) (hp : ∀ v, b.pending.get k ≠ some (s, v)) :
    ((b.commit s).view t).get k = (b.view t).get k ∧ (b.commit s).committed.get k = b.committed.get k := by
  refine ⟨?_, view_other hp⟩
  by_cases hown : ∃ v, b.pending.get k = some (t, v)
  · obtain ⟨v, hown⟩ := hown
    rw [view_own hown, view_own ((commit_others b s hs).mpr hown)]
  · rw [view_other fun v hv => hown ⟨v, hv⟩, view_other fun v hv => hown ⟨v, (commit_others b s hs).mp hv⟩]
    exact view_other hp

theorem release_own (b : Table T K V) (t : T) : (b.release t).pending.get k ≠ some (t, v) :=
  fun h => (release_pending.mp h).2 rfl

end Table

end OpenOutliner.Foundations
