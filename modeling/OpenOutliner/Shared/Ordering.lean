import OpenOutliner.Shared.Schema
import Mathlib.Data.List.Sort

namespace OpenOutliner

class Ordered (α : Type) where
  id : α → JsString
  rank : α → JsString

def compareRank (a b : JsString) : ℤ :=
  if a < b then -1 else if b < a then 1 else 0

variable {α β : Type} [Ordered α] [Ordered β]

def compareOrder (a b : α) : ℤ :=
  let r := compareRank (Ordered.rank a) (Ordered.rank b)
  if r ≠ 0 then r
  else if Ordered.id a < Ordered.id b then -1
  else if Ordered.id b < Ordered.id a then 1
  else 0

def sortSiblings (items : List α) : List α :=
  items.insertionSort fun a b => compareOrder a b ≤ 0

theorem compareRank_nonneg_iff (a b : JsString) : 0 ≤ compareRank a b ↔ b ≤ a := by
  unfold compareRank
  split_ifs with h1 h2
  · simp [h1]
  · simp [h2.le]
  · simp [not_lt.mp h1]

theorem compareOrder_le_iff (a b : α) : compareOrder a b ≤ 0 ↔
    Ordered.rank a < Ordered.rank b ∨
      Ordered.rank a = Ordered.rank b ∧ Ordered.id a ≤ Ordered.id b := by
  unfold compareOrder compareRank
  rcases lt_trichotomy (Ordered.rank a) (Ordered.rank b) with h | h | h
  · simp [h]
  · rcases lt_trichotomy (Ordered.id a) (Ordered.id b) with hi | hi | hi
    · simp [h, hi, hi.le]
    · simp [h, hi]
    · simp [h, hi, hi.not_gt, hi.not_ge]
  · simp [h, h.not_gt, h.ne']

theorem compareOrder_total (a b : α) : compareOrder a b ≤ 0 ∨ compareOrder b a ≤ 0 := by
  rw [compareOrder_le_iff, compareOrder_le_iff]
  rcases lt_trichotomy (Ordered.rank a) (Ordered.rank b) with h | h | h
  · exact Or.inl (Or.inl h)
  · rcases le_total (Ordered.id a) (Ordered.id b) with hi | hi
    · exact Or.inl (Or.inr ⟨h, hi⟩)
    · exact Or.inr (Or.inr ⟨h.symm, hi⟩)
  · exact Or.inr (Or.inl h)

theorem compareOrder_trans {a b c : α} (hab : compareOrder a b ≤ 0) (hbc : compareOrder b c ≤ 0) :
    compareOrder a c ≤ 0 := by
  rw [compareOrder_le_iff] at hab hbc ⊢
  rcases hab with hab | ⟨hab, hab'⟩
  · rcases hbc with hbc | ⟨hbc, -⟩
    · exact Or.inl (hab.trans hbc)
    · exact Or.inl (hbc ▸ hab)
  · rcases hbc with hbc | ⟨hbc, hbc'⟩
    · exact Or.inl (hab ▸ hbc)
    · exact Or.inr ⟨hab.trans hbc, hab'.trans hbc'⟩

theorem compareOrder_antisymm {a b : α} (hab : compareOrder a b ≤ 0) (hba : compareOrder b a ≤ 0) :
    Ordered.id a = Ordered.id b := by
  rw [compareOrder_le_iff] at hab hba
  rcases hab with hab | ⟨hr, hab⟩
  · rcases hba with hba | ⟨hba, -⟩
    · exact absurd hba hab.not_gt
    · exact absurd hba hab.ne'
  · rcases hba with hba | ⟨-, hba⟩
    · exact absurd hr hba.ne'
    · exact le_antisymm hab hba

theorem compareOrder_rank_le {a b : α} (h : compareOrder a b ≤ 0) :
    Ordered.rank a ≤ Ordered.rank b := by
  rcases (compareOrder_le_iff a b).mp h with h | h
  · exact h.le
  · exact h.1.le

theorem sortSiblings_perm (items : List α) : (sortSiblings items).Perm items :=
  List.perm_insertionSort _ items

@[simp] theorem mem_sortSiblings {items : List α} {x : α} : x ∈ sortSiblings items ↔ x ∈ items :=
  (sortSiblings_perm items).mem_iff

theorem sortSiblings_pairwise (items : List α) :
    (sortSiblings items).Pairwise fun a b => compareOrder a b ≤ 0 := by
  have : Std.Total (fun a b : α => compareOrder a b ≤ 0) := ⟨compareOrder_total⟩
  have : IsTrans α (fun a b : α => compareOrder a b ≤ 0) := ⟨fun _ _ _ => compareOrder_trans⟩
  exact List.pairwise_insertionSort _ items

theorem sortSiblings_map (f : α → β) (hid : ∀ a, Ordered.id (f a) = Ordered.id a)
    (hrank : ∀ a, Ordered.rank (f a) = Ordered.rank a) (items : List α) :
    sortSiblings (items.map f) = (sortSiblings items).map f := by
  refine (List.map_insertionSort _ _ f items ?_).symm
  intro a _ b _
  rw [compareOrder_le_iff, compareOrder_le_iff, hid, hid, hrank, hrank]

/-- With distinct ids the read order does not depend on how the siblings were enumerated. -/
theorem sortSiblings_eq_of_perm {items items' : List α} (h : items.Perm items')
    (hid : (items.map Ordered.id).Nodup) : sortSiblings items = sortSiblings items' := by
  apply List.Perm.eq_of_pairwise _ (sortSiblings_pairwise items) (sortSiblings_pairwise items')
  · exact ((sortSiblings_perm items).trans h).trans (sortSiblings_perm items').symm
  · intro a b ha hb hab hba
    rw [mem_sortSiblings] at ha hb
    exact List.inj_on_of_nodup_map hid ha (h.mem_iff.mpr hb) (compareOrder_antisymm hab hba)

end OpenOutliner
