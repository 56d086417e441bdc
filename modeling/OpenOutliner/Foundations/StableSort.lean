import Mathlib.Data.List.Sort

namespace OpenOutliner.Foundations

variable {α : Type} {r : α → α → Prop} [DecidableRel r] {p : α → Bool} {a : α} {l : List α}

theorem orderedInsert_of_forall (h : ∀ b ∈ l, r a b) : l.orderedInsert r a = a :: l := by
  cases l with
  | nil => rfl
  | cons b l => exact List.orderedInsert_cons_of_le r l (h b (List.mem_cons_self ..))

theorem filter_orderedInsert_neg (hp : p a = false) : (l.orderedInsert r a).filter p = l.filter p := by
  induction l with
  | nil => simp [hp]
  | cons b l ih =>
    by_cases hab : r a b
    · rw [List.orderedInsert_cons_of_le r l hab, List.filter_cons_of_neg (by simp [hp])]
    · rw [List.orderedInsert_of_not_le r l hab, List.filter_cons, List.filter_cons, ih]

theorem filter_orderedInsert_pos [IsTrans α r] (hp : p a = true) (hl : l.Pairwise r) :
    (l.orderedInsert r a).filter p = (l.filter p).orderedInsert r a := by
  induction l with
  | nil => simp [hp]
  | cons b l ih =>
    obtain ⟨hb, hl⟩ := List.pairwise_cons.mp hl
    by_cases hab : r a b
    · rw [List.orderedInsert_cons_of_le r l hab, List.filter_cons_of_pos hp, orderedInsert_of_forall]
      intro x hx
      rcases List.mem_cons.mp (List.mem_of_mem_filter hx) with rfl | hx
      · exact hab
      · exact IsTrans.trans _ _ _ hab (hb x hx)
    · rw [List.orderedInsert_of_not_le r l hab]
      cases hpb : p b with
      | true =>
        rw [List.filter_cons_of_pos hpb, List.filter_cons_of_pos hpb, ih hl,
          List.orderedInsert_of_not_le r _ hab]
      | false =>
        rw [List.filter_cons_of_neg (by simp [hpb]), List.filter_cons_of_neg (by simp [hpb]), ih hl]

theorem filter_insertionSort [IsTrans α r] [Std.Total r] (p : α → Bool) (l : List α) :
    (l.insertionSort r).filter p = (l.filter p).insertionSort r := by
  induction l with
  | nil => rfl
  | cons a l ih =>
    rw [List.insertionSort_cons]
    cases hp : p a with
    | true =>
      rw [filter_orderedInsert_pos hp (List.pairwise_insertionSort r l), ih, List.filter_cons_of_pos hp,
        List.insertionSort_cons]
    | false => rw [filter_orderedInsert_neg hp, ih, List.filter_cons_of_neg (by simp [hp])]

end OpenOutliner.Foundations
