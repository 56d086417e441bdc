import OpenOutliner.Crdt.TextEdits

namespace OpenOutliner

open Foundations

namespace RowText

def applyTextEdit (prev next : JsString) : JsString :=
  if prev = next then prev
  else
    let span := editSpan prev next
    let deleted := if span.start < span.endPrev
        then deleteText prev span.start (span.endPrev - span.start) else prev
    if span.start < span.endNext then
      insertText deleted span.start ((next.drop span.start).take (span.endNext - span.start))
    else deleted

def Removes (prev next : JsString) (i : ℕ) : Prop :=
  (editSpan prev next).start ≤ i ∧ i < (editSpan prev next).endPrev

end RowText

inductive CodePoint
  | basic (c : CodeUnit) (plain : isHighSurrogate c = false ∧ isLowSurrogate c = false)
  | astral (high low : CodeUnit) (leads : isHighSurrogate high = true) (trails : isLowSurrogate low = true)
deriving DecidableEq

def CodePoint.units : CodePoint → JsString
  | basic c _ => [c]
  | astral high low _ _ => [high, low]

def utf16 (cs : List CodePoint) : JsString := cs.flatMap CodePoint.units

def CodePoint.SharesHigh (a b : CodePoint) : Prop :=
  ∃ c ∈ a.units.head?, isHighSurrogate c = true ∧ c ∈ b.units.head?

def CodePoint.SharesLow (a b : CodePoint) : Prop :=
  ∃ c ∈ a.units.getLast?, isLowSurrogate c = true ∧ c ∈ b.units.getLast?

/-- `p` is the longest common beginning, and `q` the longest common end of what is left. -/
structure Differ (prev next p s t q : List CodePoint) : Prop where
  prev : prev = p ++ s ++ q
  next : next = p ++ t ++ q
  first : ∀ a ∈ (s ++ q).head?, a ∉ (t ++ q).head?
  last : ∀ a ∈ s.getLast?, a ∉ t.getLast?

def SharesFirst (s t : List CodePoint) : Prop := ∃ a ∈ s.head?, ∃ b ∈ t.head?, a.SharesHigh b

def SharesLast (s t : List CodePoint) : Prop := ∃ a ∈ s.getLast?, ∃ b ∈ t.getLast?, a.SharesLow b

/-- The edit reaches its target, and leaves the common beginning and end alone. -/
structure ReachesTarget (prev next p s q : List CodePoint) : Prop where
  reached : RowText.applyTextEdit (utf16 prev) (utf16 next) = utf16 next
  beginning : ∀ i < (utf16 p).length, ¬ RowText.Removes (utf16 prev) (utf16 next) i
  ending : ∀ i < (utf16 q).length, ¬ RowText.Removes (utf16 prev) (utf16 next) ((utf16 (p ++ s)).length + i)

section Units

variable {a b : CodePoint} {p s t q : List CodePoint} {x y u v : JsString} {i : ℕ}

theorem commonPrefix_append (u x y : JsString) :
    commonPrefix (u ++ x) (u ++ y) = u.length + commonPrefix x y := by
  induction u with
  | nil => simp
  | cons c u ih =>
    rw [List.cons_append, List.cons_append, commonPrefix, if_pos rfl, ih, List.length_cons]
    omega

theorem commonPrefix_apart (h : ∀ c ∈ x.head?, c ∉ y.head?) : commonPrefix x y = 0 := by
  cases x with
  | nil => simp [commonPrefix]
  | cons c x =>
    cases y with
    | nil => simp [commonPrefix]
    | cons d y =>
      rw [commonPrefix, if_neg]
      rintro rfl
      exact h c rfl rfl

theorem high_not_low {c : CodeUnit} (h : isHighSurrogate c = true) : isLowSurrogate c = false := by
  simp only [isHighSurrogate, isLowSurrogate, Bool.and_eq_true, decide_eq_true_eq, Bool.and_eq_false_iff,
    decide_eq_false_iff_not] at h ⊢
  omega

theorem replacement_not_high : isHighSurrogate replacement = false := by decide

theorem replacement_not_low : isLowSurrogate replacement = false := by decide

@[simp] theorem utf16_nil : utf16 [] = [] := rfl

@[simp] theorem utf16_append (s t : List CodePoint) : utf16 (s ++ t) = utf16 s ++ utf16 t := by
  unfold utf16
  rw [List.flatMap_append]

@[simp] theorem utf16_cons (a : CodePoint) (s : List CodePoint) : utf16 (a :: s) = a.units ++ utf16 s := rfl

theorem commonPrefix_first (hne : a ≠ b) (x y : JsString) :
    a.SharesHigh b ∧ commonPrefix (a.units ++ x) (b.units ++ y) = 1 ∨
    ¬ a.SharesHigh b ∧ commonPrefix (a.units ++ x) (b.units ++ y) = 0 := by
  unfold CodePoint.SharesHigh
  cases a with
  | basic c hc =>
    refine Or.inr ⟨?_, ?_⟩
    · simp [CodePoint.units, hc.1]
    · apply commonPrefix_apart
      cases b with
      | basic d hd =>
        simp only [CodePoint.units, List.cons_append, List.head?_cons, Option.mem_def,
          Option.some.injEq, forall_eq']
        rintro rfl
        exact hne rfl
      | astral high low hh hl =>
        simp only [CodePoint.units, List.cons_append, List.head?_cons, Option.mem_def,
          Option.some.injEq, forall_eq']
        rintro rfl
        rw [hc.1] at hh
        cases hh
  | astral high low hh hl =>
    cases b with
    | basic d hd =>
      refine Or.inr ⟨?_, ?_⟩
      · simp only [CodePoint.units, List.head?_cons, Option.mem_def, Option.some.injEq,
          exists_eq_left', not_and]
        rintro - rfl
        rw [hd.1] at hh
        cases hh
      · apply commonPrefix_apart
        simp only [CodePoint.units, List.cons_append, List.head?_cons, Option.mem_def,
          Option.some.injEq, forall_eq']
        rintro rfl
        rw [hd.1] at hh
        cases hh
    | astral high' low' hh' hl' =>
      by_cases hsame : high = high'
      · subst hsame
        refine Or.inl ⟨by simp [CodePoint.units, hh], ?_⟩
        have hlow : low ≠ low' := by
          rintro rfl
          exact hne rfl
        simp [CodePoint.units, commonPrefix, hlow]
      · refine Or.inr ⟨?_, by simp [CodePoint.units, commonPrefix, hsame]⟩
        rintro ⟨c, hc, -, hc'⟩
        exact hsame ((Option.some.inj hc).trans (Option.some.inj hc').symm)

theorem commonPrefix_last (hne : a ≠ b) (x y : JsString) :
    a.SharesLow b ∧ commonPrefix (a.units.reverse ++ x) (b.units.reverse ++ y) = 1 ∨
      ¬ a.SharesLow b ∧ commonPrefix (a.units.reverse ++ x) (b.units.reverse ++ y) = 0 := by
  unfold CodePoint.SharesLow
  cases a with
  | basic c hc =>
    refine Or.inr ⟨?_, ?_⟩
    · simp [CodePoint.units, hc.2]
    · apply commonPrefix_apart
      cases b with
      | basic d hd =>
        simp only [CodePoint.units, List.reverse_singleton, List.cons_append, List.head?_cons, Option.mem_def,
          Option.some.injEq, forall_eq']
        rintro rfl
        exact hne rfl
      | astral high low hh hl =>
        simp only [CodePoint.units, List.reverse_cons, List.reverse_nil, List.nil_append, List.cons_append,
          List.head?_cons,
          Option.mem_def, Option.some.injEq, forall_eq']
        rintro rfl
        rw [hc.2] at hl
        cases hl
  | astral high low hh hl =>
    cases b with
    | basic d hd =>
      refine Or.inr ⟨?_, ?_⟩
      · simp only [CodePoint.units, List.getLast?_cons_cons, List.getLast?_singleton, Option.mem_def,
          Option.some.injEq,
          exists_eq_left', not_and]
        rintro - rfl
        rw [hd.2] at hl
        cases hl
      · apply commonPrefix_apart
        simp only [CodePoint.units, List.reverse_cons, List.reverse_nil, List.nil_append, List.cons_append,
          List.head?_cons,
          Option.mem_def, Option.some.injEq, forall_eq']
        rintro rfl
        rw [hd.2] at hl
        cases hl
    | astral high' low' hh' hl' =>
      by_cases hsame : low = low'
      · subst hsame
        refine Or.inl ⟨by simp [CodePoint.units, hl], ?_⟩
        have hhigh : high ≠ high' := by
          rintro rfl
          exact hne rfl
        simp [CodePoint.units, commonPrefix, hhigh]
      · refine Or.inr ⟨?_, by simp [CodePoint.units, commonPrefix, hsame]⟩
        rintro ⟨c, hc, -, hc'⟩
        exact hsame ((Option.some.inj hc).trans (Option.some.inj hc').symm)

theorem CodePoint.SharesHigh.units (h : a.SharesHigh b) (hne : a ≠ b) :
    ∃ high low low', a.units = [high, low] ∧
    b.units = [high, low'] ∧ low ≠ low' ∧ isHighSurrogate high = true ∧ isLowSurrogate low = true := by
  obtain ⟨c, hca, hc, hcb⟩ := h
  cases a with
  | basic d hd =>
    obtain rfl := Option.some.inj hca
    rw [hd.1] at hc
    cases hc
  | astral high low hh hl =>
    obtain rfl := Option.some.inj hca
    cases b with
    | basic d hd =>
      obtain rfl := Option.some.inj hcb
      rw [hd.1] at hc
      cases hc
    | astral high' low' hh' hl' =>
      obtain rfl := Option.some.inj hcb
      refine ⟨high', low, low', rfl, rfl, ?_, hc, hl⟩
      rintro rfl
      exact hne rfl

theorem CodePoint.SharesLow.units (h : a.SharesLow b) (hne : a ≠ b) :
    ∃ high high' low, a.units = [high, low] ∧
    b.units = [high', low] ∧ high ≠ high' ∧ isHighSurrogate high = true ∧ isLowSurrogate low = true := by
  obtain ⟨c, hca, hc, hcb⟩ := h
  cases a with
  | basic d hd =>
    obtain rfl : d = c := Option.some.inj hca
    rw [hd.2] at hc
    cases hc
  | astral high low hh hl =>
    obtain rfl : low = c := Option.some.inj hca
    cases b with
    | basic d hd =>
      obtain rfl : d = low := Option.some.inj hcb
      rw [hd.2] at hc
      cases hc
    | astral high' low' hh' hl' =>
      obtain rfl : low' = low := Option.some.inj hcb
      refine ⟨high, high', low', rfl, rfl, ?_, hh, hc⟩
      rintro rfl
      exact hne rfl

theorem utf16_last_not_high {c : CodeUnit} (h : c ∈ (utf16 s).getLast?) : isHighSurrogate c = false := by
  induction s using List.reverseRecOn with
  | nil => cases h
  | append_singleton s a _ =>
    rw [utf16_append, utf16_cons, utf16_nil, List.append_nil] at h
    cases a with
    | basic d hd =>
      simp only [CodePoint.units, List.getLast?_concat, Option.mem_def, Option.some.injEq] at h
      rw [← h]
      exact hd.1
    | astral high low hh hl =>
      simp only [CodePoint.units, List.getLast?_append_cons, List.getLast?_cons_cons,
        List.getLast?_singleton, Option.mem_def,
        Option.some.injEq] at h
      rw [← h]
      by_contra hhigh
      rw [high_not_low (by simpa using hhigh)] at hl
      cases hl

end Units

section Pairs

variable {x y u : JsString} {i : ℕ}

theorem splitText_whole (h : cutsPair x i = false) : splitText x i = (x.take i, x.drop i) := by
  unfold cutsPair at h
  unfold splitText
  split
  · rename_i high low hhigh hlow
    rw [hhigh, hlow] at h
    dsimp only at h
    rw [h]
    rfl
  · rfl

theorem splitText_cut (h : cutsPair x i = true) :
    splitText x i = ((x.take i).dropLast ++ [replacement], replacement :: (x.drop i).tail) := by
  unfold cutsPair at h
  unfold splitText
  split
  · rename_i high low hhigh hlow
    rw [hhigh, hlow] at h
    dsimp only at h
    rw [h]
    rfl
  · rename_i hno
    split at h
    · rename_i high low hhigh hlow
      exact absurd hlow (hno high low hhigh)
    · cases h

theorem cutsPair_after (h : ∀ c ∈ u.getLast?, isHighSurrogate c = false) (x : JsString) :
    cutsPair (u ++ x) u.length = false := by
  unfold cutsPair
  rw [List.take_left', List.drop_left']
  · split
    · rename_i high low hhigh _
      rw [h high hhigh]
      rfl
    · rfl
  · rfl
  · rfl

theorem splitText_after (h : ∀ c ∈ u.getLast?, isHighSurrogate c = false) (x : JsString) :
    splitText (u ++ x) u.length = (u, x) := by
  rw [splitText_whole (cutsPair_after h x), List.take_left', List.drop_left']
  · rfl
  · rfl

theorem splitText_inside {high low : CodeUnit} (hh : isHighSurrogate high = true)
    (hl : isLowSurrogate low = true) (u x : JsString) : splitText (u ++ [high, low] ++ x) (u.length + 1) =
    (u ++ [replacement], replacement :: x) := by
  have htake : (u ++ [high, low] ++ x).take (u.length + 1) = u ++ [high] := by
    rw [List.append_assoc, List.take_append, List.take_of_length_le (Nat.le_succ _), Nat.add_sub_cancel_left]
    rfl
  have hdrop : (u ++ [high, low] ++ x).drop (u.length + 1) = low :: x := by
    rw [List.append_assoc, List.drop_append, List.drop_eq_nil_of_le (Nat.le_succ _), Nat.add_sub_cancel_left]
    rfl
  have hcut : cutsPair (u ++ [high, low] ++ x) (u.length + 1) = true := by
    unfold cutsPair
    rw [htake, hdrop, List.getLast?_concat, List.head?_cons]
    dsimp only
    rw [hh, hl]
    rfl
  rw [splitText_cut hcut, htake, hdrop, List.dropLast_concat, List.tail_cons]

end Pairs

section Spans

variable {prev next p s t q xs ys : List CodePoint}

theorem commonPrefix_heads (hne : ∀ a ∈ xs.head?, a ∉ ys.head?) :
    SharesFirst xs ys ∧ commonPrefix (utf16 xs) (utf16 ys) = 1 ∨
    ¬ SharesFirst xs ys ∧ commonPrefix (utf16 xs) (utf16 ys) = 0 := by
  cases xs with
  | nil => exact Or.inr ⟨by simp [SharesFirst], by simp [commonPrefix]⟩
  | cons a xs =>
    cases ys with
    | nil => exact Or.inr ⟨by simp [SharesFirst], by simp [commonPrefix]⟩
    | cons b ys =>
      have hab : a ≠ b := by
        rintro rfl
        exact hne a rfl rfl
      simpa [SharesFirst] using commonPrefix_first hab (utf16 xs) (utf16 ys)

theorem commonPrefix_lasts (hne : ∀ a ∈ s.getLast?, a ∉ t.getLast?) :
    SharesLast s t ∧ commonPrefix (utf16 s).reverse (utf16 t).reverse = 1 ∨
      ¬ SharesLast s t ∧ commonPrefix (utf16 s).reverse (utf16 t).reverse = 0 := by
  cases s using List.reverseRecOn with
  | nil => exact Or.inr ⟨by simp [SharesLast], by simp [commonPrefix]⟩
  | append_singleton s a =>
    cases t using List.reverseRecOn with
    | nil => exact Or.inr ⟨by simp [SharesLast], by simp [commonPrefix]⟩
    | append_singleton t b =>
      have hab : a ≠ b := by
        rintro rfl
        exact hne a (by simp) (by simp)
      simpa [SharesLast] using commonPrefix_last hab (utf16 s).reverse (utf16 t).reverse

variable (h : Differ prev next p s t q)

include h

theorem Differ.start : SharesFirst (s ++ q) (t ++ q) ∧
    (editSpan (utf16 prev) (utf16 next)).start = (utf16 p).length + 1 ∨
    ¬ SharesFirst (s ++ q) (t ++ q) ∧ (editSpan (utf16 prev) (utf16 next)).start = (utf16 p).length := by
  have hstart : (editSpan (utf16 prev) (utf16 next)).start =
      (utf16 p).length + commonPrefix (utf16 (s ++ q)) (utf16 (t ++ q)) := by
    unfold editSpan
    dsimp only
    rw [h.prev, h.next, List.append_assoc, List.append_assoc, utf16_append, utf16_append p,
      commonPrefix_append]
  rw [hstart]
  rcases commonPrefix_heads h.first with ⟨hshare, hlen⟩ | ⟨hno, hlen⟩
  · exact Or.inl ⟨hshare, by rw [hlen]⟩
  · exact Or.inr ⟨hno, by rw [hlen, Nat.add_zero]⟩

theorem Differ.ends (hstart : (editSpan (utf16 prev) (utf16 next)).start = (utf16 p).length) :
    ∃ c, (SharesLast s t ∧ c = 1 ∨ ¬ SharesLast s t ∧ c = 0) ∧
      (editSpan (utf16 prev) (utf16 next)).endPrev = (utf16 p).length + (utf16 s).length - c ∧
      (editSpan (utf16 prev) (utf16 next)).endNext = (utf16 p).length + (utf16 t).length - c := by
  refine ⟨commonPrefix (utf16 s).reverse (utf16 t).reverse, commonPrefix_lasts h.last, ?_⟩
  have hprev : (utf16 prev).drop (utf16 p).length = utf16 s ++ utf16 q := by
    rw [h.prev, List.append_assoc, utf16_append, List.drop_left', utf16_append]
    rfl
  have hnext : (utf16 next).drop (utf16 p).length = utf16 t ++ utf16 q := by
    rw [h.next, List.append_assoc, utf16_append, List.drop_left', utf16_append]
    rfl
  have hsame : commonPrefix ((utf16 prev).drop (utf16 p).length).reverse
      ((utf16 next).drop (utf16 p).length).reverse =
      (utf16 q).length + commonPrefix (utf16 s).reverse (utf16 t).reverse := by
    rw [hprev, hnext, List.reverse_append, List.reverse_append, commonPrefix_append, List.length_reverse]
  have hlen : (utf16 prev).length = (utf16 p).length + (utf16 s).length + (utf16 q).length := by
    rw [h.prev, utf16_append, utf16_append, List.length_append, List.length_append]
  have hlen' : (utf16 next).length = (utf16 p).length + (utf16 t).length + (utf16 q).length := by
    rw [h.next, utf16_append, utf16_append, List.length_append, List.length_append]
  unfold editSpan at hstart ⊢
  dsimp only at hstart ⊢
  rw [hstart, hsame, hlen, hlen']
  omega

end Spans

section Edits

theorem applyTextEdit_inside {prev next u x : JsString} {high low : CodeUnit}
    (hh : isHighSurrogate high = true) (hl : isLowSurrogate low = true)
    (hprev : prev = u ++ [high, low] ++ x) (hstart : (editSpan prev next).start = u.length + 1)
    (hne : prev ≠ next) : ∃ r, RowText.applyTextEdit prev next = u ++ [replacement] ++ r := by
  have hspan := editSpan_le prev next
  have hsplit : splitText prev (editSpan prev next).start = (u ++ [replacement], replacement :: x) := by
    rw [hstart, hprev, splitText_inside hh hl]
  have hafter : ∀ r, splitText (u ++ [replacement] ++ r) (editSpan prev next).start =
      (u ++ [replacement], r) := by
    intro r
    have hlen : (editSpan prev next).start = (u ++ [replacement]).length := by
      rw [hstart, List.length_append]
      rfl
    rw [hlen]
    apply splitText_after
    intro c hc
    rw [List.getLast?_concat] at hc
    obtain rfl := Option.some.inj hc
    exact replacement_not_high
  unfold RowText.applyTextEdit
  rw [if_neg hne]
  dsimp only
  by_cases hdel : (editSpan prev next).start < (editSpan prev next).endPrev
  · rw [if_pos hdel]
    unfold deleteText
    rw [hsplit]
    split_ifs with hins
    · unfold insertText
      rw [hafter]
      exact ⟨_, List.append_assoc _ _ _⟩
    · exact ⟨_, rfl⟩
  · rw [if_neg hdel]
    split_ifs with hins
    · unfold insertText
      rw [hsplit]
      exact ⟨_, List.append_assoc _ _ _⟩
    · -- nothing is deleted and nothing inserted
      exfalso
      apply hne
      have hnext := editSpan_next prev next
      rw [show (editSpan prev next).endNext - (editSpan prev next).start = 0 by omega,
        show (editSpan prev next).endPrev = (editSpan prev next).start by omega,
        List.take_zero, List.append_nil, List.take_append_drop] at hnext
      exact hnext

variable {prev next p s t q : List CodePoint} (h : Differ prev next p s t q)

include h

theorem Differ.missed_first (hshare : SharesFirst (s ++ q) (t ++ q)) :
    RowText.applyTextEdit (utf16 prev) (utf16 next) ≠ utf16 next := by
  obtain ⟨-, hstart⟩ := h.start.resolve_right fun hno => hno.1 hshare
  obtain ⟨a, ha, b, hb, hab⟩ := hshare
  have hne : a ≠ b := by
    rintro rfl
    exact h.first a ha hb
  obtain ⟨high, low, low', hua, hub, hlow, hh, hl⟩ := hab.units hne
  obtain ⟨xs, hxs⟩ := List.head?_eq_some_iff.mp ha
  obtain ⟨ys, hys⟩ := List.head?_eq_some_iff.mp hb
  have hprev : utf16 prev = utf16 p ++ [high, low] ++ utf16 xs := by
    rw [h.prev, List.append_assoc, hxs, utf16_append, utf16_cons, hua, List.append_assoc]
  have hnext : utf16 next = utf16 p ++ [high, low'] ++ utf16 ys := by
    rw [h.next, List.append_assoc, hys, utf16_append, utf16_cons, hub, List.append_assoc]
  have hchanged : utf16 prev ≠ utf16 next := by
    intro heq
    rw [hprev, hnext, List.append_assoc, List.append_assoc] at heq
    have hcons : high :: low :: utf16 xs = high :: low' :: utf16 ys := List.append_cancel_left heq
    exact hlow (List.cons_eq_cons.mp (List.cons_eq_cons.mp hcons).2).1
  obtain ⟨r, hr⟩ := applyTextEdit_inside hh hl hprev hstart hchanged
  rw [hr, hnext, List.append_assoc, List.append_assoc]
  intro heq
  have hcons : replacement :: r = high :: low' :: utf16 ys := List.append_cancel_left heq
  rw [← (List.cons_eq_cons.mp hcons).1, replacement_not_high] at hh
  cases hh

theorem Differ.applied (hstart : (editSpan (utf16 prev) (utf16 next)).start = (utf16 p).length)
    (hne : utf16 prev ≠ utf16 next) {n m : ℕ}
    (hn : (editSpan (utf16 prev) (utf16 next)).endPrev = (utf16 p).length + n)
    (hm : (editSpan (utf16 prev) (utf16 next)).endNext = (utf16 p).length + m) :
    RowText.applyTextEdit (utf16 prev) (utf16 next) = utf16 p ++ (utf16 t ++ utf16 q).take m ++
      if n = 0 then utf16 s ++ utf16 q else (splitText (utf16 s ++ utf16 q) n).2 := by
  have hsplit : ∀ x, splitText (utf16 p ++ x) (utf16 p).length = (utf16 p, x) :=
    splitText_after fun c hc => utf16_last_not_high hc
  have hprev : utf16 prev = utf16 p ++ (utf16 s ++ utf16 q) := by
    rw [h.prev, List.append_assoc, utf16_append, utf16_append]
  have hnext : (utf16 next).drop (utf16 p).length = utf16 t ++ utf16 q := by
    rw [h.next, List.append_assoc, utf16_append, List.drop_left', utf16_append]
    rfl
  have hdeleted : (if 0 < n then deleteText (utf16 prev) (utf16 p).length n else utf16 prev) =
      utf16 p ++ if n = 0 then utf16 s ++ utf16 q else (splitText (utf16 s ++ utf16 q) n).2 := by
    by_cases hzero : n = 0
    · rw [if_neg (by omega), if_pos hzero, hprev]
    · rw [if_pos (by omega), if_neg hzero, hprev]
      unfold deleteText
      rw [hsplit]
  unfold RowText.applyTextEdit
  rw [if_neg hne]
  dsimp only
  rw [hstart, hn, hm, hnext, Nat.add_sub_cancel_left, Nat.add_sub_cancel_left]
  simp only [Nat.lt_add_right_iff_pos]
  rw [hdeleted]
  by_cases hzero : m = 0
  · rw [if_neg (by omega), hzero, List.take_zero, List.append_nil]
  · rw [if_pos (by omega)]
    unfold insertText
    rw [hsplit]

theorem Differ.missed_last (hfirst : ¬ SharesFirst (s ++ q) (t ++ q)) (hshare : SharesLast s t) :
    RowText.applyTextEdit (utf16 prev) (utf16 next) ≠ utf16 next := by
  obtain ⟨-, hstart⟩ := h.start.resolve_left fun hno => hfirst hno.1
  obtain ⟨c, hc, hn, hm⟩ := h.ends hstart
  obtain ⟨-, rfl⟩ := hc.resolve_right fun hno => hno.1 hshare
  obtain ⟨a, ha, b, hb, hab⟩ := hshare
  have hne : a ≠ b := by
    rintro rfl
    exact h.last a ha hb
  obtain ⟨high, high', low, hua, hub, hhigh, hh, hl⟩ := hab.units hne
  obtain ⟨xs, rfl⟩ := List.getLast?_eq_some_iff.mp ha
  obtain ⟨ys, rfl⟩ := List.getLast?_eq_some_iff.mp hb
  have hs : utf16 (xs ++ [a]) = utf16 xs ++ [high, low] := by
    rw [utf16_append, utf16_cons, utf16_nil, List.append_nil, hua]
  have ht : utf16 (ys ++ [b]) = utf16 ys ++ [high', low] := by
    rw [utf16_append, utf16_cons, utf16_nil, List.append_nil, hub]
  have hnext : utf16 next = utf16 p ++ utf16 ys ++ [high'] ++ [low] ++ utf16 q := by
    rw [h.next, utf16_append, utf16_append, ht]
    simp
  have hprev : utf16 prev = utf16 p ++ utf16 xs ++ [high] ++ [low] ++ utf16 q := by
    rw [h.prev, utf16_append, utf16_append, hs]
    simp
  have hchanged : utf16 prev ≠ utf16 next := by
    intro heq
    rw [hprev, hnext] at heq
    obtain ⟨-, hunit⟩ := List.append_inj' (List.append_cancel_right (List.append_cancel_right heq)) rfl
    exact hhigh (List.singleton_inj.mp hunit)
  rw [hs, List.length_append] at hn
  rw [ht, List.length_append] at hm
  have hrun := h.applied hstart hchanged (n := (utf16 xs).length + 1) (m := (utf16 ys).length + 1)
    (by rw [hn]; simp only [List.length_cons, List.length_nil]; omega)
    (by rw [hm]; simp only [List.length_cons, List.length_nil]; omega)
  rw [if_neg (Nat.succ_ne_zero _), hs, splitText_inside hh hl] at hrun
  have hmarked : ∀ u : JsString, u ++ replacement :: utf16 q = u ++ [replacement] ++ utf16 q :=
    fun u => by simp
  rw [hrun, hnext, hmarked]
  intro heq
  obtain ⟨-, hunit⟩ := List.append_inj' (List.append_cancel_right heq) rfl
  have hlow : low = replacement := (List.singleton_inj.mp hunit).symm
  rw [hlow, replacement_not_low] at hl
  cases hl

theorem Differ.reaches (hfirst : ¬ SharesFirst (s ++ q) (t ++ q)) (hlast : ¬ SharesLast s t) :
    ReachesTarget prev next p s q := by
  obtain ⟨-, hstart⟩ := h.start.resolve_left fun hno => hfirst hno.1
  obtain ⟨c, hc, hn, hm⟩ := h.ends hstart
  obtain ⟨-, rfl⟩ := hc.resolve_left fun hno => hlast hno.1
  rw [Nat.sub_zero] at hn hm
  have hwhole : ∀ x, splitText (utf16 s ++ x) (utf16 s).length = (utf16 s, x) :=
    splitText_after fun c hc => utf16_last_not_high hc
  constructor
  case reached =>
    by_cases hne : utf16 prev = utf16 next
    · unfold RowText.applyTextEdit
      rw [if_pos hne, hne]
    · rw [h.applied hstart hne hn hm, hwhole, List.take_left', h.next, utf16_append, utf16_append]
      · by_cases hs : (utf16 s).length = 0
        · rw [if_pos hs, List.length_eq_zero_iff.mp hs, List.nil_append]
        · rw [if_neg hs]
      · rfl
  case beginning =>
    intro i hi hremoved
    have hle := hremoved.1
    omega
  case ending =>
    intro i _ hremoved
    have hlt := hremoved.2
    rw [hn, utf16_append, List.length_append] at hlt
    omega

end Edits

theorem exists_commonStart {α : Type} [DecidableEq α] (xs ys : List α) :
    ∃ p s t, xs = p ++ s ∧ ys = p ++ t ∧ ∀ a ∈ s.head?, a ∉ t.head? := by
  induction xs generalizing ys with
  | nil => exact ⟨[], [], ys, rfl, rfl, by simp⟩
  | cons x xs ih =>
    cases ys with
    | nil => exact ⟨[], x :: xs, [], rfl, rfl, by simp⟩
    | cons y ys =>
      by_cases hxy : x = y
      · subst hxy
        obtain ⟨p, s, t, rfl, rfl, hne⟩ := ih ys
        exact ⟨x :: p, s, t, rfl, rfl, hne⟩
      · exact ⟨[], x :: xs, y :: ys, rfl, rfl, by simp [Ne.symm hxy]⟩

theorem exists_differ (prev next : List CodePoint) : ∃ p s t q, Differ prev next p s t q := by
  obtain ⟨p, s, t, rfl, rfl, hfirst⟩ := exists_commonStart prev next
  obtain ⟨q, s', t', hs, ht, hlast⟩ := exists_commonStart s.reverse t.reverse
  have hs' : s = s'.reverse ++ q.reverse := by rw [← List.reverse_append, ← hs, List.reverse_reverse]
  have ht' : t = t'.reverse ++ q.reverse := by rw [← List.reverse_append, ← ht, List.reverse_reverse]
  refine ⟨p, s'.reverse, t'.reverse, q.reverse, ?_, ?_, ?_, ?_⟩
  · rw [hs', List.append_assoc]
  · rw [ht', List.append_assoc]
  · rwa [← hs', ← ht']
  · simpa using hlast

/-- The edit does what it should unless its middle starts or ends inside a surrogate pair. -/
theorem applyTextEdit_reaches_iff (prev next : List CodePoint) : (∃ p s t q, Differ prev next p s t q) ∧
    ∀ p s t q, Differ prev next p s t q →
      (ReachesTarget prev next p s q ↔ ¬ SharesFirst (s ++ q) (t ++ q) ∧ ¬ SharesLast s t) := by
  refine ⟨exists_differ prev next, fun p s t q h => ?_⟩
  constructor
  · intro hreaches
    have hfirst : ¬ SharesFirst (s ++ q) (t ++ q) := fun hshare => h.missed_first hshare hreaches.reached
    exact ⟨hfirst, fun hshare => h.missed_last hfirst hshare hreaches.reached⟩
  · rintro ⟨hfirst, hlast⟩
    exact h.reaches hfirst hlast

section Examples

def grinning : CodePoint := .astral 0xD83D 0xDE00 (by decide) (by decide)

def beaming : CodePoint := .astral 0xD83D 0xDE01 (by decide) (by decide)

theorem differ_faces : Differ [grinning] [beaming] [] [grinning] [beaming] [] :=
  ⟨rfl, rfl, by decide, by decide⟩

theorem applyTextEdit_reaches_iff_faces : ReachesTarget [grinning] [beaming] [] [grinning] [] ↔
    ¬ SharesFirst [grinning] [beaming] ∧ ¬ SharesLast [grinning] [beaming] :=
  (applyTextEdit_reaches_iff [grinning] [beaming]).2 [] [grinning] [beaming] [] differ_faces

theorem applyTextEdit_misses : Differ [grinning] [beaming] [] [grinning] [beaming] [] ∧
    RowText.applyTextEdit (utf16 [grinning]) (utf16 [beaming]) = [replacement, 0xDE01] ∧
    ¬ ReachesTarget [grinning] [beaming] [] [grinning] [] := by
  have hrun : RowText.applyTextEdit (utf16 [grinning]) (utf16 [beaming]) = [replacement, 0xDE01] := by decide
  refine ⟨⟨rfl, rfl, by decide, by decide⟩, hrun, fun h => ?_⟩
  have hreached := h.reached
  rw [hrun] at hreached
  exact absurd hreached (by decide)

end Examples

end OpenOutliner
