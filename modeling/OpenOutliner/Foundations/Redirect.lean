import Mathlib.Dynamics.PeriodicPts.Lemmas
import Mathlib.Logic.Relation

/-!
Cycles of a graph in which every point has at most one successor, and what stays of them when the
successor of one point changes.
-/

namespace OpenOutliner.Foundations

open Relation

variable {α : Type} {r r' : α → α → Prop} {x a b c : α}

section Cycles

variable (hu : Relator.RightUnique r)

include hu

theorem cycle_next (ha : TransGen r a a) (hab : r a b) : ReflTransGen r b a := by
  obtain ⟨c, hac, hca⟩ := TransGen.head'_iff.mp ha
  rwa [hu hab hac]

theorem cycle_forward (ha : TransGen r a a) (hab : ReflTransGen r a b) : TransGen r b b := by
  induction hab with
  | refl => exact ha
  | tail _ hedge ih => exact TransGen.tail' (cycle_next hu ih hedge) hedge

theorem cycle_back (ha : TransGen r a a) (hab : ReflTransGen r a b) : ReflTransGen r b a := by
  induction hab with
  | refl => exact .refl
  | @tail b c hab hedge ih => exact (cycle_next hu (cycle_forward hu ha hab) hedge).trans ih

theorem cycle_pred_unique (ha : TransGen r a a) (hb : TransGen r b b) (hac : r a c) (hbc : r b c) :
    a = b := by
  classical
  let f : α → α := fun y => if h : ∃ z, r y z then h.choose else y
  have hf : ∀ {y z}, r y z → f y = z := by
    intro y z h
    have hex : ∃ z, r y z := ⟨z, h⟩
    simp only [f, dif_pos hex]
    exact hu hex.choose_spec h
  have hiter : ∀ {y z}, TransGen r y z → ∃ n, f^[n + 1] y = z := by
    intro y z h
    induction h with
    | single h => exact ⟨0, hf h⟩
    | tail _ hedge ih =>
      obtain ⟨n, hn⟩ := ih
      exact ⟨n + 1, by rw [Function.iterate_succ_apply', hn, hf hedge]⟩
  have hper : ∀ {y}, TransGen r y y → y ∈ Function.periodicPts f := by
    intro y h
    obtain ⟨n, hn⟩ := hiter h
    exact ⟨n + 1, Nat.succ_pos n, hn⟩
  apply (Function.bijOn_periodicPts f).injOn (hper ha) (hper hb)
  rw [hf hac, hf hbc]

end Cycles

theorem transGen_iff_of_closed {P : α → Prop} (hclosed : ∀ a b, P a → r a b → P b)
    (hagree : ∀ a b, P a → (r' a b ↔ r a b)) (ha : P a) : TransGen r' a b ↔ TransGen r a b := by
  constructor
  · intro h
    induction h using TransGen.head_induction_on with
    | single hab => exact .single ((hagree _ _ ha).mp hab)
    | head hac _ ih =>
      have hac := (hagree _ _ ha).mp hac
      exact .head hac (ih (hclosed _ _ ha hac))
  · intro h
    induction h using TransGen.head_induction_on with
    | single hab => exact .single ((hagree _ _ ha).mpr hab)
    | head hac _ ih => exact .head ((hagree _ _ ha).mpr hac) (ih (hclosed _ _ ha hac))

/-- The relations have the same edges out of every point but `x`. -/
def AgreeOff (x : α) (r r' : α → α → Prop) : Prop := ∀ a b, a ≠ x → (r a b ↔ r' a b)

namespace AgreeOff

variable (h : AgreeOff x r r')

include h

theorem symm : AgreeOff x r' r := fun a b ha => (h a b ha).symm

theorem to_point (hax : ReflTransGen r a x) : ReflTransGen r' a x := by
  induction hax using ReflTransGen.head_induction_on with
  | refl => exact .refl
  | @head a b hedge _ ih =>
    by_cases ha : a = x
    · rw [ha]
    · exact .head ((h a b ha).mp hedge) ih

theorem path_of_avoids (ha : ¬ ReflTransGen r a x) (hab : ReflTransGen r a b) : ReflTransGen r' a b := by
  induction hab with
  | refl => exact .refl
  | @tail b c hab hedge ih =>
    apply ih.tail
    apply (h b c _).mp hedge
    rintro rfl
    exact ha hab

theorem trans_of_avoids (ha : ¬ ReflTransGen r a x) (hab : TransGen r a b) : TransGen r' a b := by
  obtain ⟨c, hac, hcb⟩ := TransGen.tail'_iff.mp hab
  apply TransGen.tail' (h.path_of_avoids ha hac)
  apply (h c b _).mp hcb
  rintro rfl
  exact ha hac

theorem trans_iff_of_avoids (ha : ¬ ReflTransGen r a x) : TransGen r a b ↔ TransGen r' a b := by
  have ha' : ¬ ReflTransGen r' a x := fun hax => ha (h.symm.to_point hax)
  exact ⟨h.trans_of_avoids ha, h.symm.trans_of_avoids ha'⟩

theorem cycle_iff (hu : Relator.RightUnique r) (hu' : Relator.RightUnique r') (hx : ¬ TransGen r x x)
    (hx' : ¬ TransGen r' x x) : TransGen r a a ↔ TransGen r' a a := by
  constructor
  · intro ha
    exact h.trans_of_avoids (fun hax => hx (cycle_forward hu ha hax)) ha
  · intro ha
    exact h.symm.trans_of_avoids (fun hax => hx' (cycle_forward hu' ha hax)) ha

theorem not_cycle (hnew : ∀ b, r' x b → ¬ ReflTransGen r b x) : ¬ TransGen r' x x := by
  intro hcyc
  obtain ⟨b, hxb, hbx⟩ := TransGen.head'_iff.mp hcyc
  exact hnew b hxb (h.symm.to_point hbx)

end AgreeOff

section Splices

/-- `long` goes from `x` to `g` through `m` where `short` goes at once. -/
structure Spliced (x m g : α) (long short : α → α → Prop) : Prop where
  agree : AgreeOff x long short
  unique : Relator.RightUnique long
  unique' : Relator.RightUnique short
  apart : m ≠ x
  down : long x m
  out : long m g
  cut : short x g

namespace Spliced

variable {m g : α} {long short : α → α → Prop} (h : Spliced x m g long short)

include h

theorem lift (hab : TransGen short a b) : TransGen long a b := by
  have hstep : ∀ {c d}, short c d → TransGen long c d := by
    intro c d hedge
    by_cases hc : c = x
    · subst hc
      rw [h.unique' hedge h.cut]
      exact .head h.down (.single h.out)
    · exact .single ((h.agree c d hc).mpr hedge)
  induction hab with
  | single hedge => exact hstep hedge
  | tail _ hedge ih => exact ih.trans (hstep hedge)

theorem from_end (hz : ReflTransGen long g b) : ReflTransGen short g b ∨ b = m := by
  induction hz with
  | refl => exact Or.inl .refl
  | @tail b c _ hedge ih =>
    rcases ih with ih | rfl
    · by_cases hb : b = x
      · subst hb
        exact Or.inr (h.unique hedge h.down)
      · exact Or.inl (ih.tail ((h.agree b c hb).mp hedge))
    · rw [h.unique hedge h.out]
      exact Or.inl .refl

theorem around (hx : TransGen long x x) (hb : ReflTransGen long x b) (hbm : b ≠ m) :
    ReflTransGen short g b := by
  have hxg : ReflTransGen long x g := .head h.down (.single h.out)
  have hgb : ReflTransGen long g b := (cycle_back h.unique hx hxg).trans hb
  exact (h.from_end hgb).resolve_right hbm

theorem reach (ha : TransGen long a a) (hax : ReflTransGen long a x) (hab : TransGen long a b) (hbm : b ≠ m) :
    TransGen short a b := by
  have hx := cycle_forward h.unique ha hax
  have hxb := (cycle_back h.unique ha hax).trans hab.to_reflTransGen
  exact TransGen.trans_right (h.agree.to_point hax) (TransGen.head' h.cut (h.around hx hxb hbm))

theorem cycle_short (ham : a ≠ m) (ha : TransGen long a a) : TransGen short a a := by
  by_cases hax : ReflTransGen long a x
  · exact h.reach ha hax ha ham
  · exact h.agree.trans_of_avoids hax ha

theorem not_cycle_short (hx : TransGen short x x) : ¬ TransGen short m m := by
  intro hm
  apply h.apart
  exact cycle_pred_unique h.unique' hm hx ((h.agree m g h.apart).mp h.out) h.cut

end Spliced

def LeastOnCycle [LE α] (r : α → α → Prop) (a : α) : Prop := TransGen r a a ∧ ∀ b, TransGen r a b → a ≤ b

theorem Spliced.least_short [LE α] {m g : α} {long short : α → α → Prop} (h : Spliced x m g long short)
    (ham : a ≠ m) (ha : LeastOnCycle long a) : LeastOnCycle short a :=
  ⟨h.cycle_short ham ha.1, fun b hab => ha.2 b (h.lift hab)⟩

theorem Spliced.least_long [LinearOrder α] {m g : α} {long short : α → α → Prop}
    (h : Spliced x m g long short)
    (hm : ¬ LeastOnCycle long m) (ha : LeastOnCycle short a) : LeastOnCycle long a := by
  have hcyc := h.lift ha.1
  refine ⟨hcyc, fun b hab => ?_⟩
  by_cases hax : ReflTransGen long a x
  · have hcase : ∀ c, TransGen long a c → c ≠ m → a ≤ c := fun c hac hcm => ha.2 c (h.reach hcyc hax hac hcm)
    by_cases hbm : b = m
    · subst hbm
      obtain ⟨c, hbc, hlt⟩ : ∃ c, TransGen long b c ∧ ¬ b ≤ c := by
        by_contra hno
        push Not at hno
        exact hm ⟨cycle_forward h.unique hcyc hab.to_reflTransGen, hno⟩
      have hcb : c < b := not_le.mp hlt
      exact (hcase c (hab.trans hbc) hcb.ne).trans hcb.le
    · exact hcase b hab hbm
  · exact ha.2 b ((h.agree.trans_iff_of_avoids hax).mp hab)

end Splices

end OpenOutliner.Foundations
