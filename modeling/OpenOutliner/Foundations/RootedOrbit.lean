import Mathlib.Dynamics.PeriodicPts.Defs
import Mathlib.Data.List.Iterate
import Mathlib.Data.Finset.Max
import Mathlib.Data.Finset.Image
import Mathlib.Data.Set.Finite.Lemmas
import Mathlib.Logic.Relation

/-!
Functional graphs with an absorbing root. Every point has one successor, the root
is its own successor, and a cycle away from the root is cut at its least member.
-/

namespace OpenOutliner.Foundations.RootedOrbit

open Function

variable {α : Type} {f g : α → α} {r x y : α} {s : Set α}

theorem iterate_root (hr : f r = r) (n : ℕ) : f^[n] r = r := iterate_fixed hr n

theorem iterate_mem (hs : Set.MapsTo f s s) (hx : x ∈ s) (n : ℕ) : f^[n] x ∈ s :=
  (hs.iterate n) hx

theorem ne_root_of_le (hr : f r = r) {m n : ℕ} (hmn : m ≤ n) (h : f^[n] x ≠ r) : f^[m] x ≠ r := by
  intro hm
  obtain ⟨k, rfl⟩ := Nat.exists_eq_add_of_le hmn
  apply h
  rw [Nat.add_comm, iterate_add_apply, hm, iterate_root hr]

theorem mem_of_iterate_mem (hs : Set.MapsTo f s s) (hx : x ∈ periodicPts f) {n : ℕ}
    (h : f^[n] x ∈ s) : x ∈ s := by
  obtain ⟨p, hp, hper⟩ := hx
  have hle : n ≤ n * p := Nat.le_mul_of_pos_right n hp
  have hback : f^[n * p] x = x := (hper.const_mul n).eq
  rw [← hback, ← Nat.sub_add_cancel hle, iterate_add_apply]
  exact iterate_mem hs h _

theorem iterate_injOn_of_first_hit {n : ℕ} (hn : f^[n] x ∈ s) (hfirst : ∀ i < n, f^[i] x ∉ s) :
    Set.InjOn (fun i => f^[i] x) (Set.Iio n) := by
  intro i hi j hj hij
  have key : ∀ {i j : ℕ}, i < j → j < n → f^[i] x = f^[j] x → False := by
    intro i j hlt hj hij
    apply hfirst (n - j + i) (by omega)
    rw [iterate_add_apply, hij, ← iterate_add_apply, Nat.sub_add_cancel hj.le]
    exact hn
  rcases lt_trichotomy i j with h | h | h
  · exact (key h hj hij).elim
  · exact h
  · exact (key h hi hij.symm).elim

def OnCycle (f : α → α) (r x : α) : Prop := x ≠ r ∧ x ∈ periodicPts f

theorem OnCycle.iterate_ne (hr : f r = r) (h : OnCycle f r x) (n : ℕ) : f^[n] x ≠ r := by
  intro hn
  have hmem : x ∈ ({r} : Set α) :=
    mem_of_iterate_mem (by rintro y rfl; exact hr) h.2 (n := n) hn
  exact h.1 hmem

theorem OnCycle.iterate (hr : f r = r) (h : OnCycle f r x) (n : ℕ) : OnCycle f r (f^[n] x) := by
  obtain ⟨p, hp, hper⟩ := h.2
  exact ⟨h.iterate_ne hr n, p, hp, hper.apply_iterate n⟩

theorem OnCycle.exists_iterate_eq (h : OnCycle f r x) (n : ℕ) : ∃ m, f^[m] (f^[n] x) = x := by
  obtain ⟨p, hp, hper⟩ := h.2
  refine ⟨n * p - n, ?_⟩
  rw [← iterate_add_apply, Nat.sub_add_cancel (Nat.le_mul_of_pos_right n hp)]
  exact (hper.const_mul n).eq

theorem exists_iterate_periodic (hfin : s.Finite) (hs : Set.MapsTo f s s) (hx : x ∈ s) :
    ∃ n, f^[n] x ∈ periodicPts f := by
  obtain ⟨m, -, n, -, hne, heq⟩ := Set.infinite_univ.exists_ne_map_eq_of_mapsTo
    (f := fun n => f^[n] x) (fun n _ => iterate_mem hs hx n) hfin
  have key : ∀ {m n : ℕ}, m < n → f^[m] x = f^[n] x → f^[m] x ∈ periodicPts f := by
    intro m n hlt heq
    refine ⟨n - m, by omega, ?_⟩
    rw [IsPeriodicPt, IsFixedPt, ← iterate_add_apply, Nat.sub_add_cancel hlt.le, heq]
  rcases lt_or_gt_of_ne hne with h | h
  · exact ⟨m, key h heq⟩
  · exact ⟨n, key h heq.symm⟩

theorem transGen_iff_iterate (hr : f r = r) {E : α → α → Prop} (hsrc : ∀ {x y}, E x y → x ≠ r)
    (hE : ∀ {x y}, y ≠ r → (E x y ↔ f x = y)) (hy : y ≠ r) :
    Relation.TransGen E x y ↔ ∃ n, f^[n + 1] x = y := by
  constructor
  · intro h
    induction h with
    | single h => exact ⟨0, (hE hy).mp h⟩
    | tail hab hbc ih =>
      obtain ⟨n, hn⟩ := ih (hsrc hbc)
      exact ⟨n + 1, by rw [iterate_succ_apply', hn, (hE hy).mp hbc]⟩
  · rintro ⟨n, hn⟩
    induction n generalizing y with
    | zero => exact .single ((hE hy).mpr hn)
    | succ n ih =>
      have hprev : f^[n + 1] x ≠ r := ne_root_of_le hr (Nat.le_succ (n + 1)) (by rw [hn]; exact hy)
      rw [iterate_succ_apply'] at hn
      exact (ih hprev rfl).tail ((hE hy).mpr hn)

section Leader

variable [LinearOrder α]

def Leader (f : α → α) (r x : α) : Prop := OnCycle f r x ∧ ∀ n, x ≤ f^[n] x

theorem Leader.unique (hx : Leader f r x) (hy : Leader f r y) {n : ℕ} (h : f^[n] x = y) : x = y := by
  obtain ⟨m, hm⟩ := hx.1.exists_iterate_eq n
  rw [h] at hm
  exact le_antisymm (h ▸ hx.2 n) (hm ▸ hy.2 m)

theorem exists_leader (hr : f r = r) (h : OnCycle f r x) (hfin : s.Finite)
    (hs : Set.MapsTo f s s) (hx : x ∈ s) : ∃ n, Leader f r (f^[n] x) := by
  have horb : (Set.range fun n => f^[n] x).Finite :=
    hfin.subset (by rintro _ ⟨n, rfl⟩; exact iterate_mem hs hx n)
  obtain ⟨a, ⟨n, rfl⟩, hmin⟩ := Set.exists_min_image _ id horb ⟨_, 0, rfl⟩
  refine ⟨n, h.iterate hr n, fun m => ?_⟩
  rw [← iterate_add_apply]
  exact hmin _ ⟨m + n, rfl⟩

/-- `g` redirects every leader to the root and otherwise agrees with `f`. -/
def CutAt (f g : α → α) (r : α) : Prop :=
  g r = r ∧ (∀ x, Leader f r x → g x = r) ∧ ∀ x, ¬ Leader f r x → g x = f x

theorem CutAt.iterate (h : CutAt f g r) (n : ℕ) : g^[n] x = r ∨ g^[n] x = f^[n] x := by
  induction n with
  | zero => exact Or.inr rfl
  | succ n ih =>
    rw [iterate_succ_apply', iterate_succ_apply']
    rcases ih with ih | ih
    · exact Or.inl (by rw [ih, h.1])
    · rw [ih]
      by_cases hl : Leader f r (f^[n] x)
      · exact Or.inl (h.2.1 _ hl)
      · exact Or.inr (h.2.2 _ hl)

theorem CutAt.reaches (h : CutAt f g r) (hr : f r = r) (hfin : s.Finite) (hs : Set.MapsTo f s s)
    (hx : x ∈ s) : ∃ n, g^[n] x = r := by
  by_contra hno
  push Not at hno
  have hfollow : ∀ n, g^[n] x = f^[n] x := fun n => (h.iterate n).resolve_left (hno n)
  obtain ⟨n, hper⟩ := exists_iterate_periodic hfin hs hx
  have hcyc : OnCycle f r (f^[n] x) := ⟨by rw [← hfollow]; exact hno n, hper⟩
  obtain ⟨m, hl⟩ := exists_leader hr hcyc hfin hs (iterate_mem hs hx n)
  rw [← iterate_add_apply] at hl
  apply hno (m + n + 1)
  rw [iterate_succ_apply', hfollow, h.2.1 _ hl]

end Leader

end OpenOutliner.Foundations.RootedOrbit
