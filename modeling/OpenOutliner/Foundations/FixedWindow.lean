import Mathlib.Algebra.Order.Group.Int
import Mathlib.Tactic.Linarith
import Mathlib.Tactic.Ring

/-!
A fixed-window counter: a hit that finds no window, or one that is over, opens a new one, and the
first `limit` hits of a window are admitted. The hit that opens a window always is.
-/

namespace OpenOutliner.Foundations

structure HitWindow where
  count : ℕ
  windowStart : ℤ
deriving DecidableEq, Repr

namespace HitWindow

variable (limit windowMs : ℤ)

/-- The window after a hit, and whether the hit is admitted. -/
def hit (current : Option HitWindow) (now : ℤ) : Bool × HitWindow :=
  match current with
  | none => (true, ⟨1, now⟩)
  | some e =>
    if windowMs < now - e.windowStart then (true, ⟨1, now⟩)
    else (decide ((e.count + 1 : ℕ) ≤ limit), { e with count := e.count + 1 })

def hits : Option HitWindow → List ℤ → List (ℤ × Bool)
  | _, [] => []
  | current, now :: rest =>
    let (admitted, e) := hit limit windowMs current now
    (now, admitted) :: hits (some e) rest

def budget : ℕ := max 1 limit.toNat

def admittedIn (t u : ℤ) (answers : List (ℤ × Bool)) : ℕ :=
  answers.countP fun a => a.2 && decide (t ≤ a.1) && decide (a.1 ≤ u)

variable {limit windowMs}

theorem budget_pos : 0 < budget limit := Nat.lt_of_lt_of_le Nat.one_pos (le_max_left _ _)

theorem le_budget {n : ℕ} (h : (n : ℤ) ≤ limit) : n ≤ budget limit := by
  have : n ≤ limit.toNat := by omega
  exact this.trans (le_max_right _ _)

theorem budget_le {n : ℕ} (hn : 0 < n) (h : ¬ ((n + 1 : ℕ) : ℤ) ≤ limit) : budget limit ≤ n := by
  refine max_le hn ?_
  omega

variable (limit windowMs) in
theorem hit_cases (current : Option HitWindow) (now : ℤ) :
    (∀ e ∈ current, windowMs < now - e.windowStart) ∧ hit limit windowMs current now = (true, ⟨1, now⟩) ∨
      ∃ e ∈ current, now - e.windowStart ≤ windowMs ∧
        hit limit windowMs current now =
        (decide ((e.count + 1 : ℕ) ≤ limit), { e with count := e.count + 1 }) := by
  cases current with
  | none => exact Or.inl ⟨by simp, rfl⟩
  | some e =>
    by_cases hover : windowMs < now - e.windowStart
    · refine Or.inl ⟨?_, if_pos hover⟩
      rintro e' ⟨⟩
      exact hover
    · exact Or.inr ⟨e, rfl, not_lt.mp hover, if_neg hover⟩

@[simp] theorem admittedIn_nil (t u : ℤ) : admittedIn t u [] = 0 := rfl

theorem admittedIn_cons (t u : ℤ) (a : ℤ × Bool) (rest : List (ℤ × Bool)) :
    admittedIn t u (a :: rest) =
      admittedIn t u rest + if a.2 = true ∧ t ≤ a.1 ∧ a.1 ≤ u then 1 else 0 := by
  unfold admittedIn
  rw [List.countP_cons]
  congr 1
  simp only [Bool.and_eq_true, decide_eq_true_eq, and_assoc]

variable (limit windowMs) in
theorem hits_times (current : Option HitWindow) (times : List ℤ) :
    (hits limit windowMs current times).map Prod.fst = times := by
  induction times generalizing current with
  | nil => rfl
  | cons now rest ih => exact congrArg (now :: ·) (ih _)

theorem admittedIn_late {t u : ℤ} {current : Option HitWindow} {times : List ℤ} (h : ∀ x ∈ times, u < x) :
    admittedIn t u (hits limit windowMs current times) = 0 := by
  refine List.countP_eq_zero.mpr ?_
  intro a ha
  have hmem : a.1 ∈ times := by
    rw [← hits_times limit windowMs current times]
    exact List.mem_map_of_mem ha
  have := h a.1 hmem
  simp only [Bool.and_eq_true, decide_eq_true_eq, not_and, not_le]
  exact fun _ => this

theorem admittedIn_from {t u : ℤ} {times : List ℤ} {e : HitWindow} {k : ℕ} (hcount : 0 < e.count)
    (hsorted : (e.windowStart :: times).Pairwise (· ≤ ·)) (hk : u ≤ e.windowStart + (k + 1) * windowMs) :
    admittedIn t u (hits limit windowMs (some e) times) ≤ (budget limit - e.count) + k * budget limit := by
  induction times generalizing e k with
  | nil => simp [hits]
  | cons now rest ih =>
    obtain ⟨hstart, hrest⟩ := List.pairwise_cons.mp hsorted
    obtain ⟨hnow, hrest'⟩ := List.pairwise_cons.mp hrest
    by_cases hlate : u < now
    · have hall : ∀ x ∈ now :: rest, u < x := by
        intro x hx
        cases List.mem_cons.mp hx with
        | inl he => exact he ▸ hlate
        | inr hx => exact lt_of_lt_of_le hlate (hnow x hx)
      rw [admittedIn_late hall]
      exact Nat.zero_le _
    · rw [hits, admittedIn_cons]
      obtain ⟨hover, hopens⟩ | ⟨e', he', -, hcounts⟩ := hit_cases limit windowMs (some e) now
      · -- a new window, which uses up one of the `k`
        have hover := hover e rfl
        obtain ⟨k, rfl⟩ : ∃ j, k = j + 1 := by
          refine Nat.exists_eq_succ_of_ne_zero ?_
          rintro rfl
          push_cast at hk
          linarith
        have hreach : u ≤ now + (k + 1) * windowMs := by
          push_cast at hk
          linarith
        have hnext := ih (e := ⟨1, now⟩) (k := k) Nat.one_pos hrest hreach
        have hpos : 0 < budget limit := budget_pos
        have hsplit : (k + 1) * budget limit = k * budget limit + budget limit := Nat.succ_mul k _
        rw [hopens]
        dsimp only at hnext ⊢
        split <;> omega
      · obtain rfl := Option.some.inj he'
        have hnext := ih (e := { e with count := e.count + 1 }) (k := k) (Nat.succ_pos _)
          (List.pairwise_cons.mpr ⟨fun x hx => hstart x (List.mem_cons_of_mem _ hx), hrest'⟩) hk
        rw [hcounts]
        dsimp only at hnext ⊢
        by_cases hadmitted : ((e.count + 1 : ℕ) : ℤ) ≤ limit
        · have := le_budget hadmitted
          split <;> omega
        · rw [if_neg fun h => hadmitted (of_decide_eq_true h.1)]
          omega

theorem admittedIn_le (hwindow : 0 ≤ windowMs) {current : Option HitWindow} {times : List ℤ}
    (hcurrent : ∀ e ∈ current, 0 < e.count ∧ ∀ x ∈ times, e.windowStart ≤ x)
    (hsorted : times.Pairwise (· ≤ ·)) (t : ℤ) (n : ℕ) :
    admittedIn t (t + n * windowMs) (hits limit windowMs current times) ≤ (n + 1) * budget limit := by
  induction times generalizing current with
  | nil => simp [hits]
  | cons now rest ih =>
    obtain ⟨hnow, hrest⟩ := List.pairwise_cons.mp hsorted
    rw [hits, admittedIn_cons]
    obtain ⟨hover, hopens⟩ | ⟨e, he, hin, hcounts⟩ := hit_cases limit windowMs current now
    · rw [hopens]
      by_cases hearly : now < t
      · rw [if_neg fun h => absurd h.2.1 (not_le.mpr hearly), Nat.add_zero]
        refine ih ?_ hrest
        rintro e' ⟨⟩
        exact ⟨Nat.one_pos, hnow⟩
      · have hreach : t + n * windowMs ≤ now + (n + 1) * windowMs := by
          linarith
        have hfrom : admittedIn t (t + n * windowMs) (hits limit windowMs (some ⟨1, now⟩) rest) ≤ _ :=
          admittedIn_from Nat.one_pos (List.pairwise_cons.mpr ⟨hnow, hrest⟩) hreach
        have hpos : 0 < budget limit := budget_pos
        have hsplit : (n + 1) * budget limit = n * budget limit + budget limit := Nat.succ_mul n _
        dsimp only at hfrom ⊢
        split <;> omega
    · obtain ⟨hcount, hstart⟩ := hcurrent e he
      obtain rfl := Option.mem_def.mp he
      by_cases hearly : now < t
      · rw [if_neg fun h => absurd h.2.1 (not_le.mpr hearly), Nat.add_zero, hcounts]
        refine ih ?_ hrest
        rintro e' ⟨⟩
        exact ⟨Nat.succ_pos _, fun x hx => hstart x (List.mem_cons_of_mem _ hx)⟩
      · have hreach : t + n * windowMs ≤ e.windowStart + (n + 1) * windowMs := by
          linarith
        have hfrom : admittedIn t (t + n * windowMs) (hits limit windowMs (some e) (now :: rest)) ≤ _ :=
          admittedIn_from hcount (List.pairwise_cons.mpr ⟨hstart, hsorted⟩) hreach
        have hsplit : (n + 1) * budget limit = n * budget limit + budget limit := Nat.succ_mul n _
        rw [hits, admittedIn_cons] at hfrom
        omega

theorem refused_after {current : Option HitWindow} {times pre : List ℤ}
    (hcurrent : ∀ e ∈ current, 0 < e.count ∧ e.count ≤ pre.countP fun x => decide (e.windowStart ≤ x))
    (hsorted : (pre ++ times).Pairwise (· ≤ ·)) {i : ℕ} {x : ℤ}
    (hrefused : (hits limit windowMs current times)[i]? = some (x, false)) :
    budget limit ≤ (pre ++ times.take i).countP fun y => decide (x - windowMs ≤ y) := by
  induction times generalizing current pre i with
  | nil => simp [hits] at hrefused
  | cons now rest ih =>
    have hpre : ∀ y ∈ pre, y ≤ now := fun y hy =>
      (List.pairwise_append.mp hsorted).2.2 y hy now (List.mem_cons_self ..)
    have hnext : ∀ e ∈ some (hit limit windowMs current now).2,
        0 < e.count ∧ e.count ≤ (pre ++ [now]).countP fun x => decide (e.windowStart ≤ x) := by
      rintro e' ⟨⟩
      obtain ⟨-, hopens⟩ | ⟨e, he, -, hcounts⟩ := hit_cases limit windowMs current now
      · rw [hopens]
        exact ⟨Nat.one_pos, by simp⟩
      · obtain ⟨hpos, hcount⟩ := hcurrent e he
        obtain ⟨y, hy, hle⟩ := List.countP_pos_iff.mp (hpos.trans_le hcount)
        have hstart : e.windowStart ≤ now := (of_decide_eq_true hle).trans (hpre y hy)
        rw [hcounts, List.countP_append, List.countP_singleton, if_pos (decide_eq_true hstart)]
        exact ⟨Nat.succ_pos _, Nat.succ_le_succ hcount⟩
    cases i with
    | zero =>
      simp only [hits, List.getElem?_cons_zero, Option.some.injEq, Prod.mk.injEq] at hrefused
      obtain ⟨rfl, hadmitted⟩ := hrefused
      obtain ⟨-, hopens⟩ | ⟨e, he, hin, hcounts⟩ := hit_cases limit windowMs current now
      · rw [hopens] at hadmitted
        cases hadmitted
      · obtain ⟨hpos, hcount⟩ := hcurrent e he
        rw [hcounts] at hadmitted
        have hfull := budget_le hpos (of_decide_eq_false hadmitted)
        rw [List.take_zero, List.append_nil]
        refine (hfull.trans hcount).trans (List.countP_mono_left ?_)
        intro y _ hy
        have := of_decide_eq_true hy
        exact decide_eq_true (by omega)
    | succ i =>
      rw [List.take_succ_cons, List.append_cons]
      exact ih hnext (by rwa [← List.append_cons]) hrefused

end HitWindow

end OpenOutliner.Foundations
