import Mathlib.Data.List.Basic
import Mathlib.Order.MinMax

/-!
Statements that are committed one by one. A run goes up to the first statement that is refused, or at which
the connection fails.
-/

namespace OpenOutliner.Foundations

variable {σ : Type}

abbrev Statement (σ : Type) := σ → Option σ

/-- The connection fails at a statement; `applied` if it took effect all the same. -/
structure Failure where
  index : ℕ
  applied : Bool
deriving DecidableEq

def runStatements : Option Failure → List (Statement σ) → σ → σ × Bool
  | _, [], s => (s, true)
  | failure, q :: qs, s =>
    match q s with
    | none => (s, false)
    | some t =>
      match failure with
      | none => runStatements none qs t
      | some ⟨0, applied⟩ => (if applied then t else s, false)
      | some ⟨i + 1, applied⟩ => runStatements (some ⟨i, applied⟩) qs t

def effect : ℕ → List (Statement σ) → σ → σ
  | n + 1, q :: qs, s =>
    match q s with
    | none => s
    | some t => effect n qs t
  | _, _, s => s

def Lets (failure : Option Failure) (n : ℕ) : Prop := ∀ f ∈ failure, n ≤ f.index + f.applied.toNat

instance (failure : Option Failure) (n : ℕ) : Decidable (Lets failure n) := by
  unfold Lets
  infer_instance

def budget (failure : Option Failure) (n : ℕ) : ℕ :=
  match failure with
  | none => n
  | some f => min n (f.index + f.applied.toNat)

theorem le_budget_iff {failure : Option Failure} {m n : ℕ} (hmn : m ≤ n) : m ≤ budget failure n ↔
    Lets failure m := by
  cases failure with
  | none => simp [budget, Lets, hmn]
  | some f => simp [budget, Lets, hmn]

theorem effect_refused {q : Statement σ} {s : σ} (hq : q s = none) (n : ℕ) (qs : List (Statement σ)) :
    effect n (q :: qs) s = s := by
  cases n with
  | zero => rfl
  | succ n => simp only [effect, hq]

theorem effect_applied {q : Statement σ} {s t : σ} (hq : q s = some t) (n : ℕ) (qs : List (Statement σ)) :
    effect (n + 1) (q :: qs) s = effect n qs t := by
  simp only [effect, hq]

theorem runStatements_fst (failure : Option Failure) (qs : List (Statement σ)) (s : σ) :
    (runStatements failure qs s).1 = effect (budget failure qs.length) qs s := by
  induction qs generalizing failure s with
  | nil => cases h : budget failure 0 <;> rfl
  | cons q qs ih =>
    cases hq : q s with
    | none =>
      rw [effect_refused hq]
      simp only [runStatements, hq]
    | some t =>
      cases failure with
      | none =>
        simp only [runStatements, hq, budget, List.length_cons, effect]
        exact ih none t
      | some f =>
        obtain ⟨i, applied⟩ := f
        cases i with
        | zero => cases applied <;> cases qs <;> simp [runStatements, hq, budget, effect]
        | succ i =>
          have hone : min ((q :: qs).length) (i + 1 + applied.toNat) =
              min qs.length (i + applied.toNat) + 1 := by
            rw [List.length_cons]
            omega
          simp only [runStatements, hq, budget, hone, effect]
          exact ih (some ⟨i, applied⟩) t

section Stages

variable {P : ℕ → σ → Prop} {qs : List (Statement σ)} {s : σ}

/-- What every statement takes from one stage to the next holds at the stage that a run reaches; a run that
stops early stops at a statement that is refused. -/
theorem effect_stage (hstep : ∀ i q s t, qs[i]? = some q → P i s → q s = some t → P (i + 1) t)
    (hs : P 0 s) (n : ℕ) :
    ∃ m ≤ min n qs.length, P m (effect n qs s) ∧
      (m = min n qs.length ∨ ∃ q, qs[m]? = some q ∧ q (effect n qs s) = none) := by
  induction qs generalizing P n s with
  | nil => exact ⟨0, Nat.zero_le _, by cases n <;> exact hs, .inl (by simp)⟩
  | cons q qs ih =>
    cases n with
    | zero => exact ⟨0, Nat.zero_le _, hs, .inl (by simp)⟩
    | succ n =>
      cases hq : q s with
      | none =>
        rw [effect_refused hq]
        exact ⟨0, Nat.zero_le _, hs, .inr ⟨q, rfl, hq⟩⟩
      | some t =>
        rw [effect_applied hq]
        obtain ⟨m, hle, hm, hstop⟩ :=
          ih (P := fun i => P (i + 1)) (fun i q s t hi => hstep (i + 1) q s t (by simpa using hi))
          (hstep 0 q s t rfl hs hq) n
        refine ⟨m + 1, by rw [List.length_cons]; omega, hm, ?_⟩
        obtain rfl | ⟨q', hq', hnone⟩ := hstop
        · exact .inl (by rw [List.length_cons]; omega)
        · exact .inr ⟨q', by simpa using hq', hnone⟩

theorem effect_all (hstep : ∀ i q s t, qs[i]? = some q → P i s → q s = some t → P (i + 1) t)
    (hgo : ∀ i q s, qs[i]? = some q → P i s → q s ≠ none) (hs : P 0 s) (n : ℕ) :
    P (min n qs.length) (effect n qs s) := by
  obtain ⟨m, -, hm, rfl | ⟨q, hq, hnone⟩⟩ := effect_stage hstep hs n
  · exact hm
  · exact absurd hnone (hgo m q _ hq hm)

theorem stage_of_answered {failure : Option Failure}
    (hstep : ∀ i q s t, qs[i]? = some q → P i s → q s = some t → P (i + 1) t)
    (hs : P 0 s) (h : (runStatements failure qs s).2 = true) :
    P qs.length (runStatements failure qs s).1 := by
  induction qs generalizing P failure s with
  | nil => exact hs
  | cons q qs ih =>
    cases hq : q s with
    | none => simp [runStatements, hq] at h
    | some t =>
      have hnext : P 1 t := hstep 0 q s t rfl hs hq
      have hrest : ∀ i q s t, qs[i]? = some q → P (i + 1) s → q s = some t → P (i + 1 + 1) t :=
        fun i q s t hi => hstep (i + 1) q s t (by simpa using hi)
      cases failure with
      | none =>
        simp only [runStatements, hq] at h ⊢
        exact ih (P := fun i => P (i + 1)) hrest hnext h
      | some f =>
        obtain ⟨i, applied⟩ := f
        cases i with
        | zero => simp [runStatements, hq] at h
        | succ i =>
          simp only [runStatements, hq] at h ⊢
          exact ih (P := fun i => P (i + 1)) hrest hnext h

theorem answered_of_go (hstep : ∀ i q s t, qs[i]? = some q → P i s → q s = some t → P (i + 1) t)
    (hgo : ∀ i q s, qs[i]? = some q → P i s → q s ≠ none) (hs : P 0 s) :
    (runStatements none qs s).2 = true := by
  induction qs generalizing P s with
  | nil => rfl
  | cons q qs ih =>
    cases hq : q s with
    | none => exact absurd hq (hgo 0 q s rfl hs)
    | some t =>
      simp only [runStatements, hq]
      exact ih (P := fun i => P (i + 1)) (fun i q s t hi => hstep (i + 1) q s t (by simpa using hi))
        (fun i q s hi => hgo (i + 1) q s (by simpa using hi)) (hstep 0 q s t rfl hs hq)

end Stages

end OpenOutliner.Foundations
