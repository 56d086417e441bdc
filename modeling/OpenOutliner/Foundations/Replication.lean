import Mathlib.Order.Lattice
import Mathlib.Logic.Function.Basic

/-!
Replicas whose states form a join semilattice. A replica acts on its own state, or joins in a
part of what another replica holds; the history keeps each action with the state it met.
-/

namespace OpenOutliner.Foundations

variable {R S Ev : Type} [DecidableEq R] [SemilatticeSup S]

structure Occurrence (R S Ev : Type) where
  replica : R
  before : S
  event : Ev

structure System (R S Ev : Type) where
  state : R → S
  history : List (Occurrence R S Ev)

namespace System

def act (exec : Ev → S → S) (r : R) (ev : Ev) (σ : System R S Ev) : System R S Ev :=
  ⟨Function.update σ.state r (exec ev (σ.state r)), ⟨r, σ.state r, ev⟩ :: σ.history⟩

def receive (r : R) (part : S) (σ : System R S Ev) : System R S Ev :=
  ⟨Function.update σ.state r (σ.state r ⊔ part), σ.history⟩

/-- Runs from one common state; `ok` says which actions may be taken. -/
inductive Run (init : S) (exec : Ev → S → S) (ok : System R S Ev → R → Ev → Prop) :
    System R S Ev → Prop
  | start : Run init exec ok ⟨fun _ => init, []⟩
  | act {σ : System R S Ev} (r : R) (ev : Ev) : Run init exec ok σ → ok σ r ev →
      Run init exec ok (σ.act exec r ev)
  | receive {σ : System R S Ev} (r r' : R) (part : S) : Run init exec ok σ → part ≤ σ.state r' →
      Run init exec ok (σ.receive r part)

variable {init : S} {exec : Ev → S → S} {ok : System R S Ev → R → Ev → Prop} {σ : System R S Ev}

omit [SemilatticeSup S] in
@[simp] theorem act_state_self (r : R) (ev : Ev) : (σ.act exec r ev).state r = exec ev (σ.state r) :=
  Function.update_self r _ _

omit [SemilatticeSup S] in
theorem act_state_of_ne {r r' : R} (h : r' ≠ r) (ev : Ev) : (σ.act exec r ev).state r' = σ.state r' :=
  Function.update_of_ne h _ _

@[simp] theorem receive_state_self (r : R) (part : S) : (σ.receive r part).state r = σ.state r ⊔ part :=
  Function.update_self r _ _

theorem receive_state_of_ne {r r' : R} (h : r' ≠ r) (part : S) : (σ.receive r part).state r' = σ.state r' :=
  Function.update_of_ne h _ _

def Converged (σ : System R S Ev) : Prop := ∀ r r', σ.state r' ≤ σ.state r

omit [DecidableEq R] in
theorem Converged.eq {σ : System R S Ev} (h : σ.Converged) (r r' : R) : σ.state r = σ.state r' :=
  le_antisymm (h r' r) (h r r')

theorem Run.mono {ok' : System R S Ev → R → Ev → Prop} (hok : ∀ σ r ev, ok σ r ev → ok' σ r ev)
    (h : Run init exec ok σ) : Run init exec ok' σ := by
  induction h with
  | start => exact .start
  | act r ev _ ha ih => exact .act r ev ih (hok _ r ev ha)
  | receive r r' part _ hp ih => exact .receive r r' part ih hp

theorem Run.history {Q : S → Ev → Prop} (hok : ∀ σ r ev, ok σ r ev → Q (σ.state r) ev)
    (h : Run init exec ok σ) : ∀ o ∈ σ.history, Q o.before o.event := by
  induction h with
  | start => simp
  | act r ev _ ha ih =>
    intro o ho
    cases ho with
    | head => exact hok _ r ev ha
    | tail _ ho => exact ih o ho
  | receive r r' part _ _ ih => exact ih

omit [SemilatticeSup S] in
theorem act_forall {P : S → Prop} {r : R} {ev : Ev} (h : ∀ r, P (σ.state r))
    (hnew : P (exec ev (σ.state r))) (r' : R) : P ((σ.act exec r ev).state r') := by
  by_cases hr : r' = r
  · subst hr
    rwa [act_state_self]
  · rw [act_state_of_ne hr]
    exact h r'

theorem receive_forall {P : S → Prop} {r : R} {part : S} (h : ∀ r, P (σ.state r))
    (hnew : P (σ.state r ⊔ part)) (r' : R) : P ((σ.receive r part).state r') := by
  by_cases hr : r' = r
  · subst hr
    rwa [receive_state_self]
  · rw [receive_state_of_ne hr]
    exact h r'

section Grow

variable (hexec : ∀ ev s, s ≤ exec ev s)

include hexec

theorem act_le (r : R) (ev : Ev) (r' : R) : σ.state r' ≤ (σ.act exec r ev).state r' := by
  by_cases hr : r' = r
  · subst hr
    rw [act_state_self]
    exact hexec ev _
  · rw [act_state_of_ne hr]

omit hexec in
theorem receive_le (r : R) (part : S) (r' : R) : σ.state r' ≤ (σ.receive r part).state r' := by
  by_cases hr : r' = r
  · subst hr
    rw [receive_state_self]
    exact le_sup_left
  · rw [receive_state_of_ne hr]

theorem Run.init_le (h : Run init exec ok σ) (r : R) : init ≤ σ.state r := by
  induction h with
  | start => exact le_rfl
  | act r' ev _ _ ih => exact ih.trans (act_le hexec r' ev r)
  | receive r' _ part _ _ ih => exact ih.trans (receive_le r' part r)

theorem Run.init_le_before (h : Run init exec ok σ) : ∀ o ∈ σ.history, init ≤ o.before := by
  induction h with
  | start => simp
  | act r ev hrun _ ih =>
    intro o ho
    cases ho with
    | head => exact hrun.init_le hexec r
    | tail _ ho => exact ih o ho
  | receive r r' part _ _ ih => exact ih

theorem Run.kept (h : Run init exec ok σ) {o : Occurrence R S Ev} (ho : o ∈ σ.history) :
    exec o.event o.before ≤ σ.state o.replica := by
  induction h with
  | start => cases ho
  | @act σ r ev _ _ ih =>
    cases ho with
    | head => rw [act_state_self]
    | tail _ ho => exact (ih ho).trans (act_le hexec r ev _)
  | receive r _ part _ _ ih => exact (ih ho).trans (receive_le r part _)

theorem Run.kept_everywhere (h : Run init exec ok σ) (hconv : σ.Converged) {o : Occurrence R S Ev}
    (ho : o ∈ σ.history) (r : R) : exec o.event o.before ≤ σ.state r :=
  (h.kept hexec ho).trans (hconv r o.replica)

end Grow

theorem Run.origin {P : S → Prop} (hmono : ∀ {s t}, s ≤ t → P s → P t)
    (hjoin : ∀ {s t}, P (s ⊔ t) → P s ∨ P t) (h : Run init exec ok σ) {r : R} (hr : P (σ.state r)) :
    P init ∨ ∃ o ∈ σ.history, P (exec o.event o.before) ∧ ¬ P o.before := by
  induction h generalizing r with
  | start => exact Or.inl hr
  | @act σ r' ev _ _ ih =>
    have hold : ∀ {q}, P (σ.state q) →
        P init ∨ ∃ o ∈ (σ.act exec r' ev).history, P (exec o.event o.before) ∧ ¬ P o.before := by
      intro q hq
      rcases ih hq with hi | ⟨o, ho, hnew⟩
      · exact Or.inl hi
      · exact Or.inr ⟨o, List.mem_cons_of_mem _ ho, hnew⟩
    by_cases hrr : r = r'
    · subst hrr
      rw [act_state_self] at hr
      by_cases hbefore : P (σ.state r)
      · exact hold hbefore
      · exact Or.inr ⟨⟨r, σ.state r, ev⟩, List.mem_cons_self .., hr, hbefore⟩
    · rw [act_state_of_ne hrr] at hr
      exact hold hr
  | @receive σ r' q part _ hpart ih =>
    by_cases hrr : r = r'
    · subst hrr
      rw [receive_state_self] at hr
      rcases hjoin hr with hr | hr
      · exact ih hr
      · exact ih (hmono hpart hr)
    · rw [receive_state_of_ne hrr] at hr
      exact ih hr

section Pair

variable {init : S} {exec : Ev → S → S} {ok : System Bool S Ev → Bool → Ev → Prop} {σ : System Bool S Ev}

def exchange (σ : System Bool S Ev) : System Bool S Ev :=
  (σ.receive true (σ.state false)).receive false (σ.state true ⊔ σ.state false)

@[simp] theorem exchange_state (r : Bool) : σ.exchange.state r = σ.state true ⊔ σ.state false := by
  unfold exchange
  cases r with
  | true => rw [receive_state_of_ne (by decide), receive_state_self]
  | false => rw [receive_state_self, receive_state_of_ne (by decide), sup_comm, sup_assoc, sup_idem]

theorem exchange_converged : σ.exchange.Converged := by
  intro r r'
  rw [exchange_state, exchange_state]

theorem Run.exchange (h : Run init exec ok σ) : Run init exec ok σ.exchange := by
  refine .receive false true _ (.receive true false _ h le_rfl) ?_
  rw [receive_state_self]

end Pair

end System

end OpenOutliner.Foundations
