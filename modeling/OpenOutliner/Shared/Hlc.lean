import OpenOutliner.Foundations.Machine
import OpenOutliner.Shared.Schema
import Mathlib.Data.Int.Order.Basic
import Mathlib.Data.Prod.Lex
import Mathlib.Logic.Relation
import Mathlib.Order.Fin.Basic

namespace OpenOutliner

open Foundations

def receiveHlc (localHlc : Option Hlc) (remote : Hlc) (physicalNowMs : ℤ) (replicaId : JsString) : Hlc :=
  let localWall := (localHlc.map Hlc.wallMs).getD 0
  let localCounter := (localHlc.map Hlc.counter).getD 0
  let wallMs := max (max localWall remote.wallMs) physicalNowMs
  let counter :=
    if wallMs = localWall ∧ wallMs = remote.wallMs then max localCounter remote.counter + 1
    else if wallMs = localWall then localCounter + 1
    else if wallMs = remote.wallMs then remote.counter + 1
    else 0
  ⟨wallMs, counter, replicaId⟩

/-- One entry of a history; `source` is the entry whose stamp was received. -/
structure ClockEvent (R : Type) where
  replica : R
  stamp : Hlc
  source : Option ℕ

structure Clocks (R : Type) where
  clock : R → Option Hlc
  events : List (ClockEvent R)

inductive ClockAction (R : Type)
  | tick (r : R) (now : ℤ)
  | receive (r : R) (message : ℕ) (now : ℤ)

namespace Clocks

variable {R : Type} [DecidableEq R]

def record (σ : Clocks R) (e : ClockEvent R) : Clocks R where
  clock := Function.update σ.clock e.replica (some e.stamp)
  events := σ.events ++ [e]

theorem record_clock (σ : Clocks R) (e : ClockEvent R) (r : R) :
    (σ.record e).clock r = if r = e.replica then some e.stamp else σ.clock r := Function.update_apply _ _ _ _

theorem record_events (σ : Clocks R) (e : ClockEvent R) : (σ.record e).events = σ.events ++ [e] := rfl

/-- A stamp may be received late, again or by several replicas, but not by its own. -/
def step (replicaId : R → JsString) (σ : Clocks R) : ClockAction R → Option (Clocks R)
  | .tick r now => some (σ.record ⟨r, tickHlc (σ.clock r) now (replicaId r), none⟩)
  | .receive r message now =>
    match σ.events[message]? with
    | some e =>
      if e.replica = r then none
      else some (σ.record ⟨r, receiveHlc (σ.clock r) e.stamp now (replicaId r), some message⟩)
    | none => none

def initial (clock : R → Option Hlc) : Clocks R := ⟨clock, []⟩

/-- The events `i` and `j` are one replica's, in this order, or `j` received the stamp of `i`. -/
def Precedes (σ : Clocks R) (i j : ℕ) : Prop :=
  ∃ d e, σ.events[i]? = some d ∧ σ.events[j]? = some e ∧ (i < j ∧ d.replica = e.replica ∨ e.source = some i)

def HappensBefore (σ : Clocks R) : ℕ → ℕ → Prop := Relation.TransGen σ.Precedes

end Clocks

section Order

variable {a b : Hlc}

def Hlc.key (a : Hlc) : ℤ ×ₗ ℤ ×ₗ JsString := toLex (a.wallMs, toLex (a.counter, a.replicaId))

theorem Hlc.key_injective : Function.Injective Hlc.key := by
  intro a b h
  obtain ⟨wallMs, counter, replicaId⟩ := a
  obtain ⟨wallMs', counter', replicaId'⟩ := b
  obtain ⟨rfl, h⟩ := Prod.mk.inj (toLex.injective h)
  obtain ⟨rfl, rfl⟩ := Prod.mk.inj (toLex.injective h)
  rfl

instance : LinearOrder Hlc := LinearOrder.lift' Hlc.key Hlc.key_injective

theorem Hlc.lt_iff : a < b ↔ a.wallMs < b.wallMs ∨
    a.wallMs = b.wallMs ∧ (a.counter < b.counter ∨ a.counter = b.counter ∧ a.replicaId < b.replicaId) := by
  change Hlc.key a < Hlc.key b ↔ _
  rw [Hlc.key, Hlc.key, Prod.Lex.toLex_lt_toLex, Prod.Lex.toLex_lt_toLex]

theorem compareHlc_neg_iff : compareHlc a b < 0 ↔ a < b := by
  rw [Hlc.lt_iff]
  unfold compareHlc
  split_ifs with hwall hlt hcounter hlt' hreplica hlt''
  · simp [hlt]
  · simp [hlt, hwall]
  · rw [not_not] at hwall
    simp [hwall, hlt']
  · rw [not_not] at hwall
    simp [hwall, hlt', hcounter]
  · rw [not_not] at hwall hcounter
    simp [hwall, hcounter, hlt'']
  · rw [not_not] at hwall hcounter
    simp [hwall, hcounter, hlt'']
  · rw [not_not] at hwall hcounter hreplica
    simp [hwall, hcounter, hreplica]

theorem compareHlc_eq_zero : compareHlc a b = 0 ↔ a = b := by
  constructor
  · intro h
    unfold compareHlc at h
    by_cases hwall : a.wallMs = b.wallMs
    · by_cases hcounter : a.counter = b.counter
      · by_cases hreplica : a.replicaId = b.replicaId
        · apply Hlc.key_injective
          rw [Hlc.key, Hlc.key, hwall, hcounter, hreplica]
        · split_ifs at h <;> omega
      · split_ifs at h <;> omega
    · split_ifs at h <;> omega
  · rintro rfl
    simp [compareHlc]

theorem compareHlc_pos_iff : 0 < compareHlc a b ↔ b < a := by
  rcases lt_trichotomy a b with h | rfl | h
  · exact iff_of_false (compareHlc_neg_iff.mpr h).not_gt h.not_gt
  · exact iff_of_false (compareHlc_eq_zero.mpr rfl).not_gt (lt_irrefl _)
  · refine iff_of_true ?_ h
    have hneg : ¬ compareHlc a b < 0 := fun hlt => h.not_gt (compareHlc_neg_iff.mp hlt)
    have hne : compareHlc a b ≠ 0 := fun he => h.ne' (compareHlc_eq_zero.mp he)
    omega

end Order

section Advance

theorem tickHlc_gt (prev : Hlc) (now : ℤ) (replicaId : JsString) :
    prev < tickHlc (some prev) now replicaId := by
  rw [Hlc.lt_iff, tickHlc]
  dsimp only
  split_ifs with h
  · exact Or.inr ⟨h.symm, Or.inl (by omega)⟩
  · exact Or.inl (by omega)

theorem receiveHlc_gt_local (prev remote : Hlc) (now : ℤ) (replicaId : JsString) :
    prev < receiveHlc (some prev) remote now replicaId := by
  rw [Hlc.lt_iff, receiveHlc]
  simp only [Option.map_some, Option.getD_some]
  split_ifs with hboth hlocal hremote
  · exact Or.inr ⟨hboth.1.symm, Or.inl (by omega)⟩
  · exact Or.inr ⟨hlocal.symm, Or.inl (by omega)⟩
  · exact Or.inl (by omega)
  · exact Or.inl (by omega)

theorem receiveHlc_gt_remote (localHlc : Option Hlc) (remote : Hlc) (now : ℤ) (replicaId : JsString) :
    remote < receiveHlc localHlc remote now replicaId := by
  rw [Hlc.lt_iff, receiveHlc]
  dsimp only
  split_ifs with hboth hlocal hremote
  · exact Or.inr ⟨hboth.2.symm, Or.inl (by omega)⟩
  -- the maximum is the local wall clock, and not the remote one
  · exact Or.inl (by omega)
  · exact Or.inr ⟨hremote.symm, Or.inl (by omega)⟩
  · exact Or.inl (by omega)

end Advance

namespace Clocks

variable {R : Type} [DecidableEq R] {replicaId : R → JsString} {σ τ : Clocks R} {e : ClockEvent R} {i j : ℕ}

structure Inv (replicaId : R → JsString) (σ : Clocks R) : Prop where
  stamped : ∀ e ∈ σ.events, e.stamp.replicaId = replicaId e.replica
  clock : ∀ e ∈ σ.events, ∃ c ∈ σ.clock e.replica, e.stamp ≤ c
  grows : ∀ (i j : ℕ) (d e : ClockEvent R), σ.events[i]? = some d → σ.events[j]? = some e →
    i < j ∧ d.replica = e.replica ∨ e.source = some i → i < j ∧ d.stamp < e.stamp
  sources : ∀ e ∈ σ.events, ∀ i, e.source = some i → i < σ.events.length

omit [DecidableEq R] in
theorem inv_initial (clock : R → Option Hlc) : (initial clock).Inv replicaId := by
  refine ⟨?_, ?_, ?_, ?_⟩ <;> simp [initial]

theorem inv_record (h : σ.Inv replicaId) (hstamp : e.stamp.replicaId = replicaId e.replica)
    (hclock : ∀ c ∈ σ.clock e.replica, c < e.stamp)
    (hsource : ∀ i, e.source = some i → ∃ d, σ.events[i]? = some d ∧ d.stamp < e.stamp) :
    (σ.record e).Inv replicaId where
  stamped d hd := by
    rcases List.mem_append.mp hd with hd | hd
    · exact h.stamped d hd
    · rwa [List.mem_singleton.mp hd]
  clock d hd := by
    rw [record_clock]
    by_cases hr : d.replica = e.replica
    · refine ⟨e.stamp, if_pos hr, ?_⟩
      rcases List.mem_append.mp hd with hd | hd
      · obtain ⟨c, hc, hle⟩ := h.clock d hd
        exact hle.trans (hclock c (hr ▸ hc)).le
      · rw [List.mem_singleton.mp hd]
    · obtain ⟨c, hc, hle⟩ :=
        h.clock d ((List.mem_append.mp hd).resolve_right fun hd => hr (by rw [List.mem_singleton.mp hd]))
      exact ⟨c, by rwa [if_neg hr], hle⟩
  grows i j d d' hd hd' hij := by
    rw [record_events] at hd hd'
    have hnew : ∀ {k f}, (σ.events ++ [e])[k]? = some f → k ≠ σ.events.length → σ.events[k]? = some f := by
      intro k f hf hk
      have hlt := (List.getElem?_eq_some_iff.mp hf).1
      rw [List.length_append, List.length_singleton] at hlt
      rwa [List.getElem?_append_left (by omega)] at hf
    by_cases hj : j = σ.events.length
    · subst hj
      rw [List.getElem?_append_right le_rfl, Nat.sub_self] at hd'
      obtain rfl : e = d' := Option.some.inj hd'
      rcases hij with ⟨hlt, hr⟩ | hs
      · obtain ⟨c, hc, hle⟩ := h.clock d (List.mem_of_getElem? (hnew hd hlt.ne))
        exact ⟨hlt, hle.trans_lt (hclock c (hr ▸ hc))⟩
      · obtain ⟨f, hf, hlt⟩ := hsource i hs
        have hi := (List.getElem?_eq_some_iff.mp hf).1
        rw [List.getElem?_append_left hi, hf] at hd
        exact ⟨hi, Option.some.inj hd ▸ hlt⟩
    · have hd' := hnew hd' hj
      have hj := (List.getElem?_eq_some_iff.mp hd').1
      have hi : i ≠ σ.events.length := by
        rcases hij with ⟨hlt, -⟩ | hs
        · omega
        · exact (h.sources d' (List.mem_of_getElem? hd') i hs).ne
      exact h.grows i j d d' (hnew hd hi) hd' hij
  sources d hd i hs := by
    rw [record_events, List.length_append, List.length_singleton]
    rcases List.mem_append.mp hd with hd | hd
    · exact (h.sources d hd i hs).trans (Nat.lt_succ_self _)
    · rw [List.mem_singleton.mp hd] at hs
      obtain ⟨f, hf, -⟩ := hsource i hs
      exact (List.getElem?_eq_some_iff.mp hf).1.trans (Nat.lt_succ_self _)

theorem inv_step {a : ClockAction R} (h : σ.Inv replicaId) (hstep : σ.step replicaId a = some τ) :
    τ.Inv replicaId := by
  cases a with
  | tick r now =>
    cases hstep
    refine inv_record h ?_ ?_ (by simp)
    · change (tickHlc (σ.clock r) now (replicaId r)).replicaId = replicaId r
      unfold tickHlc
      split <;> rfl
    · intro c hc
      change c < tickHlc (σ.clock r) now (replicaId r)
      rw [show σ.clock r = some c from hc]
      exact tickHlc_gt c now _
  | receive r message now =>
    simp only [step] at hstep
    split at hstep
    · rename_i d hd
      split_ifs at hstep
      cases hstep
      refine inv_record h rfl ?_ ?_
      · intro c hc
        change c < receiveHlc (σ.clock r) d.stamp now (replicaId r)
        rw [show σ.clock r = some c from hc]
        exact receiveHlc_gt_local c d.stamp now _
      · rintro i ⟨⟩
        exact ⟨d, hd, receiveHlc_gt_remote _ _ _ _⟩
    · cases hstep

variable {a : ClockAction R}

omit [DecidableEq R] in
theorem Inv.happensBefore (h : σ.Inv replicaId) (hij : σ.HappensBefore i j) :
    ∃ d e, σ.events[i]? = some d ∧ σ.events[j]? = some e ∧ d.stamp < e.stamp := by
  induction hij with
  | single hstep =>
    obtain ⟨d, e, hd, he, hcase⟩ := hstep
    exact ⟨d, e, hd, he, (h.grows _ _ d e hd he hcase).2⟩
  | tail _ hstep ih =>
    obtain ⟨d, e, hd, he, hlt⟩ := ih
    obtain ⟨e', f, he', hf, hcase⟩ := hstep
    obtain rfl := Option.some.inj (he.symm.trans he')
    exact ⟨d, f, hd, hf, hlt.trans (h.grows _ _ e f he hf hcase).2⟩

omit [DecidableEq R] in
theorem Inv.distinct (h : σ.Inv replicaId) (hids : Function.Injective replicaId) {d : ClockEvent R}
    (hd : σ.events[i]? = some d) (he : σ.events[j]? = some e) (hij : i ≠ j) : d.stamp ≠ e.stamp := by
  intro hstamp
  have hr : d.replica = e.replica := by
    apply hids
    rw [← h.stamped d (List.mem_of_getElem? hd), ← h.stamped e (List.mem_of_getElem? he), hstamp]
  rcases Nat.lt_or_gt_of_ne hij with hlt | hgt
  · exact (h.grows i j d e hd he (Or.inl ⟨hlt, hr⟩)).2.ne hstamp
  · exact (h.grows j i e d he hd (Or.inl ⟨hgt, hr.symm⟩)).2.ne hstamp.symm

end Clocks

/-- In every run stamps grow along the happens-before order, and no two events have one stamp if the
replica ids differ; and `compareHlc` is a strict total order on stamps. -/
theorem hlc_causality {R : Type} [DecidableEq R] {replicaId : R → JsString} {clock : R → Option Hlc}
    {σ : Clocks R} (h : Runs (Clocks.step replicaId) (fun _ _ => True) (Clocks.initial clock) σ) :
    (∀ i j, σ.HappensBefore i j → ∃ d e : ClockEvent R, σ.events[i]? = some d ∧ σ.events[j]? = some e ∧
      compareHlc d.stamp e.stamp < 0) ∧
    (Function.Injective replicaId → ∀ (i j : ℕ) (d e : ClockEvent R), σ.events[i]? = some d →
      σ.events[j]? = some e → i ≠ j → d.stamp ≠ e.stamp) ∧
    IsStrictTotalOrder Hlc (fun a b => compareHlc a b < 0) ∧
    ∀ a b : Hlc, (compareHlc a b = 0 ↔ a = b) ∧ (0 < compareHlc a b ↔ compareHlc b a < 0) := by
  have hinv : σ.Inv replicaId :=
    h.invariant (fun hi _ hstep => Clocks.inv_step hi hstep) (Clocks.inv_initial clock)
  refine ⟨?_, ?_, ?_, ?_⟩
  · intro i j hij
    obtain ⟨d, e, hd, he, hlt⟩ := hinv.happensBefore hij
    exact ⟨d, e, hd, he, compareHlc_neg_iff.mpr hlt⟩
  · exact fun hids i j d e hd he hij => hinv.distinct hids hd he hij
  · have heq : (fun a b : Hlc => compareHlc a b < 0) = fun a b => a < b := by
      funext a b
      exact propext compareHlc_neg_iff
    rw [heq]
    infer_instance
  · intro a b
    rw [compareHlc_eq_zero, compareHlc_pos_iff, compareHlc_neg_iff]
    exact ⟨Iff.rfl, Iff.rfl⟩

section Example

def clockIds (r : Bool) : JsString := if r then js ['a'] else js ['b']

def exchange : List (ClockAction Bool) := [.tick true 5, .receive false 0 2, .tick false 2, .receive true 2 1]

theorem hlc_causality_exchange :
    ∃ σ, execute (Clocks.step clockIds) (Clocks.initial fun _ => none) exchange = some σ ∧
      σ.events.map (fun e => (e.stamp.wallMs, e.stamp.counter)) = [(5, 0), (5, 1), (5, 2), (5, 3)] ∧
      (∃ d e : ClockEvent Bool, σ.events[0]? = some d ∧ σ.events[3]? = some e ∧
        compareHlc d.stamp e.stamp < 0) ∧
      ∀ d e : ClockEvent Bool, σ.events[0]? = some d → σ.events[1]? = some e → d.stamp ≠ e.stamp := by
  have hrun : ∃ σ, execute (Clocks.step clockIds) (Clocks.initial fun _ => none) exchange = some σ ∧
      σ.events.map (fun e => (e.stamp.wallMs, e.stamp.counter)) = [(5, 0), (5, 1), (5, 2), (5, 3)] ∧
      σ.Precedes 0 1 ∧ σ.Precedes 1 2 ∧ σ.Precedes 2 3 :=
    ⟨_, rfl, by decide, ⟨_, _, rfl, rfl, Or.inr rfl⟩, ⟨_, _, rfl, rfl, Or.inl ⟨by decide, rfl⟩⟩,
      ⟨_, _, rfl, rfl, Or.inr rfl⟩⟩
  obtain ⟨σ, hσ, hstamps, h01, h12, h23⟩ := hrun
  have hcausal := hlc_causality (execute_runs hσ)
  refine ⟨σ, hσ, hstamps, hcausal.1 0 3 (((Relation.TransGen.single h01).tail h12).tail h23), ?_⟩
  intro d e hd he
  refine hcausal.2.1 ?_ 0 1 d e hd he (by decide)
  unfold Function.Injective
  decide

end Example

end OpenOutliner
