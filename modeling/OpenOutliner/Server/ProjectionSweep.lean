import OpenOutliner.Server.GcSafety

/-!
When projection passes run: a while after a store, and in the sweeps over all documents that are behind. A
document that fails holds up nobody, and what a restart forgets is found by the next sweep.
-/

namespace OpenOutliner

open Foundations

/-- Who waits for a call of `projectDocument`: nobody but a timer's callback, or a sweep. -/
inductive ProjectionWaiter
  | timer
  | sweep (k : ℕ)
deriving DecidableEq

/-- `since` is history: the revision of the document when the call was made. -/
structure ProjectionCall (D : Type) where
  document : D
  waiter : ProjectionWaiter
  since : ℕ

structure ProjectionSweep (D T : Type) where
  rest : List D
  running : Option T

/-- The documents and one server process. `timers` are the keys of its debounce timers; `failures` is
history: the calls that threw since the process started. -/
structure Fleet (D T S P Uuid : Type) [DecidableEq Uuid] where
  servers : D → Server T S P Uuid
  documents : List D
  timers : Finset D
  calls : T → Option (ProjectionCall D)
  sweeps : ℕ → Option (ProjectionSweep D T)
  failures : List (ProjectionCall D)

inductive FleetAction (D T S P Uuid : Type)
  | create (d : D)
  | act (d : D) (a : ServerAction T S P Uuid)
  | schedule (d : D)
  | fire (d : D) (p : T)
  | sweep (k : ℕ)
  | next (k : ℕ) (p : T)
  | restart

def ServerAction.pass {T S P Uuid : Type} : ServerAction T S P Uuid → Option T
  | .load p | .project p _ _ | .giveUp p => some p
  | _ => none

namespace Fleet

variable {D T S P Uuid : Type} [DecidableEq D] [DecidableEq T] [SemilatticeSup S] [OrderBot S]
  [DecidableEq P] [DecidableEq Uuid] (docs : YjsDocs S P) (lib : FractionalIndexing)
  (uuids : UuidText Uuid) (replicaId : JsString) (threshold batchSize : ℕ)

def start (items : D → Items Uuid) : Fleet D T S P Uuid :=
  ⟨fun d => Server.initial (some 0) (items d), [], ∅, fun _ => none, fun _ => none, []⟩

def rev (φ : Fleet D T S P Uuid) (d : D) : ℕ := (φ.servers d).log.rev

def projectedRev (φ : Fleet D T S P Uuid) (d : D) : ℕ := (φ.servers d).projectedRev

def mayAct (φ : Fleet D T S P Uuid) (d : D) (a : ServerAction T S P Uuid) : Bool :=
  match a.pass with
  | none => true
  | some p => (φ.calls p).any fun call => call.document = d

def settle (φ : Fleet D T S P Uuid) (p : T) : Fleet D T S P Uuid :=
  { φ with
    calls := Function.update φ.calls p none
    sweeps := fun k => (φ.sweeps k).map fun w => if w.running = some p
      then { w with running := none } else w }

def step (φ : Fleet D T S P Uuid) : FleetAction D T S P Uuid → Option (Fleet D T S P Uuid)
  | .create d => if d ∈ φ.documents then none else some { φ with documents := φ.documents ++ [d] }
  | .act d a =>
    if d ∈ φ.documents ∧ φ.mayAct d a = true then
      ((φ.servers d).step docs lib uuids replicaId threshold batchSize a).map fun s =>
        let φ' : Fleet D T S P Uuid := { φ with servers := Function.update φ.servers d s }
        match a with
        | .project p _ _ => φ'.settle p
        | .giveUp p => { φ' with failures := (φ.calls p).toList ++ φ.failures }.settle p
        | _ => φ'
    else none
  | .schedule d => if d ∈ φ.documents then some { φ with timers := insert d φ.timers } else none
  | .fire d p =>
    if d ∈ φ.timers ∧ (φ.calls p).isNone = true then
      some { φ with
        timers := φ.timers.erase d
        calls := Function.update φ.calls p (some ⟨d, .timer, φ.rev d⟩) }
    else none
  | .sweep k =>
    if (φ.sweeps k).isSome then none
    else
      let behind := φ.documents.filter fun d => φ.projectedRev d < φ.rev d
      some { φ with sweeps := Function.update φ.sweeps k (some ⟨behind, none⟩) }
  | .next k p =>
    match φ.sweeps k, φ.calls p with
    | some ⟨d :: rest, none⟩, none =>
      some { φ with
        calls := Function.update φ.calls p (some ⟨d, .sweep k, φ.rev d⟩)
        sweeps := Function.update φ.sweeps k (some ⟨rest, some p⟩) }
    | _, _ => none
  -- the database stays, and its transactions are rolled back one by one
  | .restart => some { φ with
      servers := fun d => { φ.servers d with passes := fun _ => none }
      timers := ∅
      calls := fun _ => none
      sweeps := fun _ => none
      failures := [] }

end Fleet

theorem update_lookup {T X : Type} [DecidableEq T] {table : T → Option X} {p q : T} {x : X} {y : Option X}
    (h : Function.update table p y q = some x) : q = p ∧ y = some x ∨ q ≠ p ∧ table q = some x := by
  by_cases hq : q = p
  · subst hq
    rw [Function.update_self] at h
    exact Or.inl ⟨rfl, h⟩
  · rw [Function.update_of_ne hq] at h
    exact Or.inr ⟨hq, h⟩

theorem ne_of_lookup {T X : Type} {table : T → Option X} {p q : T} {x : X} (hp : table p = none)
    (hq : table q = some x) : q ≠ p := by
  rintro rfl
  exact Option.some_ne_none x (hq.symm.trans hp)

section Passes

variable {T S P Uuid : Type} [DecidableEq T] [SemilatticeSup S] [OrderBot S] [DecidableEq P]
  [DecidableEq Uuid]
  {docs : YjsDocs S P} {lib : FractionalIndexing} {uuids : UuidText Uuid} {replicaId : JsString}
  {threshold batchSize : ℕ} {σ τ : Server T S P Uuid} {log : Log T P} {a : ServerAction T S P Uuid}

def Log.Counted (log : Log T P) : Prop := log.rows = ∅ → log.rev = 0

theorem Log.Counted.step {b : LogAction T P} {c : Codec S P} {log' : Log T P} (h : log.Counted)
    (hstep : log.step c threshold b = some log') : log'.Counted := by
  by_cases hcommit : ∀ t, b ≠ .commit t
  · obtain ⟨hrows, hsource, -⟩ := step_unchanged hstep hcommit
    unfold Counted Log.rev at h ⊢
    rwa [hrows, hsource]
  · simp only [not_forall, not_not] at hcommit
    obtain ⟨t, rfl⟩ := hcommit
    simp only [Log.step] at hstep
    split at hstep
    · cases hstep
      exact fun hempty => absurd hempty (Finset.insert_ne_empty _ _)
    · cases hstep
      exact fun hempty => absurd hempty (Finset.insert_ne_empty _ _)
    · cases hstep

omit [DecidableEq T] in
theorem Log.Counted.load {c : Codec S P} {strict : Bool} {s : S} {r : ℕ} (h : log.Counted)
    (hload : log.loadDocumentSnapshot c strict = some (s, r)) : r = log.rev := by
  unfold Log.loadDocumentSnapshot at hload
  split at hload
  · rename_i hsource
    cases hload
    rw [Log.rev, hsource, Option.getD_none]
  · rename_i revision hsource
    split_ifs at hload with hempty
    · cases hload
      exact (h hempty).symm
    · cases hload
      rw [Log.rev, hsource, Option.getD_some]

namespace Server

theorem step_passes (hstep : σ.step docs lib uuids replicaId threshold batchSize a = some τ)
    (hpass : a.pass = none) :
    τ.passes = σ.passes := by
  cases a with
  | load p | project p now foreign | giveUp p => cases hpass
  | room s | ledger rows | connections unsynced | gcAbort t =>
    cases hstep
    rfl
  | _ =>
    simp only [step] at hstep
    repeat' split at hstep
    all_goals first
      | cases hstep; rfl
      | cases hstep
      | (obtain ⟨log, -, rfl⟩ := Option.map_eq_some_iff.mp hstep; rfl)

structure PassStep (σ : Server T S P Uuid) (a : ServerAction T S P Uuid) (τ : Server T S P Uuid) : Prop where
  rev : σ.log.rev ≤ τ.log.rev
  projectedRev : σ.projectedRev ≤ τ.projectedRev
  counted : σ.log.Counted → τ.log.Counted
  loaded : σ.log.Counted → ∀ q s r, τ.passes q = some (s, r) →
    a.pass ≠ some q ∧ σ.passes q = some (s, r) ∨ a = .load q ∧ r = σ.log.rev
  project : ∀ p now foreign, a = .project p now foreign → ∃ s r, σ.passes p = some (s, r) ∧ r ≤ τ.projectedRev

omit [DecidableEq P] in
theorem passStep_project {p : T} {now : ℤ} {foreign : Uuid → Bool} (h : σ.Inv docs uuids)
    (hstep : σ.projectStep docs lib uuids replicaId p now foreign = some τ) :
    σ.PassStep (.project p now foreign) τ := by
  obtain ⟨s, r, items, projectedRev, hpass, -, htx, rfl⟩ := project_cases hstep
  have hr := (h.passes p s r hpass).1
  -- a pass that is refused finds its own revision projected, as no revision is ahead of the log's
  have hrevs : σ.projectedRev ≤ projectedRev ∧ r ≤ projectedRev := by
    by_cases hguard : σ.log.rev ≤ σ.projectedRev ∨ r ≤ σ.projectedRev
    · rw [(projectTx_refused htx hguard).2]
      exact ⟨le_rfl, hguard.elim hr.trans id⟩
    · rw [(projectTx_applied htx hguard).1]
      rw [not_or, not_le, not_le] at hguard
      exact ⟨hguard.2.le, le_rfl⟩
  refine ⟨le_rfl, hrevs.1, id, ?_, ?_⟩
  · intro _ q s' r' hq
    obtain ⟨-, hnone⟩ | ⟨hqp, hq⟩ := update_lookup hq
    · cases hnone
    · exact Or.inl ⟨fun he => hqp (Option.some.inj he).symm, hq⟩
  · rintro p' now' foreign' ⟨⟩
    exact ⟨s, r, hpass, hrevs.2⟩

theorem passStep_quiet (h : σ.Inv docs uuids) (hq : Quiet docs threshold a σ τ)
    (hloaded : σ.log.Counted → ∀ q s r, τ.passes q = some (s, r) →
      a.pass ≠ some q ∧ σ.passes q = some (s, r) ∨ a = .load q ∧ r = σ.log.rev)
    (hproject : ∀ p now foreign, a ≠ .project p now foreign) : σ.PassStep a τ := by
  refine ⟨(quiet_extends h hq).rev, hq.projectedRev.ge, ?_, hloaded,
    fun p now foreign he => absurd he (hproject p now foreign)⟩
  cases hq.log with
  | inl he => exact he ▸ id
  | inr hb =>
    obtain ⟨b, hb⟩ := hb
    exact fun hcounted => hcounted.step hb

theorem passStep (h : σ.Inv docs uuids)
    (hstep : σ.step docs lib uuids replicaId threshold batchSize a = some τ) :
    σ.PassStep a τ := by
  cases ha : a.pass with
  | none =>
    have hsame := step_passes hstep ha
    have hloaded : σ.log.Counted → ∀ q s r, τ.passes q = some (s, r) →
        a.pass ≠ some q ∧ σ.passes q = some (s, r) ∨ a = .load q ∧ r = σ.log.rev := by
      intro _ q s r hq
      rw [hsame] at hq
      exact Or.inl ⟨by rw [ha]; exact (Option.some_ne_none q).symm, hq⟩
    have hproject : ∀ p now foreign, a ≠ .project p now foreign := by
      rintro p now foreign rfl
      cases ha
    obtain hq | ⟨t, rfl⟩ | ⟨p, now, foreign, he⟩ := step_cases hstep
    · exact passStep_quiet h hq hloaded hproject
    · obtain ⟨ids, room, rev, -, rfl⟩ := gcDelete_cases hstep
      exact ⟨le_rfl, le_rfl, id, hloaded, fun p now foreign he => absurd he (hproject p now foreign)⟩
    · exact absurd he (hproject p now foreign)
  | some p =>
    cases a with
    | project p now foreign => exact passStep_project h hstep
    | load p =>
      refine passStep_quiet h (step_quiet hstep (by simp) (by simp)) ?_ (by simp)
      obtain ⟨⟨s, r⟩, hload, rfl⟩ := Option.map_eq_some_iff.mp hstep
      intro hcounted q s' r' hq
      obtain ⟨rfl, hnew⟩ | ⟨hqp, hq⟩ := update_lookup hq
      · obtain ⟨rfl, rfl⟩ := Prod.mk.inj (Option.some.inj hnew)
        exact Or.inr ⟨rfl, hcounted.load hload⟩
      · exact Or.inl ⟨fun he => hqp (Option.some.inj he).symm, hq⟩
    | giveUp p =>
      refine passStep_quiet h (step_quiet hstep (by simp) (by simp)) ?_ (by simp)
      cases hstep
      intro _ q s' r' hq
      obtain ⟨-, hnone⟩ | ⟨hqp, hq⟩ := update_lookup hq
      · cases hnone
      · exact Or.inl ⟨fun he => hqp (Option.some.inj he).symm, hq⟩
    | _ => cases ha

end Server

end Passes

namespace Fleet

variable {D T S P Uuid : Type} [DecidableEq D] [DecidableEq T] [SemilatticeSup S] [OrderBot S] [DecidableEq P]
  [DecidableEq Uuid] {docs : YjsDocs S P} {lib : FractionalIndexing} {uuids : UuidText Uuid}
  {replicaId : JsString} {threshold batchSize : ℕ} {φ ψ : Fleet D T S P Uuid} {d : D} {p : T} {k r : ℕ}

structure Inv (docs : YjsDocs S P) (uuids : UuidText Uuid) (φ : Fleet D T S P Uuid) : Prop where
  servers : ∀ d, (φ.servers d).Inv docs uuids
  counted : ∀ d, (φ.servers d).log.Counted
  called : ∀ p call, φ.calls p = some call → call.since ≤ φ.rev call.document
  loaded : ∀ d p s r, (φ.servers d).passes p = some (s, r) →
    ∃ call, φ.calls p = some call ∧ call.document = d ∧ call.since ≤ r
  awaited : ∀ p call k, φ.calls p = some call → call.waiter = .sweep k →
    ∃ w, φ.sweeps k = some w ∧ w.running = some p

def Handled (φ : Fleet D T S P Uuid) (waiter : ProjectionWaiter) (d : D) (r : ℕ) : Prop :=
  r ≤ φ.projectedRev d ∨
    (∃ p call, φ.calls p = some call ∧ call.waiter = waiter ∧ call.document = d ∧ r ≤ call.since) ∨
    ∃ call ∈ φ.failures, call.waiter = waiter ∧ call.document = d ∧ r ≤ call.since

structure Moves (φ ψ : Fleet D T S P Uuid) : Prop where
  rev : ∀ d, φ.rev d ≤ ψ.rev d
  projectedRev : ∀ d, φ.projectedRev d ≤ ψ.projectedRev d
  failures : φ.failures ⊆ ψ.failures
  calls : ∀ p call, φ.calls p = some call →
    ψ.calls p = some call ∨ call.since ≤ ψ.projectedRev call.document ∨ call ∈ ψ.failures
  timers : ∀ d ∈ φ.timers, d ∈ ψ.timers ∨ ∃ p, ψ.calls p = some ⟨d, .timer, φ.rev d⟩
  sweeps : ∀ k w, φ.sweeps k = some w → ∃ w', ψ.sweeps k = some w' ∧
    ∀ d ∈ w.rest, d ∈ w'.rest ∨ ∃ p, ψ.calls p = some ⟨d, .sweep k, φ.rev d⟩

omit [DecidableEq D] [DecidableEq T] [SemilatticeSup S] [OrderBot S] [DecidableEq P] in
theorem moves_idle {documents : List D} {timers : Finset D} (htimers : φ.timers ⊆ timers) :
    Moves φ { φ with documents, timers } :=
  ⟨fun _ => le_rfl, fun _ => le_rfl, List.Subset.refl _, fun _ _ h => Or.inl h, fun _ h => Or.inl (htimers h),
    fun _ w h => ⟨w, h, fun _ hd => Or.inl hd⟩⟩

omit [DecidableEq T] [SemilatticeSup S] [OrderBot S] [DecidableEq P] in
theorem revs_update {s : Server T S P Uuid} {a : ServerAction T S P Uuid}
    (hpass : (φ.servers d).PassStep a s) (e : D) :
    φ.rev e ≤ (Function.update φ.servers d s e).log.rev ∧
      φ.projectedRev e ≤ (Function.update φ.servers d s e).projectedRev := by
  by_cases he : e = d
  · subst he
    rw [Function.update_self]
    exact ⟨hpass.rev, hpass.projectedRev⟩
  · rw [Function.update_of_ne he]
    exact ⟨le_rfl, le_rfl⟩

theorem create_cases (hstep : φ.step docs lib uuids replicaId threshold batchSize (.create d) = some ψ) :
    ψ = { φ with documents := φ.documents ++ [d] } := by
  simp only [step] at hstep
  split at hstep
  · cases hstep
  · exact (Option.some.inj hstep).symm

theorem schedule_cases (hstep : φ.step docs lib uuids replicaId threshold batchSize (.schedule d) = some ψ) :
    ψ = { φ with timers := insert d φ.timers } := by
  simp only [step] at hstep
  split at hstep
  · exact (Option.some.inj hstep).symm
  · cases hstep

theorem fire_cases (hstep : φ.step docs lib uuids replicaId threshold batchSize (.fire d p) = some ψ) :
    φ.calls p = none ∧ ψ = { φ with
      timers := φ.timers.erase d
      calls := Function.update φ.calls p (some ⟨d, .timer, φ.rev d⟩) } := by
  simp only [step] at hstep
  split at hstep
  · rename_i hfree
    exact ⟨Option.isNone_iff_eq_none.mp hfree.2, (Option.some.inj hstep).symm⟩
  · cases hstep

theorem sweep_cases (hstep : φ.step docs lib uuids replicaId threshold batchSize (.sweep k) = some ψ) :
    φ.sweeps k = none ∧ ψ = { φ with
      sweeps := Function.update φ.sweeps k
        (some ⟨φ.documents.filter fun d => φ.projectedRev d < φ.rev d, none⟩) } := by
  simp only [step] at hstep
  split at hstep
  · cases hstep
  · rename_i hnew
    exact ⟨Option.not_isSome_iff_eq_none.mp hnew, (Option.some.inj hstep).symm⟩

theorem next_cases (hstep : φ.step docs lib uuids replicaId threshold batchSize (.next k p) = some ψ) :
    ∃ d rest, φ.sweeps k = some ⟨d :: rest, none⟩ ∧ φ.calls p = none ∧ ψ = { φ with
      calls := Function.update φ.calls p (some ⟨d, .sweep k, φ.rev d⟩)
      sweeps := Function.update φ.sweeps k (some ⟨rest, some p⟩) } := by
  simp only [step] at hstep
  split at hstep
  · rename_i d rest hsweep hfree
    exact ⟨d, rest, hsweep, hfree, (Option.some.inj hstep).symm⟩
  · cases hstep

theorem act_cases {a : ServerAction T S P Uuid}
    (hstep : φ.step docs lib uuids replicaId threshold batchSize (.act d a) = some ψ) :
    ∃ s, φ.mayAct d a = true ∧ (φ.servers d).step docs lib uuids replicaId threshold batchSize a = some s ∧
      (ψ = { φ with servers := Function.update φ.servers d s } ∨
        ∃ p failures, a.pass = some p ∧ (∀ q, a ≠ .load q) ∧
          ψ = ({ φ with servers := Function.update φ.servers d s, failures } : Fleet D T S P Uuid).settle p ∧
          ((∃ now foreign, a = .project p now foreign) ∧ failures = φ.failures ∨
            failures = (φ.calls p).toList ++ φ.failures)) := by
  simp only [step] at hstep
  split at hstep
  · rename_i hmay
    obtain ⟨s, hs, hψ⟩ := Option.map_eq_some_iff.mp hstep
    refine ⟨s, hmay.2, hs, ?_⟩
    cases a with
    | project p now foreign =>
      exact Or.inr ⟨p, φ.failures, rfl, by simp, hψ.symm, Or.inl ⟨⟨now, foreign, rfl⟩, rfl⟩⟩
    | giveUp p => exact Or.inr ⟨p, _, rfl, by simp, hψ.symm, Or.inr rfl⟩
    | _ => exact Or.inl hψ.symm
  · cases hstep

omit [DecidableEq T] [SemilatticeSup S] [OrderBot S] [DecidableEq P] in
theorem mayAct_call {a : ServerAction T S P Uuid} (h : φ.mayAct d a = true) (hpass : a.pass = some p) :
    ∃ call, φ.calls p = some call ∧ call.document = d := by
  unfold mayAct at h
  rw [hpass] at h
  dsimp only at h
  rw [Option.any_eq_true] at h
  obtain ⟨call, hcall, hd⟩ := h
  exact ⟨call, hcall, of_decide_eq_true hd⟩

omit [DecidableEq D] [SemilatticeSup S] [OrderBot S] [DecidableEq P] in
theorem settle_sweeps (φ : Fleet D T S P Uuid) (p : T) {w : ProjectionSweep D T} (hw : φ.sweeps k = some w) :
    ∃ w', (φ.settle p).sweeps k = some w' ∧ w'.rest = w.rest ∧
    (w.running ≠ some p → w'.running = w.running) := by
  refine ⟨if w.running = some p then { w with running := none } else w, ?_, ?_, fun hne => by rw [if_neg hne]⟩
  · change (φ.sweeps k).map _ = _
    rw [hw, Option.map_some]
  · split <;> rfl

theorem moves_act {a : ServerAction T S P Uuid} (h : φ.Inv docs uuids)
    (hstep : φ.step docs lib uuids replicaId threshold batchSize (.act d a) = some ψ) : Moves φ ψ := by
  obtain ⟨s, hmay, hs, rfl | ⟨p, failures, hp, -, rfl, hends⟩⟩ := act_cases hstep
  · have hpass := Server.passStep (h.servers d) hs
    exact ⟨fun e => (revs_update hpass e).1, fun e => (revs_update hpass e).2, List.Subset.refl _,
      fun _ _ hc => Or.inl hc,
      fun _ ht => Or.inl ht, fun _ w hw => ⟨w, hw, fun _ hd => Or.inl hd⟩⟩
  · have hpass := Server.passStep (h.servers d) hs
    refine ⟨fun e => (revs_update hpass e).1, fun e => (revs_update hpass e).2, ?_, ?_,
      fun _ ht => Or.inl ht, ?_⟩
    · obtain ⟨-, rfl⟩ | rfl := hends
      · exact List.Subset.refl _
      · exact List.subset_append_right _ _
    · intro q call hcall
      by_cases hq : q = p
      · subst hq
        obtain ⟨⟨now, foreign, rfl⟩, rfl⟩ | rfl := hends
        -- the pass had loaded a revision that the call waits for
        · obtain ⟨s', r, hloaded, hr⟩ := hpass.project q now foreign rfl
          obtain ⟨call', hcall', rfl, hsince⟩ := h.loaded d q s' r hloaded
          obtain rfl := Option.some.inj (hcall.symm.trans hcall')
          refine Or.inr (Or.inl ?_)
          change call.since ≤ (Function.update φ.servers call.document s call.document).projectedRev
          rw [Function.update_self]
          exact hsince.trans hr
        · refine Or.inr (Or.inr (List.mem_append_left _ ?_))
          rw [hcall]
          exact List.mem_singleton_self call
      · refine Or.inl ?_
        change Function.update φ.calls p none q = some call
        rw [Function.update_of_ne hq]
        exact hcall
    · intro k w hw
      obtain ⟨w', hw', hrest, -⟩ := settle_sweeps
        ({ φ with servers := Function.update φ.servers d s, failures } : Fleet D T S P Uuid) p hw
      exact ⟨w', hw', fun e he => Or.inl (hrest ▸ he)⟩

omit [DecidableEq D] [SemilatticeSup S] [OrderBot S] [DecidableEq P] in
theorem calls_kept {call new : ProjectionCall D} {q : T} (hfree : φ.calls p = none)
    (hcall : φ.calls q = some call) :
    Function.update φ.calls p (some new) q = some call := by
  rw [Function.update_of_ne (ne_of_lookup hfree hcall), hcall]

theorem step_moves (h : φ.Inv docs uuids) {a : FleetAction D T S P Uuid} (ha : a ≠ .restart)
    (hstep : φ.step docs lib uuids replicaId threshold batchSize a = some ψ) : Moves φ ψ := by
  cases a with
  | restart => exact absurd rfl ha
  | act d a => exact moves_act h hstep
  | create d =>
    obtain rfl := create_cases hstep
    exact moves_idle (Finset.Subset.refl _)
  | schedule d =>
    obtain rfl := schedule_cases hstep
    exact moves_idle (Finset.subset_insert _ _)
  | fire d p =>
    obtain ⟨hfree, rfl⟩ := fire_cases hstep
    refine ⟨fun _ => le_rfl, fun _ => le_rfl, List.Subset.refl _,
      fun q call hcall => Or.inl (calls_kept hfree hcall), ?_,
      fun _ w hw => ⟨w, hw, fun _ he => Or.inl he⟩⟩
    intro e he
    by_cases hed : e = d
    · exact Or.inr ⟨p, hed ▸ Function.update_self ..⟩
    · exact Or.inl (Finset.mem_erase.mpr ⟨hed, he⟩)
  | sweep k =>
    obtain ⟨hnew, rfl⟩ := sweep_cases hstep
    refine ⟨fun _ => le_rfl, fun _ => le_rfl, List.Subset.refl _, fun _ _ hcall => Or.inl hcall,
      fun _ he => Or.inl he, ?_⟩
    intro j w hw
    exact ⟨w, (Function.update_of_ne (ne_of_lookup hnew hw) ..).trans hw, fun _ he => Or.inl he⟩
  | next k p =>
    obtain ⟨d, rest, hsweep, hfree, rfl⟩ := next_cases hstep
    refine ⟨fun _ => le_rfl, fun _ => le_rfl, List.Subset.refl _,
      fun q call hcall => Or.inl (calls_kept hfree hcall),
      fun _ he => Or.inl he, ?_⟩
    intro j w hw
    by_cases hj : j = k
    · subst hj
      obtain rfl := Option.some.inj (hsweep.symm.trans hw)
      refine ⟨_, Function.update_self .., ?_⟩
      intro e he
      cases List.mem_cons.mp he with
      | inl hed => exact Or.inr ⟨p, hed ▸ Function.update_self ..⟩
      | inr he => exact Or.inl he
    · exact ⟨w, (Function.update_of_ne hj ..).trans hw, fun _ he => Or.inl he⟩

omit [DecidableEq D] [DecidableEq T] [SemilatticeSup S] [OrderBot S] [DecidableEq P] in
theorem Moves.handled {waiter : ProjectionWaiter} (hm : Moves φ ψ) (h : φ.Handled waiter d r) :
    ψ.Handled waiter d r := by
  obtain hdone | ⟨p, call, hcall, rfl, rfl, hr⟩ | ⟨call, hmem, hcall⟩ := h
  · exact Or.inl (hdone.trans (hm.projectedRev d))
  · obtain hkept | hdone | hfailed := hm.calls p call hcall
    · exact Or.inr (Or.inl ⟨p, call, hkept, rfl, rfl, hr⟩)
    · exact Or.inl (hr.trans hdone)
    · exact Or.inr (Or.inr ⟨call, hfailed, rfl, rfl, hr⟩)
  · exact Or.inr (Or.inr ⟨call, hm.failures hmem, hcall⟩)

/-- What a scheduled pass owes. -/
def Due (φ : Fleet D T S P Uuid) (d : D) (r : ℕ) : Prop := d ∈ φ.timers ∧ r ≤ φ.rev d ∨ φ.Handled .timer d r

/-- What a sweep owes to a document that was behind. -/
def Swept (φ : Fleet D T S P Uuid) (k : ℕ) (d : D) (r : ℕ) : Prop :=
  (∃ w, φ.sweeps k = some w ∧ d ∈ w.rest ∧ r ≤ φ.rev d) ∨ φ.Handled (.sweep k) d r

omit [DecidableEq D] [DecidableEq T] [SemilatticeSup S] [OrderBot S] [DecidableEq P] in
theorem Moves.due (hm : Moves φ ψ) (h : φ.Due d r) : ψ.Due d r := by
  obtain ⟨hd, hr⟩ | h := h
  · obtain hkept | ⟨p, hcall⟩ := hm.timers d hd
    · exact Or.inl ⟨hkept, hr.trans (hm.rev d)⟩
    · exact Or.inr (Or.inr (Or.inl ⟨p, _, hcall, rfl, rfl, hr⟩))
  · exact Or.inr (hm.handled h)

omit [DecidableEq D] [DecidableEq T] [SemilatticeSup S] [OrderBot S] [DecidableEq P] in
theorem Moves.swept (hm : Moves φ ψ) (h : φ.Swept k d r) : ψ.Swept k d r := by
  obtain ⟨w, hw, hd, hr⟩ | h := h
  · obtain ⟨w', hw', hrest⟩ := hm.sweeps k w hw
    obtain hkept | ⟨p, hcall⟩ := hrest d hd
    · exact Or.inl ⟨w', hw', hkept, hr.trans (hm.rev d)⟩
    · exact Or.inr (Or.inr (Or.inl ⟨p, _, hcall, rfl, rfl, hr⟩))
  · exact Or.inr (hm.handled h)

omit [DecidableEq D] [DecidableEq T] [DecidableEq P] in
theorem inv_start (items : D → Items Uuid) : (start items : Fleet D T S P Uuid).Inv docs uuids where
  servers d := Server.inv_initial docs uuids (some 0) (items d)
  counted _ _ := rfl
  called := by simp [start]
  loaded := by simp [start, Server.initial]
  awaited := by simp [start]

omit [DecidableEq D] [DecidableEq P] in
theorem inv_call (h : φ.Inv docs uuids) {call : ProjectionCall D} (hfree : φ.calls p = none)
    {timers : Finset D}
    {sweeps : ℕ → Option (ProjectionSweep D T)} (hsince : call.since ≤ φ.rev call.document)
    (hawaited : ∀ q call' k, Function.update φ.calls p (some call) q = some call' → call'.waiter = .sweep k →
      ∃ w, sweeps k = some w ∧ w.running = some q) :
    Inv docs uuids { φ with timers, sweeps, calls := Function.update φ.calls p (some call) } where
  servers := h.servers
  counted := h.counted
  called q call' hq := by
    obtain ⟨-, hnew⟩ | ⟨-, hq⟩ := update_lookup hq
    · exact Option.some.inj hnew ▸ hsince
    · exact h.called q call' hq
  loaded d q s r hq := by
    obtain ⟨call', hcall', hd, hr⟩ := h.loaded d q s r hq
    exact ⟨call', calls_kept hfree hcall', hd, hr⟩
  awaited := hawaited

theorem inv_act {a : ServerAction T S P Uuid} (h : φ.Inv docs uuids)
    (hstep : φ.step docs lib uuids replicaId threshold batchSize (.act d a) = some ψ) : ψ.Inv docs uuids := by
  have hm := moves_act h hstep
  obtain ⟨s, hmay, hs, hψ⟩ := act_cases hstep
  have hpass := Server.passStep (h.servers d) hs
  have hservers : ∀ e, (Function.update φ.servers d s e).Inv docs uuids :=
    (Function.forall_update_iff φ.servers fun _ σ => σ.Inv docs uuids).mpr
      ⟨Server.inv_step (h.servers d) hs, fun e _ => h.servers e⟩
  have hcounted : ∀ e, (Function.update φ.servers d s e).log.Counted :=
    (Function.forall_update_iff φ.servers fun _ σ => σ.log.Counted).mpr
      ⟨hpass.counted (h.counted d), fun e _ => h.counted e⟩
  have hloaded : ∀ e q s' r, (Function.update φ.servers d s e).passes q = some (s', r) →
      (∃ call, φ.calls q = some call ∧ call.document = e ∧ call.since ≤ r) ∧
      (a.pass ≠ some q ∨ a = .load q) := by
    intro e q s' r hq
    by_cases he : e = d
    · subst he
      rw [Function.update_self] at hq
      obtain ⟨hne, hold⟩ | ⟨rfl, rfl⟩ := hpass.loaded (h.counted e) q s' r hq
      · exact ⟨h.loaded e q s' r hold, Or.inl hne⟩
      · obtain ⟨call, hcall, rfl⟩ := mayAct_call hmay rfl
        exact ⟨⟨call, hcall, rfl, h.called q call hcall⟩, Or.inr rfl⟩
    · rw [Function.update_of_ne he] at hq
      obtain ⟨call, hcall, hd, hr⟩ := h.loaded e q s' r hq
      refine ⟨⟨call, hcall, hd, hr⟩, Or.inl fun hp => ?_⟩
      obtain ⟨call', hcall', hd'⟩ := mayAct_call hmay hp
      obtain rfl := Option.some.inj (hcall.symm.trans hcall')
      exact he (hd.symm.trans hd')
  obtain rfl | ⟨p, failures, hp, hload, rfl, -⟩ := hψ
  · refine ⟨hservers, hcounted, fun q call hq => (h.called q call hq).trans (hm.rev _), ?_, h.awaited⟩
    exact fun e q s' r hq => (hloaded e q s' r hq).1
  · have hkept : ∀ q call, Function.update φ.calls p none q = some call → q ≠ p ∧ φ.calls q = some call := by
      intro q call hq
      obtain ⟨-, hnone⟩ | hkept := update_lookup hq
      · cases hnone
      · exact hkept
    refine ⟨hservers, hcounted, fun q call hq => (h.called q call (hkept q call hq).2).trans (hm.rev _),
      ?_, ?_⟩
    · intro e q s' r hq
      obtain ⟨⟨call, hcall, hrest⟩, hne⟩ := hloaded e q s' r hq
      have hqp : q ≠ p := by
        rintro rfl
        exact hne.elim (fun hne => hne hp) (hload q)
      exact ⟨call, (Function.update_of_ne hqp ..).trans hcall, hrest⟩
    · intro q call k hq hwaiter
      obtain ⟨hqp, hcall⟩ := hkept q call hq
      obtain ⟨w, hw, hrunning⟩ := h.awaited q call k hcall hwaiter
      obtain ⟨w', hw', -, hsame⟩ := settle_sweeps
        ({ φ with servers := Function.update φ.servers d s, failures } : Fleet D T S P Uuid) p hw
      refine ⟨w', hw', (hsame ?_).trans hrunning⟩
      rw [hrunning]
      exact fun he => hqp (Option.some.inj he)

theorem inv_step (h : φ.Inv docs uuids) {a : FleetAction D T S P Uuid}
    (hstep : φ.step docs lib uuids replicaId threshold batchSize a = some ψ) : ψ.Inv docs uuids := by
  cases a with
  | act d a => exact inv_act h hstep
  | create d =>
    obtain rfl := create_cases hstep
    exact { h with }
  | schedule d =>
    obtain rfl := schedule_cases hstep
    exact { h with }
  | fire d p =>
    obtain ⟨hfree, rfl⟩ := fire_cases hstep
    refine inv_call h hfree le_rfl ?_
    intro q call k hq hwaiter
    obtain ⟨-, hnew⟩ | ⟨-, hq⟩ := update_lookup hq
    · cases hnew
      cases hwaiter
    · exact h.awaited q call k hq hwaiter
  | sweep k =>
    obtain ⟨hnew, rfl⟩ := sweep_cases hstep
    refine { h with awaited := ?_ }
    intro q call j hq hwaiter
    obtain ⟨w, hw, hrunning⟩ := h.awaited q call j hq hwaiter
    exact ⟨w, (Function.update_of_ne (ne_of_lookup hnew hw) ..).trans hw, hrunning⟩
  | next k p =>
    obtain ⟨d, rest, hsweep, hfree, rfl⟩ := next_cases hstep
    refine inv_call h hfree le_rfl ?_
    intro q call j hq hwaiter
    obtain ⟨rfl, hnew⟩ | ⟨-, hq⟩ := update_lookup hq
    · cases hnew
      cases hwaiter
      exact ⟨_, Function.update_self .., rfl⟩
    · obtain ⟨w, hw, hrunning⟩ := h.awaited q call j hq hwaiter
      -- the sweep awaited nothing
      have hj : j ≠ k := by
        rintro rfl
        obtain rfl := Option.some.inj (hsweep.symm.trans hw)
        cases hrunning
      exact ⟨w, (Function.update_of_ne hj ..).trans hw, hrunning⟩
  | restart =>
    cases hstep
    refine ⟨fun d => ?_, h.counted, by simp, by simp, by simp⟩
    exact { h.servers d with passes := by simp }

theorem runs_inv {ok : Fleet D T S P Uuid → FleetAction D T S P Uuid → Prop} (h : φ.Inv docs uuids)
    (hrun : Runs (step docs lib uuids replicaId threshold batchSize) ok φ ψ) : ψ.Inv docs uuids :=
  hrun.invariant (fun hi _ hstep => inv_step hi hstep) h

theorem sweep_swept (hstep : φ.step docs lib uuids replicaId threshold batchSize (.sweep k) = some ψ)
    (hd : d ∈ φ.documents) : ψ.Swept k d (φ.rev d) := by
  obtain ⟨-, rfl⟩ := sweep_cases hstep
  by_cases hbehind : φ.projectedRev d < φ.rev d
  · exact Or.inl ⟨_, Function.update_self .., List.mem_filter.mpr ⟨hd, decide_eq_true hbehind⟩, le_rfl⟩
  · exact Or.inr (Or.inl (not_lt.mp hbehind))

theorem schedule_due (hstep : φ.step docs lib uuids replicaId threshold batchSize (.schedule d) = some ψ) :
    ψ.Due d (φ.rev d) := by
  obtain rfl := schedule_cases hstep
  exact Or.inl ⟨Finset.mem_insert_self d _, le_rfl⟩

section Owed

variable (h : φ.Inv docs uuids)
  (hrun : Runs (step docs lib uuids replicaId threshold batchSize) (fun _ a => a ≠ .restart) φ ψ)
include h hrun

theorem runs_due (hdue : φ.Due d r) : ψ.Due d r := by
  induction hrun with
  | refl => exact hdue
  | step a hrun hok hstep ih => exact (step_moves (runs_inv h hrun) hok hstep).due ih

theorem runs_swept (hswept : φ.Swept k d r) : ψ.Swept k d r := by
  induction hrun with
  | refl => exact hswept
  | step a hrun hok hstep ih => exact (step_moves (runs_inv h hrun) hok hstep).swept ih

end Owed

end Fleet

/-- While the process runs, whatever else happens in the documents. A sweep that is through has projected
each document up to the revision that it had when the sweep began, and a debounced pass that is through up
to the revision of its last store: all but the documents whose own pass threw. -/
theorem projection_catches_up {D T S P Uuid : Type} [DecidableEq D] [DecidableEq T] [SemilatticeSup S]
    [OrderBot S] [DecidableEq P] [DecidableEq Uuid] {docs : YjsDocs S P} {lib : FractionalIndexing}
    {uuids : UuidText Uuid} {replicaId : JsString} {threshold batchSize : ℕ} {items : D → Items Uuid}
    {φ χ ψ : Fleet D T S P Uuid}
    (hrun : Runs (Fleet.step docs lib uuids replicaId threshold batchSize) (fun _ _ => True) (.start items) φ)
    {a : FleetAction D T S P Uuid} (hstep : φ.step docs lib uuids replicaId threshold batchSize a = some χ)
    (hlater : Runs (Fleet.step docs lib uuids replicaId threshold batchSize) (fun _ a => a ≠ .restart) χ ψ) :
    (∀ k, a = .sweep k → ψ.sweeps k = some ⟨[], none⟩ → ∀ d ∈ φ.documents, φ.rev d ≤ ψ.projectedRev d ∨
      ∃ call ∈ ψ.failures, call.waiter = .sweep k ∧ call.document = d ∧ φ.rev d ≤ call.since) ∧
    ∀ d, a = .schedule d → d ∉ ψ.timers →
    (∀ p call, ψ.calls p = some call → call.waiter = .timer → call.document ≠ d) →
      φ.rev d ≤ ψ.projectedRev d ∨
        ∃ call ∈ ψ.failures, call.waiter = .timer ∧ call.document = d ∧ φ.rev d ≤ call.since := by
  have hχ : χ.Inv docs uuids := Fleet.inv_step (Fleet.runs_inv (Fleet.inv_start items) hrun) hstep
  have hψ := Fleet.runs_inv hχ hlater
  refine ⟨?_, ?_⟩
  · rintro k rfl hdone d hd
    obtain ⟨w, hw, hrest, -⟩ | hhandled := Fleet.runs_swept hχ hlater (Fleet.sweep_swept hstep hd)
    · obtain rfl := Option.some.inj (hdone.symm.trans hw)
      cases hrest
    · obtain hprojected | ⟨p, call, hcall, hwaiter, -⟩ | hfailed := hhandled
      · exact Or.inl hprojected
      · obtain ⟨w, hw, hrunning⟩ := hψ.awaited p call k hcall hwaiter
        obtain rfl := Option.some.inj (hdone.symm.trans hw)
        cases hrunning
      · exact Or.inr hfailed
  · rintro d rfl hfired hended
    obtain ⟨htimer, -⟩ | hhandled := Fleet.runs_due hχ hlater (Fleet.schedule_due hstep)
    · exact absurd htimer hfired
    · obtain hprojected | ⟨p, call, hcall, hwaiter, hdocument, -⟩ | hfailed := hhandled
      · exact Or.inl hprojected
      · exact absurd hdocument (hended p call hcall hwaiter)
      · exact Or.inr hfailed

section Example

abbrev PairAction := FleetAction Bool ℕ (Finset ℕ) (Option (Finset ℕ)) (Fin 16)

def pairStep := Fleet.step (D := Bool) (T := ℕ) (growingDocs (js ['a'])) sampleKeys hexDigits [] 0 10

def bothStored : List PairAction :=
  [.create false, .create true] ++ (appendUpdate 1 1 {1}).map (.act false) ++
    (appendUpdate 1 1 {1}).map (.act true) ++
    [.schedule true, .restart]

def sweepBoth : List PairAction :=
  [.next 0 7, .act false (.load 7), .act false (.giveUp 7), .next 0 7, .act true (.load 7),
    .act true (.project 7 0 fun _ => false)]

end Example

theorem projection_catches_up_restarted :
    ∃ φ χ ψ, execute pairStep (.start fun _ => .empty) bothStored = some φ ∧ pairStep φ (.sweep 0) = some χ ∧
      execute pairStep χ sweepBoth = some ψ ∧ φ.projectedRev true = 0 ∧ ψ.failures = [⟨false, .sweep 0, 1⟩] ∧
      1 ≤ ψ.projectedRev true := by
  have hends : ∃ φ χ ψ, execute pairStep (.start fun _ => .empty) bothStored = some φ ∧
      pairStep φ (.sweep 0) = some χ ∧
      execute pairStep χ sweepBoth = some ψ ∧ φ.projectedRev true = 0 ∧ ψ.failures = [⟨false, .sweep 0, 1⟩] ∧
      φ.rev true = 1 ∧ φ.documents = [false, true] ∧ ψ.sweeps 0 = some ⟨[], none⟩ :=
    ⟨_, _, _, rfl, rfl, rfl, rfl, rfl, rfl, rfl, rfl⟩
  obtain ⟨φ, χ, ψ, hφ, hχ, hψ, hbefore, hfailures, hrev, hdocuments, hdone⟩ := hends
  refine ⟨φ, χ, ψ, hφ, hχ, hψ, hbefore, hfailures, ?_⟩
  have hlater : Runs pairStep (fun _ a => a ≠ .restart) χ ψ :=
    execute_runs_of (by simp [sweepBoth]) hψ
  obtain hprojected | ⟨call, hcall, -, hdocument, -⟩ :=
    (projection_catches_up (execute_runs hφ) hχ hlater).1 0 rfl hdone true (by simp [hdocuments])
  · exact hrev ▸ hprojected
  · rw [hfailures, List.mem_singleton] at hcall
    rw [hcall] at hdocument
    cases hdocument

end OpenOutliner
