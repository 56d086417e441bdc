import OpenOutliner.Client.Outbox

namespace OpenOutliner

open Foundations

section FlushLoop

variable {C : Type} {l : FlushLoop C} {es : List (OutboxEntry C)} {e : OutboxEntry C}

theorem replayFrom_entries (h : replayFrom es = some l) : l.entries = es := by
  cases es with
  | nil => cases h
  | cons entry rest =>
    cases h
    rfl

theorem replayFrom_phase (h : replayFrom es = some l) : l.phase = .ready := by
  cases es with
  | nil => cases h
  | cons entry rest =>
    cases h
    rfl

theorem replayFrom_unsent (h : replayFrom es = some l) : l.unsent = es := by
  rw [FlushLoop.unsent, replayFrom_phase h]
  exact replayFrom_entries h

end FlushLoop

namespace Outbox

variable {C S : Type} {serve : C → S → Except RpcErrorCode S} {s t : Outbox C S} {a : OutboxAction C}
  {i j : ℕ} {x y e entry : OutboxEntry C} {l : FlushLoop C} {server : S}

section Steps

theorem send_step (h : step serve s (.send i) = some t) :
    ∃ entry rest, s.loops i = some ⟨entry, rest, .ready⟩ ∧ t = s.sendCall i entry rest := by
  rw [step] at h
  split at h
  · rename_i entry rest hl
    exact ⟨entry, rest, hl, (Option.some.inj h).symm⟩
  · cases h

theorem arrive_step {refusal : Option RpcErrorCode} (h : step serve s (.arrive i refusal) = some t) :
    ∃ entry, s.requests i = some entry ∧
      t = s.handle serve i entry (answerTo serve refusal entry.call s.server) := by
  obtain ⟨entry, hentry, ht⟩ := Option.map_eq_some_iff.mp h
  exact ⟨entry, hentry, ht.symm⟩

theorem receive_step (h : step serve s (.receive i) = some t) :
    ∃ entry rest answer, s.loops i = some ⟨entry, rest, .calling (some answer)⟩ ∧
      t = s.setLoop i ((onAnswer answer).map fun phase => ⟨entry, rest, phase⟩) := by
  rw [step] at h
  split at h
  · rename_i entry rest answer hl
    exact ⟨entry, rest, answer, hl, (Option.some.inj h).symm⟩
  · cases h

theorem deleted_step (h : step serve s (.deleted i) = some t) :
    ∃ entry rest, s.loops i = some ⟨entry, rest, .deleting⟩ ∧ t = s.deleteEntry i entry rest := by
  rw [step] at h
  split at h
  · rename_i entry rest hl
    exact ⟨entry, rest, hl, (Option.some.inj h).symm⟩
  · cases h

theorem cleared_step (h : step serve s (.cleared i) = some t) :
    ∃ entry rest, s.loops i = some ⟨entry, rest, .clearing⟩ ∧ t = s.clear i := by
  rw [step] at h
  split at h
  · rename_i entry rest hl
    exact ⟨entry, rest, hl, (Option.some.inj h).symm⟩
  · cases h

theorem onAnswer_phase {answer : RpcAnswer} {phase : FlushPhase} (h : onAnswer answer = some phase) :
    phase = .deleting ∨ phase = .clearing := by
  unfold onAnswer at h
  split at h <;> cases h <;> simp

end Steps

structure LoopOk (s : Outbox C S) (i : ℕ) (l : FlushLoop C) : Prop where
  listed : l.entries.Sublist s.enqueued
  inFront : ∀ y ∈ l.entries, ∀ q ∈ s.queue, q.seq < y.seq → q ∈ l.entries
  awaited : ∀ x, s.requests i = some x → x = l.current ∧ l.phase = .calling none
  answered : ∀ answer, l.phase = .calling (some answer) → ⟨l.current, answer⟩ ∈ s.handled
  settled : l.phase = .deleting → s.Settled l.current

structure Base (serve : C → S → Except RpcErrorCode S) (server : S) (s : Outbox C S) : Prop where
  ascending : s.enqueued.Pairwise fun a b => a.seq < b.seq
  next : ∀ e ∈ s.enqueued, e.seq < s.nextSeq
  queued : s.queue.Sublist s.enqueued
  requested : ∀ i x, s.requests i = some x → x ∈ s.enqueued ∧ ∀ q ∈ s.queue, x.seq ≤ q.seq
  loops : ∀ i l, s.loops i = some l → LoopOk s i l
  numbered : ∀ i, s.flushes ≤ i → s.loops i = none ∧ s.requests i = none
  known : ∀ r ∈ s.handled, r.entry ∈ s.enqueued
  effect : s.server = s.handled.foldl (perform serve) server
  kept : ∀ e ∈ s.enqueued, e ∈ s.queue ∨ s.Settled e ∨ e ∈ s.purged

theorem Base.initial (server : S) : Base serve server (Outbox.initial (C := C) server) where
  ascending := .nil
  next := by simp [Outbox.initial]
  queued := .refl []
  requested := by simp [Outbox.initial]
  loops := by simp [Outbox.initial]
  numbered := fun _ _ => ⟨rfl, rfl⟩
  known := by simp [Outbox.initial]
  effect := rfl
  kept := by simp [Outbox.initial]

theorem LoopOk.frame (h : LoopOk s i l) (henqueued : s.enqueued.Sublist t.enqueued)
    (hqueue : ∀ y ∈ l.entries, ∀ q ∈ t.queue, q.seq < y.seq → q ∈ s.queue)
    (hrequest : t.requests i = s.requests i) (hhandled : s.handled ⊆ t.handled) : LoopOk t i l where
  listed := h.listed.trans henqueued
  inFront := fun y hy q hq hlt => h.inFront y hy q (hqueue y hy q hq hlt) hlt
  awaited := fun x hx => h.awaited x (hrequest ▸ hx)
  answered := fun answer ha => hhandled (h.answered answer ha)
  settled := fun hd => by
    obtain ⟨r, hr, he⟩ := h.settled hd
    exact ⟨r, hhandled hr, he⟩

theorem Settled.mono (h : s.Settled e) (hhandled : s.handled ⊆ t.handled) : t.Settled e := by
  obtain ⟨r, hr, he⟩ := h
  exact ⟨r, hhandled hr, he⟩

theorem setLoop_loops {o : Option (FlushLoop C)} : (s.setLoop i o).loops j = if j = i then o else s.loops j :=
  Function.update_apply _ _ _ _

theorem sendCall_requests {rest : List (OutboxEntry C)} :
    (s.sendCall i entry rest).requests j = if j = i then some entry else s.requests j :=
  Function.update_apply _ _ _ _

theorem loseRequest_requests : (s.loseRequest i).requests j = if j = i then none else s.requests j :=
  Function.update_apply _ _ _ _

theorem handle_requests {answer : RpcAnswer} :
    (s.handle serve i entry answer).requests j = if j = i then none else s.requests j :=
  Function.update_apply _ _ _ _

theorem loops_setLoop {o : Option (FlushLoop C)} (h : (s.setLoop i o).loops j = some l) :
    j = i ∧ o = some l ∨ j ≠ i ∧ s.loops j = some l := by
  rw [setLoop_loops] at h
  split_ifs at h with hj
  · exact Or.inl ⟨hj, h⟩
  · exact Or.inr ⟨hj, h⟩

namespace Base

section Steps

variable (hs : Base serve server s)
include hs

theorem seq_inj (hx : x ∈ s.enqueued) (hy : y ∈ s.enqueued) (h : x.seq = y.seq) : x = y := by
  have hnodup : (s.enqueued.map OutboxEntry.seq).Nodup := by
    apply List.pairwise_map.mpr
    exact hs.ascending.imp Nat.ne_of_lt
  exact List.inj_on_of_nodup_map hnodup hx hy h

theorem running (hl : s.loops i = some l) : i < s.flushes := by
  by_contra hle
  rw [(hs.numbered i (Nat.le_of_not_lt hle)).1] at hl
  cases hl

theorem loopOk (hl : s.loops i = some l) : LoopOk s i l := hs.loops i l hl

theorem current_lt (hl : s.loops i = some l) (he : e ∈ l.rest) : l.current.seq < e.seq := by
  have hasc := hs.ascending.sublist (hs.loopOk hl).listed
  exact (List.pairwise_cons.mp hasc).1 e he

theorem setLoop_numbered {o : Option (FlushLoop C)} (ho : ∀ l, o = some l → i < s.flushes)
    (hj : s.flushes ≤ j) :
    (s.setLoop i o).loops j = none := by
  rw [setLoop_loops]
  split_ifs with hi
  · apply Option.eq_none_iff_forall_ne_some.mpr
    intro l hl
    have := ho l hl
    omega
  · exact (hs.numbered j hj).1

theorem enqueue (call : C) : Base serve server (s.enqueue call) where
  ascending := by
    apply List.pairwise_append.mpr
    refine ⟨hs.ascending, List.pairwise_singleton _ _, ?_⟩
    intro e he e' he'
    rw [List.mem_singleton.mp he']
    exact hs.next e he
  next := by
    intro e he
    apply Nat.lt_succ_of_le
    cases List.mem_append.mp he with
    | inl he => exact Nat.le_of_lt (hs.next e he)
    | inr he => rw [List.mem_singleton.mp he]
  queued := hs.queued.append (.refl _)
  requested := by
    intro i x hx
    obtain ⟨hmem, hle⟩ := hs.requested i x hx
    refine ⟨List.mem_append_left _ hmem, ?_⟩
    intro q hq
    cases List.mem_append.mp hq with
    | inl hq => exact hle q hq
    | inr hq =>
      rw [List.mem_singleton.mp hq]
      exact Nat.le_of_lt (hs.next x hmem)
  loops := by
    intro i l hl
    refine (hs.loopOk hl).frame (List.sublist_append_left _ _) ?_ rfl (List.Subset.refl _)
    intro y hy q hq hlt
    cases List.mem_append.mp hq with
    | inl hq => exact hq
    | inr hq =>
      rw [List.mem_singleton.mp hq] at hlt
      have hy' := hs.next y ((hs.loopOk hl).listed.subset hy)
      exact absurd hlt (Nat.lt_asymm hy')
  numbered := hs.numbered
  known := fun r hr => List.mem_append_left _ (hs.known r hr)
  effect := hs.effect
  kept := by
    intro e he
    cases List.mem_append.mp he with
    | inl he => exact (hs.kept e he).imp (List.mem_append_left _) id
    | inr he => exact Or.inl (List.mem_append_right _ he)

theorem setLoop {o : Option (FlushLoop C)} (ho : ∀ l, o = some l → i < s.flushes ∧ LoopOk s i l) :
    Base serve server (s.setLoop i o) where
  ascending := hs.ascending
  next := hs.next
  queued := hs.queued
  requested := hs.requested
  loops := by
    intro j l hl
    have hok : LoopOk s j l := by
      obtain ⟨rfl, ho'⟩ | ⟨-, hold⟩ := loops_setLoop hl
      · exact (ho l ho').2
      · exact hs.loopOk hold
    exact hok.frame (.refl _) (fun _ _ _ hq _ => hq) rfl (List.Subset.refl _)
  numbered := by
    intro j hj
    exact ⟨hs.setLoop_numbered (fun l hl => (ho l hl).1) hj, (hs.numbered j hj).2⟩
  known := hs.known
  effect := hs.effect
  kept := hs.kept

theorem flushOutbox : Base serve server s.flushOutbox where
  ascending := hs.ascending
  next := hs.next
  queued := hs.queued
  requested := hs.requested
  loops := by
    intro j l hl
    obtain ⟨rfl, hnew⟩ | ⟨-, hold⟩ := loops_setLoop hl
    · have hentries := replayFrom_entries hnew
      have hphase := replayFrom_phase hnew
      exact {
        listed := by rw [hentries]; exact hs.queued
        inFront := fun y _ q hq _ => by rw [hentries]; exact hq
        awaited := fun x hx => by
          have hnone := (hs.numbered s.flushes le_rfl).2
          exact absurd (hnone.symm.trans hx) nofun
        answered := fun answer ha => by rw [hphase] at ha; cases ha
        settled := fun hd => by rw [hphase] at hd; cases hd }
    · exact (hs.loopOk hold).frame (.refl _) (fun _ _ _ hq _ => hq) rfl (List.Subset.refl _)
  numbered := by
    intro j hj
    have hlt : s.flushes < j := hj
    refine ⟨?_, (hs.numbered j hlt.le).2⟩
    have hne : j ≠ s.flushes := Nat.ne_of_gt hlt
    exact setLoop_loops.trans ((if_neg hne).trans (hs.numbered j hlt.le).1)
  known := hs.known
  effect := hs.effect
  kept := hs.kept

theorem sendCall {rest : List (OutboxEntry C)} (hl : s.loops i = some ⟨entry, rest, .ready⟩) :
    Base serve server (s.sendCall i entry rest) where
  ascending := hs.ascending
  next := hs.next
  queued := hs.queued
  requested := by
    intro j x hx
    rw [sendCall_requests] at hx
    split_ifs at hx
    · have hok := hs.loopOk hl
      cases hx
      refine ⟨hok.listed.subset (List.mem_cons_self ..), ?_⟩
      intro q hq
      by_contra hlt
      have hmem := hok.inFront entry (List.mem_cons_self ..) q hq (Nat.lt_of_not_le hlt)
      cases List.mem_cons.mp hmem with
      | inl heq => exact hlt (heq ▸ le_rfl)
      | inr hrest => exact hlt (Nat.le_of_lt (hs.current_lt hl hrest))
    · exact hs.requested j x hx
  loops := by
    intro j l hl'
    obtain ⟨rfl, hnew⟩ | ⟨hj, hold⟩ := loops_setLoop hl'
    · cases hnew
      have hok := hs.loopOk hl
      exact {
        listed := hok.listed
        inFront := hok.inFront
        awaited := fun x hx => by
          rw [sendCall_requests, if_pos rfl] at hx
          exact ⟨(Option.some.inj hx).symm, rfl⟩
        answered := nofun
        settled := nofun }
    · have hrequest : (s.sendCall i entry rest).requests j = s.requests j := by
        rw [sendCall_requests, if_neg hj]
      exact (hs.loopOk hold).frame (.refl _) (fun _ _ _ hq _ => hq) hrequest (List.Subset.refl _)
  numbered := by
    intro j hj
    have hne : j ≠ i := by
      have := hs.running hl
      change s.flushes ≤ j at hj
      omega
    refine ⟨hs.setLoop_numbered (fun _ _ => hs.running hl) hj, ?_⟩
    rw [sendCall_requests, if_neg hne]
    exact (hs.numbered j hj).2
  known := hs.known
  effect := hs.effect
  kept := hs.kept

theorem loseRequest (i : ℕ) : Base serve server (s.loseRequest i) where
  ascending := hs.ascending
  next := hs.next
  queued := hs.queued
  requested := by
    intro j x hx
    rw [loseRequest_requests] at hx
    split_ifs at hx
    exact hs.requested j x hx
  loops := by
    intro j l hl
    have hok := hs.loopOk hl
    refine ⟨hok.listed, hok.inFront, ?_, hok.answered, hok.settled⟩
    intro x hx
    rw [loseRequest_requests] at hx
    split_ifs at hx
    exact hok.awaited x hx
  numbered := by
    intro j hj
    refine ⟨(hs.numbered j hj).1, ?_⟩
    rw [loseRequest_requests, (hs.numbered j hj).2, ite_self]
  known := hs.known
  effect := hs.effect
  kept := hs.kept

theorem handle (hx : s.requests i = some entry) (answer : RpcAnswer) :
    Base serve server (s.handle serve i entry answer) where
  ascending := hs.ascending
  next := hs.next
  queued := hs.queued
  requested := by
    intro j x hx'
    rw [handle_requests] at hx'
    split_ifs at hx'
    exact hs.requested j x hx'
  loops := by
    intro j l hl
    obtain ⟨rfl, hnew⟩ | ⟨hj, hold⟩ := loops_setLoop hl
    · obtain ⟨l₀, hl₀, rfl⟩ := Option.map_eq_some_iff.mp hnew
      have hok := hs.loopOk hl₀
      exact {
        listed := hok.listed
        inFront := hok.inFront
        awaited := fun x hx' => by
          rw [handle_requests, if_pos rfl] at hx'
          cases hx'
        answered := fun answer' ha => by
          cases ha
          rw [← (hok.awaited entry hx).1]
          exact List.mem_append_right _ (List.mem_singleton_self _)
        settled := nofun }
    · have hrequest : (s.handle serve i entry answer).requests j = s.requests j := by
        rw [handle_requests, if_neg hj]
      exact (hs.loopOk hold).frame (.refl _) (fun _ _ _ hq _ => hq) hrequest (List.subset_append_left _ _)
  numbered := by
    intro j hj
    refine ⟨hs.setLoop_numbered ?_ hj, ?_⟩
    · intro l hl
      obtain ⟨l₀, hl₀, -⟩ := Option.map_eq_some_iff.mp hl
      exact hs.running hl₀
    · rw [handle_requests, (hs.numbered j hj).2, ite_self]
  known := by
    intro r hr
    cases List.mem_append.mp hr with
    | inl hr => exact hs.known r hr
    | inr hr =>
      rw [List.mem_singleton.mp hr]
      exact (hs.requested i entry hx).1
  effect := by
    change perform serve s.server _ = (s.handled ++ _).foldl _ _
    rw [List.foldl_append, ← hs.effect]
    rfl
  kept := by
    intro e he
    exact (hs.kept e he).imp id (Or.imp (·.mono (List.subset_append_left _ _)) id)

theorem receive {rest : List (OutboxEntry C)} {answer : RpcAnswer}
    (hl : s.loops i = some ⟨entry, rest, .calling (some answer)⟩) :
    Base serve server (s.setLoop i ((onAnswer answer).map fun phase => ⟨entry, rest, phase⟩)) := by
  have hok := hs.loopOk hl
  apply hs.setLoop
  intro l hnew
  obtain ⟨phase, hphase, rfl⟩ := Option.map_eq_some_iff.mp hnew
  refine ⟨hs.running hl, hok.listed, hok.inFront, ?_, ?_, ?_⟩
  · intro x hx
    exact absurd (hok.awaited x hx).2 nofun
  · intro answer' ha
    cases ha
    cases onAnswer_phase hphase with
    | inl h => cases h
    | inr h => cases h
  · intro hd
    cases hd
    exact ⟨_, hok.answered answer rfl, rfl, hphase⟩

theorem deleteEntry {rest : List (OutboxEntry C)} (hl : s.loops i = some ⟨entry, rest, .deleting⟩) :
    Base serve server (s.deleteEntry i entry rest) where
  ascending := hs.ascending
  next := hs.next
  queued := List.filter_sublist.trans hs.queued
  requested := by
    intro j x hx
    obtain ⟨hmem, hle⟩ := hs.requested j x hx
    exact ⟨hmem, fun q hq => hle q (List.mem_of_mem_filter hq)⟩
  loops := by
    intro j l hl'
    obtain ⟨rfl, hnew⟩ | ⟨-, hold⟩ := loops_setLoop hl'
    · have hok := hs.loopOk hl
      have hentries := replayFrom_entries hnew
      have hphase := replayFrom_phase hnew
      refine ⟨?_, ?_, ?_, ?_, ?_⟩
      · rw [hentries]
        exact (List.sublist_cons_self _ _).trans hok.listed
      · intro y hy q hq hlt
        rw [hentries] at hy ⊢
        obtain ⟨hq, hne⟩ := List.mem_filter.mp hq
        cases List.mem_cons.mp (hok.inFront y (List.mem_cons_of_mem _ hy) q hq hlt) with
        | inl heq => simp [heq] at hne
        | inr hrest => exact hrest
      · intro x hx
        exact absurd (hok.awaited x hx).2 nofun
      · intro answer ha
        rw [hphase] at ha
        cases ha
      · intro hd
        rw [hphase] at hd
        cases hd
    · exact (hs.loopOk hold).frame (.refl _) (fun _ _ _ hq _ => List.mem_of_mem_filter hq) rfl
        (List.Subset.refl _)
  numbered := by
    intro j hj
    exact ⟨hs.setLoop_numbered (fun _ _ => hs.running hl) hj, (hs.numbered j hj).2⟩
  known := hs.known
  effect := hs.effect
  kept := by
    intro e he
    have hentry := (hs.loopOk hl).listed.subset (List.mem_cons_self ..)
    by_cases heq : e.seq = entry.seq
    · rw [hs.seq_inj he hentry heq]
      exact Or.inr (Or.inl ((hs.loopOk hl).settled rfl))
    · apply (hs.kept e he).imp _ id
      intro hq
      exact List.mem_filter.mpr ⟨hq, by simpa using heq⟩

theorem clear (i : ℕ) : Base serve server (s.clear i) where
  ascending := hs.ascending
  next := hs.next
  queued := List.nil_sublist _
  requested := by
    intro j x hx
    exact ⟨(hs.requested j x hx).1, nofun⟩
  loops := by
    intro j l hl
    obtain ⟨-, hnew⟩ | ⟨-, hold⟩ := loops_setLoop hl
    · cases hnew
    · exact (hs.loopOk hold).frame (.refl _) nofun rfl (List.Subset.refl _)
  numbered := by
    intro j hj
    exact ⟨hs.setLoop_numbered nofun hj, (hs.numbered j hj).2⟩
  known := hs.known
  effect := hs.effect
  kept := by
    intro e he
    right
    cases hs.kept e he with
    | inl hq => exact Or.inr (List.mem_append_right _ hq)
    | inr h => exact h.imp id (List.mem_append_left _)

end Steps

theorem step (hs : Base serve server s) (h : Outbox.step serve s a = some t) : Base serve server t := by
  cases a with
  | enqueue call =>
    cases h
    exact hs.enqueue call
  | flush =>
    cases h
    exact hs.flushOutbox
  | send i =>
    obtain ⟨entry, rest, hl, rfl⟩ := send_step h
    exact hs.sendCall hl
  | arrive i refusal =>
    obtain ⟨entry, hx, rfl⟩ := arrive_step h
    exact hs.handle hx _
  | lose i =>
    cases h
    exact hs.loseRequest i
  | receive i =>
    obtain ⟨entry, rest, answer, hl, rfl⟩ := receive_step h
    exact hs.receive hl
  | deleted i =>
    obtain ⟨entry, rest, hl, rfl⟩ := deleted_step h
    exact hs.deleteEntry hl
  | cleared i =>
    obtain ⟨entry, rest, hl, rfl⟩ := cleared_step h
    exact hs.clear i
  | stop i =>
    cases h
    exact hs.setLoop nofun

end Base

section Sends

theorem sends_setLoop {o : Option (FlushLoop C)} (h : (s.setLoop i o).Sends j e) :
    s.Sends j e ∨ j = i ∧ ∃ l, o = some l ∧ e ∈ l.unsent := by
  cases h with
  | inl hx => exact Or.inl (Or.inl hx)
  | inr hl =>
    obtain ⟨l, hl, he⟩ := hl
    obtain ⟨rfl, ho⟩ | ⟨-, hold⟩ := loops_setLoop hl
    · exact Or.inr ⟨rfl, l, ho, he⟩
    · exact Or.inl (Or.inr ⟨l, hold, he⟩)

theorem sends_sendCall {rest : List (OutboxEntry C)} (hl : s.loops i = some ⟨entry, rest, .ready⟩)
    (h : (s.sendCall i entry rest).Sends j e) : s.Sends j e := by
  have hready : ∀ y ∈ entry :: rest, s.Sends i y := fun y hy => Or.inr ⟨_, hl, hy⟩
  cases h with
  | inl hx =>
    rw [sendCall_requests] at hx
    split_ifs at hx with hj
    · cases hx
      exact hj ▸ hready _ (List.mem_cons_self ..)
    · exact Or.inl hx
  | inr hl' =>
    obtain hold | ⟨rfl, l, ho, he⟩ := sends_setLoop (Or.inr hl')
    · exact hold
    · cases ho
      exact hready e (List.mem_cons_of_mem _ he)

theorem sends_loseRequest (h : (s.loseRequest i).Sends j e) : s.Sends j e := by
  apply h.imp _ id
  intro hx
  rw [loseRequest_requests] at hx
  split_ifs at hx
  exact hx

theorem sends_handle (hs : Base serve server s) (hx : s.requests i = some entry) {answer : RpcAnswer}
    (h : (s.handle serve i entry answer).Sends j e) :
    s.Sends j e ∧ (j = i → entry.seq < e.seq) := by
  cases h with
  | inl hx' =>
    rw [handle_requests] at hx'
    split_ifs at hx' with hj
    exact ⟨Or.inl hx', fun hji => absurd hji hj⟩
  | inr hl =>
    obtain ⟨l, hl, he⟩ := hl
    obtain ⟨rfl, hnew⟩ | ⟨hj, hold⟩ := loops_setLoop hl
    · obtain ⟨l₀, hl₀, rfl⟩ := Option.map_eq_some_iff.mp hnew
      obtain ⟨hcurrent, hphase⟩ := (hs.loopOk hl₀).awaited entry hx
      refine ⟨Or.inr ⟨l₀, hl₀, ?_⟩, fun _ => ?_⟩
      · rw [FlushLoop.unsent, hphase]
        exact he
      · rw [hcurrent]
        exact hs.current_lt hl₀ he
    · exact ⟨Or.inr ⟨l, hold, he⟩, fun hji => absurd hji hj⟩

theorem sends_step (hs : Base serve server s) (h : step serve s a = some t) (he : t.Sends j e) :
    s.Sends j e ∨ a = .flush ∧ j = s.flushes ∧ e ∈ s.queue := by
  cases a with
  | enqueue call =>
    cases h
    exact Or.inl he
  | flush =>
    cases h
    obtain hold | ⟨hj, l, ho, hnew⟩ := sends_setLoop (s := s) he
    · exact Or.inl hold
    · exact Or.inr ⟨rfl, hj, replayFrom_unsent ho ▸ hnew⟩
  | send i =>
    obtain ⟨entry, rest, hl, rfl⟩ := send_step h
    exact Or.inl (sends_sendCall hl he)
  | arrive i refusal =>
    obtain ⟨entry, hx, rfl⟩ := arrive_step h
    exact Or.inl (sends_handle hs hx he).1
  | lose i =>
    cases h
    exact Or.inl (sends_loseRequest he)
  | receive i =>
    obtain ⟨entry, rest, answer, hl, rfl⟩ := receive_step h
    left
    obtain hold | ⟨rfl, l, ho, he⟩ := sends_setLoop he
    · exact hold
    · obtain ⟨phase, hphase, rfl⟩ := Option.map_eq_some_iff.mp ho
      refine Or.inr ⟨_, hl, ?_⟩
      cases onAnswer_phase hphase with
      | inl hd => rwa [FlushLoop.unsent, hd] at he
      | inr hc =>
        rw [FlushLoop.unsent, hc] at he
        cases he
  | deleted i =>
    obtain ⟨entry, rest, hl, rfl⟩ := deleted_step h
    left
    obtain hold | ⟨rfl, l, ho, he⟩ := sends_setLoop (s := s) he
    · exact hold
    · exact Or.inr ⟨_, hl, replayFrom_unsent ho ▸ he⟩
  | cleared i =>
    obtain ⟨entry, rest, hl, rfl⟩ := cleared_step h
    obtain hold | ⟨-, l, ho, -⟩ := sends_setLoop (s := s) he
    · exact Or.inl hold
    · cases ho
  | stop i =>
    cases h
    obtain hold | ⟨-, l, ho, -⟩ := sends_setLoop he
    · exact Or.inl hold
    · cases ho

theorem queue_step (hs : Base serve server s) (h : step serve s a = some t) (he : e ∈ t.queue) :
    e ∈ s.queue ∨ ∀ x ∈ s.enqueued, x.seq < e.seq := by
  cases a with
  | enqueue call =>
    cases h
    apply (List.mem_append.mp he).imp id
    intro hnew
    rw [List.mem_singleton.mp hnew]
    exact hs.next
  | flush =>
    cases h
    exact Or.inl he
  | send i =>
    obtain ⟨entry, rest, -, rfl⟩ := send_step h
    exact Or.inl he
  | arrive i refusal =>
    obtain ⟨entry, -, rfl⟩ := arrive_step h
    exact Or.inl he
  | lose i =>
    cases h
    exact Or.inl he
  | receive i =>
    obtain ⟨entry, rest, answer, -, rfl⟩ := receive_step h
    exact Or.inl he
  | deleted i =>
    obtain ⟨entry, rest, -, rfl⟩ := deleted_step h
    exact Or.inl (List.mem_of_mem_filter he)
  | cleared i =>
    obtain ⟨entry, rest, -, rfl⟩ := cleared_step h
    cases he
  | stop i =>
    cases h
    exact Or.inl he

theorem handled_step (h : step serve s a = some t) :
    t.handled = s.handled ∨ ∃ i x answer, s.requests i = some x ∧ t = s.handle serve i x answer := by
  cases a with
  | arrive i refusal =>
    obtain ⟨entry, hx, rfl⟩ := arrive_step h
    exact Or.inr ⟨i, entry, _, hx, rfl⟩
  | enqueue call =>
    cases h
    exact Or.inl rfl
  | flush =>
    cases h
    exact Or.inl rfl
  | send i =>
    obtain ⟨entry, rest, -, rfl⟩ := send_step h
    exact Or.inl rfl
  | lose i =>
    cases h
    exact Or.inl rfl
  | receive i =>
    obtain ⟨entry, rest, answer, -, rfl⟩ := receive_step h
    exact Or.inl rfl
  | deleted i =>
    obtain ⟨entry, rest, -, rfl⟩ := deleted_step h
    exact Or.inl rfl
  | cleared i =>
    obtain ⟨entry, rest, -, rfl⟩ := cleared_step h
    exact Or.inl rfl
  | stop i =>
    cases h
    exact Or.inl rfl

end Sends

structure InTurn (s : Outbox C S) : Prop where
  apart : ∀ i j x y, i ≠ j → s.Sends i x → s.Sends j y → x = y
  above : ∀ r ∈ s.handled, ∀ i x, s.Sends i x → r.entry.seq ≤ x.seq
  below : ∀ r ∈ s.handled, ∀ q ∈ s.queue, r.entry.seq ≤ q.seq
  ordered : s.handled.Pairwise fun a b => a.entry.seq ≤ b.entry.seq

theorem InTurn.initial (server : S) : InTurn (Outbox.initial (C := C) server) where
  apart := by simp [Outbox.initial, Sends]
  above := by simp [Outbox.initial]
  below := by simp [Outbox.initial]
  ordered := .nil

namespace InTurn

variable (hs : Base serve server s) (hturn : InTurn s)
include hs hturn

theorem apart_step (hok : Unrivalled s a) (h : step serve s a = some t) (hij : i ≠ j) (hx : t.Sends i x)
    (hy : t.Sends j y) : x = y := by
  cases sends_step hs h hx with
  | inl hx =>
    cases sends_step hs h hy with
    | inl hy => exact hturn.apart i j x y hij hx hy
    | inr hnew =>
      obtain ⟨rfl, -, hy⟩ := hnew
      exact (hok i x hx y hy).symm
  | inr hnew =>
    obtain ⟨rfl, hi, hx⟩ := hnew
    cases sends_step hs h hy with
    | inl hy => exact hok j y hy x hx
    | inr hnew => exact absurd (hi.trans hnew.2.1.symm) hij

theorem handle (hx : s.requests i = some entry) (answer : RpcAnswer)
    (h : step serve s a = some (s.handle serve i entry answer))
    (hok : Unrivalled s a) : InTurn (s.handle serve i entry answer) where
  apart := fun _ _ _ _ hij => hturn.apart_step hs hok h hij
  above := by
    intro r hr j y hy
    obtain ⟨hold, hlt⟩ := sends_handle hs hx hy
    cases List.mem_append.mp hr with
    | inl hr => exact hturn.above r hr j y hold
    | inr hr =>
      rw [List.mem_singleton.mp hr]
      by_cases hj : j = i
      · exact (hlt hj).le
      · rw [hturn.apart j i y entry hj hold (Or.inl hx)]
  below := by
    intro r hr q hq
    cases List.mem_append.mp hr with
    | inl hr => exact hturn.below r hr q hq
    | inr hr =>
      rw [List.mem_singleton.mp hr]
      exact (hs.requested i entry hx).2 q hq
  ordered := by
    apply List.pairwise_append.mpr
    refine ⟨hturn.ordered, List.pairwise_singleton _ _, ?_⟩
    intro r hr r' hr'
    rw [List.mem_singleton.mp hr']
    exact hturn.above r hr i entry (Or.inl hx)

theorem step (hok : Unrivalled s a) (h : Outbox.step serve s a = some t) : InTurn t := by
  cases handled_step h with
  | inr hhandle =>
    obtain ⟨i, x, answer, hx, rfl⟩ := hhandle
    exact hturn.handle hs hx answer h hok
  | inl hsame =>
    refine ⟨fun _ _ _ _ hij => hturn.apart_step hs hok h hij, ?_, ?_, hsame ▸ hturn.ordered⟩
    · intro r hr i x hx
      rw [hsame] at hr
      cases sends_step hs h hx with
      | inl hx => exact hturn.above r hr i x hx
      | inr hnew => exact hturn.below r hr x hnew.2.2
    · intro r hr q hq
      rw [hsame] at hr
      cases queue_step hs h hq with
      | inl hq => exact hturn.below r hr q hq
      | inr hnew => exact (hnew _ (hs.known r hr)).le

theorem serialFifo : SerialFifo serve server s where
  effect := hs.effect
  ordered := hturn.ordered
  kept := hs.kept
  inTurn := by
    intro e he r hr hlt
    cases hs.kept e he with
    | inl hq => exact absurd (hturn.below r hr e hq) (Nat.not_le_of_lt hlt)
    | inr h => exact h

end InTurn

theorem unrivalled_of_idle (hloops : ∀ i, s.loops i = none) (hrequests : ∀ i, s.requests i = none) :
    Unrivalled s a := by
  cases a with
  | flush =>
    intro i e he
    cases he with
    | inl hx =>
      rw [hrequests] at hx
      cases hx
    | inr hl =>
      obtain ⟨l, hl, -⟩ := hl
      rw [hloops] at hl
      cases hl
  | _ => trivial

theorem flushOutbox_serialFifo (serve : C → S → Except RpcErrorCode S) (server : S) (s : Outbox C S)
    (hrun : Runs (step serve) Unrivalled (initial server) s) : SerialFifo serve server s := by
  have hstep : ∀ {s a t}, Base serve server s ∧ InTurn s → Unrivalled s a → step serve s a = some t →
      Base serve server t ∧ InTurn t := fun h hok hstep => ⟨h.1.step hstep, h.2.step h.1 hok hstep⟩
  obtain ⟨hs, hturn⟩ := hrun.invariant hstep ⟨Base.initial server, InTurn.initial server⟩
  exact hturn.serialFifo hs

section Example

def office : MembershipDb JsString :=
  ⟨⟨.empty, [⟨[3], [1], .owner⟩], .empty⟩, OrderedMap.empty.set [9] [2]⟩

def officeServe : MembershipCall JsString → MembershipDb JsString →
    Except RpcErrorCode (MembershipDb JsString) :=
  serveMembership id (fun users => users.keys.flatten) rawUuids 0 (some [1])

def inviteThenRemove : List (OutboxAction (MembershipCall JsString)) :=
  [.enqueue (.InviteMember [3] [9]), .enqueue (.RemoveMember [3] [2])]

def roundTrip (i : ℕ) : List (OutboxAction (MembershipCall JsString)) :=
  [.send i, .arrive i none, .receive i, .deleted i]

def firstLost : List (OutboxAction (MembershipCall JsString)) := [.send 0, .lose 0, .stop 0]

def retried : List (OutboxAction (MembershipCall JsString)) :=
  inviteThenRemove ++ [.flush] ++ firstLost ++ [.flush] ++ roundTrip 1 ++ roundTrip 1

theorem flushOutbox_serialFifo_retried : ∃ s, execute (step officeServe) (initial office) retried = some s ∧
    s.queue = [] ∧
    s.server.db.isWorkspaceMember [3] [2] = false ∧ SerialFifo officeServe office s := by
  refine ⟨_, rfl, rfl, by decide, flushOutbox_serialFifo officeServe office _ ?_⟩
  have henqueued : Runs (step officeServe) Unrivalled (initial office) _ :=
    execute_runs_of (by simp [inviteThenRemove, Unrivalled]) (rfl : execute _ _ inviteThenRemove = some _)
  have hfirst := henqueued.step .flush (unrivalled_of_idle (fun _ => rfl) (fun _ => rfl)) rfl
  have hlost := hfirst.trans
    (execute_runs_of (by simp [firstLost, Unrivalled]) (rfl : execute _ _ firstLost = some _))
  have hsecond := hlost.step .flush
    (unrivalled_of_idle (by intro i; cases i <;> rfl) (by intro i; cases i <;> rfl)) rfl
  exact hsecond.trans
    (execute_runs_of (by simp [roundTrip, Unrivalled])
      (rfl : execute _ _ (roundTrip 1 ++ roundTrip 1) = some _))

/-- Two triggers at once; the first request of the second flush arrives last, and then the page is closed. -/
def overlapping : List (OutboxAction (MembershipCall JsString)) :=
  inviteThenRemove ++ [.flush, .flush] ++ roundTrip 0 ++ [.send 1] ++ roundTrip 0 ++
    [.arrive 1 none, .receive 1, .deleted 1, .stop 1]

theorem flushOutbox_overlapping : ∃ s, execute (step officeServe) (initial office) overlapping = some s ∧
    s.queue = [] ∧
    (∀ i < s.flushes, s.loops i = none ∧ s.requests i = none) ∧ ¬ SerialFifo officeServe office s ∧
    s.server.db.isWorkspaceMember [3] [2] = true ∧
    ((s.enqueued.map fun e => ⟨e, .ok⟩).foldl (perform officeServe) office).db.isWorkspaceMember [3]
    [2] = false := by
  refine ⟨_, rfl, rfl, ?_, ?_, by decide, by decide⟩
  · intro i hi
    have htwo : i < 2 := hi
    obtain rfl | rfl : i = 0 ∨ i = 1 := by omega
    · exact ⟨rfl, rfl⟩
    · exact ⟨rfl, rfl⟩
  · intro h
    exact absurd h.ordered (by decide)

end Example

end Outbox

end OpenOutliner
