import OpenOutliner.Server.ItemsRepo
import OpenOutliner.Server.ServerInvariants

/-!
The calls of `PersistDocumentUpdate` for any documents, statement by statement, beside any other
transactions on their logs. A call may fail anywhere, and the requests are arbitrary.
-/

namespace OpenOutliner

open Foundations

def DOCUMENT_SCHEMA_VERSION : ℕ := 2

/-- The bytes of updates: their merged states, their size, and a digest. -/
structure Payloads (S P G : Type) extends Codec S P where
  size : P → ℕ
  digest : P → G

structure PersistRequest (P : Type) where
  documentId : JsString
  batchId : JsString
  schemaVersion : ℕ
  update : P
deriving DecidableEq

def isHexOrDash (c : CodeUnit) : Bool :=
  (0x30 ≤ c.val && c.val < 0x3A) || (0x61 ≤ c.val && c.val < 0x67) || (0x41 ≤ c.val && c.val < 0x47) ||
    c.val = 0x2D

def isBatchId (id : JsString) : Bool := id.length = 36 && id.all isHexOrDash

def PersistRequest.isValid {S P G : Type} (payloads : Payloads S P G) (q : PersistRequest P) : Bool :=
  q.schemaVersion = DOCUMENT_SCHEMA_VERSION && isBatchId q.batchId &&
    payloads.size q.update ≤ 4 * 1024 * 1024 && (payloads.decode q.update).isSome

inductive Call (P Uuid : Type)
  | idle
  | received (q : PersistRequest P)
  | locked (q : PersistRequest P)
  | appending (q : PersistRequest P) (document batch : Uuid)
  | receipted (q : PersistRequest P) (document batch : Uuid) (revision : ℕ)

/-- Transactions on a log are those of calls and others. `inserting` is the receipt's key while its
transaction is open, `appends` what calls have committed. -/
structure UpdateServer (W V P G Uuid : Type) where
  logs : Uuid → Log (W ⊕ V) P
  receipts : Uuid × Uuid → Option (G × ℕ)
  batchLocks : JsString × JsString → Option W
  inserting : Uuid × Uuid → Option W
  calls : W → Call P Uuid
  replies : List (PersistRequest P × ℕ)
  appends : List ((Uuid × Uuid) × P × ℕ)

def Call.request {P Uuid : Type} : Call P Uuid → Option (PersistRequest P)
  | idle => none
  | received q | locked q | appending q _ _ | receipted q _ _ _ => some q

inductive UpdateAction (W V P Uuid : Type)
  | receive (w : W) (q : PersistRequest P)
  | lockBatch (w : W)
  | selectReceipt (w : W)
  | insertUpdate (w : W) (id : ℕ)
  | advanceRev (w : W)
  | insertReceipt (w : W)
  | commit (w : W)
  | fail (w : W)
  | log (document : Uuid) (a : LogAction (W ⊕ V) P)

def UpdateAction.call {W V P Uuid : Type} : UpdateAction W V P Uuid → Option W
  | receive w _ | lockBatch w | selectReceipt w | insertUpdate w _ | advanceRev w | insertReceipt w | commit w
  | fail w => some w
  | log _ _ => none

namespace UpdateServer

variable {W V S P G Uuid : Type} [DecidableEq W] [DecidableEq V] [SemilatticeSup S] [OrderBot S]
  [DecidableEq P]
  [DecidableEq G] [DecidableEq Uuid] (payloads : Payloads S P G) (uuids : UuidText Uuid) (threshold : ℕ)

def setCall (σ : UpdateServer W V P G Uuid) (w : W) (call : Call P Uuid) : UpdateServer W V P G Uuid :=
  { σ with calls := Function.update σ.calls w call }

def finish (σ : UpdateServer W V P G Uuid) (w : W) : UpdateServer W V P G Uuid :=
  { σ with
    batchLocks := fun key => if σ.batchLocks key = some w then none else σ.batchLocks key
    inserting := fun key => if σ.inserting key = some w then none else σ.inserting key
    calls := Function.update σ.calls w .idle }

def rollback (σ : UpdateServer W V P G Uuid) (w : W) : UpdateServer W V P G Uuid :=
  match σ.calls w with
  | .appending _ document _ | .receipted _ document _ _ =>
    { σ with logs := Function.update σ.logs document ((σ.logs document).release (.inl w)) }.finish w
  | _ => σ.finish w

def logStep (σ : UpdateServer W V P G Uuid) (document : Uuid) (a : LogAction (W ⊕ V) P) :
    Option (UpdateServer W V P G Uuid) :=
  ((σ.logs document).step payloads.toCodec threshold a).map fun log =>
    { σ with logs := Function.update σ.logs document log }

def step (σ : UpdateServer W V P G Uuid) : UpdateAction W V P Uuid → Option (UpdateServer W V P G Uuid)
  | .receive w q =>
    match σ.calls w with
    | .idle => if q.isValid payloads = true then some (σ.setCall w (.received q)) else none
    | _ => none
  | .lockBatch w =>
    match σ.calls w with
    | .received q =>
      if σ.batchLocks (q.documentId, q.batchId) = none then
        some ({ σ with
          batchLocks := Function.update σ.batchLocks (q.documentId, q.batchId) (some w) }.setCall w
          (.locked q))
      else none
    | _ => none
  | .selectReceipt w =>
    match σ.calls w with
    | .locked q =>
      match uuids.parse q.documentId, uuids.parse q.batchId with
      | some document, some batch =>
        match σ.receipts (document, batch) with
        | some (digest, revision) =>
          if digest = payloads.digest q.update
          then some { σ.finish w with replies := (q, revision) :: σ.replies }
          else some (σ.finish w)
        | none => some (σ.setCall w (.appending q document batch))
      | _, _ => some (σ.finish w)
    | _ => none
  | .insertUpdate w id =>
    match σ.calls w with
    | .appending q document _ => σ.logStep payloads threshold document (.insertUpdate (.inl w) id q.update)
    | _ => none
  | .advanceRev w =>
    match σ.calls w with
    | .appending _ document _ => σ.logStep payloads threshold document (.advanceRev (.inl w))
    | _ => none
  | .insertReceipt w =>
    match σ.calls w with
    | .appending q document batch =>
      match (σ.logs document).txs (.inl w) with
      | .appended _ revision =>
        -- the primary key: a committed receipt fails the statement, an open one makes it wait
        if (σ.receipts (document, batch)).isSome = true then some (σ.rollback w)
        else if σ.inserting (document, batch) = none then
          some ({ σ with inserting := Function.update σ.inserting (document, batch) (some w) }.setCall w
            (.receipted q document batch revision))
        else none
      | _ => none
    | _ => none
  | .commit w =>
    match σ.calls w with
    | .receipted q document batch revision =>
      ((σ.logs document).step payloads.toCodec threshold (.commit (.inl w))).map fun log =>
        { σ.finish w with
          logs := Function.update σ.logs document log
          receipts := Function.update σ.receipts (document, batch) (some (payloads.digest q.update, revision))
          replies := (q, revision) :: σ.replies
          appends := ((document, batch), q.update, revision) :: σ.appends }
    | _ => none
  | .fail w => some (σ.rollback w)
  | .log document a =>
    match a.tx with
    | .inl _ => none
    | .inr _ => σ.logStep payloads threshold document a

def initial (seed : Uuid → Option ℕ) : UpdateServer W V P G Uuid :=
  ⟨fun document => Log.initial (seed document), fun _ => none, fun _ => none, fun _ => none,
    fun _ => .idle, [], []⟩

variable {payloads : Payloads S P G} {uuids : UuidText Uuid} {threshold : ℕ} {σ τ : UpdateServer W V P G Uuid}
  {w : W} {document : Uuid} {call : Call P Uuid}

def Appends (update : P) : Tx P → Prop
  | .idle => True
  | .inserted row | .appended row _ => row.2 = update
  | _ => False

def CallInv (uuids : UuidText Uuid) (σ : UpdateServer W V P G Uuid) (w : W) : Call P Uuid → Prop
  | .idle | .received _ | .locked _ => ∀ d, (σ.logs d).txs (.inl w) = .idle
  | .appending q document batch =>
    uuids.parse q.documentId = some document ∧ uuids.parse q.batchId = some batch ∧
      (∀ d, d ≠ document → (σ.logs d).txs (.inl w) = .idle) ∧ Appends q.update
      ((σ.logs document).txs (.inl w))
  | .receipted q document batch revision =>
    uuids.parse q.documentId = some document ∧ uuids.parse q.batchId = some batch ∧
      (∀ d, d ≠ document → (σ.logs d).txs (.inl w) = .idle) ∧
      (∃ id, (σ.logs document).txs (.inl w) = .appended (id, q.update) revision) ∧
      σ.receipts (document, batch) = none ∧ σ.inserting (document, batch) = some w

omit [DecidableEq W] [DecidableEq V] [DecidableEq P] [DecidableEq G] [DecidableEq Uuid] in
theorem CallInv.frame (h : CallInv uuids σ w call)
    (hlogs : ∀ d, (τ.logs d).txs (.inl w) = (σ.logs d).txs (.inl w))
    (hkeys : ∀ key, σ.inserting key = some w → τ.inserting key = some w ∧ τ.receipts key = σ.receipts key) :
    CallInv uuids τ w call := by
  cases call with
  | idle => exact fun d => (hlogs d).trans (h d)
  | received q => exact fun d => (hlogs d).trans (h d)
  | locked q => exact fun d => (hlogs d).trans (h d)
  | appending q document batch =>
    obtain ⟨hd, hb, hidle, htx⟩ := h
    exact ⟨hd, hb, fun d hne => (hlogs d).trans (hidle d hne), by rwa [hlogs]⟩
  | receipted q document batch revision =>
    obtain ⟨hd, hb, hidle, htx, hnone, hins⟩ := h
    obtain ⟨hins', hsame⟩ := hkeys _ hins
    exact ⟨hd, hb, fun d hne => (hlogs d).trans (hidle d hne), by rwa [hlogs], hsame.trans hnone, hins'⟩

structure Inv (payloads : Payloads S P G) (uuids : UuidText Uuid) (σ : UpdateServer W V P G Uuid) : Prop where
  log : ∀ document, (σ.logs document).Inv payloads.toCodec
  calls : ∀ w, CallInv uuids σ w (σ.calls w)
  receipts : ∀ key digest revision, σ.receipts key = some (digest, revision) →
    ∃ update, (key, update, revision) ∈ σ.appends ∧ payloads.digest update = digest
  replies : ∀ q revision, (q, revision) ∈ σ.replies →
    ∃ document batch, uuids.parse q.documentId = some document ∧
    uuids.parse q.batchId = some batch ∧
    σ.receipts (document, batch) = some (payloads.digest q.update, revision)
  appends : ∀ key update revision, (key, update, revision) ∈ σ.appends →
    (revision, update) ∈ (σ.logs key.1).committed ∧ σ.receipts key ≠ none
  once : (σ.appends.map Prod.fst).Nodup

omit [DecidableEq G] [DecidableEq Uuid] [DecidableEq W] [DecidableEq V] [DecidableEq P] in
theorem inv_initial (seed : Uuid → Option ℕ) :
    (initial seed : UpdateServer W V P G Uuid).Inv payloads uuids where
  log document := Log.inv_initial _ _
  calls w := fun _ => rfl
  receipts := by simp [initial]
  replies := by simp [initial]
  appends := by simp [initial]
  once := List.nodup_nil

section Steps

variable (h : σ.Inv payloads uuids)

include h

omit [DecidableEq W] [DecidableEq V] [DecidableEq P] [DecidableEq G] [DecidableEq Uuid] in
theorem Inv.keep {batchLocks : JsString × JsString → Option W} {inserting : Uuid × Uuid → Option W}
    {calls : W → Call P Uuid} {logs : Uuid → Log (W ⊕ V) P}
    (hlogs : ∀ d, (logs d).Inv payloads.toCodec ∧ (σ.logs d).committed ⊆ (logs d).committed)
    (hcalls : ∀ w, CallInv uuids (⟨logs, σ.receipts, batchLocks, inserting, calls, σ.replies, σ.appends⟩ :
      UpdateServer W V P G Uuid) w (calls w)) :
    Inv payloads uuids ⟨logs, σ.receipts, batchLocks, inserting, calls, σ.replies, σ.appends⟩ where
  log d := (hlogs d).1
  calls := hcalls
  receipts := h.receipts
  replies := h.replies
  appends key update revision he := by
    obtain ⟨hcom, hsome⟩ := h.appends key update revision he
    exact ⟨(hlogs key.1).2 hcom, hsome⟩
  once := h.once

omit [DecidableEq W] [DecidableEq V] [DecidableEq P] [DecidableEq G] [DecidableEq Uuid] in
theorem same_logs : ∀ d, (σ.logs d).Inv payloads.toCodec ∧ (σ.logs d).committed ⊆ (σ.logs d).committed :=
  fun d => ⟨h.log d, Finset.Subset.rfl⟩

omit [DecidableEq G] in
theorem updated_logs {a : LogAction (W ⊕ V) P} {log : Log (W ⊕ V) P}
    (hlog : (σ.logs document).step payloads.toCodec threshold a = some log) :
    ∀ d, (Function.update σ.logs document log d).Inv payloads.toCodec ∧
      (σ.logs d).committed ⊆ (Function.update σ.logs document log d).committed := by
  intro d
  by_cases hd : d = document
  · subst hd
    rw [Function.update_self]
    exact ⟨Log.inv_step (h.log d) hlog, (Log.step_extends (h.log d) hlog).committed⟩
  · rw [Function.update_of_ne hd]
    exact ⟨h.log d, Finset.Subset.rfl⟩

omit [DecidableEq G] h in
theorem updated_txs {a : LogAction (W ⊕ V) P} {log : Log (W ⊕ V) P} (ha : a.tx ≠ .inl w)
    (hlog : (σ.logs document).step payloads.toCodec threshold a = some log) (d : Uuid) :
    (Function.update σ.logs document log d).txs (.inl w) = (σ.logs d).txs (.inl w) := by
  by_cases hd : d = document
  · subst hd
    rw [Function.update_self]
    exact Log.step_txs_of_ne hlog ha.symm
  · rw [Function.update_of_ne hd]

omit [DecidableEq V] [DecidableEq P] [DecidableEq G] [DecidableEq Uuid] in
theorem Inv.advance {batchLocks : JsString × JsString → Option W} {inserting : Uuid × Uuid → Option W}
    {logs : Uuid → Log (W ⊕ V) P}
    (hlogs : ∀ d, (logs d).Inv payloads.toCodec ∧ (σ.logs d).committed ⊆ (logs d).committed)
    (hother : ∀ w' ≠ w, ∀ d, (logs d).txs (.inl w') = (σ.logs d).txs (.inl w'))
    (hins : ∀ w' ≠ w, ∀ key, σ.inserting key = some w' → inserting key = some w')
    (hcall : CallInv uuids
      (⟨logs, σ.receipts, batchLocks, inserting, Function.update σ.calls w call, σ.replies,
      σ.appends⟩ : UpdateServer W V P G Uuid) w call) :
    Inv payloads uuids ⟨logs, σ.receipts, batchLocks, inserting, Function.update σ.calls w call, σ.replies,
      σ.appends⟩ := by
  refine h.keep hlogs ?_
  intro w'
  by_cases hw : w' = w
  · subst hw
    rwa [Function.update_self]
  · rw [Function.update_of_ne hw]
    exact (h.calls w').frame (hother w' hw) fun key hkey => ⟨hins w' hw key hkey, rfl⟩

omit [DecidableEq V] [DecidableEq P] [DecidableEq G] [DecidableEq Uuid] in
theorem inv_finish (hidle : ∀ d, (σ.logs d).txs (.inl w) = .idle) : (σ.finish w).Inv payloads uuids := by
  refine h.advance (same_logs h) (fun _ _ _ => rfl) ?_ hidle
  intro w' hw key hkey
  rw [hkey, if_neg fun he => hw (Option.some.inj he)]

omit [DecidableEq G] in
theorem inv_release (hidle : ∀ d, d ≠ document → (σ.logs d).txs (.inl w) = .idle) :
    ({ σ with logs := Function.update σ.logs document ((σ.logs document).release (.inl w)) }.finish w :
      UpdateServer W V P G Uuid).Inv payloads uuids := by
  have hlog : (σ.logs document).step payloads.toCodec 0 (.rollback (.inl w)) =
      some ((σ.logs document).release (.inl w)) := rfl
  refine h.advance (updated_logs h hlog) ?_ ?_ ?_
  · intro w' hw d
    exact updated_txs (by simpa [LogAction.tx] using hw.symm) hlog d
  · intro w' hw key hkey
    dsimp only
    rw [hkey, if_neg fun he => hw (Option.some.inj he)]
  · intro d
    by_cases hd : d = document
    · subst hd
      simp [Log.release]
    · simp only [Function.update_of_ne hd]
      exact hidle d hd

omit [DecidableEq G] in
theorem inv_rollback : (σ.rollback w).Inv payloads uuids := by
  have hcall := h.calls w
  unfold rollback
  split
  · rename_i q document batch hc
    rw [hc] at hcall
    exact inv_release h hcall.2.2.1
  · rename_i q document batch revision hc
    rw [hc] at hcall
    exact inv_release h hcall.2.2.1
  · rename_i hna hnr
    apply inv_finish h
    cases hc : σ.calls w with
    | idle => rw [hc] at hcall; exact hcall
    | received q => rw [hc] at hcall; exact hcall
    | locked q => rw [hc] at hcall; exact hcall
    | appending q document batch => exact absurd hc (hna q document batch)
    | receipted q document batch revision => exact absurd hc (hnr q document batch revision)

omit [DecidableEq V] [DecidableEq P] [DecidableEq G] [DecidableEq Uuid] in
theorem inv_setCall (hcall : CallInv uuids σ w call) : (σ.setCall w call).Inv payloads uuids :=
  h.advance (same_logs h) (fun _ _ _ => rfl) (fun _ _ _ hkey => hkey)
    (hcall.frame (fun _ => rfl) fun _ hkey => ⟨hkey, rfl⟩)

omit [DecidableEq G] in
theorem inv_logStep {a : LogAction (W ⊕ V) P} (hstep : σ.logStep payloads threshold document a = some τ)
    (hown : ∀ w, a.tx = .inl w → CallInv uuids τ w (σ.calls w)) : τ.Inv payloads uuids := by
  obtain ⟨log, hlog, rfl⟩ := Option.map_eq_some_iff.mp hstep
  refine h.keep (updated_logs h hlog) ?_
  intro w
  by_cases hw : a.tx = .inl w
  · exact hown w hw
  · exact (h.calls w).frame (updated_txs hw hlog) fun _ hkey => ⟨hkey, rfl⟩

end Steps

omit [DecidableEq G] in
theorem insertUpdate_appends {update : P} {id : ℕ} {log log' : Log (W ⊕ V) P}
    (hlog : log.step payloads.toCodec threshold (.insertUpdate (.inl w) id update) = some log') :
    Appends update (log'.txs (.inl w)) := by
  simp only [Log.step] at hlog
  split at hlog
  · split at hlog
    · cases hlog
    · cases hlog
      simp [Log.setTx, Appends]
  · cases hlog

omit [DecidableEq G] in
theorem advanceRev_appends {update : P} {log log' : Log (W ⊕ V) P}
    (hlog : log.step payloads.toCodec threshold (.advanceRev (.inl w)) = some log')
    (htx : Appends update (log.txs (.inl w))) : Appends update (log'.txs (.inl w)) := by
  simp only [Log.step] at hlog
  split at hlog
  · rename_i htx' _
    rw [htx'] at htx
    cases hlog
    simpa [Log.setTx, Appends] using htx
  · rename_i htx' _
    rw [htx'] at htx
    cases htx
  · cases hlog

theorem inv_selectReceipt (h : σ.Inv payloads uuids)
    (hstep : σ.step payloads uuids threshold (.selectReceipt w) = some τ) : τ.Inv payloads uuids := by
  have hcall := h.calls w
  simp only [step] at hstep
  split at hstep
  · rename_i q hc
    rw [hc] at hcall
    have hfinish := inv_finish h hcall
    split at hstep
    · rename_i document batch hd hb
      split at hstep
      · rename_i digest revision hreceipt
        split at hstep
        · rename_i he
          cases hstep
          refine { hfinish with replies := ?_ }
          intro q' revision' hmem
          cases List.mem_cons.mp hmem with
          | inl hnew =>
            cases hnew
            exact ⟨document, batch, hd, hb, he ▸ hreceipt⟩
          | inr hold => exact h.replies q' revision' hold
        · cases hstep
          exact hfinish
      · cases hstep
        refine inv_setCall h ⟨hd, hb, fun d _ => hcall d, ?_⟩
        rw [hcall document]
        trivial
    · cases hstep
      exact hfinish
  · cases hstep

theorem inv_insertReceipt (h : σ.Inv payloads uuids)
    (hstep : σ.step payloads uuids threshold (.insertReceipt w) = some τ) : τ.Inv payloads uuids := by
  have hcall := h.calls w
  simp only [step] at hstep
  split at hstep
  · rename_i q document batch hc
    rw [hc] at hcall
    obtain ⟨hd, hb, hidle, htx⟩ := hcall
    split at hstep
    · rename_i row revision htx'
      rw [htx'] at htx
      split_ifs at hstep with hreceipt hfree
      · cases hstep
        exact inv_rollback h
      · cases hstep
        apply h.advance (same_logs h) (fun _ _ _ => rfl)
        · intro w' _ key hkey
          dsimp only
          rw [Function.update_of_ne, hkey]
          rintro rfl
          rw [hfree] at hkey
          cases hkey
        · refine ⟨hd, hb, hidle, ⟨row.1, ?_⟩, ?_, Function.update_self _ _ _⟩
          · rw [htx', ← show row.2 = q.update from htx]
          · simpa using hreceipt
    · cases hstep
  · cases hstep

theorem inv_commit (h : σ.Inv payloads uuids)
    (hstep : σ.step payloads uuids threshold (.commit w) = some τ) : τ.Inv payloads uuids := by
  have hcall := h.calls w
  simp only [step] at hstep
  split at hstep
  · rename_i q document batch revision hc
    rw [hc] at hcall
    obtain ⟨hd, hb, hidle, ⟨id, htx⟩, hnone, hins⟩ := hcall
    obtain ⟨log, hlog, rfl⟩ := Option.map_eq_some_iff.mp hstep
    obtain ⟨-, hcom, -⟩ := Log.commit_appended htx hlog
    have hnew : ∀ key update revision, (key, update, revision) ∈ σ.appends → key ≠ (document, batch) := by
      rintro key update revision' he rfl
      exact (h.appends _ _ _ he).2 hnone
    constructor
    · exact fun d => (updated_logs h hlog d).1
    · intro w'
      by_cases hw : w' = w
      · subst hw
        simp only [finish, Function.update_self]
        intro d
        by_cases hdd : d = document
        · subst hdd
          simp only [Function.update_self]
          simp only [Log.step, htx] at hlog
          cases hlog
          simp [Log.release]
        · simp only [Function.update_of_ne hdd]
          exact hidle d hdd
      · simp only [finish, Function.update_of_ne hw]
        refine (h.calls w').frame (updated_txs (by simpa [LogAction.tx] using Ne.symm hw) hlog) ?_
        intro key hkey
        constructor
        · dsimp only
          rw [hkey, if_neg fun he => hw (Option.some.inj he)]
        · dsimp only
          rw [Function.update_of_ne]
          rintro rfl
          rw [hins] at hkey
          exact hw (Option.some.inj hkey).symm
    · intro key digest revision' hreceipt
      by_cases hkey : key = (document, batch)
      · subst hkey
        simp only [Function.update_self, Option.some.injEq, Prod.mk.injEq] at hreceipt
        obtain ⟨rfl, rfl⟩ := hreceipt
        exact ⟨q.update, List.mem_cons_self, rfl⟩
      · simp only [Function.update_of_ne hkey] at hreceipt
        obtain ⟨update, hmem, he⟩ := h.receipts key digest revision' hreceipt
        exact ⟨update, List.mem_cons_of_mem _ hmem, he⟩
    · intro q' revision' hmem
      cases List.mem_cons.mp hmem with
      | inl he =>
        cases he
        exact ⟨document, batch, hd, hb, Function.update_self _ _ _⟩
      | inr hold =>
        obtain ⟨d', b', hd', hb', hreceipt⟩ := h.replies q' revision' hold
        refine ⟨d', b', hd', hb', ?_⟩
        dsimp only
        rw [Function.update_of_ne, hreceipt]
        intro he
        rw [he, hnone] at hreceipt
        cases hreceipt
    · intro key update revision' hmem
      cases List.mem_cons.mp hmem with
      | inl he =>
        cases he
        simp only [Function.update_self]
        refine ⟨?_, by simp⟩
        rw [hcom]
        exact Finset.mem_insert_self _ _
      | inr hold =>
        refine ⟨(updated_logs h hlog key.1).2 (h.appends key update revision' hold).1, ?_⟩
        dsimp only
        rw [Function.update_of_ne (hnew key update revision' hold)]
        exact (h.appends key update revision' hold).2
    · rw [List.map_cons, List.nodup_cons]
      refine ⟨?_, h.once⟩
      intro hmem
      obtain ⟨⟨key, update, revision'⟩, he, hkey⟩ := List.mem_map.mp hmem
      exact hnew key update revision' he hkey
  · cases hstep

theorem inv_step {a : UpdateAction W V P Uuid} (h : σ.Inv payloads uuids)
    (hstep : σ.step payloads uuids threshold a = some τ) : τ.Inv payloads uuids := by
  cases a with
  | receive w q =>
    have hcall := h.calls w
    simp only [step] at hstep
    split at hstep
    · rename_i hc
      rw [hc] at hcall
      split at hstep
      · cases hstep
        exact inv_setCall h hcall
      · cases hstep
    · cases hstep
  | lockBatch w =>
    have hcall := h.calls w
    simp only [step] at hstep
    split at hstep
    · rename_i q hc
      rw [hc] at hcall
      split at hstep
      · cases hstep
        apply h.advance (same_logs h) (fun _ _ _ => rfl) (fun _ _ _ hkey => hkey)
        exact hcall
      · cases hstep
    · cases hstep
  | selectReceipt w => exact inv_selectReceipt h hstep
  | insertUpdate w id =>
    have hcall := h.calls w
    simp only [step] at hstep
    split at hstep
    · rename_i q document batch hc
      rw [hc] at hcall
      obtain ⟨hd, hb, hidle, -⟩ := hcall
      refine inv_logStep h hstep ?_
      rintro w' ⟨⟩
      rw [hc]
      obtain ⟨log, hlog, rfl⟩ := Option.map_eq_some_iff.mp hstep
      refine ⟨hd, hb, fun d hne => ?_, ?_⟩
      · simp only [Function.update_of_ne hne]
        exact hidle d hne
      · simp only [Function.update_self]
        exact insertUpdate_appends hlog
    · cases hstep
  | advanceRev w =>
    have hcall := h.calls w
    simp only [step] at hstep
    split at hstep
    · rename_i q document batch hc
      rw [hc] at hcall
      obtain ⟨hd, hb, hidle, htx⟩ := hcall
      refine inv_logStep h hstep ?_
      rintro w' ⟨⟩
      rw [hc]
      obtain ⟨log, hlog, rfl⟩ := Option.map_eq_some_iff.mp hstep
      refine ⟨hd, hb, fun d hne => ?_, ?_⟩
      · simp only [Function.update_of_ne hne]
        exact hidle d hne
      · simp only [Function.update_self]
        exact advanceRev_appends hlog htx
    · cases hstep
  | insertReceipt w => exact inv_insertReceipt h hstep
  | commit w => exact inv_commit h hstep
  | fail w =>
    cases hstep
    exact inv_rollback h
  | log document a =>
    simp only [step] at hstep
    split at hstep
    · cases hstep
    · rename_i v hv
      refine inv_logStep h hstep ?_
      intro w hw
      rw [hv] at hw
      cases hw

structure Same (σ τ : UpdateServer W V P G Uuid) : Prop where
  logs : ∀ d, (τ.logs d).rows = (σ.logs d).rows ∧ (τ.logs d).sourceRev = (σ.logs d).sourceRev ∧
    (τ.logs d).committed = (σ.logs d).committed
  receipts : τ.receipts = σ.receipts
  replies : τ.replies = σ.replies
  appends : τ.appends = σ.appends

omit [DecidableEq W] [DecidableEq V] [DecidableEq P] [DecidableEq G] in
theorem same_update {log : Log (W ⊕ V) P} {batchLocks : JsString × JsString → Option W}
    {inserting : Uuid × Uuid → Option W} {calls : W → Call P Uuid}
    (hlog : log.rows = (σ.logs document).rows ∧ log.sourceRev = (σ.logs document).sourceRev ∧
      log.committed = (σ.logs document).committed) :
    Same σ ⟨Function.update σ.logs document log, σ.receipts, batchLocks, inserting, calls, σ.replies,
      σ.appends⟩ := by
  refine ⟨fun d => ?_, rfl, rfl, rfl⟩
  by_cases hd : d = document
  · subst hd
    simpa using hlog
  · simp [Function.update_of_ne hd]

omit [DecidableEq P] [DecidableEq G] in
theorem same_rollback : Same σ (σ.rollback w) := by
  unfold rollback
  split
  · exact same_update ⟨rfl, rfl, rfl⟩
  · exact same_update ⟨rfl, rfl, rfl⟩
  · exact ⟨fun _ => ⟨rfl, rfl, rfl⟩, rfl, rfl, rfl⟩

omit [DecidableEq G] in
theorem same_logStep {a : LogAction (W ⊕ V) P} (hstep : σ.logStep payloads threshold document a = some τ)
    (ha : ∀ t, a ≠ .commit t) : Same σ τ := by
  obtain ⟨log, hlog, rfl⟩ := Option.map_eq_some_iff.mp hstep
  exact same_update (Log.step_unchanged hlog ha)

theorem same_step {a : UpdateAction W V P Uuid} (hstep : σ.step payloads uuids threshold a = some τ)
    (ha : a.call = some w) (hcommit : a ≠ .commit w) (hselect : a ≠ .selectReceipt w) : Same σ τ := by
  cases a with
  | receive w' q =>
    simp only [step] at hstep
    repeat' split at hstep
    all_goals cases hstep
    all_goals exact ⟨fun _ => ⟨rfl, rfl, rfl⟩, rfl, rfl, rfl⟩
  | lockBatch w' =>
    simp only [step] at hstep
    repeat' split at hstep
    all_goals cases hstep
    all_goals exact ⟨fun _ => ⟨rfl, rfl, rfl⟩, rfl, rfl, rfl⟩
  | selectReceipt w' =>
    cases ha
    exact absurd rfl hselect
  | insertUpdate w' id =>
    simp only [step] at hstep
    split at hstep
    · exact same_logStep hstep (by simp)
    · cases hstep
  | advanceRev w' =>
    simp only [step] at hstep
    split at hstep
    · exact same_logStep hstep (by simp)
    · cases hstep
  | insertReceipt w' =>
    simp only [step] at hstep
    repeat' split at hstep
    all_goals cases hstep
    · exact same_rollback
    · exact ⟨fun _ => ⟨rfl, rfl, rfl⟩, rfl, rfl, rfl⟩
  | commit w' =>
    cases ha
    exact absurd rfl hcommit
  | fail w' =>
    cases hstep
    exact same_rollback
  | log document a => cases ha

theorem step_rejected {a : UpdateAction W V P Uuid} {q : PersistRequest P} {batch : Uuid} {digest : G}
    {revision : ℕ} (h : σ.Inv payloads uuids) (hstep : σ.step payloads uuids threshold a = some τ)
    (ha : a.call = some w) (hq : (σ.calls w).request = some q) (hd : uuids.parse q.documentId = some document)
    (hb : uuids.parse q.batchId = some batch)
    (hreceipt : σ.receipts (document, batch) = some (digest, revision))
    (hne : digest ≠ payloads.digest q.update) : Same σ τ := by
  by_cases hcommit : a = .commit w
  · subst hcommit
    have hcall := h.calls w
    simp only [step] at hstep
    split at hstep
    · rename_i q' document' batch' revision' hc
      rw [hc] at hcall hq
      obtain rfl := Option.some.inj hq
      obtain ⟨hd', hb', -, -, hnone, -⟩ := hcall
      rw [hd] at hd'
      rw [hb] at hb'
      cases hd'
      cases hb'
      rw [hreceipt] at hnone
      cases hnone
    · cases hstep
  · by_cases hselect : a = .selectReceipt w
    · subst hselect
      have hsame : Same σ (σ.finish w) := ⟨fun _ => ⟨rfl, rfl, rfl⟩, rfl, rfl, rfl⟩
      simp only [step] at hstep
      split at hstep
      · rename_i q' hc
        rw [hc] at hq
        obtain rfl := Option.some.inj hq
        rw [hd, hb] at hstep
        dsimp only at hstep
        rw [hreceipt] at hstep
        dsimp only at hstep
        rw [if_neg hne] at hstep
        cases hstep
        exact hsame
      · cases hstep
    · exact same_step hstep ha hcommit hselect

theorem step_recorded {a : UpdateAction W V P Uuid} {d : Uuid} {e : ℕ × P} (h : σ.Inv payloads uuids)
    (hstep : σ.step payloads uuids threshold a = some τ) (ha : a.call = some w)
    (he : e ∈ (τ.logs d).committed) (hnew : e ∉ (σ.logs d).committed) :
    ∃ batch, τ.appends = ((d, batch), e.2, e.1) :: σ.appends := by
  by_cases hcommit : a = .commit w
  · subst hcommit
    have hcall := h.calls w
    simp only [step] at hstep
    split at hstep
    · rename_i q document batch revision hc
      rw [hc] at hcall
      obtain ⟨-, -, -, ⟨id, htx⟩, -, -⟩ := hcall
      obtain ⟨log, hlog, rfl⟩ := Option.map_eq_some_iff.mp hstep
      obtain ⟨-, hcom, -⟩ := Log.commit_appended htx hlog
      dsimp only at he
      by_cases hd : d = document
      · subst hd
        rw [Function.update_self, hcom] at he
        obtain rfl := (Finset.mem_insert.mp he).resolve_right hnew
        exact ⟨batch, rfl⟩
      · rw [Function.update_of_ne hd] at he
        exact absurd he hnew
    · cases hstep
  · by_cases hselect : a = .selectReceipt w
    · subst hselect
      have hlogs : τ.logs = σ.logs := by
        simp only [step] at hstep
        repeat' split at hstep
        all_goals cases hstep
        all_goals rfl
      rw [hlogs] at he
      exact absurd he hnew
    · rw [((same_step hstep ha hcommit hselect).logs d).2.2] at he
      exact absurd he hnew

structure Keeps (σ τ : UpdateServer W V P G Uuid) : Prop where
  committed : ∀ d, (σ.logs d).committed ⊆ (τ.logs d).committed
  receipts : ∀ key receipt, σ.receipts key = some receipt → τ.receipts key = some receipt
  replies : σ.replies ⊆ τ.replies

omit [DecidableEq W] [DecidableEq V] [DecidableEq P] [DecidableEq G] [DecidableEq Uuid] in
theorem Same.keeps (h : Same σ τ) : Keeps σ τ where
  committed d := (h.logs d).2.2.ge
  receipts key receipt hr := by rw [h.receipts, hr]
  replies := by rw [h.replies]; exact List.Subset.refl _

theorem step_keeps {a : UpdateAction W V P Uuid} (h : σ.Inv payloads uuids)
    (hstep : σ.step payloads uuids threshold a = some τ) : Keeps σ τ := by
  by_cases hsame : ∃ w, a.call = some w ∧ a ≠ .commit w ∧ a ≠ .selectReceipt w
  · obtain ⟨w, ha, hcommit, hselect⟩ := hsame
    exact (same_step hstep ha hcommit hselect).keeps
  · cases a with
    | commit w =>
      have hcall := h.calls w
      simp only [step] at hstep
      split at hstep
      · rename_i q document batch revision hc
        rw [hc] at hcall
        obtain ⟨-, -, -, -, hnone, -⟩ := hcall
        obtain ⟨log, hlog, rfl⟩ := Option.map_eq_some_iff.mp hstep
        refine ⟨fun d => (updated_logs h hlog d).2, ?_, List.subset_cons_self _ _⟩
        intro key receipt hr
        dsimp only
        rw [Function.update_of_ne, hr]
        rintro rfl
        rw [hnone] at hr
        cases hr
      · cases hstep
    | selectReceipt w =>
      simp only [step] at hstep
      repeat' split at hstep
      all_goals cases hstep
      · exact ⟨fun _ => Finset.Subset.rfl, fun _ _ hr => hr, List.subset_cons_self _ _⟩
      all_goals exact ⟨fun _ => Finset.Subset.rfl, fun _ _ hr => hr, List.Subset.refl _⟩
    | log document a =>
      simp only [step] at hstep
      split at hstep
      · cases hstep
      · obtain ⟨log, hlog, rfl⟩ := Option.map_eq_some_iff.mp hstep
        exact ⟨fun d => (updated_logs h hlog d).2, fun _ _ hr => hr, List.Subset.refl _⟩
    | _ => exact absurd ⟨_, rfl, by simp, by simp⟩ hsame

end UpdateServer

end OpenOutliner
