import OpenOutliner.Server.Receipts

/-!
Tabs that share `library.pending`: each captures local updates, puts them in the store one after the
other and sends what the store holds for its document, await by await. A tab may crash anywhere.
-/

namespace OpenOutliner

open Foundations

inductive SaveState
  | savingLocally | savedLocally | pendingSync | savedOnServer | reconnectToSync | storageError | syncError
deriving DecidableEq, Repr

structure PendingUpdate (P Uuid : Type) where
  id : Uuid
  accountId : JsString
  documentId : JsString
  bytes : P
  createdAt : ℤ
deriving DecidableEq

def localAccount : JsString := js ['l', 'o', 'c', 'a', 'l']

inductive Flush (P Uuid : Type)
  | idle
  -- the promise of the updates captured so far
  | queued (captured : ℕ)
  | identifying
  | opening
  | registering
  | listing
  | sending (rest : List (PendingUpdate P Uuid))
  | persisting (update : PendingUpdate P Uuid) (rest : List (PendingUpdate P Uuid))
  | deleting (update : PendingUpdate P Uuid) (rest : List (PendingUpdate P Uuid))
  | reading
  | counting
  -- what the count was, and which puts it saw
  | counted (remaining : ℕ) (seen : List (Option Uuid))

/-- `results` has an entry for each captured update whose put is over: the id, or none if it failed.
`emitted` are the states shown, each with the number of captured updates that it speaks of. -/
structure Tab (P Uuid : Type) where
  accountId : JsString
  documentId : JsString
  stopped : Bool
  captured : List P
  results : List (Option Uuid)
  -- the id of a put whose `documents.update` is not over
  touching : Option Uuid
  storageFailed : Bool
  flush : Flush P Uuid
  emitted : List (SaveState × ℕ)

namespace Tab

variable {P Uuid : Type}

def emit (tab : Tab P Uuid) (state : SaveState) (captured : ℕ) : Tab P Uuid :=
  { tab with emitted := (state, captured) :: tab.emitted }

def opened (accountId documentId : JsString) : Tab P Uuid :=
  ⟨accountId, documentId, false, [], [], none, false, .idle, []⟩

def settle (tab : Tab P Uuid) (result : Option Uuid) (ok : Bool) : Tab P Uuid :=
  let tab := { tab with results := tab.results ++ [result], touching := none }
  if ok then tab.emit (if tab.accountId = localAccount then .savedLocally
    else .pendingSync) tab.results.length
  else { tab with storageFailed := true }.emit .storageError tab.results.length

def throws (tab : Tab P Uuid) (unauthorized : Bool) : Tab P Uuid :=
  { tab with flush := .idle }.emit (if unauthorized then .reconnectToSync else .syncError) tab.captured.length

@[simp] theorem emit_flush (tab : Tab P Uuid) (state : SaveState) (captured : ℕ) :
    (tab.emit state captured).flush = tab.flush := rfl

@[simp] theorem settle_flush (tab : Tab P Uuid) (result : Option Uuid) (ok : Bool) :
    (tab.settle result ok).flush = tab.flush := by
  cases ok <;> rfl

end Tab

def PendingUpdate.request {P Uuid : Type} (uuids : UuidText Uuid) (update : PendingUpdate P Uuid) :
    PersistRequest P :=
  ⟨update.documentId, uuids.text update.id, DOCUMENT_SCHEMA_VERSION, update.bytes⟩

/-- `stored` keeps every update that was ever put. -/
structure Sync (Tb W V P G Uuid : Type) [DecidableEq Uuid] where
  server : UpdateServer W V P G Uuid
  pending : OrderedMap Uuid (PendingUpdate P Uuid)
  stored : List (PendingUpdate P Uuid)
  tabs : Tb → Option (Tab P Uuid)

inductive TabAction (P Uuid : Type)
  | stop
  | enqueue (bytes : P)
  | put (id : Uuid) (createdAt : ℤ)
  | putFails
  | documentUpdated (ok : Bool)
  | flush
  | queueSettled
  | identified (userId : JsString)
  -- the document's record: there is one of the account, and whether it is registered
  | opened (usable registered : Bool)
  | registered
  | listed
  | next
  | receipt (revision : ℕ)
  | deleted
  | read
  | count
  | report
  | throws (unauthorized : Bool)

inductive SyncAction (Tb W V P Uuid : Type)
  | openTab (t : Tb) (accountId documentId : JsString)
  | crash (t : Tb)
  | tab (t : Tb) (a : TabAction P Uuid)
  | server (a : UpdateAction W V P Uuid)

namespace Sync

variable {Tb W V S P G Uuid : Type} [DecidableEq Tb] [DecidableEq W] [DecidableEq V] [SemilatticeSup S]
  [OrderBot S] [DecidableEq P] [DecidableEq G] [DecidableEq Uuid] (payloads : Payloads S P G)
  (uuids : UuidText Uuid) (threshold : ℕ)

def pendingOf (σ : Sync Tb W V P G Uuid) (accountId documentId : JsString) : List (PendingUpdate P Uuid) :=
  σ.pending.values.filter fun update => update.accountId = accountId ∧ update.documentId = documentId

/-- Where the handler of one await, or one event, leaves a tab. -/
def tabStep (σ : Sync Tb W V P G Uuid) (tab : Tab P Uuid) : TabAction P Uuid → Option (Tab P Uuid)
  | .stop => some { tab with stopped := true }
  | .enqueue bytes =>
    some ({ tab with captured := tab.captured ++ [bytes] }.emit .savingLocally (tab.captured.length + 1))
  | .put _ _ => none
  | .putFails =>
    if tab.touching = none ∧ tab.results.length < tab.captured.length
    then some (tab.settle none false) else none
  | .documentUpdated ok => tab.touching.map fun id => tab.settle (some id) ok
  | .flush =>
    match tab.flush with
    | .idle =>
      if tab.stopped = true ∨ tab.accountId = localAccount then none
      else some { tab with flush := .queued tab.captured.length }
    | _ => none
  | .queueSettled =>
    match tab.flush with
    | .queued captured =>
      if tab.results.length < captured then none
      else if tab.storageFailed = true then
        some ({ tab with flush := .idle }.emit .storageError tab.captured.length)
      else some { tab with flush := if tab.stopped then .idle else .identifying }
    | _ => none
  | .identified userId =>
    match tab.flush with
    | .identifying =>
      if userId ≠ tab.accountId
      then some ({ tab with flush := .idle }.emit .reconnectToSync tab.captured.length)
      else some { tab with flush := .opening }
    | _ => none
  | .opened usable registered =>
    match tab.flush with
    | .opening =>
      some { tab with flush := if !usable then .idle else if registered then .listing else .registering }
    | _ => none
  | .registered =>
    match tab.flush with
    | .registering => some { tab with flush := .listing }
    | _ => none
  | .listed =>
    match tab.flush with
    | .listing =>
      some { tab with flush := .sending ((σ.pendingOf tab.accountId tab.documentId).insertionSort
        fun a b => a.createdAt ≤ b.createdAt) }
    | _ => none
  | .next =>
    match tab.flush with
    | .sending [] => some { tab with flush := .reading }
    | .sending (update :: rest) =>
      some { tab with flush := if tab.stopped then .idle else .persisting update rest }
    | _ => none
  | .receipt revision =>
    match tab.flush with
    | .persisting update rest =>
      -- the answer to this request, whose batch id is the update's
      if (update.request uuids, revision) ∈ σ.server.replies
      then some { tab with flush := .deleting update rest }
      else none
    | _ => none
  | .deleted => none
  | .read =>
    match tab.flush with
    | .reading => some { tab with flush := if tab.stopped then .idle else .counting }
    | _ => none
  | .count =>
    match tab.flush with
    | .counting =>
      some { tab with flush := .counted (σ.pendingOf tab.accountId tab.documentId).length tab.results }
    | _ => none
  | .report =>
    match tab.flush with
    | .counted remaining _ =>
      some ({ tab with flush := .idle }.emit (if remaining = 0 then .savedOnServer else .pendingSync)
        tab.captured.length)
    | _ => none
  | .throws unauthorized =>
    match tab.flush with
    | .idle | .queued _ | .sending _ | .counted _ _ => none
    | _ => some (tab.throws unauthorized)

def step (σ : Sync Tb W V P G Uuid) : SyncAction Tb W V P Uuid → Option (Sync Tb W V P G Uuid)
  | .openTab t accountId documentId =>
    match σ.tabs t with
    | none => some { σ with tabs := Function.update σ.tabs t (some (.opened accountId documentId)) }
    | some _ => none
  | .crash t => some { σ with tabs := Function.update σ.tabs t none }
  | .tab t a =>
    match σ.tabs t with
    | none => none
    | some tab =>
      match a, tab.flush with
      -- the two writes to the store
      | .put id createdAt, _ =>
        match tab.captured[tab.results.length]? with
        | some bytes =>
          -- a minted id is new
          if tab.touching ≠ none ∨ id ∈ σ.stored.map PendingUpdate.id then none
          else
            let update := ⟨id, tab.accountId, tab.documentId, bytes, createdAt⟩
            some { σ with
              pending := σ.pending.set id update, stored := update :: σ.stored,
              tabs := Function.update σ.tabs t (some { tab with touching := some id }) }
        | none => none
      | .deleted, .deleting update rest =>
        some { σ with
          pending := σ.pending.delete update.id
          tabs := Function.update σ.tabs t (some { tab with flush := .sending rest }) }
      | a, _ => (σ.tabStep uuids tab a).map fun tab => { σ with tabs := Function.update σ.tabs t (some tab) }
  | .server a => (σ.server.step payloads uuids threshold a).map fun server => { σ with server }

def initial (seed : Uuid → Option ℕ) : Sync Tb W V P G Uuid :=
  ⟨.initial seed, .empty, [], fun _ => none⟩

end Sync

end OpenOutliner
