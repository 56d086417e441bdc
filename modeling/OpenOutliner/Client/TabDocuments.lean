import OpenOutliner.Client.ExactlyOnce
import OpenOutliner.Foundations.Broadcast

/-!
The documents of one device's tabs: each is changed by its own transactions, by what other tabs of the
account post, by what IndexedDB kept, by the pending store and by the server's answers. An update event
goes to the other tabs and to the pending store, as its origin lets it.
-/

namespace OpenOutliner

open Foundations

/-- Who applied an update; a tab's own transactions have other origins. -/
inductive UpdateOrigin
  | own | peer | idb | remote | pendingReplay
deriving DecidableEq

def UpdateOrigin.isBroadcast : UpdateOrigin → Bool
  | peer | idb | remote => false
  | _ => true

def UpdateOrigin.isEnqueued : UpdateOrigin → Bool
  | remote | pendingReplay => false
  | _ => true

inductive PeerMessage (P : Type)
  | request
  | update (bytes : P)
deriving DecidableEq

abbrev DocumentKey := JsString × JsString

def Tab.key {P Uuid : Type} (tab : Tab P Uuid) : DocumentKey := (tab.accountId, tab.documentId)

def PendingUpdate.key {P Uuid : Type} (update : PendingUpdate P Uuid) : DocumentKey :=
  (update.accountId, update.documentId)

structure Authored (Tb P : Type) where
  tab : Tb
  key : DocumentKey
  bytes : P

/-- A document is all that was applied to it, with what waits there for its dependencies. `cache` is what
IndexedDB holds, `restoring` what a tab has read from the pending store to apply, `snapshots` are the
answers to `GetDocumentState` under way, `pulled` the revision of the last one applied. `authored` has the
updates of the tabs' own transactions, and `opened` every tab so far. -/
structure Device (Tb W V S P G Uuid : Type) [DecidableEq Uuid] where
  sync : Sync Tb W V P G Uuid
  docs : Tb → Option S
  cache : DocumentKey → S
  peers : DocumentKey → Channel Tb (PeerMessage P)
  restoring : Tb → List (PendingUpdate P Uuid)
  snapshots : Tb → Option (S × ℕ)
  pulled : Tb → Option ℕ
  authored : List (Authored Tb P)
  opened : List Tb

/-- `fired` are the bytes of the event that an applied update causes, if it lets something be integrated. -/
inductive DeviceAction (Tb W V P Uuid : Type)
  | openTab (t : Tb) (accountId documentId : JsString)
  | destroy (t : Tb)
  | crash (t : Tb)
  | edit (t : Tb) (bytes : P)
  | deliver (t : Tb) (message : PeerMessage P) (fired : Option P)
  | load (t : Tb) (bytes : P) (fired : Option P)
  | store (t : Tb) (bytes : P)
  | listPending (t : Tb)
  | restore (t : Tb) (fired : Option P)
  | capture (t : Tb)
  | snapshot (t : Tb)
  | read (t : Tb) (fired : Option P)
  | sync (a : SyncAction Tb W V P Uuid)

namespace Device

variable {Tb W V S P G Uuid : Type} [DecidableEq Tb] [DecidableEq W] [DecidableEq V] [SemilatticeSup S]
  [OrderBot S] [DecidableLE S] [DecidableEq P] [DecidableEq G] [DecidableEq Uuid]
  (payloads : Payloads S P G) (uuids : UuidText Uuid) (threshold : ℕ)

def content (bytes : P) : S := (payloads.decode bytes).getD ⊥

def keyOf (σ : Device Tb W V S P G Uuid) (t : Tb) : Option DocumentKey := (σ.sync.tabs t).map Tab.key

def post (σ : Device Tb W V S P G Uuid) (t : Tb) (key : DocumentKey) (message : PeerMessage P) :
    Device Tb W V S P G Uuid :=
  { σ with peers := Function.update σ.peers key ((σ.peers key).post t message) }

def closeDoc (σ : Device Tb W V S P G Uuid) (t : Tb) (key : DocumentKey) : Device Tb W V S P G Uuid :=
  { σ with
    docs := Function.update σ.docs t none
    peers := Function.update σ.peers key ((σ.peers key).close t) }

def syncStep (σ : Device Tb W V S P G Uuid) (a : SyncAction Tb W V P Uuid) :
    Option (Device Tb W V S P G Uuid) :=
  (σ.sync.step payloads uuids threshold a).map fun sync => { σ with sync }

def fire (σ : Device Tb W V S P G Uuid) (t : Tb) (key : DocumentKey) (origin : UpdateOrigin) (bytes : P) :
    Option (Device Tb W V S P G Uuid) :=
  let σ := if origin.isBroadcast then σ.post t key (.update bytes) else σ
  if origin.isEnqueued then σ.syncStep payloads uuids threshold (.tab t (.enqueue bytes)) else some σ

/-- `Y.applyUpdate`; an event carries a part of what the document then holds. -/
def applyUpdate (σ : Device Tb W V S P G Uuid) (t : Tb) (origin : UpdateOrigin) (incoming : S)
    (fired : Option P) :
    Option (Device Tb W V S P G Uuid) :=
  match σ.docs t, σ.keyOf t with
  | some doc, some key =>
    let σ := { σ with docs := Function.update σ.docs t (some (doc ⊔ incoming)) }
    match fired with
    | none => some σ
    | some bytes => if content payloads bytes ≤ doc ⊔ incoming
        then σ.fire payloads uuids threshold t key origin bytes else none
  | _, _ => none

def step (σ : Device Tb W V S P G Uuid) : DeviceAction Tb W V P Uuid → Option (Device Tb W V S P G Uuid)
  | .openTab t accountId documentId =>
    let key := (accountId, documentId)
    if t ∈ σ.opened then none
    else
      (σ.syncStep payloads uuids threshold (.openTab t accountId documentId)).map fun σ =>
        { σ with
          docs := Function.update σ.docs t (some ⊥)
          peers := Function.update σ.peers key (((σ.peers key).attach t).post t .request)
          opened := t :: σ.opened }
  -- what was captured is still put
  | .destroy t =>
    match σ.keyOf t with
    | some key => (σ.closeDoc t key).syncStep payloads uuids threshold (.tab t .stop)
    | none => none
  | .crash t =>
    match σ.keyOf t with
    | some key => (σ.closeDoc t key).syncStep payloads uuids threshold (.crash t)
    | none => none
  | .edit t bytes =>
    match σ.keyOf t with
    | some key =>
      { σ with authored := ⟨t, key, bytes⟩ :: σ.authored }.applyUpdate payloads uuids threshold t .own
        (content payloads bytes) (some bytes)
    | none => none
  | .deliver t message fired =>
    match σ.keyOf t, σ.docs t with
    | some key, some doc =>
      match (σ.peers key).take t message with
      | some channel =>
        let σ := { σ with peers := Function.update σ.peers key channel }
        match message with
        | .request => some (σ.post t key (.update (payloads.encode doc)))
        | .update bytes => σ.applyUpdate payloads uuids threshold t .peer (content payloads bytes) fired
      | none => none
    | _, _ => none
  | .load t bytes fired =>
    match σ.keyOf t with
    | some key =>
      if content payloads bytes ≤ σ.cache key then
        σ.applyUpdate payloads uuids threshold t .idb (content payloads bytes) fired
      else none
    | none => none
  | .store t bytes =>
    match σ.keyOf t, σ.docs t with
    | some key, some doc =>
      if content payloads bytes ≤ doc then
        some { σ with cache := Function.update σ.cache key (σ.cache key ⊔ content payloads bytes) }
      else none
    | _, _ => none
  -- `restore` awaits the list; meanwhile another tab may send and delete what it has read
  | .listPending t =>
    (σ.sync.tabs t).map fun tab =>
      { σ with
        restoring := Function.update σ.restoring t
          ((σ.sync.pendingOf tab.accountId tab.documentId).insertionSort fun a b => a.createdAt ≤
            b.createdAt) }
  | .restore t fired =>
    match σ.restoring t with
    | [] => none
    | update :: rest =>
      { σ with restoring := Function.update σ.restoring t rest }.applyUpdate payloads uuids threshold t
        .pendingReplay (content payloads update.bytes) fired
  | .capture t =>
    (σ.docs t).bind fun doc => σ.syncStep payloads uuids threshold (.tab t (.enqueue (payloads.encode doc)))
  | .snapshot t =>
    match σ.sync.tabs t with
    | some tab =>
      match tab.flush, uuids.parse tab.documentId with
      | .reading, some document =>
        ((σ.sync.server.logs document).loadDocumentSnapshot payloads.toCodec true).map fun answer =>
          { σ with snapshots := Function.update σ.snapshots t (some answer) }
      | _, _ => none
    | none => none
  | .read t fired =>
    match σ.snapshots t, σ.sync.tabs t with
    | some (s, revision), some tab =>
      (σ.syncStep payloads uuids threshold (.tab t .read)).bind fun σ =>
        let σ := { σ with snapshots := Function.update σ.snapshots t none }
        if tab.stopped then some σ
        else (σ.applyUpdate payloads uuids threshold t .remote s fired).map fun σ =>
          { σ with pulled := Function.update σ.pulled t (some revision) }
    | _, _ => none
  | .sync a =>
    match a with
    | .openTab .. | .crash _ | .tab _ .stop | .tab _ (.enqueue _) | .tab _ .read => none
    -- the answer to a failed request is lost
    | .tab t (.throws unauthorized) =>
      { σ with snapshots := Function.update σ.snapshots t none }.syncStep payloads uuids threshold
        (.tab t (.throws unauthorized))
    | a => σ.syncStep payloads uuids threshold a

def initial (seed : Uuid → Option ℕ) : Device Tb W V S P G Uuid :=
  ⟨.initial seed, fun _ => none, fun _ => ⊥, fun _ => ⟨∅, 0⟩, fun _ => [], fun _ => none,
    fun _ => none, [], []⟩

end Device

end OpenOutliner
