import OpenOutliner.Server.ServerInvariants

/-!
The acknowledgement ledger of one document: sockets attached to its room, their registry entries, and
the touches of `replica_sync` by the connection hooks and the heartbeat, beside the update log and the
projection. A loaded room stays in memory, and sends out what is applied to it and nothing else.
-/

namespace OpenOutliner

open Foundations

structure ReplicaSync where
  lastSyncedAt : Option ℤ
  lastSeenAt : ℤ
deriving DecidableEq

structure ReplicaTouch where
  replicaId : JsString
  synced : Bool
deriving DecidableEq

abbrev ReplicaLedger := OrderedMap JsString ReplicaSync

def greatestStamp : Option ℤ → Option ℤ → Option ℤ
  | some a, some b => some (max a b)
  | a, b => a.or b

def syncedStamp (touch : ReplicaTouch) (at_ : ℤ) : Option ℤ := if touch.synced then some at_ else none

def touchReplica (ledger : ReplicaLedger) (touch : ReplicaTouch) (at_ : ℤ) : ReplicaLedger :=
  ledger.set touch.replicaId
    (match ledger.get touch.replicaId with
    | none => ⟨syncedStamp touch at_, at_⟩
    | some row => ⟨greatestStamp row.lastSyncedAt (syncedStamp touch at_), max row.lastSeenAt at_⟩)

def coalesce (touches : List ReplicaTouch) : List ReplicaTouch :=
  (touches.map ReplicaTouch.replicaId).dedup.map fun id =>
    ⟨id, touches.any fun touch => touch.replicaId = id && touch.synced⟩

def touchReplicasBatch (ledger : ReplicaLedger) (touches : List ReplicaTouch) (at_ : ℤ) : ReplicaLedger :=
  (coalesce touches).foldl (fun ledger touch => touchReplica ledger touch at_) ledger

def isHexDigit (c : CodeUnit) : Bool :=
  (0x30 ≤ c.val && c.val < 0x3A) || (0x61 ≤ c.val && c.val < 0x67) || (0x41 ≤ c.val && c.val < 0x47)

def isValidReplicaId (replicaId : JsString) : Bool :=
  replicaId.length = 36 && replicaId.zipIdx.all fun (c, i) =>
    if i ∈ [8, 13, 18, 23] then decide (c.val = 0x2D) else isHexDigit c

structure RegisteredConnection where
  replicaId : Option JsString
  synced : Bool
deriving DecidableEq

def RegisteredConnection.touch (entry : RegisteredConnection) : Option ReplicaTouch :=
  entry.replicaId.map fun replicaId => ⟨replicaId, entry.synced⟩

/-- An update on its way to a client, and what the room held when it was sent. Before the client's
first sync message is answered that is not kept. -/
structure Message (S : Type) where
  update : S
  room : S
  isReply : Bool

/-- `replica` is the id that the client presents; a text that is no id stands for an old client.
`horizon` is what the room held when it sent the last message that has arrived. -/
structure Socket (S : Type) where
  replica : JsString
  entry : Option RegisteredConnection
  replied : Bool
  messages : List (Message S)
  horizon : S
  -- the client's `replica.synced` is on its way
  acknowledged : Bool

structure LedgerWrite where
  touches : List ReplicaTouch
  at_ : ℤ
  isTick : Bool
deriving DecidableEq

/-- `clock` is the database's. `replicas` holds all that each replica has received or made.
`begun` is `now()` in the locked transaction of a pass, and `tombstones` keeps for each row that a
pass has marked deleted what that pass had read. -/
structure Collab (T S P Uuid : Type) [DecidableEq Uuid] where
  server : Server T S P Uuid
  clock : ℤ
  room : Option S
  replicas : JsString → S
  sockets : OrderedMap ℕ (Socket S)
  writes : List LedgerWrite
  ledger : ReplicaLedger
  begun : T → Option ℤ
  tombstones : Uuid → Option S

/-- `at_` is the clock of the server process, read by the hook or the tick. -/
inductive CollabAction (T S P Uuid : Type)
  -- a statement on the log: of `PersistDocumentUpdate`, a compaction, or the end of a room's store
  | log (a : LogAction T P)
  | storeRoom (t : T) (id : ℕ)
  | load (p : T)
  | begin (p : T)
  | project (p : T) (foreign : Uuid → Bool)
  | giveUp (p : T)
  | time (elapsed : ℕ)
  | openRoom
  | edit (replica : JsString) (s : S)
  | attach (k : ℕ) (replica : JsString)
  | connected (k : ℕ) (at_ : ℤ)
  | syncReply (k : ℕ)
  | deliver (k : ℕ)
  | update (k : ℕ) (s : S)
  | stateless (k : ℕ) (at_ : ℤ)
  | disconnect (k : ℕ) (at_ : ℤ)
  | heartbeat (at_ : ℤ)
  | write (i : ℕ)
  | writeFails (i : ℕ)

def Socket.touch {S : Type} (socket : Socket S) : Option ReplicaTouch :=
  socket.entry.bind RegisteredConnection.touch

def Socket.markSynced {S : Type} (socket : Socket S) : Socket S :=
  { socket with acknowledged := false, entry := socket.entry.map fun entry => { entry with synced := true } }

def Socket.register {S : Type} (socket : Socket S) : Socket S :=
  let replicaId := if isValidReplicaId socket.replica then some socket.replica else none
  { socket with entry := some ⟨replicaId, false⟩ }

namespace Collab

variable {T S P Uuid : Type} [DecidableEq T] [SemilatticeSup S] [OrderBot S] [DecidableEq P]
  [DecidableEq Uuid] (docs : YjsDocs S P) (lib : FractionalIndexing) (uuids : UuidText Uuid)
  (replicaId : JsString) (threshold batchSize : ℕ)

def fetch (σ : Collab T S P Uuid) : S :=
  let s := mergeRows docs.toCodec σ.server.log.rows
  if (docs.doc s).items.keys = [] then ⊥ else s

def broadcast (s room : S) (socket : Socket S) : Socket S :=
  { socket with messages := socket.messages ++ [⟨s, if socket.replied then room else ⊥, false⟩] }

def setSocket (σ : Collab T S P Uuid) (k : ℕ) (socket : Socket S) : Collab T S P Uuid :=
  { σ with sockets := σ.sockets.set k socket }

def touch (σ : Collab T S P Uuid) (socket : Socket S) (at_ : ℤ) : Collab T S P Uuid :=
  match socket.touch with
  | some touch => { σ with writes := σ.writes ++ [⟨[touch], at_, false⟩] }
  | none => σ

def bury (before after : Items Uuid) (s : S) (tombstones : Uuid → Option S) (u : Uuid) : Option S :=
  if (after.get u).bind ItemRow.deletedAt = (before.get u).bind ItemRow.deletedAt
    then tombstones u else some s

def serverStep (σ : Collab T S P Uuid) (a : ServerAction T S P Uuid) : Option (Collab T S P Uuid) :=
  (σ.server.step docs lib uuids replicaId threshold batchSize a).map fun server => { σ with server }

def step (σ : Collab T S P Uuid) : CollabAction T S P Uuid → Option (Collab T S P Uuid)
  | .log a => σ.serverStep docs lib uuids replicaId threshold batchSize (.log a)
  | .storeRoom t id =>
    match σ.room with
    | some room => σ.serverStep docs lib uuids replicaId threshold batchSize
        (.log (.insertUpdate t id (docs.encode room)))
    | none => none
  | .load p =>
    match σ.begun p with
    | none => σ.serverStep docs lib uuids replicaId threshold batchSize (.load p)
    | some _ => none
  | .begin p =>
    match σ.server.passes p, σ.begun p with
    | some _, none => some { σ with begun := Function.update σ.begun p (some σ.clock) }
    | _, _ => none
  | .project p foreign =>
    match σ.server.passes p, σ.begun p with
    | some (s, _), some now =>
      (σ.server.step docs lib uuids replicaId threshold batchSize (.project p now foreign)).map fun server =>
        { σ with
          server, begun := Function.update σ.begun p none
          tombstones := bury σ.server.items server.items s σ.tombstones }
    | _, _ => none
  | .giveUp p => (σ.serverStep docs lib uuids replicaId threshold batchSize (.giveUp p)).map fun σ =>
      { σ with begun := Function.update σ.begun p none }
  | .time elapsed => some { σ with clock := σ.clock + elapsed }
  | .openRoom =>
    match σ.room with
    | none => some { σ with room := some (σ.fetch docs) }
    | some _ => none
  | .edit replica s => some { σ with replicas := Function.update σ.replicas replica (σ.replicas replica ⊔ s) }
  | .attach k replica =>
    if σ.room.isSome ∧ σ.sockets.get k = none then some (σ.setSocket k ⟨replica, none, false, [], ⊥, false⟩)
    else none
  | .connected k at_ =>
    match σ.sockets.get k with
    | some socket =>
      if socket.entry = none then some ((σ.setSocket k socket.register).touch socket.register at_) else none
    | none => none
  | .syncReply k =>
    match σ.sockets.get k, σ.room with
    | some socket, some room =>
      if socket.replied then none
      else some (σ.setSocket k { socket with
        replied := true, messages := socket.messages ++ [⟨room, room, true⟩] })
    | _, _ => none
  | .deliver k =>
    match σ.sockets.get k with
    | some socket =>
      match socket.messages with
      | [] => none
      | m :: messages =>
        some ({ σ with
          replicas :=
  Function.update σ.replicas socket.replica (σ.replicas socket.replica ⊔ m.update) }.setSocket k
          { socket with messages, horizon := m.room, acknowledged := socket.acknowledged || m.isReply })
    | none => none
  | .update k s =>
    match σ.sockets.get k, σ.room with
    | some _, some room =>
      some { σ with room := some (room ⊔ s), sockets := σ.sockets.mapValues (broadcast s (room ⊔ s)) }
    | _, _ => none
  | .stateless k at_ =>
    match σ.sockets.get k with
    | some socket =>
      if socket.acknowledged then some ((σ.setSocket k socket.markSynced).touch socket.markSynced at_)
      else none
    | none => none
  | .disconnect k at_ =>
    match σ.sockets.get k with
    | some socket => some ({ σ with sockets := σ.sockets.delete k }.touch socket at_)
    | none => none
  | .heartbeat at_ =>
    if σ.writes.any LedgerWrite.isTick then none
    else some { σ with writes := σ.writes ++ [⟨σ.sockets.values.filterMap Socket.touch, at_, true⟩] }
  | .write i =>
    match σ.writes[i]? with
    | some w => some { σ with
        ledger := touchReplicasBatch σ.ledger w.touches w.at_, writes := σ.writes.eraseIdx i }
    | none => none
  | .writeFails i => some { σ with writes := σ.writes.eraseIdx i }

def initial (seed : Option ℕ) (items : Items Uuid) (clock : ℤ) (replicas : JsString → S) :
    Collab T S P Uuid :=
  ⟨.initial seed items, clock, none, replicas, .empty, [], .empty, fun _ => none, fun _ => none⟩

end Collab

end OpenOutliner
