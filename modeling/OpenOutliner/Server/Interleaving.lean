import OpenOutliner.Server.Compaction
import OpenOutliner.Server.Projector

/-!
One document on the server: its update log, its projected rows, projection passes between their
snapshot and their locked transaction, and garbage collection passes, statement by statement.
-/

namespace OpenOutliner

open Foundations

/-- Documents as merged states. `removal s ids` is what deleting the keys `ids` of the items map adds
to the state `s`. -/
structure YjsDocs (S P : Type) extends Codec S P where
  doc : S → Doc
  removal : S → List JsString → S

inductive GcTx (S P Uuid T : Type)
  | idle
  | prepared (cutoff : ℤ)
  | locked (cutoff : ℤ)
  | eligible (ids : List Uuid)
  -- the removal is on its way into the log, in the transaction `w`
  | removing (ids : List Uuid) (room : S) (w : T) (row : ℕ × P)
  | removed (ids : List Uuid) (room : S) (rev : ℕ)

/-- `ledger` holds `last_synced_at` of the document's `replica_sync` rows; `unsynced` tells of a live
connection that has not completed its initial sync. `hardDeleted` keeps each deleted row with the
generation of its key's removal. -/
structure Server (T S P Uuid : Type) [DecidableEq Uuid] where
  log : Log T P
  items : Items Uuid
  projectedRev : ℕ
  passes : T → Option (S × ℕ)
  room : S
  ledger : List (Option ℤ)
  unsynced : Bool
  gc : T → GcTx S P Uuid T
  hardDeleted : List (Uuid × ℕ)

inductive ServerAction (T S P Uuid : Type)
  | log (a : LogAction T P)
  | load (p : T)
  | project (p : T) (now : ℤ) (foreign : Uuid → Bool)
  | giveUp (p : T)
  -- clients and other workers change these as they like
  | room (s : S)
  | ledger (rows : List (Option ℤ))
  | connections (unsynced : Bool)
  | gcPrepare (t : T) (cutoff : ℤ)
  | gcLock (t : T)
  | gcCheck (t : T)
  | gcRemove (t w : T) (id : ℕ)
  | gcStored (t : T)
  | gcDelete (t : T)
  | gcAbort (t : T)

section Gc

variable {Uuid : Type} [DecidableEq Uuid]

/-- The `WHERE` clause: an old tombstone without a child row that every known replica has synced past. -/
def isEligible (items : Items Uuid) (ledger : List (Option ℤ)) (cutoff : ℤ) (id : Uuid) (row : ItemRow Uuid) :
    Bool :=
  match row.deletedAt with
  | none => false
  | some deletedAt =>
    decide (deletedAt < cutoff) && !(items.values.any fun child => decide (child.parentId = some id)) &&
      ledger.all fun synced => synced.any fun at_ => decide (deletedAt < at_)

def eligibleItemIds (items : Items Uuid) (ledger : List (Option ℤ)) (cutoff : ℤ) (limit : ℕ) : List Uuid :=
  (((items.entries.filter fun e => isEligible items ledger cutoff e.1 e.2).insertionSort
    fun a b => a.2.deletedAt.getD 0 ≤ b.2.deletedAt.getD 0).take limit).map Prod.fst

theorem mem_eligible {items : Items Uuid} {ledger : List (Option ℤ)} {cutoff : ℤ} {limit : ℕ} {id : Uuid}
    (h : id ∈ eligibleItemIds items ledger cutoff limit) :
    ∃ row, items.get id = some row ∧ isEligible items ledger cutoff id row = true := by
  obtain ⟨⟨id, row⟩, hmem, rfl⟩ := List.mem_map.mp h
  obtain ⟨hmem, helig⟩ := List.mem_filter.mp ((List.mem_insertionSort _).mp (List.mem_of_mem_take hmem))
  exact ⟨row, (OrderedMap.mem_entries_iff _ _ _).mp hmem, helig⟩

theorem eligible_deleted {items : Items Uuid} {ledger : List (Option ℤ)} {cutoff : ℤ} {limit : ℕ} {id : Uuid}
    (h : id ∈ eligibleItemIds items ledger cutoff limit) :
    ∃ row, items.get id = some row ∧ row.deletedAt ≠ none := by
  obtain ⟨row, hrow, helig⟩ := mem_eligible h
  refine ⟨row, hrow, fun hnone => ?_⟩
  simp only [isEligible, hnone] at helig
  cases helig

end Gc

namespace Server

variable {T S P Uuid : Type} [DecidableEq T] [SemilatticeSup S] [OrderBot S] [DecidableEq P]
  [DecidableEq Uuid] (docs : YjsDocs S P) (lib : FractionalIndexing) (uuids : UuidText Uuid)
  (replicaId : JsString) (threshold batchSize : ℕ)

def setGc (σ : Server T S P Uuid) (t : T) (tx : GcTx S P Uuid T) : Server T S P Uuid :=
  { σ with gc := Function.update σ.gc t tx }

def gcEnd (σ : Server T S P Uuid) (t : T) : Server T S P Uuid :=
  { σ with log := σ.log.release t }.setGc t .idle

/-- The locked transaction of a pass is one step: it holds the advisory lock and the row of
`document_projection` from its first statements to its commit. -/
def projectStep (σ : Server T S P Uuid) (p : T) (now : ℤ) (foreign : Uuid → Bool) :
    Option (Server T S P Uuid) :=
  match σ.passes p with
  | none => none
  | some (s, revision) =>
    if σ.log.documentLock ≠ none ∨ σ.log.projectionLock ≠ none then none
    else
      match projectSnapshots lib (docs.doc s).readAllSnapshots now replicaId (docs.doc s).canonicalRoot with
      | .ok ⟨_, []⟩ =>
        (projectTx lib uuids replicaId foreign now (docs.doc s) revision σ.log.rev σ.items σ.projectedRev).map
          fun (items, projectedRev) =>
            { σ with items, projectedRev, passes := Function.update σ.passes p none }
      -- with repairs the pass appends them, as any writer does, and loads again
      | _ => none

def step (σ : Server T S P Uuid) : ServerAction T S P Uuid → Option (Server T S P Uuid)
  | .log a =>
    match σ.gc a.tx, a with
    | .idle, .holdDocument _ => none
    | .idle, a => (σ.log.step docs.toCodec threshold a).map fun log => { σ with log }
    | _, _ => none
  | .load p => (σ.log.loadDocumentSnapshot docs.toCodec true).map fun snapshot =>
      { σ with passes := Function.update σ.passes p (some snapshot) }
  | .project p now foreign => σ.projectStep docs lib uuids replicaId p now foreign
  | .giveUp p => some { σ with passes := Function.update σ.passes p none }
  | .room room => some { σ with room }
  | .ledger ledger => some { σ with ledger }
  | .connections unsynced => some { σ with unsynced }
  | .gcPrepare t cutoff =>
    match σ.gc t with
    | .idle =>
      if σ.unsynced = true ∨ eligibleItemIds σ.items σ.ledger cutoff 1 = [] then none
      else some (σ.setGc t (.prepared cutoff))
    | _ => none
  | .gcLock t =>
    match σ.gc t with
    | .prepared cutoff =>
      (σ.log.step docs.toCodec threshold (.holdDocument t)).map fun log =>
        { σ with log }.setGc t (.locked cutoff)
    | _ => none
  | .gcCheck t =>
    match σ.gc t with
    | .locked cutoff =>
      let ids := eligibleItemIds σ.items σ.ledger cutoff batchSize
      if σ.unsynced = true ∨ ids = [] then some (σ.gcEnd t) else some (σ.setGc t (.eligible ids))
    | _ => none
  | .gcRemove t w id =>
    match σ.gc t with
    | .eligible ids =>
      if σ.unsynced = true then some (σ.gcEnd t)
      else
        let delta := docs.removal σ.room (ids.map uuids.text)
        (σ.log.step docs.toCodec threshold (.insertUpdate w id (docs.encode delta))).map fun log =>
          { σ with log, room := σ.room ⊔ delta }.setGc t (.removing ids σ.room w (id, docs.encode delta))
    | _ => none
  | .gcStored t =>
    match σ.gc t with
    | .removing ids room w row =>
      match σ.log.txs w with
      | .appended stored _ =>
        if stored = row then
          (σ.log.step docs.toCodec threshold (.commit w)).map fun log =>
            { σ with log }.setGc t (.removed ids room log.rev)
        else none
      | _ => none
    | _ => none
  | .gcDelete t =>
    match σ.gc t with
    | .removed ids _ rev =>
      some ({ σ with
        items := ids.foldl OrderedMap.delete σ.items,
        hardDeleted := ids.map (fun id => (id, rev)) ++ σ.hardDeleted }.gcEnd t)
    | _ => none
  | .gcAbort t => some (σ.gcEnd t)

def initial (seed : Option ℕ) (items : Items Uuid) : Server T S P Uuid :=
  ⟨Log.initial seed, items, 0, fun _ => none, ⊥, [], false, fun _ => .idle, []⟩

end Server

end OpenOutliner
