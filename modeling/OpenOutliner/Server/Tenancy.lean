import OpenOutliner.Foundations.Machine
import OpenOutliner.Foundations.ReadCommitted
import OpenOutliner.Server.Interleaving

/-!
The `items` table of all documents: projection and garbage collection passes of several documents, each in
its own transaction, statement by statement.
-/

namespace OpenOutliner

open Foundations

structure TenantRow (D Uuid : Type) where
  documentId : D
  row : ItemRow Uuid

structure Loaded (D : Type) where
  documentId : D
  doc : Doc
  title : Option JsString
  revision : ℕ
  now : ℤ

inductive PassStage (Uuid : Type)
  | loaded
  | locked
  | started
  -- the ids whose locks are still to be taken
  | claiming (rest : List Uuid)
  | rechecked
  | upserted
  | swept
  | titled
  | advanced

inductive GcStage (Uuid : Type)
  | prepared
  | locked
  | deleting (rest : List Uuid)

inductive TenantTx (D Uuid : Type)
  | idle
  | pass (stage : PassStage Uuid) (l : Loaded D)
  | gc (stage : GcStage Uuid) (documentId : D) (cutoff : ℤ)

inductive TenantAction (T D Uuid : Type)
  -- a writer appends to the document's log
  | append (d : D)
  | load (t : T) (l : Loaded D)
  | lock (t : T)
  | readRevisions (t : T)
  | check (t : T)
  | claim (t : T)
  | recheck (t : T)
  | upsert (t : T)
  | sweep (t : T)
  | title (t : T)
  | advance (t : T)
  | gcPrepare (t : T) (d : D) (cutoff : ℤ)
  | gcLock (t : T)
  | gcCheck (t : T) (ledger : List (Option ℤ))
  | gcDelete (t : T)
  | commit (t : T)
  -- a statement fails, a deadlock is broken or the connection is lost
  | fail (t : T)

section Statements

variable {D Uuid : Type} [DecidableEq D] [LinearOrder Uuid]

def Loaded.batch (l : Loaded D) : List ProjectedItem := projectable l.doc.projectedRows

def Loaded.ids (uuids : UuidText Uuid) (l : Loaded D) : List Uuid :=
  l.batch.filterMap fun item => uuids.parse item.id

def ownRows (d : D) (items : OrderedMap Uuid (TenantRow D Uuid)) : Items Uuid :=
  items.filterMapEntries fun _ r => if r.documentId = d then some r.row else none

def isForeign (d : D) (items : OrderedMap Uuid (TenantRow D Uuid)) (u : Uuid) : Bool :=
  (items.get u).any fun r => decide (r.documentId ≠ d)

/-- The rows that `ON CONFLICT DO UPDATE ... WHERE items.document_id = $1` lets through. -/
def upsertRows (uuids : UuidText Uuid) (l : Loaded D) (items : OrderedMap Uuid (TenantRow D Uuid)) :
    List (Uuid × Option Uuid × ProjectedItem) :=
  (l.batch.filterMap (castItem uuids)).filter fun row => !isForeign l.documentId items row.1

def upsertOwn (uuids : UuidText Uuid) (l : Loaded D) (items : OrderedMap Uuid (TenantRow D Uuid)) :
    Option (Items Uuid) :=
  if ∃ item ∈ l.batch, castItem uuids item = none then none
  else upsertStatement l.now (ownRows l.documentId items) (upsertRows uuids l items)

/-- The rows that the statement locks, each as it leaves it; one that it does not change is locked too. -/
def upsertWrites (uuids : UuidText Uuid) (l : Loaded D) (items : OrderedMap Uuid (TenantRow D Uuid))
    (after : Items Uuid) :
    List (Uuid × Option (TenantRow D Uuid)) :=
  ((upsertRows uuids l items).map Prod.fst).dedup.map fun u =>
    (u, (after.get u).map (TenantRow.mk l.documentId))

def sweepWrites (uuids : UuidText Uuid) (l : Loaded D) (items : OrderedMap Uuid (TenantRow D Uuid)) :
    List (Uuid × Option (TenantRow D Uuid)) :=
  (items.filterMapEntries fun u r =>
    if r.documentId = l.documentId ∧ uuids.text u ∉ l.doc.projectedRows.map ProjectedItem.id ∧
        r.row.deletedAt = none then
      some (some ⟨r.documentId, { r.row with deletedAt := some l.now, version := r.row.version + 1 }⟩)
    else none).entries

end Statements

/-- `advisory` is shared by documents and item ids, and several of them can have one key. `projection`
holds `source_rev` and `projected_rev`, `documents` the titles. -/
structure Tenancy (T K D Uuid : Type) where
  advisory : K → Option T
  items : Table T Uuid (TenantRow D Uuid)
  documents : Table T D JsString
  projection : Table T D (ℕ × ℕ)
  txs : T → TenantTx D Uuid

namespace Tenancy

variable {T K D Uuid : Type} [DecidableEq T] [DecidableEq K] [DecidableEq D] [LinearOrder Uuid]

def setTx (σ : Tenancy T K D Uuid) (t : T) (tx : TenantTx D Uuid) : Tenancy T K D Uuid :=
  { σ with txs := Function.update σ.txs t tx }

def acquire (σ : Tenancy T K D Uuid) (t : T) (k : K) : Option (Tenancy T K D Uuid) :=
  match σ.advisory k with
  | none => some { σ with advisory := Function.update σ.advisory k (some t) }
  | some s => if s = t then some σ else none

def close (σ : Tenancy T K D Uuid) (t : T) : Tenancy T K D Uuid where
  advisory := fun k => if σ.advisory k = some t then none else σ.advisory k
  items := σ.items.release t
  documents := σ.documents.release t
  projection := σ.projection.release t
  txs := Function.update σ.txs t .idle

def commitTx (σ : Tenancy T K D Uuid) (t : T) : Tenancy T K D Uuid :=
  { σ.close t with
    items := σ.items.commit t
    documents := σ.documents.commit t
    projection := σ.projection.commit t }

variable (lib : FractionalIndexing) (uuids : UuidText Uuid) (replicaId : JsString) (docKey : D → K)
  (itemKey : Uuid → K) (batchSize : ℕ)

/-- None if the action is not the transaction's next one, or must wait. -/
def step (σ : Tenancy T K D Uuid) : TenantAction T D Uuid → Option (Tenancy T K D Uuid)
  | .append d =>
    if (σ.projection.pending.get d).isSome then none
    else (σ.projection.committed.get d).map fun revs =>
      { σ with
        projection :=
          { σ.projection with committed := σ.projection.committed.set d (revs.1 + 1, revs.2) } }
  | .load t l =>
    match σ.txs t with
    | .idle => some (σ.setTx t (.pass .loaded l))
    | _ => none
  | .lock t =>
    match σ.txs t with
    | .pass .loaded l =>
      match projectSnapshots lib l.doc.readAllSnapshots l.now replicaId l.doc.canonicalRoot with
      | .ok ⟨_, []⟩ => (σ.acquire t (docKey l.documentId)).map fun σ => σ.setTx t (.pass .locked l)
      -- with repairs the pass appends them and loads again
      | _ => none
    | _ => none
  | .readRevisions t =>
    match σ.txs t with
    | .pass .locked l =>
      (σ.projection.update t l.documentId id).map fun projection =>
        let revs := ((σ.projection.view t).get l.documentId).getD (0, 0)
        if revs.1 ≤ revs.2 ∨ l.revision ≤ revs.2 then σ.close t
        else { σ with projection }.setTx t (.pass .started l)
    | _ => none
  | .check t =>
    match σ.txs t with
    | .pass .started l =>
      if l.batch = [] then some (σ.setTx t (.pass .upserted l))
      else if (∃ item ∈ l.batch, uuids.parse item.id = none) ∨
          ∃ u ∈ l.ids uuids, isForeign l.documentId (σ.items.view t) u = true then some (σ.close t)
      else some (σ.setTx t (.pass (.claiming ((l.ids uuids).dedup.insertionSort (· ≤ ·))) l))
    | _ => none
  | .claim t =>
    match σ.txs t with
    | .pass (.claiming (u :: rest)) l =>
      (σ.acquire t (itemKey u)).map fun σ => σ.setTx t (.pass (.claiming rest) l)
    | _ => none
  | .recheck t =>
    match σ.txs t with
    | .pass (.claiming []) l =>
      if ∃ u ∈ l.ids uuids, isForeign l.documentId (σ.items.view t) u = true then some (σ.close t)
      else some (σ.setTx t (.pass .rechecked l))
    | _ => none
  | .upsert t =>
    match σ.txs t with
    | .pass .rechecked l =>
      match upsertOwn uuids l (σ.items.view t) with
      | none => some (σ.close t)
      | some after =>
        (σ.items.writeAll t (upsertWrites uuids l (σ.items.view t) after)).map fun items =>
          { σ with items }.setTx t (.pass .upserted l)
    | _ => none
  | .sweep t =>
    match σ.txs t with
    | .pass .upserted l =>
      (σ.items.writeAll t (sweepWrites uuids l (σ.items.view t))).map fun items =>
        { σ with items }.setTx t (.pass .swept l)
    | _ => none
  | .title t =>
    match σ.txs t with
    | .pass .swept l =>
      match l.title with
      | some title => (σ.documents.update t l.documentId fun _ => title).map fun documents =>
          { σ with documents }.setTx t (.pass .titled l)
      | none => some (σ.setTx t (.pass .titled l))
    | _ => none
  | .advance t =>
    match σ.txs t with
    | .pass .titled l =>
      (σ.projection.update t l.documentId fun revs => (revs.1, l.revision)).map fun projection =>
        { σ with projection }.setTx t (.pass .advanced l)
    | _ => none
  | .gcPrepare t d cutoff =>
    match σ.txs t with
    | .idle => some (σ.setTx t (.gc .prepared d cutoff))
    | _ => none
  | .gcLock t =>
    match σ.txs t with
    | .gc .prepared d cutoff => (σ.acquire t (docKey d)).map fun σ => σ.setTx t (.gc .locked d cutoff)
    | _ => none
  | .gcCheck t ledger =>
    match σ.txs t with
    | .gc .locked d cutoff =>
      let ids := eligibleItemIds (ownRows d (σ.items.view t)) ledger cutoff batchSize
      if ids = [] then some (σ.close t) else some (σ.setTx t (.gc (.deleting ids) d cutoff))
    | _ => none
  | .gcDelete t =>
    match σ.txs t with
    | .gc (.deleting (u :: rest)) d cutoff =>
      if (ownRows d (σ.items.view t)).has u then
        (Table.write t σ.items (u, none)).map fun items =>
          { σ with items }.setTx t (.gc (.deleting rest) d cutoff)
      else some (σ.setTx t (.gc (.deleting rest) d cutoff))
    | _ => none
  | .commit t =>
    match σ.txs t with
    | .pass .advanced _ => some (σ.commitTx t)
    | .gc (.deleting []) _ _ => some (σ.commitTx t)
    | _ => none
  | .fail t =>
    match σ.txs t with
    | .idle => none
    | _ => some (σ.close t)

def initial (items : OrderedMap Uuid (TenantRow D Uuid)) (documents : OrderedMap D JsString)
    (projection : OrderedMap D (ℕ × ℕ)) : Tenancy T K D Uuid :=
  ⟨fun _ => none, ⟨items, .empty⟩, ⟨documents, .empty⟩, ⟨projection, .empty⟩, fun _ => .idle⟩

end Tenancy

end OpenOutliner
