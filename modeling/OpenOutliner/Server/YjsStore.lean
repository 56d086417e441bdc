import OpenOutliner.Foundations.Machine
import Mathlib.Data.Finset.Lattice.Fold
import Mathlib.Logic.Function.Basic

/-!
One document's `yjs_updates` rows and its `source_rev`, under any number of transactions that
append an update or compact the rows. A transaction's writes are visible when it commits; the
row of `document_projection` is locked from the update of `source_rev` on, and the document's
advisory lock from its first statement on.
-/

namespace OpenOutliner

open Foundations

/-- Updates as bytes, and the merged states that they encode. -/
structure Codec (S P : Type) where
  decode : P → Option S
  encode : S → P
  decode_encode : ∀ s, decode (encode s) = some s

inductive Tx (P : Type)
  | idle
  | inserted (row : ℕ × P)
  | appended (row : ℕ × P) (rev : ℕ)
  | locked
  | covered (rows : Finset (ℕ × P))
  | deleted (covered deleted : Finset (ℕ × P))
  | snapshotted (deleted : Finset (ℕ × P)) (row : ℕ × P)
  | compacted (deleted : Finset (ℕ × P)) (row : ℕ × P) (rev : Option ℕ)
  -- the advisory lock in the hands of another worker
  | holding

def Tx.pending {P : Type} : Tx P → Option (ℕ × P)
  | inserted row | appended row _ | snapshotted _ row | compacted _ row _ => some row
  | _ => none

/-- `sourceRev` is none while the document has no row in `document_projection`. `used` are the ids
that the sequence has given out. `committed` keeps each committed update with its generation. -/
structure Log (T P : Type) where
  rows : Finset (ℕ × P)
  sourceRev : Option ℕ
  documentLock : Option T
  projectionLock : Option T
  txs : T → Tx P
  used : Finset ℕ
  committed : Finset (ℕ × P)

inductive LogAction (T P : Type)
  | insertUpdate (t : T) (id : ℕ) (update : P)
  | advanceRev (t : T)
  | lockDocument (t : T)
  | readUpdates (t : T)
  | deleteUpdates (t : T)
  | insertSnapshot (t : T) (id : ℕ)
  | commit (t : T)
  | rollback (t : T)
  | holdDocument (t : T)

def LogAction.tx {T P : Type} : LogAction T P → T
  | insertUpdate t _ _ | advanceRev t | lockDocument t | readUpdates t | deleteUpdates t
  | insertSnapshot t _ | commit t | rollback t | holdDocument t => t

section Store

variable {S P T : Type} [SemilatticeSup S] [OrderBot S] [DecidableEq P] [DecidableEq T]

/-- Every row that decodes, merged; the order of the rows does not matter to a merge. -/
def mergeRows (c : Codec S P) (rows : Finset (ℕ × P)) : S := rows.sup fun row => (c.decode row.2).getD ⊥

def Decodes (c : Codec S P) (rows : Finset (ℕ × P)) : Prop := ∀ row ∈ rows, (c.decode row.2).isSome = true

instance (c : Codec S P) (rows : Finset (ℕ × P)) : Decidable (Decodes c rows) :=
  inferInstanceAs (Decidable (∀ row ∈ rows, (c.decode row.2).isSome = true))

namespace Log

def rev (σ : Log T P) : ℕ := σ.sourceRev.getD 0

def setTx (σ : Log T P) (t : T) (tx : Tx P) : Log T P := { σ with txs := Function.update σ.txs t tx }

def release (σ : Log T P) (t : T) : Log T P :=
  { σ with
    txs := Function.update σ.txs t .idle
    documentLock := if σ.documentLock = some t then none else σ.documentLock
    projectionLock := if σ.projectionLock = some t then none else σ.projectionLock }

variable (c : Codec S P) (threshold : ℕ)

/-- The one statement of `loadDocumentSnapshot`; without rows the revision is 0. -/
def loadDocumentSnapshot (σ : Log T P) (strict : Bool) : Option (S × ℕ) :=
  match σ.sourceRev with
  | none => some (⊥, 0)
  | some revision =>
    if σ.rows = ∅ then some (⊥, 0)
    else if strict = true ∧ ¬ Decodes c σ.rows then none
    else some (mergeRows c σ.rows, revision)

def step (σ : Log T P) : LogAction T P → Option (Log T P)
  | .insertUpdate t id update =>
    match σ.txs t with
    | .idle => if id ∈ σ.used then none
      else some ({ σ with used := insert id σ.used }.setTx t (.inserted (id, update)))
    | _ => none
  | .advanceRev t =>
    match σ.txs t, σ.projectionLock with
    | .inserted row, none =>
      some ({ σ with projectionLock := some t }.setTx t (.appended row (σ.rev + 1)))
    | .snapshotted deleted row, none =>
      some ({ σ with projectionLock := some t }.setTx t (.compacted deleted row (σ.sourceRev.map (· + 1))))
    | _, _ => none
  | .lockDocument t =>
    match σ.txs t, σ.documentLock with
    | .idle, none => some ({ σ with documentLock := some t }.setTx t .locked)
    | _, _ => none
  | .readUpdates t =>
    match σ.txs t with
    | .locked =>
      if σ.rows.card ≤ threshold then some (σ.release t)
      -- a row that does not decode fails the transaction
      else if Decodes c σ.rows then some (σ.setTx t (.covered σ.rows)) else some (σ.release t)
    | _ => none
  | .deleteUpdates t =>
    match σ.txs t with
    | .covered rows =>
      some (σ.setTx t (.deleted rows (σ.rows.filter fun row => row.1 ∈ rows.image Prod.fst)))
    | _ => none
  | .insertSnapshot t id =>
    match σ.txs t with
    | .deleted rows deleted => if id ∈ σ.used then none
      else some ({ σ with used := insert id σ.used }.setTx t
        (.snapshotted deleted (id, c.encode (mergeRows c rows))))
    | _ => none
  | .commit t =>
    match σ.txs t with
    | .appended row rev =>
      some ({ σ with
        rows := insert row σ.rows, sourceRev := some rev,
        committed := insert (rev, row.2) σ.committed }.release t)
    | .compacted deleted row rev =>
      some ({ σ with rows := insert row (σ.rows \ deleted), sourceRev := rev }.release t)
    | _ => none
  | .rollback t => some (σ.release t)
  | .holdDocument t =>
    match σ.txs t, σ.documentLock with
    | .idle, none => some ({ σ with documentLock := some t }.setTx t .holding)
    | _, _ => none

def initial (seed : Option ℕ) : Log T P := ⟨∅, seed, none, none, fun _ => .idle, ∅, ∅⟩

abbrev LogRuns (σ τ : Log T P) : Prop := Runs (step c threshold) (fun _ _ => True) σ τ

end Log

end Store

end OpenOutliner
