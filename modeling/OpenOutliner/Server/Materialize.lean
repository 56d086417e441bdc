import OpenOutliner.Shared.Cycle
import OpenOutliner.Shared.EffectiveTree

/-!
Projection of merged snapshots to rows: the effective tree when the document has a
canonical root, and the older raw interpretation with cycle repairs when it has none.
-/

namespace OpenOutliner

open Foundations

structure ProjectedItem where
  id : JsString
  parentId : Option JsString
  rank : JsString
  type : ItemType
  content : JsString
  note : Option JsString
  isCompleted : Bool
  isCollapsed : Bool
  deleted : Bool
deriving DecidableEq, Repr

instance : Ordered ProjectedItem := ⟨ProjectedItem.id, ProjectedItem.rank⟩

structure ProjectionResult where
  rows : List ProjectedItem
  repairs : List CycleRepair
deriving DecidableEq, Repr

def isDeletedWithin (byId : OrderedMap JsString ItemNodeSnapshot) :
    ℕ → OrderedMap JsString Bool → Finset JsString → JsString → Option (Bool × OrderedMap JsString Bool)
  | 0, _, _, _ => none
  | fuel + 1, memo, seen, id =>
    match memo.get id with
    | some cached => some (cached, memo)
    | none =>
      if id ∈ seen then some (false, memo)
      else
        match byId.get id with
        | none => some (false, memo)
        | some node =>
          if !node.deleted.isDeleted && !isRootParent node.move.parentId && byId.has node.move.parentId then
            (isDeletedWithin byId fuel memo (insert id seen) node.move.parentId).map
              fun (result, memo) => (result, memo.set id result)
          else some (node.deleted.isDeleted, memo.set id node.deleted.isDeleted)

def computeEffectiveDeletedWithin (fuel : ℕ) (snapshots : List ItemNodeSnapshot) :
    Option (OrderedMap JsString Bool) :=
  snapshots.foldlM
    (fun memo s =>
      (isDeletedWithin (.ofList (snapshots.map fun s => (s.id, s))) fuel memo ∅ s.id).map Prod.snd)
    .empty

/-- The recursion goes one call deeper for each listed id and one to stop. -/
def computeEffectiveDeleted (snapshots : List ItemNodeSnapshot) : OrderedMap JsString Bool :=
  (computeEffectiveDeletedWithin (snapshots.length + 1) snapshots).getD .empty

def ItemNodeSnapshot.toTreeNode (s : ItemNodeSnapshot) : TreeNode :=
  ⟨s.id, s.move.parentId, s.deleted.isDeleted⟩

def ItemNodeSnapshot.toCycleNode (s : ItemNodeSnapshot) : CycleNode :=
  ⟨s.id, s.move.parentId, s.move.rank, s.move.hlc⟩

def projectionTree (snapshots : List ItemNodeSnapshot) (rootId : Option JsString) : Option EffectiveTree :=
  (rootId.filter (· ≠ [])).map fun r => deriveEffectiveTree (snapshots.map ItemNodeSnapshot.toTreeNode) r

def effectiveDeletedOf (snapshots : List ItemNodeSnapshot) (tree : Option EffectiveTree) :
    OrderedMap JsString Bool :=
  match tree with
  | some tree => .ofList (snapshots.map fun s => (s.id, decide (s.id ∈ tree.deleted)))
  | none => computeEffectiveDeleted snapshots

def projectRow (tree : Option EffectiveTree) (effectiveDeleted : OrderedMap JsString Bool)
    (rootId : Option JsString) (s : ItemNodeSnapshot) : ProjectedItem :=
  let placed := (tree.bind fun t => t.parents.get s.id).getD s.move.parentId
  { id := s.id, parentId := if some s.id = rootId || isRootParent placed then none else some placed,
    rank := s.move.rank, type := s.type, content := s.content, note := s.note,
    isCompleted := s.isCompleted, isCollapsed := s.isCollapsed,
    deleted := (effectiveDeleted.get s.id).getD s.deleted.isDeleted }

def projectSnapshots (lib : FractionalIndexing) (snapshots : List ItemNodeSnapshot) (nowMs : ℤ)
    (replicaId : JsString) (rootId : Option JsString) : Except JsError ProjectionResult := do
  let tree := projectionTree snapshots rootId
  let effectiveDeleted := effectiveDeletedOf snapshots tree
  let rows := snapshots.map (projectRow tree effectiveDeleted rootId)
  let liveNodes := (snapshots.filter fun s => !(effectiveDeleted.get s.id).getD false).map
    ItemNodeSnapshot.toCycleNode
  let repairs ← match tree with
    | some _ => .ok []
    | none => computeCycleRepairs lib liveNodes ⟨replicaId, nowMs⟩
  return ⟨rows, repairs⟩

end OpenOutliner
