import OpenOutliner.Foundations.OrderedMap
import OpenOutliner.Foundations.Walk
import OpenOutliner.Shared.Schema
import Mathlib.Data.List.Sort

/-!
The pure interpretation of raw placements: cycles and orphans stay visible under the
root. Fuel bounds each `while` loop; `deriveEffectiveTree` gives the loops one turn
more than there are nodes.
-/

namespace OpenOutliner

open Foundations

structure TreeNode where
  id : JsString
  parentId : JsString
  isDeleted : Bool
deriving DecidableEq, Repr

structure EffectiveTree where
  parents : OrderedMap JsString JsString
  recovered : Finset JsString
  deleted : Finset JsString

namespace EffectiveTree

/-- The maps shared by the loops, and the set of points a loop need not visit again. -/
structure Placement where
  parents : OrderedMap JsString JsString
  recovered : Finset JsString
  done : Finset JsString

structure Marking where
  deleted : Finset JsString
  known : Finset JsString

def initialParents (nodes : List TreeNode) (rootId : JsString) : OrderedMap JsString JsString :=
  .ofList (nodes.map fun n => (n.id, if n.id = rootId then ROOT_PARENT_SENTINEL else n.parentId))

def parentStep (parents : OrderedMap JsString JsString) (rootId id : JsString) : JsString :=
  (parents.get id).getD rootId

def attachOrphan (byId : OrderedMap JsString TreeNode) (rootId : JsString) (st : Placement)
    (node : TreeNode) : Placement :=
  if node.id = rootId then st
  else if !byId.has node.parentId || node.parentId = ROOT_PARENT_SENTINEL then
    { st with parents := st.parents.set node.id rootId, recovered := insert node.id st.recovered }
  else st

def freeLeast (rootId : JsString) (cycle : List JsString) (st : Placement) : Placement :=
  match (cycle.insertionSort (· ≤ ·)).head? with
  | some freed =>
    { st with parents := st.parents.set freed rootId, recovered := insert freed st.recovered }
  | none => st

def breakCycle (fuel : ℕ) (rootId : JsString) (st : Placement) (node : TreeNode) :
    Option Placement :=
  (walk (fun id => id = rootId || id ∈ st.done) (parentStep st.parents rootId) fuel [] node.id).map
    fun w =>
      let st := if w.repeated then freeLeast rootId w.cycle st else st
      { st with done := st.done ∪ w.path.toFinset }

def markChild (byId : OrderedMap JsString TreeNode) (child : JsString) (acc : Bool × Marking) :
    Bool × Marking :=
  let hidden := acc.1 || ((byId.get child).any fun n => n.isDeleted)
  (hidden, { deleted := if hidden then insert child acc.2.deleted else acc.2.deleted,
             known := insert child acc.2.known })

def markDeleted (fuel : ℕ) (byId : OrderedMap JsString TreeNode)
    (parents : OrderedMap JsString JsString) (rootId : JsString) (st : Marking) (node : TreeNode) :
    Option Marking :=
  if node.id ∈ st.known then some st
  else
    (climb (fun id => id = rootId || id ∈ st.known) (parentStep parents rootId) fuel [] node.id).map
      fun (path, last) => (path.foldr (markChild byId) (decide (last ∈ st.deleted), st)).2

end EffectiveTree

open EffectiveTree in
def deriveEffectiveTreeWithin (fuel : ℕ) (nodes : List TreeNode) (rootId : JsString) :
    Option EffectiveTree := do
  let byId : OrderedMap JsString TreeNode := .ofList (nodes.map fun n => (n.id, n))
  let attached := nodes.foldl (attachOrphan byId rootId)
    ⟨initialParents nodes rootId, ∅, {rootId}⟩
  let broken ← nodes.foldlM (breakCycle fuel rootId) attached
  let marked ← nodes.foldlM (markDeleted fuel byId broken.parents rootId) ⟨∅, {rootId}⟩
  return ⟨broken.parents, broken.recovered, marked.deleted⟩

def deriveEffectiveTree (nodes : List TreeNode) (rootId : JsString) : EffectiveTree :=
  (deriveEffectiveTreeWithin (nodes.length + 1) nodes rootId).getD ⟨.empty, ∅, ∅⟩

section RawGraph

variable (nodes : List TreeNode) (rootId : JsString)

def ids : List JsString := nodes.map TreeNode.id

/-- A non-root node placed under the sentinel or under nothing listed. -/
def Detached (x : JsString) : Prop :=
  x ≠ rootId ∧ ∃ n ∈ nodes, n.id = x ∧ (n.parentId = ROOT_PARENT_SENTINEL ∨ n.parentId ∉ ids nodes)

/-- The raw parent graph; the root and the detached nodes have no outgoing edge. -/
def RawEdge (x y : JsString) : Prop :=
  x ≠ rootId ∧ ¬ Detached nodes rootId x ∧ ∃ n ∈ nodes, n.id = x ∧ n.parentId = y

/-- `x` lies on a cycle of the raw parent graph and no member of the cycle is smaller. -/
def CycleLeast (x : JsString) : Prop :=
  Relation.TransGen (RawEdge nodes rootId) x x ∧
    ∀ y, Relation.TransGen (RawEdge nodes rootId) x y → x ≤ y

def FlaggedDeleted (x : JsString) : Prop := ∃ n ∈ nodes, n.id = x ∧ n.isDeleted = true

variable (t : EffectiveTree)

def EffectiveEdge (x y : JsString) : Prop := x ≠ rootId ∧ t.parents.get x = some y

structure EffectiveTree.Spec : Prop where
  root : rootId ∈ ids nodes → t.parents.get rootId = some ROOT_PARENT_SENTINEL
  parent : ∀ n ∈ nodes, n.id ≠ rootId →
    t.parents.get n.id = some (if n.id ∈ t.recovered then rootId else n.parentId)
  unlisted : ∀ x, x ∉ ids nodes → t.parents.get x = none
  recovered : ∀ x, x ∈ t.recovered ↔ Detached nodes rootId x ∨ CycleLeast nodes rootId x
  deleted : ∀ x, x ∈ t.deleted ↔ x ∈ ids nodes ∧ x ≠ rootId ∧ (FlaggedDeleted nodes x ∨
    ∃ y, Relation.TransGen (EffectiveEdge rootId t) x y ∧ y ≠ rootId ∧ FlaggedDeleted nodes y)
  reaches : ∀ x ∈ ids nodes, Relation.ReflTransGen (EffectiveEdge rootId t) x rootId

end RawGraph

end OpenOutliner
