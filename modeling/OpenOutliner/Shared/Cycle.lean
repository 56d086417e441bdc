import OpenOutliner.Foundations.OrderedMap
import OpenOutliner.Shared.FractionalIndex
import Mathlib.Data.Finset.Union

namespace OpenOutliner

open Foundations

structure CycleNode where
  id : JsString
  parentId : JsString
  rank : JsString
  hlc : Hlc
deriving DecidableEq, Repr

structure CycleRepair where
  itemId : JsString
  newParentId : JsString
  newRank : JsString
  newHlc : Hlc
  cycle : List JsString
deriving DecidableEq, Repr

def tracePath (byId : OrderedMap JsString CycleNode) (settled : Finset JsString) :
    ℕ → List JsString → Option CycleNode → Option (List JsString × Option (List JsString))
  | 0, _, _ => none
  | _ + 1, path, none => some (path, none)
  | fuel + 1, path, some cur =>
    if cur.id ∈ settled then some (path, none)
    else if cur.id ∈ path then some (path, some (path.drop (path.idxOf cur.id)))
    else if isRootParent cur.parentId then some (path ++ [cur.id], none)
    else tracePath byId settled fuel (path ++ [cur.id]) (byId.get cur.parentId)

def detectFrom (fuel : ℕ) (byId : OrderedMap JsString CycleNode)
    (acc : Finset JsString × List (List JsString)) (start : CycleNode) :
    Option (Finset JsString × List (List JsString)) :=
  if start.id ∈ acc.1 then some acc
  else (tracePath byId acc.1 fuel [] (some start)).map fun (path, cycle) =>
    (acc.1 ∪ path.toFinset, acc.2 ++ cycle.toList)

def detectCyclesWithin (fuel : ℕ) (nodes : List CycleNode) : Option (List (List JsString)) :=
  (nodes.foldlM (detectFrom fuel (.ofList (nodes.map fun n => (n.id, n)))) (∅, [])).map Prod.snd

/-- A walk takes a turn for each listed id and one to stop. -/
def detectCycles (nodes : List CycleNode) : List (List JsString) :=
  (detectCyclesWithin (nodes.length + 1) nodes).getD []

def getNode (byId : OrderedMap JsString CycleNode) (id : JsString) : Except JsError CycleNode :=
  match byId.get id with
  | some node => .ok node
  | none => .error .undefinedProperty

def younger (byId : OrderedMap JsString CycleNode) (freed : CycleNode) (id : JsString) :
    Except JsError CycleNode := do
  let node ← getNode byId id
  return if 0 < compareHlc node.hlc freed.hlc then node else freed

variable (lib : FractionalIndexing)

def repairForCycle (byId : OrderedMap JsString CycleNode) (rootItemId : JsString)
    (rootChildRanks : List JsString) (ctx : ClockContext) (cycle : List JsString) :
    Except JsError CycleRepair := do
  let first ← getNode byId (cycle.headD [])
  let freed ← cycle.foldlM (younger byId) first
  let lastRootRank := match rootChildRanks with
    | [] => none
    | r :: rs => some (rs.foldl (fun a b => if 0 ≤ compareRank a b then a else b) r)
  let newRank ← rankAfter lib lastRootRank freed.id
  return ⟨freed.id, rootItemId, newRank,
    tickHlc (some freed.hlc) (max ctx.nowMs freed.hlc.wallMs) ctx.replicaId, cycle⟩

def computeCycleRepairs (nodes : List CycleNode) (ctx : ClockContext) :
    Except JsError (List CycleRepair) :=
  match nodes.find? (fun n => isRootParent n.parentId) with
  | none => .ok []
  | some root =>
    let rootChildRanks := (nodes.filter fun n => n.parentId = root.id).map CycleNode.rank
    (detectCycles nodes).mapM
      (repairForCycle lib (.ofList (nodes.map fun n => (n.id, n))) root.id rootChildRanks ctx)

end OpenOutliner
