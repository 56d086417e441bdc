import OpenOutliner.Crdt.Node
import OpenOutliner.Foundations.Forest
import OpenOutliner.Shared.EffectiveTree
import OpenOutliner.Shared.ItemCommands

/-!
The outline model: the index of effective children, the visible rows, and the structural
commands. A command gives its result, or what it threw, and the document it leaves.
-/

namespace OpenOutliner

open Foundations

structure OutlineNode where
  id : JsString
  parentId : JsString
  rank : JsString
  hlc : Hlc
  isDeleted : Bool
deriving DecidableEq, Repr

instance : Ordered OutlineNode := ⟨OutlineNode.id, OutlineNode.rank⟩

structure OutlineIndex where
  nodes : List OutlineNode
  children : OrderedMap JsString (List OutlineNode)
  recovered : Finset JsString

structure VisibleRow where
  id : JsString
  depth : ℕ
  recovered : Bool
deriving DecidableEq, Repr

/-- `now` is the sequence of clock readings within one command. -/
structure Actor where
  replicaId : JsString
  now : ℕ → ℤ

def Actor.ctx (actor : Actor) (reading : ℕ) : ClockContext := ⟨actor.replicaId, actor.now reading⟩

def readOutlineNode (schemaVersion : Option ℕ) (id : JsString) (node : Node) : Option OutlineNode :=
  node.move.map fun move =>
    ⟨id, move.parentId, move.rank, move.hlc, (readDeleted schemaVersion node).isDeleted⟩

def OutlineNode.toTreeNode (n : OutlineNode) : TreeNode := ⟨n.id, n.parentId, n.isDeleted⟩

def pushChild (children : OrderedMap JsString (List OutlineNode)) (node : OutlineNode) :
    OrderedMap JsString (List OutlineNode) :=
  children.set node.parentId ((children.get node.parentId).getD [] ++ [node])

namespace Doc

def allNodes (doc : Doc) : List OutlineNode :=
  doc.items.entries.filterMap fun e => readOutlineNode doc.schemaVersion e.1 e.2

def getRootId (doc : Doc) : Option JsString :=
  match doc.rootId with
  | some canonical => some canonical
  | none => (doc.items.entries.find? fun e => e.2.move.any fun m => isRootParent m.parentId).map Prod.fst

def effectiveTree (doc : Doc) : EffectiveTree :=
  deriveEffectiveTree (doc.allNodes.map OutlineNode.toTreeNode) (doc.getRootId.getD [])

def placedNodes (doc : Doc) : List OutlineNode :=
  doc.allNodes.map fun n => { n with parentId := (doc.effectiveTree.parents.get n.id).getD n.parentId }

def isLive (doc : Doc) (node : OutlineNode) : Bool :=
  !(decide (node.id ∈ doc.effectiveTree.deleted) || decide (some node.id = doc.getRootId))

def outlineIndex (doc : Doc) : OutlineIndex :=
  { nodes := doc.placedNodes
    children := ((doc.placedNodes.filter doc.isLive).foldl pushChild .empty).mapValues sortSiblings
    recovered := doc.effectiveTree.recovered }

def getChildren (doc : Doc) (parentId : JsString) : List OutlineNode :=
  (doc.outlineIndex.children.get parentId).getD []

def shownChildren (doc : Doc) (isCollapsed : JsString → Bool) (node : OutlineNode) : List OutlineNode :=
  if isCollapsed node.id then [] else doc.getChildren node.id

def visibleRowsWithin (fuel : ℕ) (doc : Doc) (rootId : JsString) (isCollapsed : JsString → Bool) :
    Option (List VisibleRow) :=
  (drain (doc.shownChildren isCollapsed) fuel [] ((doc.getChildren rootId).map fun n => (n, 0))).map
    fun out => out.map fun e => ⟨e.1.id, e.2, decide (e.1.id ∈ doc.outlineIndex.recovered)⟩

/-- The loop takes a turn for each row and one to stop. -/
def visibleRows (doc : Doc) (rootId : JsString) (isCollapsed : JsString → Bool) : List VisibleRow :=
  (visibleRowsWithin (doc.allNodes.length + 1) doc rootId isCollapsed).getD []

def flattenVisibleWithin (fuel : ℕ) (doc : Doc) (rootId : JsString) (isCollapsed : JsString → Bool) :
    Option (List JsString) :=
  (drainPoints (doc.shownChildren isCollapsed) fuel [] (doc.getChildren rootId)).map fun out =>
    out.map OutlineNode.id

def flattenVisible (doc : Doc) (rootId : JsString) (isCollapsed : JsString → Bool) : List JsString :=
  (doc.flattenVisibleWithin (doc.allNodes.length + 1) rootId isCollapsed).getD []

def descendantLoop (byId : OrderedMap JsString OutlineNode) (ancestorId : JsString) :
    ℕ → Finset JsString → Option OutlineNode → Option Bool
  | 0, _, _ => none
  | _ + 1, _, none => some false
  | fuel + 1, seen, some cur =>
    if cur.parentId = ancestorId then some true
    else if cur.id ∈ seen then some false
    else if isRootParent cur.parentId then some false
    else descendantLoop byId ancestorId fuel (insert cur.id seen) (byId.get cur.parentId)

def isDescendantOfWithin (fuel : ℕ) (doc : Doc) (candidateId ancestorId : JsString) : Option Bool :=
  if candidateId = ancestorId then some true
  else
    let byId : OrderedMap JsString OutlineNode := .ofList (doc.allNodes.map fun n => (n.id, n))
    descendantLoop byId ancestorId fuel ∅ (byId.get candidateId)

def isDescendantOf (doc : Doc) (candidateId ancestorId : JsString) : Bool :=
  (isDescendantOfWithin (doc.allNodes.length + 2) doc candidateId ancestorId).getD false

end Doc

/-- The ranks around the gap after `afterId`, or before the first sibling. -/
def boundsAfter (siblings : List OutlineNode) (afterId : Option JsString) :
    Option JsString × Option JsString :=
  let afterIndex := (afterId.filter (· ≠ [])).bind fun a => siblings.findIdx? fun s => s.id = a
  match afterIndex with
  | some i => (siblings[i]?.map OutlineNode.rank, siblings[i + 1]?.map OutlineNode.rank)
  | none => (none, siblings[0]?.map OutlineNode.rank)

inductive Direction
  | up | down
deriving DecidableEq, Repr

section Commands

variable (lib : FractionalIndexing) (doc : Doc)

def createRoot (rootId : JsString) (actor : Actor) : Except JsError Unit × Doc :=
  match rankBetween lib none none [] with
  | .error e => (.error e, doc)
  | .ok rank => (.ok (), doc.writeMove rootId (buildRootMove rank (actor.ctx 0)))

def insertItem (newId parentId : JsString) (afterId : Option JsString) (actor : Actor) :
    Except JsError Unit × Doc :=
  let (lower, upper) := boundsAfter (doc.getChildren parentId) afterId
  match buildInsertMove lib newId parentId lower upper none (actor.ctx 0) with
  | .error e => (.error e, doc)
  | .ok move => (.ok (), doc.writeMove newId move)

def indent (id : JsString) (actor : Actor) : Except JsError Bool × Doc :=
  match doc.moveOf id with
  | none => (.ok false, doc)
  | some move =>
    let siblings := doc.getChildren move.parentId
    match siblings.findIdx? fun s => s.id = id with
    | none => (.ok false, doc)
    | some 0 => (.ok false, doc)
    | some (i + 1) =>
      match siblings[i]? with
      | none => (.error .undefinedProperty, doc)
      | some prevSibling =>
        let lastRank := (doc.getChildren prevSibling.id).getLast?.map OutlineNode.rank
        match buildAppendMove lib id prevSibling.id lastRank (some move.hlc) (actor.ctx 0) with
        | .error e => (.error e, doc)
        | .ok move => (.ok true, doc.writeMove id move)

/-- `rankBetween` and the write of the three commands that give an explicit rank. -/
def placeBetween (id parentId : JsString) (lower upper : Option JsString) (prevHlc : Hlc)
    (actor : Actor) : Except JsError Bool × Doc :=
  match rankBetween lib lower upper id with
  | .error e => (.error e, doc)
  | .ok rank => (.ok true, doc.writeMove id (buildMove parentId rank (some prevHlc) (actor.ctx 0)))

def outdent (id : JsString) (actor : Actor) : Except JsError Bool × Doc :=
  match doc.moveOf id with
  | none => (.ok false, doc)
  | some move =>
    match doc.moveOf move.parentId with
    | none => (.ok false, doc)
    | some parentMove =>
      let grandparentId := parentMove.parentId
      if isRootParent grandparentId then (.ok false, doc)
      else
        let parentSiblings := doc.getChildren grandparentId
        match parentSiblings.findIdx? fun s => s.id = move.parentId with
        -- `parentSiblings[-1]!.rank`
        | none => (.error .undefinedProperty, doc)
        | some i =>
          placeBetween lib doc id grandparentId (parentSiblings[i]?.map OutlineNode.rank)
            (parentSiblings[i + 1]?.map OutlineNode.rank) move.hlc actor

def moveWithinSiblings (id : JsString) (direction : Direction) (actor : Actor) :
    Except JsError Bool × Doc :=
  match doc.moveOf id with
  | none => (.ok false, doc)
  | some move =>
    let siblings := doc.getChildren move.parentId
    match siblings.findIdx? fun s => s.id = id with
    | none => (.ok false, doc)
    | some idx =>
      match direction with
      | .up =>
        if idx = 0 then (.ok false, doc)
        else
          let before := if idx = 1 then none else siblings[idx - 2]?.map OutlineNode.rank
          placeBetween lib doc id move.parentId before (siblings[idx - 1]?.map OutlineNode.rank)
            move.hlc actor
      | .down =>
        if idx = siblings.length - 1 then (.ok false, doc)
        else
          placeBetween lib doc id move.parentId (siblings[idx + 1]?.map OutlineNode.rank)
            (siblings[idx + 2]?.map OutlineNode.rank) move.hlc actor

def moveItem (id newParentId : JsString) (afterId : Option JsString) (actor : Actor) :
    Except JsError Bool × Doc :=
  if doc.isDescendantOf newParentId id || newParentId = id then (.ok false, doc)
  else
    match doc.moveOf id with
    | none => (.ok false, doc)
    | some move =>
      let (lower, upper) := boundsAfter (doc.getChildren newParentId) afterId
      placeBetween lib doc id newParentId lower upper move.hlc actor

def deleteItem (id : JsString) (token : JsString) (actor : Actor) (reading : ℕ) :
    Except JsError Unit × Doc :=
  match doc.items.get id with
  | none => (.error .undefinedProperty, doc)
  | some node =>
    let del := readDeleted doc.schemaVersion node
    (.ok (), doc.writeDeleted id (buildDelete (some del.hlc) (actor.ctx reading)) token)

def undeleteItem (id : JsString) (token : JsString) (actor : Actor) : Except JsError Unit × Doc :=
  match doc.items.get id with
  | none => (.error .undefinedProperty, doc)
  | some node =>
    let del := readDeleted doc.schemaVersion node
    (.ok (), doc.writeDeleted id (buildUndelete (some del.hlc) (actor.ctx 0)) token)

def truncateContent (id : JsString) (clamped : ℕ) (after : JsString) : Doc :=
  if after = [] then doc else doc.editContent id fun t => deleteText t clamped (t.length - clamped)

def insertContent (id : JsString) (at_ : ℕ) (s : JsString) : Doc :=
  if s = [] then doc else doc.editContent id fun t => insertText t at_ s

def splitItem (id : JsString) (offset : ℤ) (newId : JsString) (actor : Actor) :
    Except JsError Bool × Doc :=
  match doc.moveOf id with
  | none => (.ok false, doc)
  | some move =>
    let doc := doc.ensureContent id
    let full := (doc.contentOf id).getD []
    let clamped := (max 0 (min offset full.length)).toNat
    let after := full.drop clamped
    -- an exception leaves what the transaction wrote before it
    match insertItem lib (truncateContent doc id clamped after) newId move.parentId (some id) actor with
    | (.error e, doc) => (.error e, doc)
    | (.ok (), doc) => (.ok true, insertContent (doc.ensureContent newId) newId 0 after)

def adoptChildren (targetId : JsString) (actor : Actor) : ℕ → Option JsString → List OutlineNode → Doc →
    Except JsError ℕ × Doc
  | reading, _, [], doc => (.ok reading, doc)
  | reading, lastRank, child :: rest, doc =>
    match doc.moveOf child.id with
    | none => adoptChildren targetId actor reading lastRank rest doc
    | some childMove =>
      match rankBetween lib lastRank none child.id with
      | .error e => (.error e, doc)
      | .ok rank =>
        adoptChildren targetId actor (reading + 1) (some rank) rest
          (doc.writeMove child.id (buildMove targetId rank (some childMove.hlc) (actor.ctx reading)))

def mergeIntoPrevious (id targetId : JsString) (token : JsString) (actor : Actor) :
    Except JsError Bool × Doc :=
  let doc := (doc.ensureContent id).ensureContent targetId
  match doc.contentOf id, doc.contentOf targetId with
  | some sourceText, some targetText =>
    let doc := insertContent doc targetId targetText.length sourceText
    let orphans := doc.getChildren id
    let lastRank := (doc.getChildren targetId).getLast?.map OutlineNode.rank
    match adoptChildren lib targetId actor 0 lastRank orphans doc with
    | (.error e, doc) => (.error e, doc)
    | (.ok reading, doc) =>
      match deleteItem doc id token actor reading with
      | (.error e, doc) => (.error e, doc)
      | (.ok (), doc) => (.ok true, doc)
  | _, _ => (.ok false, doc)

def toggleCompleted (id : JsString) : Doc :=
  doc.updateNode id fun node => { node with isCompleted := some (!node.isCompleted.getD false) }

def setIsCollapsed (id : JsString) (value : Bool) : Doc :=
  doc.updateNode id fun node => { node with isCollapsed := some value }

def setItemType (id : JsString) (type : ItemType) : Doc :=
  doc.updateNode id fun node => { node with type := some type }

end Commands

@[simp] theorem truncateContent_moveOf (doc : Doc) (id x : JsString) (clamped : ℕ) (after : JsString) :
    (truncateContent doc id clamped after).moveOf x = doc.moveOf x := by
  unfold truncateContent
  split_ifs <;> simp

@[simp] theorem insertContent_moveOf (doc : Doc) (id x : JsString) (at_ : ℕ) (s : JsString) :
    (insertContent doc id at_ s).moveOf x = doc.moveOf x := by
  unfold insertContent
  split_ifs <;> simp

end OpenOutliner
