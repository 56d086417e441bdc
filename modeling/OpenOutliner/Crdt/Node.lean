import OpenOutliner.Foundations.OrderedMap
import OpenOutliner.Shared.Schema
import Mathlib.Data.Finset.Union

/-!
The document as its shared maps read at one moment, and the readers and writers of one
item node. A text is its sequence of code units; cutting a surrogate pair replaces both halves.
-/

namespace OpenOutliner

open Foundations

structure Node where
  move : Option MoveRegister
  content : Option JsString
  note : Option JsString
  deleteRecords : Option (Finset JsString)
  restoreRecords : Option (Finset JsString)
  deleted : Option DeletedRegister
  type : Option ItemType
  isCompleted : Option Bool
  isCollapsed : Option Bool
deriving DecidableEq

/-- `schemaVersion` and `rootId` are the entries of the document's `meta` map. -/
structure Doc where
  schemaVersion : Option ℕ
  rootId : Option JsString
  items : OrderedMap JsString Node

section Text

def isHighSurrogate (c : CodeUnit) : Bool := 0xD800 ≤ c.val && c.val < 0xDC00

def isLowSurrogate (c : CodeUnit) : Bool := 0xDC00 ≤ c.val && c.val < 0xE000

def replacement : CodeUnit := ⟨0xFFFD, by decide⟩

def splitText (t : JsString) (i : ℕ) : JsString × JsString :=
  match (t.take i).getLast?, (t.drop i).head? with
  | some high, some low =>
    if isHighSurrogate high && isLowSurrogate low then
      ((t.take i).dropLast ++ [replacement], replacement :: (t.drop i).tail)
    else (t.take i, t.drop i)
  | _, _ => (t.take i, t.drop i)

def insertText (t : JsString) (i : ℕ) (s : JsString) : JsString :=
  (splitText t i).1 ++ s ++ (splitText t i).2

def deleteText (t : JsString) (i len : ℕ) : JsString :=
  (splitText t i).1 ++ (splitText (splitText t i).2 len).2

end Text

def freshNode : Node := ⟨none, some [], none, none, none, none, none, none, none⟩

def noHlc : Hlc := ⟨0, 0, []⟩

def Node.hasActiveDelete (node : Node) : Bool :=
  match node.deleteRecords with
  | none => false
  | some deletes => decide (∃ token ∈ deletes, token ∉ node.restoreRecords.getD ∅)

def readDeleted (schemaVersion : Option ℕ) (node : Node) : DeletedRegister :=
  if schemaVersion = some 2 then ⟨node.hasActiveDelete, noHlc⟩
  else node.deleted.getD ⟨false, noHlc⟩

def readType (node : Node) : ItemType := node.type.getD .bullet

def readNodeSnapshot (schemaVersion : Option ℕ) (id : JsString) (node : Node) :
    Option ItemNodeSnapshot :=
  node.move.map fun move =>
    { id, move, deleted := readDeleted schemaVersion node, type := readType node,
      content := node.content.getD [], isCompleted := node.isCompleted.getD false,
      isCollapsed := node.isCollapsed.getD false, note := node.note }

namespace Doc

def readAllSnapshots (doc : Doc) : List ItemNodeSnapshot :=
  doc.items.entries.filterMap fun e => readNodeSnapshot doc.schemaVersion e.1 e.2

def moveOf (doc : Doc) (id : JsString) : Option MoveRegister :=
  (doc.items.get id).bind Node.move

def setNode (doc : Doc) (id : JsString) (node : Node) : Doc :=
  { doc with items := doc.items.set id node }

def updateNode (doc : Doc) (id : JsString) (f : Node → Node) : Doc :=
  match doc.items.get id with
  | none => doc
  | some node => doc.setNode id (f node)

/-- Replace the whole placement, creating the node if it is absent; the root stays under the
sentinel. -/
def writeMove (doc : Doc) (id : JsString) (move : MoveRegister) : Doc :=
  if doc.rootId = some id ∧ move.parentId ≠ ROOT_PARENT_SENTINEL then doc
  else doc.setNode id { (doc.items.get id).getD freshNode with move := some move }

def writeRecords (isDeleted : Bool) (token : JsString) (node : Node) : Node :=
  let deletes := node.deleteRecords.getD ∅
  let restores := node.restoreRecords.getD ∅
  if isDeleted then
    { node with deleteRecords := some (insert token deletes), restoreRecords := some restores }
  else { node with deleteRecords := some deletes, restoreRecords := some (restores ∪ deletes) }

/-- `token` is the fresh UUID that a version 2 delete mints. -/
def writeDeleted (doc : Doc) (id : JsString) (del : DeletedRegister) (token : JsString) : Doc :=
  if doc.schemaVersion = some 2 then
    if doc.rootId = some id then doc else doc.updateNode id (writeRecords del.isDeleted token)
  else doc.updateNode id fun node => { node with deleted := some del }

/-- `contentText`: the content exists afterwards if the item does. -/
def ensureContent (doc : Doc) (id : JsString) : Doc :=
  doc.updateNode id fun node => { node with content := some (node.content.getD []) }

def contentOf (doc : Doc) (id : JsString) : Option JsString := (doc.items.get id).bind Node.content

def editContent (doc : Doc) (id : JsString) (f : JsString → JsString) : Doc :=
  doc.updateNode id fun node => { node with content := node.content.map f }

@[simp] theorem setNode_get (doc : Doc) (id x : JsString) (node : Node) :
    (doc.setNode id node).items.get x = if x = id then some node else doc.items.get x :=
  OrderedMap.get_set _ _ _ _

@[simp] theorem updateNode_get (doc : Doc) (id x : JsString) (f : Node → Node) :
    (doc.updateNode id f).items.get x =
      if x = id then (doc.items.get x).map f else doc.items.get x := by
  unfold updateNode
  by_cases hx : x = id
  · subst hx
    cases h : doc.items.get x with
    | none => simp [h]
    | some node => simp
  · cases h : doc.items.get id with
    | none => simp [hx]
    | some node => simp [hx]

@[simp] theorem updateNode_schemaVersion (doc : Doc) (id : JsString) (f : Node → Node) :
    (doc.updateNode id f).schemaVersion = doc.schemaVersion := by
  unfold updateNode
  split <;> rfl

@[simp] theorem updateNode_rootId (doc : Doc) (id : JsString) (f : Node → Node) :
    (doc.updateNode id f).rootId = doc.rootId := by
  unfold updateNode
  split <;> rfl

@[simp] theorem writeMove_schemaVersion (doc : Doc) (id : JsString) (move : MoveRegister) :
    (doc.writeMove id move).schemaVersion = doc.schemaVersion := by
  unfold writeMove
  split_ifs <;> rfl

@[simp] theorem writeMove_rootId (doc : Doc) (id : JsString) (move : MoveRegister) :
    (doc.writeMove id move).rootId = doc.rootId := by
  unfold writeMove
  split_ifs <;> rfl

@[simp] theorem writeDeleted_schemaVersion (doc : Doc) (id : JsString) (del : DeletedRegister)
    (token : JsString) : (doc.writeDeleted id del token).schemaVersion = doc.schemaVersion := by
  unfold writeDeleted
  split_ifs <;> simp

@[simp] theorem writeDeleted_rootId (doc : Doc) (id : JsString) (del : DeletedRegister)
    (token : JsString) : (doc.writeDeleted id del token).rootId = doc.rootId := by
  unfold writeDeleted
  split_ifs <;> simp

theorem writeMove_moveOf (doc : Doc) (id x : JsString) (move : MoveRegister) :
    (doc.writeMove id move).moveOf x = doc.moveOf x ∨
      x = id ∧ (doc.writeMove id move).moveOf x = some move := by
  unfold writeMove
  split_ifs with hroot
  · exact Or.inl rfl
  · by_cases hx : x = id
    · exact Or.inr ⟨hx, by simp [moveOf, hx]⟩
    · exact Or.inl (by simp [moveOf, hx])

theorem writeMove_isSome {doc : Doc} {x : JsString} (h : (doc.items.get x).isSome = true) (id : JsString)
    (move : MoveRegister) : ((doc.writeMove id move).items.get x).isSome = true := by
  unfold writeMove
  split_ifs with hroot
  · exact h
  · rw [setNode_get]
    split_ifs
    · rfl
    · exact h

theorem updateNode_isSome (doc : Doc) (id x : JsString) (f : Node → Node) :
    ((doc.updateNode id f).items.get x).isSome = (doc.items.get x).isSome := by
  rw [updateNode_get]
  split_ifs
  · exact Option.isSome_map
  · rfl

theorem ensureContent_isSome (doc : Doc) (id x : JsString) :
    ((doc.ensureContent id).items.get x).isSome = (doc.items.get x).isSome :=
  updateNode_isSome doc id x _

theorem editContent_isSome (doc : Doc) (id x : JsString) (f : JsString → JsString) :
    ((doc.editContent id f).items.get x).isSome = (doc.items.get x).isSome :=
  updateNode_isSome doc id x _

theorem ensureContent_contentOf {doc : Doc} {x : JsString} (h : (doc.items.get x).isSome = true)
    (id : JsString) (hx : x = id ∨ (doc.contentOf x).isSome = true) :
    ((doc.ensureContent id).contentOf x).isSome = true := by
  obtain ⟨node, hget⟩ := Option.isSome_iff_exists.mp h
  rw [contentOf, ensureContent, updateNode_get]
  by_cases he : x = id
  · rw [if_pos he, hget]
    rfl
  · have hcontent : (doc.contentOf x).isSome = true := hx.resolve_left he
    simpa [he, contentOf] using hcontent

theorem updateNode_moveOf (doc : Doc) (id x : JsString) {f : Node → Node}
    (hf : ∀ node, (f node).move = node.move) : (doc.updateNode id f).moveOf x = doc.moveOf x := by
  rw [moveOf, moveOf, updateNode_get]
  split_ifs with hx
  · cases h : doc.items.get x with
    | none => rfl
    | some node => exact hf node
  · rfl

@[simp] theorem ensureContent_moveOf (doc : Doc) (id x : JsString) :
    (doc.ensureContent id).moveOf x = doc.moveOf x :=
  updateNode_moveOf doc id x fun _ => rfl

@[simp] theorem editContent_moveOf (doc : Doc) (id x : JsString) (f : JsString → JsString) :
    (doc.editContent id f).moveOf x = doc.moveOf x :=
  updateNode_moveOf doc id x fun _ => rfl

@[simp] theorem writeDeleted_moveOf (doc : Doc) (id x : JsString) (del : DeletedRegister)
    (token : JsString) : (doc.writeDeleted id del token).moveOf x = doc.moveOf x := by
  unfold writeDeleted
  split_ifs
  · rfl
  · apply updateNode_moveOf
    intro node
    unfold writeRecords
    split <;> rfl
  · exact updateNode_moveOf doc id x fun _ => rfl

end Doc

end OpenOutliner
