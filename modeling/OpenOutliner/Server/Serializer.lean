import OpenOutliner.Foundations.OrderedForest
import OpenOutliner.Server.ItemsRepo

namespace OpenOutliner

open Foundations

structure ItemValues where
  type : ItemType
  content : JsString
  note : Option JsString
  isCompleted : Bool
  isCollapsed : Bool
deriving DecidableEq

structure LiveRow extends ItemValues where
  id : JsString
  parentId : Option JsString
  rank : JsString
deriving DecidableEq

instance : Ordered LiveRow := ⟨LiveRow.id, LiveRow.rank⟩

structure ExportedItem extends ItemValues where
  id : JsString
  parentId : Option JsString
  rank : JsString
deriving DecidableEq

structure ExportedDocument where
  version : ℕ
  exportedAt : JsString
  items : List ExportedItem
deriving DecidableEq

section Export

def bucket (rows : List LiveRow) (parentId : Option JsString) : List LiveRow :=
  sortSiblings (rows.filter fun row => row.parentId = parentId)

def childRows (rows : List LiveRow) (row : LiveRow) : List LiveRow := bucket rows (some row.id)

def LiveRow.exported (row : LiveRow) : ExportedItem :=
  { row with }

@[simp] theorem exported_parentId (row : LiveRow) : row.exported.parentId = row.parentId := rfl

/-- The value that `JSON.stringify` prints, and that `JSON.parse` reads back; it has only strings, booleans,
`null` and the version. Each row is visited once, so no more nested calls are needed. -/
def serializeJson (exportedAt : JsString) (rows : List LiveRow) : Option ExportedDocument :=
  (preorder (childRows rows) (rows.length + 1) 0 (bucket rows none)).map fun out =>
    ⟨1, exportedAt, out.map fun e => e.1.exported⟩

end Export

section Import

variable {Uuid : Type} [DecidableEq Uuid]

def readLive (uuids : UuidText Uuid) (e : Uuid × ItemRow Uuid) : Option LiveRow :=
  if e.2.deletedAt = none then
    some ⟨⟨e.2.type, e.2.content, e.2.note, e.2.isCompleted, e.2.isCollapsed⟩, uuids.text e.1,
      e.2.parentId.map uuids.text, e.2.rank⟩
  else none

def getLiveItems (uuids : UuidText Uuid) (items : Items Uuid) : List LiveRow :=
  items.entries.filterMap (readLive uuids)

def insertedRow (parentId : Option Uuid) (rank : JsString) (v : ItemValues) : ItemRow Uuid :=
  ⟨parentId, rank, v.type, v.content, v.note, v.isCompleted, v.isCollapsed, none, 1⟩

/-- `INSERT … ON CONFLICT (id) DO NOTHING`: the parent, checked after the insertion, must be a row of the
document, and a document has one live root. -/
def insertRow (items : Items Uuid) (id : Uuid) (row : ItemRow Uuid) : Option (Items Uuid) :=
  if items.has id then some items
  else
    match row.parentId with
    | none =>
      if ∃ old ∈ items.values, old.parentId = none ∧
        old.deletedAt = none then none else some (items.set id row)
    | some parent => if parent = id ∨ items.has parent then some (items.set id row) else none

def createdItems (documentId : Uuid) (rootRank : JsString) : Items Uuid :=
  OrderedMap.empty.set documentId (insertedRow none rootRank ⟨.bullet, [], none, false, false⟩)

def roots (data : ExportedDocument) : List ExportedItem := data.items.filter fun i => i.parentId = none

def nonRoots (data : ExportedDocument) : List ExportedItem := data.items.filter fun i => i.parentId ≠ none

def idMap (documentId : Uuid) (uuids : List Uuid) (data : ExportedDocument) : OrderedMap JsString Uuid :=
  ((nonRoots data).zip uuids).foldl (fun m e => m.set e.1.id e.2)
    ((roots data).foldl (fun m item => m.set item.id documentId) .empty)

def importedParent (ids : OrderedMap JsString Uuid) (item : ExportedItem) : Option Uuid :=
  item.parentId.bind fun p => if p = [] then none else ids.get p

def importItem (ids : OrderedMap JsString Uuid) (freshRank : JsString) (items : Items Uuid)
    (item : ExportedItem) :
    Option (Items Uuid) :=
  (ids.get item.id).bind fun newId =>
    insertRow items newId
      (insertedRow (importedParent ids item) (if item.rank = [] then freshRank else item.rank)
      item.toItemValues)

def importDocument (lib : FractionalIndexing) (documentId : Uuid) (uuids : List Uuid)
    (data : ExportedDocument) :
    Option (Items Uuid) :=
  match rankBetween lib none none [] with
  | .error _ => none
  | .ok freshRank =>
    ((nonRoots data).foldlM (importItem (idMap documentId uuids data) freshRank)
      (createdItems documentId freshRank)).map
      fun items =>
        match roots data with
        | [root] =>
          match items.get documentId with
          | some row => items.set documentId
              { row with
                type := root.type
                content := root.content
                note := root.note
                isCompleted := root.isCompleted
                isCollapsed := root.isCollapsed }
          | none => items
        | _ => items

end Import

structure IsTree (rows : List LiveRow) (root : LiveRow) : Prop where
  ids : (rows.map LiveRow.id).Nodup
  -- ids are texts of UUIDs
  named : ∀ row ∈ rows, row.id ≠ []
  mem : root ∈ rows
  root_iff : ∀ row ∈ rows, row.parentId = none ↔ row = root
  reaches : ∀ row ∈ rows, Relation.ReflTransGen (ChildOf (childRows rows)) row root

/-- Both trees, in preorder with siblings by rank and id, have one shape and one sequence of values. -/
def SameOutline (rows rows' : List LiveRow) : Prop :=
  ∃ out out', Listing (childRows rows) (bucket rows none) 0 out ∧
    Listing (childRows rows') (bucket rows' none) 0 out' ∧
    shown LiveRow.toItemValues out' = shown LiveRow.toItemValues out

section Order

def importedRank (freshRank : JsString) (row : LiveRow) : JsString :=
  if row.rank = [] then freshRank else row.rank

def subtree (rows : List LiveRow) (row : LiveRow) : Option (List (ItemValues × ℕ)) :=
  (preorder (childRows rows) (rows.length + 1) 0 [row]).map (shown LiveRow.toItemValues)

/-- However siblings of equal rank are ordered among themselves, the trees below them are the same in a row.
-/
def OrderFree (freshRank : JsString) (rows : List LiveRow) : Prop :=
  ∀ p ∈ rows, ∀ l : List LiveRow, l.Perm (childRows rows p) →
    l.Pairwise (fun a b => importedRank freshRank a ≤ importedRank freshRank b) →
      l.map (subtree rows) = (childRows rows p).map (subtree rows)

end Order

end OpenOutliner
