import OpenOutliner.Foundations.Autocommit
import OpenOutliner.Server.Serializer
import Mathlib.Data.Rat.Defs
import Mathlib.Data.List.ReduceOption

/-!
The import of an unchecked export, statement by statement: what is left of it when a statement is refused or
the connection fails.
-/

namespace OpenOutliner

open Foundations

/-- A field of a parsed item; `undefined` if it is not there. Map keys compare objects and arrays by identity,
and do not tell the two zeros apart. -/
inductive JsonField
  | undefined
  | null
  | boolean (b : Bool)
  | number (n : ℚ)
  | infinity (negative : Bool)
  | string (s : JsString)
  | object (identity : ℕ)
deriving DecidableEq

namespace JsonField

def truthy : JsonField → Bool
  | undefined | null => false
  | boolean b => b
  | number n => decide (n ≠ 0)
  | infinity _ => true
  | string s => decide (s ≠ [])
  | object _ => true

def orElse (other : JsonField) : JsonField → JsonField
  | undefined | null => other
  | value => value

end JsonField

/-- An item of the parsed export that is not `null`; a number, a text or a boolean has none of the fields. -/
structure RawItem where
  id : JsonField
  parentId : JsonField
  rank : JsonField
  type : JsonField
  content : JsonField
  note : JsonField
  isCompleted : JsonField
  isCollapsed : JsonField
deriving DecidableEq

inductive SqlItemType
  | bullet | task | heading | divider | board | table
deriving DecidableEq

structure StoredValues where
  type : SqlItemType
  content : JsString
  note : Option JsString
  isCompleted : Bool
  isCollapsed : Bool
deriving DecidableEq

def StoredValues.default : StoredValues := ⟨.bullet, [], none, false, false⟩

structure StoredItem (Uuid : Type) where
  documentId : Uuid
  parentId : Option Uuid
  rank : JsString
  values : StoredValues
  deletedAt : Option ℤ
deriving DecidableEq

structure StoredDocument (Uuid : Type) where
  workspaceId : Uuid
  title : JsString
  rootItemId : Option Uuid
deriving DecidableEq

structure ImportDb (Uuid : Type) where
  documents : OrderedMap Uuid (StoredDocument Uuid)
  items : OrderedMap Uuid (StoredItem Uuid)
  projection : OrderedMap Uuid (ℕ × ℕ)

/-- What the driver and the database make of a value other than `null` for a column, none if they refuse it.
The rank is also a key of an index, which bounds its length. -/
structure SqlColumns where
  text : JsonField → Option JsString
  rank : JsonField → Option JsString
  boolean : JsonField → Option Bool

namespace SqlColumns

def notNull {α : Type} (convert : JsonField → Option α) : JsonField → Option α
  | .undefined | .null => none
  | value => convert value

def nullable {α : Type} (convert : JsonField → Option α) : JsonField → Option (Option α)
  | .undefined | .null => some none
  | value => (convert value).map some

def itemType : JsonField → Option SqlItemType
  | .string s =>
    if s = js ['b', 'u', 'l', 'l', 'e', 't'] then some .bullet
    else if s = js ['t', 'a', 's', 'k'] then some .task
    else if s = js ['h', 'e', 'a', 'd', 'i', 'n', 'g'] then some .heading
    else if s = js ['d', 'i', 'v', 'i', 'd', 'e', 'r'] then some .divider
    else if s = js ['b', 'o', 'a', 'r', 'd'] then some .board
    else if s = js ['t', 'a', 'b', 'l', 'e'] then some .table
    else none
  | _ => none

def values (columns : SqlColumns) (item : RawItem) : Option StoredValues := do
  let type ← itemType item.type
  let content ← notNull columns.text item.content
  let note ← nullable columns.text item.note
  let isCompleted ← notNull columns.boolean item.isCompleted
  let isCollapsed ← notNull columns.boolean item.isCollapsed
  return ⟨type, content, note, isCompleted, isCollapsed⟩

end SqlColumns

namespace RawImport

variable {Uuid : Type} [DecidableEq Uuid]

def hasRoot (db : ImportDb Uuid) (documentId : Uuid) : Bool :=
  db.items.values.any fun row => decide (row.documentId = documentId ∧ row.parentId = none ∧
    row.deletedAt = none)

/-- The transaction as one statement: until its commit nothing of it is kept. -/
def createDocumentWithRoot (columns : SqlColumns) (rootRank : JsString) (workspaceId documentId : Uuid)
    (title : JsonField) :
    Statement (ImportDb Uuid) := fun db =>
  match db.documents.get documentId with
  | some existing => if existing.workspaceId = workspaceId then some db else none
  | none => do
    let title ← SqlColumns.notNull columns.text title
    let rank ← columns.rank (.string rootRank)
    if db.items.has documentId || hasRoot db documentId then none
    else
      some
        { documents := db.documents.set documentId ⟨workspaceId, title, some documentId⟩
          items := db.items.set documentId ⟨documentId, none, rank, .default, none⟩
          projection := if db.projection.has documentId then db.projection
            else db.projection.set documentId (0, 0) }

def roots (items : List RawItem) : List RawItem := items.filter fun i => i.parentId = .null

def nonRoots (items : List RawItem) : List RawItem := items.filter fun i => i.parentId ≠ .null

def idMap (documentId : Uuid) (uuids : List Uuid) (items : List RawItem) : OrderedMap JsonField Uuid :=
  ((nonRoots items).zip uuids).foldl (fun m e => m.set e.1.id e.2)
    ((roots items).foldl (fun m item => m.set item.id documentId) .empty)

def newParentId (ids : OrderedMap JsonField Uuid) (item : RawItem) : Option Uuid :=
  if item.parentId.truthy then ids.get item.parentId else none

def newRank (columns : SqlColumns) (freshRank : JsString) (item : RawItem) : Option JsString :=
  SqlColumns.notNull columns.rank (if item.rank.truthy then item.rank else .string freshRank)

/-- `INSERT … ON CONFLICT (id) DO NOTHING`. The values are checked before the conflict, and the parent after
the insertion: a row can be its own parent. -/
def insertItem (columns : SqlColumns) (freshRank : JsString) (documentId : Uuid)
    (ids : OrderedMap JsonField Uuid) (item : RawItem) : Statement (ImportDb Uuid) := fun db => do
  let newId ← ids.get item.id
  let rank ← newRank columns freshRank item
  let values ← columns.values item
  if db.items.has newId then some db
  else
    let inserted :=
      { db with items := db.items.set newId ⟨documentId, newParentId ids item, rank, values, none⟩ }
    match newParentId ids item with
    | none => if hasRoot db documentId then none else some inserted
    | some parent =>
      if (inserted.items.get parent).any fun row => row.documentId = documentId then some inserted else none

def updateRoot (columns : SqlColumns) (documentId : Uuid) (root : RawItem) : Statement (ImportDb Uuid) :=
  fun db => do
  let values ← columns.values root
  match db.items.get documentId with
  | some row => if row.documentId = documentId
      then some { db with items := db.items.set documentId { row with values } } else some db
  | none => some db

/-- Of several roots, or of none, nothing is written to the new root. -/
def rootStatements (columns : SqlColumns) (documentId : Uuid) :
    List RawItem → List (Statement (ImportDb Uuid))
  | [root] => [updateRoot columns documentId root]
  | _ => []

def itemStatements (columns : SqlColumns) (freshRank : JsString) (documentId : Uuid) (uuids : List Uuid)
    (items : List RawItem) :
    List (Statement (ImportDb Uuid)) :=
  (nonRoots items).map (insertItem columns freshRank documentId (idMap documentId uuids items)) ++
    rootStatements columns documentId (roots items)

/-- What is left in the database, and whether the call returns. An element none is `null`, and reading its
`parentId` throws. -/
def importDocument (columns : SqlColumns) (lib : FractionalIndexing) (workspaceId documentId : Uuid)
    (uuids : List Uuid)
    (title : JsonField) (elements : List (Option RawItem)) (failure : Option Failure) (db : ImportDb Uuid) :
    ImportDb Uuid × Bool :=
  match rankBetween lib none none [] with
  | .error _ => (db, false)
  | .ok freshRank =>
    runStatements failure (createDocumentWithRoot columns freshRank workspaceId documentId title ::
      if none ∈ elements then [fun _ => none]
      else itemStatements columns freshRank documentId uuids elements.reduceOption) db

end RawImport

structure RawExport where
  version : JsonField
  items : Option (List (Option RawItem))

structure ImportParams (Uuid : Type) where
  workspaceId : Uuid
  title : JsonField
  data : RawExport

def defaultTitle : JsString :=
  js ['I', 'm', 'p', 'o', 'r', 't', 'e', 'd', ' ', 'D', 'o', 'c', 'u', 'm', 'e', 'n', 't']

def RawExport.checked (data : RawExport) : Option (List (Option RawItem)) :=
  if data.version = .number 1 then data.items else none

def ImportDocument {Uuid : Type} [DecidableEq Uuid] (columns : SqlColumns) (lib : FractionalIndexing)
    (documentId : Uuid)
    (uuids : List Uuid) (params : ImportParams Uuid) (failure : Option Failure) (db : ImportDb Uuid) :
    ImportDb Uuid × Bool :=
  match params.data.checked with
  | none => (db, false)
  | some elements =>
    RawImport.importDocument columns lib params.workspaceId documentId uuids
      (JsonField.orElse (.string defaultTitle) params.title)
      elements failure db

end OpenOutliner
