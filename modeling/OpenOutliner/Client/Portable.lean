import OpenOutliner.Server.ViewAgreement

namespace OpenOutliner

open Foundations

/-- A value as `JSON.parse` makes it, or `undefined`. Numbers other than integers are not needed. -/
inductive JsValue
  | undefined
  | null
  | boolean (b : Bool)
  | number (n : ℤ)
  | string (s : JsString)
  | array (values : List JsValue)
  | object (fields : List (String × JsValue))

namespace JsValue

def field (key : String) : JsValue → JsValue
  | object fields => (fields.lookup key).getD undefined
  | _ => undefined

def string? : JsValue → Option JsString
  | string s => some s
  | _ => none

def number? : JsValue → Option ℤ
  | number n => some n
  | _ => none

def boolean? : JsValue → Option Bool
  | boolean b => some b
  | _ => none

def array? : JsValue → Option (List JsValue)
  | array values => some values
  | _ => none

def nullable? : JsValue → Option (Option JsString)
  | null => some none
  | string s => some (some s)
  | _ => none

def optional? : JsValue → Option (Option Bool)
  | undefined => some none
  | boolean b => some (some b)
  | _ => none

def isObject : JsValue → Bool
  | array _ | object _ => true
  | _ => false

end JsValue

def ItemType.text : ItemType → JsString
  | .bullet => js ['b', 'u', 'l', 'l', 'e', 't']
  | .task => js ['t', 'a', 's', 'k']
  | .heading => js ['h', 'e', 'a', 'd', 'i', 'n', 'g']
  | .divider => js ['d', 'i', 'v', 'i', 'd', 'e', 'r']

def ITEM_TYPES : List ItemType := [.bullet, .task, .heading, .divider]

def JsValue.itemType? (value : JsValue) : Option ItemType :=
  value.string?.bind fun s => ITEM_TYPES.find? fun t => t.text = s

structure PortableItem where
  id : JsString
  parentId : Option JsString
  rank : JsString
  type : ItemType
  content : JsString
  note : JsString
  isCompleted : Bool
  deleted : Option Bool
deriving DecidableEq

instance : Ordered PortableItem := ⟨PortableItem.id, PortableItem.rank⟩

structure PortableDocument where
  title : JsString
  items : List PortableItem
deriving DecidableEq

def FORMAT : JsString := js ['o', 'p', 'e', 'n', '-', 'o', 'u', 't', 'l', 'i', 'n', 'e', 'r']

def MAX_ITEMS : ℕ := 50000

inductive PortableError
  | notAnObject
  | unsupported
  | invalidItem
  | notOneRoot
  | notATree
deriving DecidableEq

def PortableError.message : PortableError → String
  | notAnObject => "Expected an outline JSON document"
  | unsupported => "Unsupported or oversized outline document"
  | invalidItem => "Invalid or duplicate outline item"
  | notOneRoot => "Expected exactly one root"
  | notATree => "Import contains a cycle or missing parent"

section Values

def PortableItem.toValue (item : PortableItem) : JsValue :=
  .object ([("id", .string item.id), ("parentId", (item.parentId.map JsValue.string).getD .null),
    ("rank", .string item.rank), ("type", .string item.type.text), ("content", .string item.content),
    ("note", .string item.note), ("isCompleted", .boolean item.isCompleted)] ++
    item.deleted.toList.map fun b => ("deleted", .boolean b))

def PortableDocument.toValue (value : PortableDocument) : JsValue :=
  .object [("format", .string FORMAT), ("version", .number 2), ("title", .string value.title),
    ("items", .array (value.items.map PortableItem.toValue))]

def readItem (value : JsValue) : Option PortableItem := do
  let id ← ((value.field "id").string?).filter (· ≠ [])
  let parentId ← (value.field "parentId").nullable?
  let rank ← (value.field "rank").string?
  let type ← (value.field "type").itemType?
  let content ← (value.field "content").string?
  let note ← (value.field "note").string?
  let isCompleted ← (value.field "isCompleted").boolean?
  let deleted ← (value.field "deleted").optional?
  return ⟨id, parentId, rank, type, content, note, isCompleted, deleted⟩

def readItems : List JsString → List JsValue → Option (List PortableItem)
  | _, [] => some []
  | seen, value :: values =>
    match readItem value with
    | none => none
    | some item => if item.id ∈ seen then none else (readItems (item.id :: seen) values).map (item :: ·)

def PortableItem.toTreeNode (item : PortableItem) : TreeNode :=
  ⟨item.id, item.parentId.getD ROOT_PARENT_SENTINEL, false⟩

def rootItems (items : List PortableItem) : List PortableItem := items.filter fun i => i.parentId = none

def validatePortable (input : JsValue) : Except PortableError PortableDocument :=
  if input.isObject = false then .error .notAnObject
  else
    match (input.field "title").string?, (input.field "items").array? with
    | some title, some values =>
      if (input.field "format").string? ≠ some FORMAT ∨ (input.field "version").number? ≠ some 2 ∨
        values = [] ∨
          MAX_ITEMS < values.length then .error .unsupported
      else
        match readItems [] values with
        | none => .error .invalidItem
        | some items =>
          match rootItems items with
          | [root] =>
            if (deriveEffectiveTree (items.map PortableItem.toTreeNode) root.id).recovered = ∅
              then .ok ⟨title, items⟩
            else .error .notATree
          | _ => .error .notOneRoot
    | _, _ => .error .unsupported

end Values

structure TitledDoc where
  title : Option JsString
  doc : Doc

def UNTITLED : JsString := js ['U', 'n', 't', 'i', 't', 'l', 'e', 'd']

section Export

variable (localeCompare : JsString → JsString → ℤ)

def portableItem (tree : EffectiveTree) (root : JsString) (includeTrash : Bool) (n : ItemNodeSnapshot) :
    PortableItem where
  id := n.id
  parentId := if n.id = root then none else some ((tree.parents.get n.id).getD root)
  rank := n.move.rank
  type := n.type
  content := n.content
  note := n.note.getD []
  isCompleted := n.isCompleted
  deleted := if includeTrash then some n.deleted.isDeleted else none

def portableDocument (d : TitledDoc) (includeTrash : Bool) : PortableDocument :=
  let root := d.doc.getRootId.getD []
  let nodes := d.doc.readAllSnapshots
  let tree := deriveEffectiveTree (nodes.map ItemNodeSnapshot.toTreeNode) root
  { title := d.title.getD UNTITLED
    items := ((nodes.filter fun n => includeTrash || decide (n.id ∉ tree.deleted)).map
      (portableItem tree root includeTrash)).insertionSort fun a b => localeCompare a.id b.id ≤ 0 }

end Export

def Doc.writeContent (doc : Doc) (id content : JsString) : Doc :=
  doc.updateNode id fun node => { node with content := some content }

section Import

/-- `ranksBetween(null, null, n)`, the results of `randomUUID` and the readings of the clock. -/
structure ImportContext where
  ranksBetween : ℕ → List JsString
  randomUUID : ℕ → JsString
  now : ℕ → ℤ

variable (ctx : ImportContext) (documentId : JsString) (items : List PortableItem)

def portableIds : OrderedMap JsString JsString :=
  .ofList (items.zipIdx.map fun e => (e.1.id, if e.1.parentId = none then documentId else ctx.randomUUID e.2))

def newIdOf (id : JsString) : JsString := ((portableIds ctx documentId items).get id).getD []

def siblingGroup (parentId : Option JsString) : List PortableItem :=
  sortSiblings (items.filter fun i => i.parentId = parentId)

def newRankOf (item : PortableItem) : JsString :=
  ((ctx.ranksBetween
    (siblingGroup items item.parentId).length)[(siblingGroup items item.parentId).idxOf item]?).getD []

/-- One turn of the loop; delete tokens are further results of `randomUUID`. -/
def instantiateItem (doc : Doc) (e : PortableItem × ℕ) : Doc :=
  let item := e.1
  let id := newIdOf ctx documentId items item.id
  let parentId := match item.parentId with
    | none => ROOT_PARENT_SENTINEL
    | some p => newIdOf ctx documentId items p
  let doc :=
    doc.writeMove id ⟨parentId, newRankOf ctx items item,
      ⟨ctx.now e.2, 0, js ['i', 'm', 'p', 'o', 'r', 't']⟩⟩
  let doc := doc.writeContent id item.content
  let doc := doc.updateNode id fun node => { node with note := some item.note }
  let doc := doc.updateNode id fun node => { node with type := some item.type }
  let doc := doc.updateNode id fun node => { node with isCompleted := some item.isCompleted }
  if item.deleted = some true then doc.writeDeleted id ⟨true, noHlc⟩ (ctx.randomUUID (items.length + e.2))
    else doc

def instantiated (value : PortableDocument) : TitledDoc where
  title := some value.title
  doc := value.items.zipIdx.foldl (instantiateItem ctx documentId value.items)
    ⟨some 2, some documentId, .empty⟩

def instantiatePortable (input : JsValue) : Except PortableError TitledDoc :=
  (validatePortable input).map (instantiated ctx documentId)

end Import

section Validation

structure Accepted (value : PortableDocument) : Prop where
  nonempty : value.items ≠ []
  bounded : value.items.length ≤ MAX_ITEMS
  named : ∀ i ∈ value.items, i.id ≠ []
  distinct : (value.items.map PortableItem.id).Nodup
  tree : ∃ root, rootItems value.items = [root] ∧
    (deriveEffectiveTree (value.items.map PortableItem.toTreeNode) root.id).recovered = ∅

theorem itemType_text (t : ItemType) : (JsValue.string t.text).itemType? = some t := by
  cases t <;> decide

theorem readItem_toValue {item : PortableItem} (h : item.id ≠ []) : readItem item.toValue = some item := by
  obtain ⟨id, parentId, rank, type, content, note, isCompleted, deleted⟩ := item
  have hid : ((some id).filter fun x => !decide (x = [])) = some id := by
    rw [Option.filter_some, if_pos (by simpa using h)]
  have htype := itemType_text type
  cases parentId <;> cases deleted <;>
    simp [readItem, PortableItem.toValue, JsValue.field, List.lookup_cons, JsValue.string?, JsValue.nullable?,
      JsValue.boolean?, JsValue.optional?, htype, hid]

theorem readItem_named {value : JsValue} {item : PortableItem} (h : readItem value = some item) :
    item.id ≠ [] := by
  unfold readItem at h
  obtain ⟨id, hid, h⟩ := Option.bind_eq_some_iff.mp h
  simp only [Option.bind_eq_bind, Option.bind_eq_some_iff] at h
  obtain ⟨parentId, -, rank, -, type, -, content, -, note, -, isCompleted, -, deleted, -, h⟩ := h
  cases h
  simpa using (Option.filter_eq_some_iff.mp hid).2

theorem readItems_spec {seen : List JsString} {values : List JsValue} {items : List PortableItem}
    (h : readItems seen values = some items) : items.length = values.length ∧ (∀ i ∈ items, i.id ≠ []) ∧
      (items.map PortableItem.id).Nodup ∧ ∀ i ∈ items, i.id ∉ seen := by
  induction values generalizing seen items with
  | nil =>
    cases h
    simp
  | cons value values ih =>
    rw [readItems] at h
    split at h
    · cases h
    · rename_i item hitem
      split at h
      · cases h
      · rename_i hseen
        obtain ⟨rest, hrest, rfl⟩ := Option.map_eq_some_iff.mp h
        obtain ⟨hlen, hnamed, hnd, hnew⟩ := ih hrest
        refine ⟨by simp [hlen], ?_, ?_, ?_⟩
        · exact List.forall_mem_cons.mpr ⟨readItem_named hitem, hnamed⟩
        · rw [List.map_cons, List.nodup_cons]
          refine ⟨fun hmem => ?_, hnd⟩
          obtain ⟨i, hi, he⟩ := List.mem_map.mp hmem
          exact hnew i hi (by simp [he])
        · exact List.forall_mem_cons.mpr ⟨hseen, fun i hi hs => hnew i hi (List.mem_cons_of_mem _ hs)⟩

theorem readItems_toValue {items : List PortableItem} (hnamed : ∀ i ∈ items, i.id ≠ []) {seen : List JsString}
    (hnd : (items.map PortableItem.id).Nodup) (hseen : ∀ i ∈ items, i.id ∉ seen) :
    readItems seen (items.map PortableItem.toValue) = some items := by
  induction items generalizing seen with
  | nil => rfl
  | cons item items ih =>
    obtain ⟨hitem, hnamed⟩ := List.forall_mem_cons.mp hnamed
    obtain ⟨hnew, hseen⟩ := List.forall_mem_cons.mp hseen
    rw [List.map_cons, List.nodup_cons] at hnd
    rw [List.map_cons, readItems, readItem_toValue hitem]
    dsimp only
    rw [if_neg hnew, ih hnamed hnd.2, Option.map_some]
    intro i hi
    rw [List.mem_cons, not_or]
    refine ⟨fun he => hnd.1 ?_, hseen i hi⟩
    rw [← he]
    exact List.mem_map_of_mem hi

theorem validatePortable_accepted {input : JsValue} {value : PortableDocument}
    (h : validatePortable input = .ok value) :
    Accepted value := by
  unfold validatePortable at h
  split at h
  · cases h
  · split at h
    · rename_i title values _ _
      split at h
      · cases h
      · rename_i hok
        simp only [not_or, not_not, not_lt] at hok
        split at h
        · cases h
        · rename_i items hitems
          obtain ⟨hlen, hnamed, hnd, -⟩ := readItems_spec hitems
          split at h
          · rename_i root hroot
            split at h
            · rename_i htree
              cases h
              refine ⟨?_, hlen ▸ hok.2.2.2, hnamed, hnd, root, hroot, htree⟩
              rintro rfl
              exact hok.2.2.1 (List.length_eq_zero_iff.mp hlen.symm)
            · cases h
          · cases h
    · cases h

theorem validatePortable_toValue {value : PortableDocument} (h : Accepted value) :
    validatePortable value.toValue = .ok value := by
  obtain ⟨root, hroot, htree⟩ := h.tree
  have hread : readItems [] (value.items.map PortableItem.toValue) = some value.items :=
    readItems_toValue h.named h.distinct (by simp)
  have hfields : value.toValue.isObject = true ∧ (value.toValue.field "title").string? = some value.title ∧
      (value.toValue.field "items").array? = some (value.items.map PortableItem.toValue) ∧
      (value.toValue.field "format").string? = some FORMAT ∧
      (value.toValue.field "version").number? = some 2 :=
    ⟨rfl, rfl, rfl, rfl, rfl⟩
  obtain ⟨hobject, htitle, hitems, hformat, hversion⟩ := hfields
  unfold validatePortable
  rw [if_neg (by simp [hobject]), htitle, hitems]
  dsimp only
  rw [if_neg, hread]
  · dsimp only
    rw [hroot]
    dsimp only
    rw [if_pos htree]
  · simp only [hformat, hversion, not_or, not_not, List.map_eq_nil_iff, List.length_map, not_lt]
    exact ⟨trivial, trivial, h.nonempty, h.bounded⟩

end Validation

end OpenOutliner
