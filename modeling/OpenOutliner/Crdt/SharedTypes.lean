import OpenOutliner.Crdt.OutlineIndex

/-!
A document as its shared types, and the readers of the outline that follow their keys. A reader that calls
`get` on what has none throws.
-/

namespace OpenOutliner

open Foundations

inductive SharedType
  | map (n : ℕ)
  | text (n : ℕ)
  | array (n : ℕ)
deriving DecidableEq, Repr

inductive YValue
  | null
  | boolean (b : Bool)
  | number (n : ℤ)
  | string (s : JsString)
  | json
  | type (t : SharedType)
deriving DecidableEq, Repr

inductive TypeError
  | nullProperty
  | notAFunction
deriving DecidableEq, Repr

structure Store where
  maps : ℕ → OrderedMap JsString YValue
  texts : ℕ → JsString
  arrays : ℕ → List YValue

namespace NODE_KEY

def move : JsString := js ['m', 'o', 'v', 'e']

def deleted : JsString := js ['d', 'e', 'l', 'e', 't', 'e', 'd']

def content : JsString := js ['c', 'o', 'n', 't', 'e', 'n', 't']

end NODE_KEY

namespace MOVE_KEY

def parentId : JsString := js ['p', 'a', 'r', 'e', 'n', 't', 'I', 'd']

def rank : JsString := js ['r', 'a', 'n', 'k']

def hlc : JsString := js ['h', 'l', 'c']

end MOVE_KEY

namespace DELETED_KEY

def isDeleted : JsString := js ['i', 's', 'D', 'e', 'l', 'e', 't', 'e', 'd']

def hlc : JsString := js ['h', 'l', 'c']

end DELETED_KEY

namespace HLC_KEY

def wallMs : JsString := js ['w', 'a', 'l', 'l', 'M', 's']

def counter : JsString := js ['c', 'o', 'u', 'n', 't', 'e', 'r']

def replicaId : JsString := js ['r', 'e', 'p', 'l', 'i', 'c', 'a', 'I', 'd']

end HLC_KEY

namespace META_KEY

def schemaVersion : JsString := js ['s', 'c', 'h', 'e', 'm', 'a', 'V', 'e', 'r', 's', 'i', 'o', 'n']

def rootId : JsString := js ['r', 'o', 'o', 't', 'I', 'd']

end META_KEY

def deleteRecordsKey : JsString := js ['d', 'e', 'l', 'e', 't', 'e', 'R', 'e', 'c', 'o', 'r', 'd', 's']

def restoreRecordsKey : JsString := js ['r', 'e', 's', 't', 'o', 'r', 'e', 'R', 'e', 'c', 'o', 'r', 'd', 's']

def itemsRef : ℕ := 0

def metaRef : ℕ := 1

def YValue.isTruthy : YValue → Bool
  | .null => false
  | .boolean b => b
  | .number n => n ≠ 0
  | .string s => s ≠ []
  | .json => true
  | .type _ => true

def SharedType.isText : SharedType → Bool
  | .text _ => true
  | _ => false

namespace Store

def itemsMap (s : Store) : OrderedMap JsString YValue := s.maps itemsRef

def metaMap (s : Store) : OrderedMap JsString YValue := s.maps metaRef

/-- `value.get(key)`; an array has no entry at a key that is not an index. -/
def get (s : Store) (v : YValue) (key : JsString) : Except TypeError (Option YValue) :=
  match v with
  | .type (.map n) => .ok ((s.maps n).get key)
  | .type (.array _) => .ok none
  | .null => .error .nullProperty
  | _ => .error .notAFunction

def readHlc (s : Store) (map : Option YValue) : Except TypeError (Option Hlc) :=
  match map.filter YValue.isTruthy with
  | none => .ok none
  | some map => do
    let wallMs ← s.get map HLC_KEY.wallMs
    let counter ← s.get map HLC_KEY.counter
    let replicaId ← s.get map HLC_KEY.replicaId
    match wallMs, counter, replicaId with
    | some (.number wallMs), some (.number counter), some (.string replicaId) =>
      return some ⟨wallMs, counter, replicaId⟩
    | _, _, _ => return none

def readMove (s : Store) (node : YValue) : Except TypeError (Option MoveRegister) := do
  let move ← s.get node NODE_KEY.move
  match move.filter YValue.isTruthy with
  | none => return none
  | some move =>
    let parentId ← s.get move MOVE_KEY.parentId
    let rank ← s.get move MOVE_KEY.rank
    let hlcMap ← s.get move MOVE_KEY.hlc
    let hlc ← s.readHlc hlcMap
    match parentId, rank, hlc with
    | some (.string parentId), some (.string rank), some hlc => return some ⟨parentId, rank, hlc⟩
    | _, _, _ => return none

def activeDelete (s : Store) (deletes restores : Option YValue) : Bool :=
  match deletes with
  | some (.type (.map d)) => (s.maps d).keys.any fun token =>
      match restores with
      | some (.type (.map r)) => !(s.maps r).has token
      | _ => true
  | _ => false

def readDeleted (s : Store) (node : YValue) : Except TypeError DeletedRegister :=
  if s.metaMap.get META_KEY.schemaVersion = some (.number 2) then do
    let deletes ← s.get node deleteRecordsKey
    let restores ← s.get node restoreRecordsKey
    return ⟨s.activeDelete deletes restores, noHlc⟩
  else do
    let del ← s.get node NODE_KEY.deleted
    match del.filter YValue.isTruthy with
    | none => return ⟨false, noHlc⟩
    | some del =>
      let isDeleted ← s.get del DELETED_KEY.isDeleted
      let hlcMap ← s.get del DELETED_KEY.hlc
      let hlc ← s.readHlc hlcMap
      return ⟨isDeleted = some (.boolean true), hlc.getD noHlc⟩

def readOutlineNode (s : Store) (id : JsString) (node : YValue) : Except TypeError (Option OutlineNode) := do
  match ← s.readMove node with
  | none => return none
  | some move =>
    let del ← s.readDeleted node
    return some ⟨id, move.parentId, move.rank, move.hlc, del.isDeleted⟩

def readNodes (s : Store) : List (JsString × YValue) → Except TypeError (List OutlineNode)
  | [] => .ok []
  | (id, node) :: entries => do
    let n ← s.readOutlineNode id node
    let out ← s.readNodes entries
    return n.toList ++ out

def allNodes (s : Store) : Except TypeError (List OutlineNode) := s.readNodes s.itemsMap.entries

def findRoot (s : Store) : List (JsString × YValue) → Except TypeError (Option JsString)
  | [] => .ok none
  | (id, node) :: entries => do
    let move ← s.readMove node
    if move.any fun m => isRootParent m.parentId then return some id
    else s.findRoot entries

def getRootId (s : Store) : Except TypeError (Option JsString) :=
  match s.metaMap.get META_KEY.rootId with
  | some (.string canonical) => .ok (some canonical)
  | _ => s.findRoot s.itemsMap.entries

end Store

def indexOf (nodes : List OutlineNode) (root : Option JsString) : OutlineIndex :=
  let tree := deriveEffectiveTree (nodes.map OutlineNode.toTreeNode) (root.getD [])
  let placed := nodes.map fun n => { n with parentId := (tree.parents.get n.id).getD n.parentId }
  let live := placed.filter fun n => !(decide (n.id ∈ tree.deleted) || decide (some n.id = root))
  { nodes := placed
    children := (live.foldl pushChild .empty).mapValues sortSiblings
    recovered := tree.recovered }

def Store.recompute (s : Store) : Except TypeError OutlineIndex := do
  let nodes ← s.allNodes
  let root ← s.getRootId
  return indexOf nodes root

inductive Held (s : Store) : SharedType → Prop
  | itemsMap : Held s (.map itemsRef)
  | metaMap : Held s (.map metaRef)
  | entry {n : ℕ} {key : JsString} {t : SharedType} :
      Held s (.map n) → (s.maps n).get key = some (.type t) → Held s t

/-- The maps that `b` holds have the entries that they have in `a`. -/
def SameMaps (a b : Store) : Prop := ∀ n, Held b (.map n) → b.maps n = a.maps n

def HeldValue (s : Store) (v : YValue) : Prop := ∀ t, v = .type t → Held s t

section Readers

variable {a b : Store} {v : YValue} {α : Type}

theorem heldValue_get {n : ℕ} {key : JsString} (hn : Held b (.map n)) {w : YValue}
    (hw : (b.maps n).get key = some w) :
    HeldValue b w := by
  rintro t rfl
  exact .entry hn hw

theorem heldValue_entries {n : ℕ} (hn : Held b (.map n)) {e : JsString × YValue}
    (he : e ∈ (b.maps n).entries) :
    HeldValue b e.2 := by
  have hget : (b.maps n).get e.1 = some e.2 := ((b.maps n).mem_entries_iff e.1 e.2).mp he
  exact heldValue_get hn hget

variable (h : SameMaps a b)

include h

theorem get_bind_congr (hv : HeldValue b v) (key : JsString) {f g : Option YValue → Except TypeError α}
    (hfg : ∀ w : Option YValue, (∀ u ∈ w, HeldValue b u) → f w = g w) :
    (b.get v key >>= f) = (a.get v key >>= g) := by
  cases v with
  | type t =>
    cases t with
    | map n =>
      have hn := hv _ rfl
      simp only [Store.get, ← h n hn]
      apply hfg
      intro u hu
      exact heldValue_get hn hu
    | text n => rfl
    | array n => exact hfg none (by simp)
  | _ => rfl

theorem readHlc_congr {map : Option YValue} (hmap : ∀ u ∈ map, HeldValue b u) :
    b.readHlc map = a.readHlc map := by
  unfold Store.readHlc
  cases hfilter : map.filter YValue.isTruthy with
  | none => rfl
  | some m =>
    have hm := hmap m (Option.mem_filter_iff.mp hfilter).1
    apply get_bind_congr h hm
    intro wallMs _
    apply get_bind_congr h hm
    intro counter _
    apply get_bind_congr h hm
    intro replicaId _
    rfl

theorem readMove_congr (hv : HeldValue b v) : b.readMove v = a.readMove v := by
  unfold Store.readMove
  apply get_bind_congr h hv
  intro move hmove
  cases hfilter : move.filter YValue.isTruthy with
  | none => rfl
  | some m =>
    have hm := hmove m (Option.mem_filter_iff.mp hfilter).1
    apply get_bind_congr h hm
    intro parentId _
    apply get_bind_congr h hm
    intro rank _
    apply get_bind_congr h hm
    intro hlcMap hhlc
    rw [readHlc_congr h hhlc]

theorem activeDelete_congr {deletes restores : Option YValue} (hd : ∀ u ∈ deletes, HeldValue b u)
    (hr : ∀ u ∈ restores, HeldValue b u) :
    b.activeDelete deletes restores = a.activeDelete deletes restores := by
  unfold Store.activeDelete
  have hsame : ∀ {w : Option YValue} {n : ℕ}, (∀ u ∈ w, HeldValue b u) → w = some (.type (.map n)) →
      b.maps n = a.maps n := by
    rintro w n hw rfl
    exact h n (hw _ rfl _ rfl)
  split
  · rw [hsame hd rfl]
    congr 1
    funext token
    split
    · rw [hsame hr rfl]
    · rfl
  · rfl

theorem readDeleted_congr (hv : HeldValue b v) : b.readDeleted v = a.readDeleted v := by
  unfold Store.readDeleted Store.metaMap
  rw [h metaRef .metaMap]
  split_ifs
  · apply get_bind_congr h hv
    intro deletes hdeletes
    apply get_bind_congr h hv
    intro restores hrestores
    rw [activeDelete_congr h hdeletes hrestores]
  · apply get_bind_congr h hv
    intro del hdel
    cases hfilter : del.filter YValue.isTruthy with
    | none => rfl
    | some d =>
      have hd := hdel d (Option.mem_filter_iff.mp hfilter).1
      apply get_bind_congr h hd
      intro isDeleted _
      apply get_bind_congr h hd
      intro hlcMap hhlc
      rw [readHlc_congr h hhlc]

theorem readOutlineNode_congr (id : JsString) (hv : HeldValue b v) :
    b.readOutlineNode id v = a.readOutlineNode id v := by
  unfold Store.readOutlineNode
  rw [readMove_congr h hv, readDeleted_congr h hv]

theorem readNodes_congr {es : List (JsString × YValue)} (hes : ∀ e ∈ es, HeldValue b e.2) :
    b.readNodes es = a.readNodes es := by
  induction es with
  | nil => rfl
  | cons e es ih =>
    obtain ⟨he, hes⟩ := List.forall_mem_cons.mp hes
    unfold Store.readNodes
    rw [readOutlineNode_congr h e.1 he, ih hes]

theorem findRoot_congr {es : List (JsString × YValue)} (hes : ∀ e ∈ es, HeldValue b e.2) :
    b.findRoot es = a.findRoot es := by
  induction es with
  | nil => rfl
  | cons e es ih =>
    obtain ⟨he, hes⟩ := List.forall_mem_cons.mp hes
    unfold Store.findRoot
    rw [readMove_congr h he, ih hes]

theorem recompute_congr : b.recompute = a.recompute := by
  have hitems : ∀ e ∈ (b.maps itemsRef).entries, HeldValue b e.2 := fun e he => heldValue_entries .itemsMap he
  unfold Store.recompute Store.allNodes Store.getRootId Store.itemsMap Store.metaMap
  rw [readNodes_congr h hitems, findRoot_congr h hitems, h itemsRef .itemsMap, h metaRef .metaMap]

end Readers

/-- The readers find in `s` the items of `doc`. -/
structure Represents (s : Store) (doc : Doc) : Prop where
  rootId : doc.rootId.map YValue.string = (s.metaMap.get META_KEY.rootId).filter fun v => v matches .string _
  items : List.Forall₂ (fun e d => e.1 = d.1 ∧ s.readMove e.2 = .ok d.2.move ∧
    s.readDeleted e.2 = .ok (readDeleted doc.schemaVersion d.2)) s.itemsMap.entries doc.items.entries

section Representation

variable {s : Store} {doc : Doc} {es : List (JsString × YValue)} {ds : List (JsString × Node)}
  (hitems : List.Forall₂ (fun e d => e.1 = d.1 ∧ s.readMove e.2 = .ok d.2.move ∧
    s.readDeleted e.2 = .ok (readDeleted doc.schemaVersion d.2)) es ds)

include hitems

theorem readNodes_represents :
    s.readNodes es = .ok (ds.filterMap fun d => readOutlineNode doc.schemaVersion d.1 d.2) := by
  induction hitems with
  | nil => rfl
  | @cons e d es ds hd _ ih =>
    obtain ⟨id, v⟩ := e
    obtain ⟨rfl, hmove, hdeleted⟩ := hd
    have hnode : s.readOutlineNode d.1 v = .ok (readOutlineNode doc.schemaVersion d.1 d.2) := by
      unfold Store.readOutlineNode readOutlineNode
      rw [hmove]
      cases d.2.move with
      | none => rfl
      | some move =>
        simp only [hdeleted]
        rfl
    unfold Store.readNodes
    rw [hnode, ih, List.filterMap_cons]
    cases readOutlineNode doc.schemaVersion d.1 d.2 <;> rfl

theorem findRoot_represents :
    s.findRoot es = .ok ((ds.find? fun d => d.2.move.any fun m => isRootParent m.parentId).map Prod.fst) := by
  induction hitems with
  | nil => rfl
  | @cons e d es ds hd _ ih =>
    obtain ⟨id, v⟩ := e
    obtain ⟨rfl, hmove, -⟩ := hd
    unfold Store.findRoot
    rw [hmove, List.find?_cons]
    change (if d.2.move.any (fun m => isRootParent m.parentId) = true then _ else _) = _
    cases d.2.move.any fun m => isRootParent m.parentId with
    | true => rfl
    | false => exact ih

end Representation

theorem recompute_represents {s : Store} {doc : Doc} (h : Represents s doc) :
    s.recompute = .ok doc.outlineIndex := by
  have hroot : s.getRootId = .ok doc.getRootId := by
    have hcanonical := h.rootId
    unfold Store.getRootId Doc.getRootId
    split
    · rename_i canonical hget
      rw [hget] at hcanonical
      cases hid : doc.rootId with
      | none =>
        rw [hid] at hcanonical
        cases hcanonical
      | some id =>
        rw [hid] at hcanonical
        cases hcanonical
        rfl
    · rename_i hget
      cases hid : doc.rootId with
      | none => exact findRoot_represents h.items
      | some id =>
        rw [hid] at hcanonical
        exact absurd (Option.filter_eq_some_iff.mp hcanonical.symm).1 (hget id)
  have hnodes : s.allNodes = .ok doc.allNodes := readNodes_represents h.items
  unfold Store.recompute
  rw [hnodes, hroot]
  rfl

end OpenOutliner
