import OpenOutliner.Client.PortableTree

namespace OpenOutliner

open Foundations Relation

/-- What the import relies on: distinct fresh UUIDs, none of them the parent of the root, and `n` increasing
ranks. -/
structure ImportContext.Lawful (ctx : ImportContext) (documentId : JsString) : Prop where
  minted : Function.Injective ctx.randomUUID
  fresh : ∀ k, ctx.randomUUID k ≠ documentId
  plain : ∀ k, ctx.randomUUID k ≠ ROOT_PARENT_SENTINEL
  ranks : ∀ n, (ctx.ranksBetween n).length = n
  increasing : ∀ n, (ctx.ranksBetween n).Pairwise (· < ·)

variable {ctx : ImportContext} {documentId : JsString} {items : List PortableItem} {root : PortableItem}

section Ids

theorem newIdOf_eq (hnd : (items.map PortableItem.id).Nodup) {i : PortableItem} {k : ℕ}
    (hk : items[k]? = some i) :
    newIdOf ctx documentId items i.id = if i.parentId = none then documentId else ctx.randomUUID k := by
  have hkeys :
      ((items.zipIdx.map fun e => (e.1.id, if e.1.parentId = none then documentId
      else ctx.randomUUID e.2)).map
      Prod.fst).Nodup := by
    rw [List.map_map,
      show (Prod.fst ∘ fun e : PortableItem × ℕ => (e.1.id, if e.1.parentId = none then documentId
      else ctx.randomUUID e.2)) = PortableItem.id ∘ Prod.fst from rfl, ← List.map_map, List.zipIdx_map_fst]
    exact hnd
  have hmem : (i, k) ∈ items.zipIdx := List.mk_mem_zipIdx_iff_getElem?.mpr hk
  rw [newIdOf, portableIds, OrderedMap.get_ofList_of_mem hkeys (List.mem_map_of_mem hmem), Option.getD_some]

variable (ht : IsPortableTree items root) (hctx : ctx.Lawful documentId)

include ht

theorem newIdOf_root : newIdOf ctx documentId items root.id = documentId := by
  obtain ⟨k, hk⟩ := List.mem_iff_getElem?.mp ht.mem
  rw [newIdOf_eq ht.distinct hk, if_pos ((ht.top root ht.mem).mpr rfl)]

variable (ctx documentId) in
theorem newIdOf_other {i : PortableItem} (hi : i ∈ items) (hne : i ≠ root) :
    ∃ k, items[k]? = some i ∧ newIdOf ctx documentId items i.id = ctx.randomUUID k := by
  obtain ⟨k, hk⟩ := List.mem_iff_getElem?.mp hi
  exact ⟨k, hk, by rw [newIdOf_eq ht.distinct hk, if_neg fun h => hne ((ht.top i hi).mp h)]⟩

include hctx

theorem newIdOf_injective {x y : JsString} (hx : x ∈ items.map PortableItem.id)
    (hy : y ∈ items.map PortableItem.id)
    (h : newIdOf ctx documentId items x = newIdOf ctx documentId items y) : x = y := by
  obtain ⟨i, hi, rfl⟩ := List.mem_map.mp hx
  obtain ⟨j, hj, rfl⟩ := List.mem_map.mp hy
  by_cases hir : i = root
  · by_cases hjr : j = root
    · rw [hir, hjr]
    · obtain ⟨k, -, hk⟩ := newIdOf_other ctx documentId ht hj hjr
      rw [hir, newIdOf_root ht, hk] at h
      exact absurd h.symm (hctx.fresh k)
  · obtain ⟨k, hk, hik⟩ := newIdOf_other ctx documentId ht hi hir
    by_cases hjr : j = root
    · rw [hjr, newIdOf_root ht, hik] at h
      exact absurd h (hctx.fresh k)
    · obtain ⟨k', hk', hjk⟩ := newIdOf_other ctx documentId ht hj hjr
      rw [hik, hjk] at h
      rw [← hctx.minted h, hk] at hk'
      rw [Option.some.inj hk']

theorem newIdOf_eq_root {x : JsString} (hx : x ∈ items.map PortableItem.id) :
    newIdOf ctx documentId items x = documentId ↔ x = root.id := by
  constructor
  · intro h
    exact newIdOf_injective ht hctx hx (List.mem_map_of_mem ht.mem) (h.trans (newIdOf_root ht).symm)
  · rintro rfl
    exact newIdOf_root ht

theorem newIdOf_plain {x : JsString} (hx : x ∈ items.map PortableItem.id)
    (h : newIdOf ctx documentId items x = ROOT_PARENT_SENTINEL) : x = root.id := by
  obtain ⟨i, hi, rfl⟩ := List.mem_map.mp hx
  by_contra hne
  obtain ⟨k, -, hk⟩ := newIdOf_other ctx documentId ht hi fun he => hne (by rw [he])
  exact hctx.plain k (hk.symm.trans h)

end Ids

section Nodes

def newParentOf (ctx : ImportContext) (documentId : JsString) (items : List PortableItem)
    (item : PortableItem) : JsString :=
  match item.parentId with
  | none => ROOT_PARENT_SENTINEL
  | some p => newIdOf ctx documentId items p

def PortableItem.flagged (item : PortableItem) : Bool :=
  decide (item.deleted = some true) && item.parentId.isSome

def newMoveOf (ctx : ImportContext) (documentId : JsString) (items : List PortableItem)
    (e : PortableItem × ℕ) : MoveRegister :=
  ⟨newParentOf ctx documentId items e.1, newRankOf ctx items e.1,
    ⟨ctx.now e.2, 0, js ['i', 'm', 'p', 'o', 'r', 't']⟩⟩

def portableNode (move : MoveRegister) (item : PortableItem) : Node :=
  { freshNode with
    move := some move
    content := some item.content
    note := some item.note
    type := some item.type
    isCompleted := some item.isCompleted }

def newNodeOf (ctx : ImportContext) (documentId : JsString) (items : List PortableItem)
    (e : PortableItem × ℕ) : Node :=
  let node := portableNode (newMoveOf ctx documentId items e) e.1
  if e.1.flagged then Doc.writeRecords true (ctx.randomUUID (items.length + e.2)) node else node

theorem setNode_meta (doc : Doc) (id : JsString) (node : Node) :
    (doc.setNode id node).schemaVersion = doc.schemaVersion ∧ (doc.setNode id node).rootId = doc.rootId :=
  ⟨rfl, rfl⟩

theorem updateNode_setNode (doc : Doc) (id : JsString) (node : Node) (f : Node → Node) :
    (doc.setNode id node).updateNode id f = doc.setNode id (f node) := by
  have hget : (doc.setNode id node).items.get id = some node := by rw [Doc.setNode_get, if_pos rfl]
  rw [Doc.updateNode, hget]
  simp only [Doc.setNode, OrderedMap.set_set]

variable (ht : IsPortableTree items root) (hctx : ctx.Lawful documentId)

include ht hctx

theorem instantiateItem_eq {doc : Doc} (hschema : doc.schemaVersion = some 2)
    (hrootId : doc.rootId = some documentId) {e : PortableItem × ℕ} (he : e.1 ∈ items)
    (hnew : doc.items.get (newIdOf ctx documentId items e.1.id) = none) :
    instantiateItem ctx documentId items doc e =
      doc.setNode (newIdOf ctx documentId items e.1.id) (newNodeOf ctx documentId items e) := by
  have hroot : some documentId = some (newIdOf ctx documentId items e.1.id) ↔ e.1.parentId = none := by
    rw [Option.some.injEq, eq_comm, newIdOf_eq_root ht hctx (List.mem_map_of_mem he), ht.top e.1 he]
    exact ⟨fun h => ht.eq_of_id he ht.mem h, fun h => congrArg PortableItem.id h⟩
  have hmove : doc.writeMove (newIdOf ctx documentId items e.1.id) (newMoveOf ctx documentId items e) =
      doc.setNode (newIdOf ctx documentId items e.1.id)
        { freshNode with move := some (newMoveOf ctx documentId items e) } := by
    rw [Doc.writeMove, if_neg, hnew, Option.getD_none]
    rintro ⟨hid, hparent⟩
    rw [hrootId, hroot] at hid
    simp [newMoveOf, newParentOf, hid] at hparent
  have hturn : instantiateItem ctx documentId items doc e =
      if e.1.deleted = some true then
        (doc.setNode (newIdOf ctx documentId items e.1.id)
          (portableNode (newMoveOf ctx documentId items e) e.1)).writeDeleted
          (newIdOf ctx documentId items e.1.id) ⟨true, noHlc⟩ (ctx.randomUUID (items.length + e.2))
      else doc.setNode (newIdOf ctx documentId items e.1.id)
        (portableNode (newMoveOf ctx documentId items e) e.1) := by
    have hwrites :
        ((((doc.writeMove (newIdOf ctx documentId items e.1.id)
        (newMoveOf ctx documentId items e)).writeContent
        (newIdOf ctx documentId items e.1.id) e.1.content).updateNode (newIdOf ctx documentId items e.1.id)
          fun node => { node with note := some e.1.note }).updateNode (newIdOf ctx documentId items e.1.id)
          fun node => { node with type := some e.1.type }).updateNode (newIdOf ctx documentId items e.1.id)
          (fun node => { node with isCompleted := some e.1.isCompleted }) =
        doc.setNode (newIdOf ctx documentId items e.1.id)
          (portableNode (newMoveOf ctx documentId items e) e.1) := by
      rw [hmove, Doc.writeContent, updateNode_setNode, updateNode_setNode, updateNode_setNode,
        updateNode_setNode]
      rfl
    rw [← hwrites]
    rfl
  rw [hturn]
  unfold newNodeOf PortableItem.flagged
  by_cases hdel : e.1.deleted = some true
  · rw [if_pos hdel, Doc.writeDeleted, (setNode_meta ..).1, (setNode_meta ..).2, if_pos hschema, hrootId]
    cases hp : e.1.parentId with
    | none => rw [if_pos (hroot.mpr hp), if_neg (by simp)]
    | some p =>
      rw [if_neg, updateNode_setNode, if_pos (by simp [hdel])]
      intro h
      rw [hroot.mp h] at hp
      cases hp
  · rw [if_neg hdel, if_neg (by simp [hdel])]

theorem foldl_instantiateItem {es : List (PortableItem × ℕ)} {doc : Doc}
    (hschema : doc.schemaVersion = some 2)
    (hrootId : doc.rootId = some documentId) (hes : ∀ e ∈ es, e.1 ∈ items)
    (hnd : (doc.items.keys ++ es.map fun e => newIdOf ctx documentId items e.1.id).Nodup) :
    (es.foldl (instantiateItem ctx documentId items) doc).schemaVersion = some 2 ∧
      (es.foldl (instantiateItem ctx documentId items) doc).rootId = some documentId ∧
      (es.foldl (instantiateItem ctx documentId items) doc).items.entries = doc.items.entries ++
        es.map fun e => (newIdOf ctx documentId items e.1.id, newNodeOf ctx documentId items e) := by
  induction es generalizing doc with
  | nil => exact ⟨hschema, hrootId, (List.append_nil _).symm⟩
  | cons e es ih =>
    have hkey : newIdOf ctx documentId items e.1.id ∉ doc.items.keys := by
      intro hmem
      exact (List.nodup_append.mp hnd).2.2 _ hmem _ (by simp) rfl
    have hstep :=
      instantiateItem_eq ht hctx hschema hrootId (hes e (by simp))
        ((OrderedMap.get_eq_none_iff _ _).mpr hkey)
    have hentries :
        (doc.setNode (newIdOf ctx documentId items e.1.id)
        (newNodeOf ctx documentId items e)).items.entries =
        doc.items.entries ++ [(newIdOf ctx documentId items e.1.id, newNodeOf ctx documentId items e)] :=
      OrderedMap.entries_set_of_notMem _ hkey
    rw [List.foldl_cons, hstep]
    obtain ⟨hs, hr, he⟩ := @ih (doc.setNode _ (newNodeOf ctx documentId items e)) hschema hrootId
      (fun e' he' => hes e' (List.mem_cons_of_mem _ he')) (by
        rw [OrderedMap.keys, hentries]
        simpa [OrderedMap.keys] using hnd)
    refine ⟨hs, hr, he.trans ?_⟩
    rw [hentries, List.append_assoc]
    rfl

end Nodes

section Snapshots

variable {value : PortableDocument} (ht : IsPortableTree value.items root) (hctx : ctx.Lawful documentId)

include ht hctx

theorem newIds_nodup : (value.items.zipIdx.map fun e => newIdOf ctx documentId value.items e.1.id).Nodup := by
  rw [show (fun e : PortableItem × ℕ => newIdOf ctx documentId value.items e.1.id) =
    (newIdOf ctx documentId value.items ∘ PortableItem.id) ∘ Prod.fst from
    rfl, ← List.map_map, List.zipIdx_map_fst,
    ← List.map_map]
  exact List.Nodup.map_on (fun x hx y hy h => newIdOf_injective ht hctx hx hy h) ht.distinct

theorem instantiated_entries : (instantiated ctx documentId value).doc.schemaVersion = some 2 ∧
    (instantiated ctx documentId value).doc.rootId = some documentId ∧
    (instantiated ctx documentId value).doc.items.entries = value.items.zipIdx.map fun e =>
      (newIdOf ctx documentId value.items e.1.id, newNodeOf ctx documentId value.items e) := by
  refine foldl_instantiateItem ht hctx rfl rfl (fun e he => ?_) (newIds_nodup ht hctx)
  rw [← List.zipIdx_map_fst 0 value.items]
  exact List.mem_map_of_mem he

def newSnapshotOf (ctx : ImportContext) (documentId : JsString) (items : List PortableItem)
    (e : PortableItem × ℕ) :
    ItemNodeSnapshot where
  id := newIdOf ctx documentId items e.1.id
  move := newMoveOf ctx documentId items e
  deleted := ⟨e.1.flagged, noHlc⟩
  type := e.1.type
  content := e.1.content
  isCompleted := e.1.isCompleted
  isCollapsed := false
  note := some e.1.note

theorem instantiated_snapshots : (instantiated ctx documentId value).doc.readAllSnapshots =
    value.items.zipIdx.map (newSnapshotOf ctx documentId value.items) := by
  obtain ⟨hschema, -, hentries⟩ := instantiated_entries ht hctx
  rw [Doc.readAllSnapshots, hschema, hentries, List.filterMap_map]
  have hread : ∀ e, readNodeSnapshot (some 2) (newIdOf ctx documentId value.items e.1.id)
      (newNodeOf ctx documentId value.items e) = some (newSnapshotOf ctx documentId value.items e) := by
    intro e
    unfold newNodeOf newSnapshotOf
    cases hf : e.1.flagged with
    | false => rfl
    | true =>
      simp [readNodeSnapshot, Doc.writeRecords, portableNode, freshNode, readDeleted,
        Node.hasActiveDelete, readType]
  rw [show ((fun e : JsString × Node => readNodeSnapshot (some 2) e.1 e.2) ∘ fun e : PortableItem × ℕ =>
    (newIdOf ctx documentId value.items e.1.id, newNodeOf ctx documentId value.items e)) =
    some ∘ newSnapshotOf ctx documentId value.items from funext hread, List.filterMap_eq_map]

theorem mem_instantiated {s : ItemNodeSnapshot} :
    s ∈ (instantiated ctx documentId value).doc.readAllSnapshots ↔
    ∃ i k, value.items[k]? = some i ∧ newSnapshotOf ctx documentId value.items (i, k) = s := by
  rw [instantiated_snapshots ht hctx, List.mem_map, Prod.exists]
  simp only [List.mk_mem_zipIdx_iff_getElem?]

theorem instantiated_ids {x : JsString} :
    x ∈ (instantiated ctx documentId value).doc.readAllSnapshots.map ItemNodeSnapshot.id ↔
    ∃ y ∈ value.items.map PortableItem.id, newIdOf ctx documentId value.items y = x := by
  constructor
  · intro hx
    obtain ⟨s, hs, rfl⟩ := List.mem_map.mp hx
    obtain ⟨i, k, hk, rfl⟩ := (mem_instantiated ht hctx).mp hs
    exact ⟨i.id, List.mem_map_of_mem (List.mem_of_getElem? hk), rfl⟩
  · rintro ⟨y, hy, rfl⟩
    obtain ⟨i, hi, rfl⟩ := List.mem_map.mp hy
    obtain ⟨k, hk⟩ := List.mem_iff_getElem?.mp hi
    exact List.mem_map.mpr ⟨_, (mem_instantiated ht hctx).mpr ⟨i, k, hk, rfl⟩, rfl⟩

end Snapshots

section Placement

variable {value : PortableDocument} (ht : IsPortableTree value.items root) (hctx : ctx.Lawful documentId)

include ht hctx

theorem newNode_unique {i : PortableItem} (hi : i ∈ value.items) {n : TreeNode}
    (hn : n ∈ (instantiated ctx documentId value).doc.readAllSnapshots.map ItemNodeSnapshot.toTreeNode)
    (hid : n.id = newIdOf ctx documentId value.items i.id) :
    n = ⟨newIdOf ctx documentId value.items i.id, newParentOf ctx documentId value.items i, i.flagged⟩ := by
  obtain ⟨s, hs, rfl⟩ := List.mem_map.mp hn
  obtain ⟨j, k, hk, rfl⟩ := (mem_instantiated ht hctx).mp hs
  have hj : j ∈ value.items := List.mem_of_getElem? hk
  have he : j = i :=
    ht.eq_of_id hj hi (newIdOf_injective ht hctx (List.mem_map_of_mem hj) (List.mem_map_of_mem hi) hid)
  rw [he]
  rfl

theorem rawEdge_placed {x y : JsString} (hx : x ∈ value.items.map PortableItem.id)
    (h : RawEdge
      ((instantiated ctx documentId value).doc.readAllSnapshots.map ItemNodeSnapshot.toTreeNode) documentId
      (newIdOf ctx documentId value.items x) y) :
    ∃ z ∈ value.items.map PortableItem.id, newIdOf ctx documentId value.items z = y ∧
    PlacedUnder value.items x z := by
  obtain ⟨hne, -, n, hn, hid, rfl⟩ := h
  obtain ⟨i, hi, rfl⟩ := List.mem_map.mp hx
  rw [newNode_unique ht hctx hi hn hid]
  cases hp : i.parentId with
  | none =>
    rw [(ht.top i hi).mp hp, newIdOf_root ht] at hne
    exact absurd rfl hne
  | some p => exact ⟨p, (ht.listed i hi p hp).1, by simp [newParentOf, hp], i, hi, rfl, hp⟩

theorem rawEdges_placed {x y : JsString} (hx : x ∈ value.items.map PortableItem.id)
    (h : TransGen
      (RawEdge ((instantiated ctx documentId value).doc.readAllSnapshots.map ItemNodeSnapshot.toTreeNode)
      documentId) (newIdOf ctx documentId value.items x) y) :
    ∃ z ∈ value.items.map PortableItem.id, newIdOf ctx documentId value.items z = y ∧
      TransGen (PlacedUnder value.items) x z := by
  induction h with
  | single hedge =>
    obtain ⟨z, hz, he, hplaced⟩ := rawEdge_placed ht hctx hx hedge
    exact ⟨z, hz, he, .single hplaced⟩
  | tail _ hedge ih =>
    obtain ⟨w, hw, rfl, hto⟩ := ih
    obtain ⟨z, hz, he, hplaced⟩ := rawEdge_placed ht hctx hw hedge
    exact ⟨z, hz, he, hto.tail hplaced⟩

/-- The new effective tree places every item as the portable tree does, also below a root that is named like
the parent of the root. -/
theorem instantiated_parent {i : PortableItem} (hi : i ∈ value.items) {p : JsString}
    (hp : i.parentId = some p) :
    (snapshotTree (instantiated ctx documentId value).doc.readAllSnapshots documentId).parents.get
      (newIdOf ctx documentId value.items i.id) = some (newIdOf ctx documentId value.items p) := by
  have hspec : EffectiveTree.Spec _ documentId
      (snapshotTree (instantiated ctx documentId value).doc.readAllSnapshots documentId) :=
    snapshotTree_spec documentId snapshots_nodup
  obtain ⟨k, hk⟩ := List.mem_iff_getElem?.mp hi
  have hmem := (mem_instantiated ht hctx).mpr ⟨i, k, hk, rfl⟩
  have hparent : newParentOf ctx documentId value.items i = newIdOf ctx documentId value.items p := by
    simp [newParentOf, hp]
  have hx : i.id ∈ value.items.map PortableItem.id := List.mem_map_of_mem hi
  have hne : newIdOf ctx documentId value.items i.id ≠ documentId := by
    rw [Ne, newIdOf_eq_root ht hctx hx]
    intro he
    rw [ht.eq_of_id hi ht.mem he, (ht.top root ht.mem).mpr rfl] at hp
    cases hp
  have hkept := hspec.parent _ (List.mem_map_of_mem hmem) hne
  refine hkept.trans (congrArg some ?_)
  split
  · rename_i hrec
    rcases (hspec.recovered _).mp hrec with ⟨-, n, hn, hid, hdetached⟩ | ⟨hcyc, -⟩
    · rw [newNode_unique ht hctx hi hn hid, hparent] at hdetached
      rcases hdetached with hsentinel | hno
      · rw [newIdOf_plain ht hctx (ht.listed i hi p hp).1 hsentinel, newIdOf_root ht]
      · refine absurd ?_ hno
        rw [ids, List.map_map]
        exact (instantiated_ids ht hctx).mpr ⟨p, (ht.listed i hi p hp).1, rfl⟩
    · obtain ⟨z, hz, he, hback⟩ := rawEdges_placed ht hctx hx hcyc
      rw [newIdOf_injective ht hctx hz hx he] at hback
      exact absurd hback (ht.acyclic hx)
  · exact hparent

end Placement

section Ranks

variable (hnd : (items.map PortableItem.id).Nodup)

theorem mem_siblingGroup {q : Option JsString} {i : PortableItem} :
    i ∈ siblingGroup items q ↔ i ∈ items ∧ i.parentId = q := by
  simp [siblingGroup]

include hnd

theorem siblingGroup_nodup (q : Option JsString) : (siblingGroup items q).Nodup :=
  (sortSiblings_perm _).nodup_iff.mpr ((List.Nodup.of_map _ hnd).sublist List.filter_sublist)

theorem newRankOf_lt (hctx : ctx.Lawful documentId) {i j : PortableItem} (hi : i ∈ items) (hj : j ∈ items)
    (hsiblings : i.parentId = j.parentId) (hle : compareOrder i j ≤ 0) (hne : i ≠ j) :
    newRankOf ctx items i < newRankOf ctx items j := by
  have hin := mem_siblingGroup.mpr ⟨hi, rfl⟩
  have hjn : j ∈ siblingGroup items i.parentId := mem_siblingGroup.mpr ⟨hj, hsiblings.symm⟩
  have ha := List.idxOf_lt_length_of_mem hin
  have hb := List.idxOf_lt_length_of_mem hjn
  have hlt : (siblingGroup items i.parentId).idxOf i < (siblingGroup items i.parentId).idxOf j := by
    rcases lt_trichotomy ((siblingGroup items i.parentId).idxOf i)
        ((siblingGroup items i.parentId).idxOf j) with h | h | h
    · exact h
    · exact absurd ((List.idxOf_inj hin).mp h) hne
    · have hsorted :=
        List.pairwise_iff_getElem.mp (sortSiblings_pairwise (items.filter fun k => k.parentId = i.parentId))
        _ _ hb ha h
      have hji : compareOrder j i ≤ 0 := by
        simpa [siblingGroup] using hsorted
      exact absurd (List.inj_on_of_nodup_map hnd hi hj (compareOrder_antisymm hle hji)) hne
  have hrank := hctx.ranks (siblingGroup items i.parentId).length
  unfold newRankOf
  rw [← hsiblings, List.getElem?_eq_getElem (hrank.symm ▸ ha), List.getElem?_eq_getElem (hrank.symm ▸ hb),
    Option.getD_some,
    Option.getD_some]
  exact List.pairwise_iff_getElem.mp (hctx.increasing _) _ _ _ _ hlt

end Ranks

end OpenOutliner
