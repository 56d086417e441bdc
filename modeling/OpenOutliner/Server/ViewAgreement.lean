import OpenOutliner.Crdt.OutlineIndex
import OpenOutliner.Server.Materialize

namespace OpenOutliner

open Foundations Relation

def rowChildren (rows : List ProjectedItem) (p : JsString) : List JsString :=
  (sortSiblings (rows.filter fun r => !r.deleted && decide (r.parentId = some p))).map ProjectedItem.id

def RowParent (rows : List ProjectedItem) (x y : JsString) : Prop :=
  ∃ r ∈ rows, r.id = x ∧ r.parentId = some y

def siblingKey {α : Type} [Ordered α] (a : α) : JsString × JsString := (Ordered.id a, Ordered.rank a)

instance : Ordered (JsString × JsString) := ⟨Prod.fst, Prod.snd⟩

theorem sortSiblings_ids {α : Type} [Ordered α] (l : List α) :
    (sortSiblings l).map Ordered.id = (sortSiblings (l.map siblingKey)).map Prod.fst := by
  have hmap := sortSiblings_map (siblingKey : α → JsString × JsString) (fun _ => rfl) (fun _ => rfl) l
  rw [hmap, List.map_map]
  rfl

section Snapshots

variable {doc : Doc}

theorem readOutlineNode_eq (v : Option ℕ) (id : JsString) (node : Node) :
    readOutlineNode v id node = (readNodeSnapshot v id node).map fun s =>
      ⟨s.id, s.move.parentId, s.move.rank, s.move.hlc, s.deleted.isDeleted⟩ := by
  unfold readOutlineNode readNodeSnapshot
  cases node.move <;> rfl

theorem allNodes_eq : doc.allNodes = doc.readAllSnapshots.map fun s =>
    ⟨s.id, s.move.parentId, s.move.rank, s.move.hlc, s.deleted.isDeleted⟩ := by
  rw [Doc.readAllSnapshots, List.map_filterMap]
  apply List.filterMap_congr
  intro e _
  exact readOutlineNode_eq _ _ _

theorem snapshots_treeNodes : doc.readAllSnapshots.map ItemNodeSnapshot.toTreeNode =
    doc.allNodes.map OutlineNode.toTreeNode := by
  rw [allNodes_eq, List.map_map]
  rfl

theorem snapshots_ids : doc.readAllSnapshots.map ItemNodeSnapshot.id = doc.allNodes.map OutlineNode.id := by
  rw [allNodes_eq, List.map_map]
  rfl

theorem snapshots_nodup : (doc.readAllSnapshots.map ItemNodeSnapshot.id).Nodup := by
  rw [snapshots_ids]
  exact Doc.allNodes_nodup

end Snapshots

section Rows

variable {snapshots : List ItemNodeSnapshot} {rootId : JsString}

def snapshotTree (snapshots : List ItemNodeSnapshot) (rootId : JsString) : EffectiveTree :=
  deriveEffectiveTree (snapshots.map ItemNodeSnapshot.toTreeNode) rootId

def effectiveRow (tree : EffectiveTree) (rootId : JsString) (s : ItemNodeSnapshot) : ProjectedItem :=
  { id := s.id, parentId := if s.id = rootId then none else tree.parents.get s.id,
    rank := s.move.rank, type := s.type, content := s.content, note := s.note,
    isCompleted := s.isCompleted, isCollapsed := s.isCollapsed, deleted := decide (s.id ∈ tree.deleted) }

theorem treeNodes_nodup (hnd : (snapshots.map ItemNodeSnapshot.id).Nodup) :
    (ids (snapshots.map ItemNodeSnapshot.toTreeNode)).Nodup := by
  rw [ids, List.map_map]
  exact hnd

theorem snapshotTree_spec (rootId : JsString) (hnd : (snapshots.map ItemNodeSnapshot.id).Nodup) :
    EffectiveTree.Spec (snapshots.map ItemNodeSnapshot.toTreeNode) rootId (snapshotTree snapshots rootId) :=
  deriveEffectiveTree_spec (treeNodes_nodup hnd)

theorem snapshotTree_parent (hnd : (snapshots.map ItemNodeSnapshot.id).Nodup) {s : ItemNodeSnapshot}
    (hs : s ∈ snapshots) (hr : s.id ≠ rootId) :
    ∃ p, (snapshotTree snapshots rootId).parents.get s.id = some p ∧ (p = rootId ∨
      p ≠ ROOT_PARENT_SENTINEL ∧ p ∈ snapshots.map ItemNodeSnapshot.id) := by
  have hspec := snapshotTree_spec rootId hnd
  have hmem : s.toTreeNode ∈ snapshots.map ItemNodeSnapshot.toTreeNode := List.mem_map_of_mem hs
  refine ⟨_, hspec.parent _ hmem hr, ?_⟩
  split_ifs with hrec
  · exact Or.inl rfl
  · refine Or.inr ⟨?_, ?_⟩
    · intro he
      exact hrec ((hspec.recovered _).mpr (Or.inl ⟨hr, _, hmem, rfl, Or.inl he⟩))
    · by_contra hno
      refine hrec ((hspec.recovered _).mpr (Or.inl ⟨hr, _, hmem, rfl, Or.inr ?_⟩))
      rw [ids, List.map_map]
      exact hno

theorem projectSnapshots_eq (lib : FractionalIndexing) (hnd : (snapshots.map ItemNodeSnapshot.id).Nodup)
    (hne : rootId ≠ []) (hs : rootId ≠ ROOT_PARENT_SENTINEL) (nowMs : ℤ) (replicaId : JsString) :
    projectSnapshots lib snapshots nowMs replicaId (some rootId) =
      .ok ⟨snapshots.map (effectiveRow (snapshotTree snapshots rootId) rootId), []⟩ := by
  have htree : projectionTree snapshots (some rootId) = some (snapshotTree snapshots rootId) := by
    simp [projectionTree, Option.filter, hne, snapshotTree]
  have hrow : ∀ s ∈ snapshots, projectRow (some (snapshotTree snapshots rootId))
      (effectiveDeletedOf snapshots (some (snapshotTree snapshots rootId))) (some rootId) s =
        effectiveRow (snapshotTree snapshots rootId) rootId s := by
    intro s hs'
    have hdel : (effectiveDeletedOf snapshots (some (snapshotTree snapshots rootId))).get s.id =
        some (decide (s.id ∈ (snapshotTree snapshots rootId).deleted)) := by
      apply OrderedMap.get_ofList_of_mem
      · rw [List.map_map]
        exact hnd
      · exact List.mem_map_of_mem hs'
    unfold projectRow effectiveRow
    rw [hdel]
    by_cases hr : s.id = rootId
    · simp [hr]
    · obtain ⟨p, hp, hpr⟩ := snapshotTree_parent hnd hs' hr
      have hpne : p ≠ ROOT_PARENT_SENTINEL := by
        rcases hpr with rfl | ⟨h, -⟩
        · exact hs
        · exact h
      simp [hr, hp, isRootParent, hpne]
  unfold projectSnapshots
  simp only [htree, List.map_congr_left hrow]
  rfl

theorem rows_ids (tree : EffectiveTree) : (snapshots.map (effectiveRow tree rootId)).map ProjectedItem.id =
    snapshots.map ItemNodeSnapshot.id := by
  rw [List.map_map]
  rfl

theorem rowParent_edge {x y : JsString}
    (h : RowParent (snapshots.map (effectiveRow (snapshotTree snapshots rootId) rootId)) x y) :
    x ∈ snapshots.map ItemNodeSnapshot.id ∧
      EffectiveEdge rootId (snapshotTree snapshots rootId) x y := by
  obtain ⟨r, hr, rfl, hp⟩ := h
  obtain ⟨s, hs, rfl⟩ := List.mem_map.mp hr
  change (if s.id = rootId then none else _) = some y at hp
  split_ifs at hp with hroot
  exact ⟨List.mem_map_of_mem hs, hroot, hp⟩

theorem root_row (hnd : (snapshots.map ItemNodeSnapshot.id).Nodup)
    (hpresent : rootId ∈ snapshots.map ItemNodeSnapshot.id) :
    ∃ root, (snapshots.map (effectiveRow (snapshotTree snapshots rootId) rootId)).filter
        (fun r => decide (r.parentId = none)) = [root] ∧ root.id = rootId ∧ root.deleted = false := by
  have hspec := snapshotTree_spec rootId hnd
  obtain ⟨s, hs, hid⟩ := List.mem_map.mp hpresent
  refine ⟨effectiveRow (snapshotTree snapshots rootId) rootId s, ?_, hid, ?_⟩
  · have hfilter : ∀ t ∈ snapshots, decide ((effectiveRow (snapshotTree snapshots rootId) rootId t).parentId =
        none) = decide (t.id = rootId) := by
      intro t ht
      by_cases hr : t.id = rootId
      · simp [effectiveRow, hr]
      · obtain ⟨p, hp, -⟩ := snapshotTree_parent hnd ht hr
        simp [effectiveRow, hr, hp]
    have hone : snapshots.filter (fun t => decide (t.id = rootId)) = [s] := by
      rw [← hid]
      exact OrderedMap.filter_key_eq hnd hs
    rw [List.filter_map, ← List.map_singleton, ← hone]
    exact congrArg _ (List.filter_congr hfilter)
  · have hdel := hspec.deleted rootId
    simp only [ne_eq, not_true_eq_false, false_and, and_false, iff_false] at hdel
    change decide (s.id ∈ _) = false
    rw [hid]
    simpa using hdel

theorem deleted_below (hnd : (snapshots.map ItemNodeSnapshot.id).Nodup) {s t : ItemNodeSnapshot}
    (hs : s ∈ snapshots)
    (hparent : (effectiveRow (snapshotTree snapshots rootId) rootId s).parentId = some t.id)
    (hdel : (effectiveRow (snapshotTree snapshots rootId) rootId t).deleted = true) :
    (effectiveRow (snapshotTree snapshots rootId) rootId s).deleted = true := by
  have hspec := snapshotTree_spec rootId hnd
  obtain ⟨hmem, hedge⟩ := rowParent_edge ⟨_, List.mem_map_of_mem hs, rfl, hparent⟩
  obtain ⟨-, ht, hflag⟩ := (hspec.deleted _).mp (of_decide_eq_true hdel)
  apply decide_eq_true
  refine (hspec.deleted _).mpr ⟨?_, hedge.1, Or.inr ?_⟩
  · rw [ids, List.map_map]
    exact hmem
  · rcases hflag with hf | ⟨y, hty, hy, hf⟩
    · exact ⟨t.id, .single hedge, ht, hf⟩
    · exact ⟨y, .head hedge hty, hy, hf⟩

end Rows

section Agreement

variable {doc doc' : Doc} {rootId : JsString}

theorem snapshots_perm (hversion : doc'.schemaVersion = doc.schemaVersion)
    (hperm : doc'.items.entries.Perm doc.items.entries) :
    doc'.readAllSnapshots.Perm doc.readAllSnapshots := by
  rw [Doc.readAllSnapshots, Doc.readAllSnapshots, hversion]
  exact hperm.filterMap _

theorem effectiveTree_rooted (hget : doc.getRootId = some rootId) :
    doc.effectiveTree = snapshotTree doc.readAllSnapshots rootId := by
  rw [Doc.effectiveTree, snapshotTree, snapshots_treeNodes, hget, Option.getD_some]

theorem rows_perm (hversion : doc'.schemaVersion = doc.schemaVersion)
    (hperm : doc'.items.entries.Perm doc.items.entries) :
    (doc'.readAllSnapshots.map (effectiveRow (snapshotTree doc'.readAllSnapshots rootId) rootId)).Perm
      (doc.readAllSnapshots.map (effectiveRow (snapshotTree doc.readAllSnapshots rootId) rootId)) := by
  have hsnap := snapshots_perm hversion hperm
  obtain ⟨hparents, -, hdeleted⟩ := (snapshotTree_spec rootId snapshots_nodup).unique
    (hsnap.map ItemNodeSnapshot.toTreeNode) (snapshotTree_spec rootId snapshots_nodup)
  have hrow : effectiveRow (snapshotTree doc'.readAllSnapshots rootId) rootId =
      effectiveRow (snapshotTree doc.readAllSnapshots rootId) rootId := by
    funext s
    unfold effectiveRow
    rw [hparents, hdeleted]
  rw [hrow]
  exact hsnap.map _

theorem rowChildren_perm {rows rows' : List ProjectedItem} (h : rows'.Perm rows)
    (hnd : (rows.map ProjectedItem.id).Nodup) (p : JsString) : rowChildren rows' p = rowChildren rows p := by
  unfold rowChildren
  rw [sortSiblings_eq_of_perm (h.filter _)]
  apply List.Nodup.sublist (List.filter_sublist.map _)
  exact (h.map _).nodup_iff.mpr hnd

theorem rowChildren_rooted (hget : doc.getRootId = some rootId) (p : JsString) :
    rowChildren (doc.readAllSnapshots.map
      (effectiveRow (snapshotTree doc.readAllSnapshots rootId) rootId)) p = doc.childIds p := by
  have hplaced : doc.placedNodes = doc.readAllSnapshots.map fun s =>
      ⟨s.id, (doc.effectiveTree.parents.get s.id).getD s.move.parentId, s.move.rank, s.move.hlc,
        s.deleted.isDeleted⟩ := by
    rw [Doc.placedNodes, allNodes_eq, List.map_map]
    rfl
  have hpred : ∀ s ∈ doc.readAllSnapshots,
      (!decide (s.id ∈ doc.effectiveTree.deleted) &&
        decide ((if s.id = rootId then none else doc.effectiveTree.parents.get s.id) = some p)) =
      (!(decide (s.id ∈ doc.effectiveTree.deleted) || decide (some s.id = doc.getRootId)) &&
        decide ((doc.effectiveTree.parents.get s.id).getD s.move.parentId = p)) := by
    intro s hs
    by_cases hr : s.id = rootId
    · simp [hr, hget]
    · obtain ⟨q, hq, -⟩ := snapshotTree_parent snapshots_nodup hs hr
      rw [← effectiveTree_rooted hget] at hq
      simp [hr, hget, hq]
  rw [Doc.childIds, Doc.getChildren_eq, rowChildren]
  refine (sortSiblings_ids _).trans (Eq.trans ?_ (sortSiblings_ids _).symm)
  congr 2
  rw [List.filter_filter, hplaced, List.filter_map, List.filter_map, List.map_map, List.map_map,
    ← effectiveTree_rooted hget]
  refine congrArg (List.map fun s : ItemNodeSnapshot => (s.id, s.move.rank)) (List.filter_congr ?_)
  intro s hs
  exact (hpred s hs).trans (Bool.and_comm _ _)

theorem rowChildren_eq (hroot : doc.rootId = some rootId) (p : JsString) :
    rowChildren (doc.readAllSnapshots.map
      (effectiveRow (snapshotTree doc.readAllSnapshots rootId) rootId)) p = doc.childIds p :=
  rowChildren_rooted (by rw [Doc.getRootId, hroot]) p

/-- The live rows, read as a tree in preorder below the root row, are the visible rows of the
uncollapsed outline, and the rows form one rooted tree whose deletions are closed downwards and
need no repair. -/
structure ViewsAgree (doc : Doc) (rootId : JsString) (result : ProjectionResult) : Prop where
  rows_end : ∀ fuel > doc.allNodes.length, doc.visibleRowsWithin fuel rootId (fun _ => false) =
    some (doc.visibleRows rootId fun _ => false)
  preorder : ∀ out, Listing (rowChildren result.rows) (rowChildren result.rows rootId) 0 out ↔
    out = (doc.visibleRows rootId fun _ => false).map fun r => (r.id, r.depth)
  one_root : ∃ root, result.rows.filter (fun r => decide (r.parentId = none)) = [root] ∧
    root.id = rootId ∧ root.deleted = false
  parent_row : ∀ r ∈ result.rows, ∀ p, r.parentId = some p → ∃ q ∈ result.rows, q.id = p
  acyclic : ∀ r ∈ result.rows, ¬ TransGen (RowParent result.rows) r.id r.id
  deleted_closed : ∀ r ∈ result.rows, ∀ q ∈ result.rows, r.parentId = some q.id →
    q.deleted = true → r.deleted = true
  no_repairs : result.repairs = []

theorem projectSnapshots_visibleRows (lib : FractionalIndexing) (doc doc' : Doc) (rootId : JsString)
    (nowMs : ℤ) (replicaId : JsString) (hroot : doc.rootId = some rootId)
    (hversion : doc'.schemaVersion = doc.schemaVersion)
    (hperm : doc'.items.entries.Perm doc.items.entries) (hpresent : (doc.moveOf rootId).isSome = true)
    (hne : rootId ≠ []) (hsentinel : rootId ≠ ROOT_PARENT_SENTINEL) :
    ∃ result, projectSnapshots lib doc'.readAllSnapshots nowMs replicaId (some rootId) = .ok result ∧
      ViewsAgree doc rootId result := by
  have hsnap := snapshots_perm hversion hperm
  have hnd : (doc'.readAllSnapshots.map ItemNodeSnapshot.id).Nodup := snapshots_nodup
  have hlisted : rootId ∈ doc'.readAllSnapshots.map ItemNodeSnapshot.id := by
    rw [(hsnap.map ItemNodeSnapshot.id).mem_iff, snapshots_ids]
    obtain ⟨move, hmove⟩ := Option.isSome_iff_exists.mp hpresent
    obtain ⟨n, hn, rfl, -⟩ := Doc.allNodes_of_moveOf hmove
    exact List.mem_map_of_mem hn
  refine ⟨_, projectSnapshots_eq lib hnd hne hsentinel nowMs replicaId, ?_, ?_, ?_, ?_, ?_, ?_, rfl⟩
  · have hget : doc.getRootId = some rootId := by rw [Doc.getRootId, hroot]
    exact (Doc.visibleRows_listing _ hget rootId).2
  · have hget : doc.getRootId = some rootId := by rw [Doc.getRootId, hroot]
    have hlisting := (Doc.visibleRows_listing (fun _ => false) hget rootId).1
    have hkids : doc.shownIds (fun _ => false) = doc.childIds := rfl
    have hrows : rowChildren (doc'.readAllSnapshots.map
        (effectiveRow (snapshotTree doc'.readAllSnapshots rootId) rootId)) = doc.childIds := by
      funext p
      rw [rowChildren_perm (rows_perm hversion hperm) (by rw [rows_ids]; exact snapshots_nodup),
        rowChildren_eq hroot]
    intro out
    rw [hrows]
    rw [hkids] at hlisting
    constructor
    · exact fun h => h.unique hlisting
    · rintro rfl
      exact hlisting
  · exact root_row hnd hlisted
  · intro r hr p hp
    obtain ⟨s, hs, rfl⟩ := List.mem_map.mp hr
    obtain ⟨-, hne', hget⟩ := rowParent_edge ⟨_, hr, rfl, hp⟩
    obtain ⟨q, hq, hq'⟩ := snapshotTree_parent hnd hs hne'
    obtain rfl : q = p := Option.some.inj (hq.symm.trans hget)
    have hmem : q ∈ doc'.readAllSnapshots.map ItemNodeSnapshot.id := by
      rcases hq' with rfl | ⟨-, h⟩
      · exact hlisted
      · exact h
    rw [← rows_ids (snapshotTree doc'.readAllSnapshots rootId)] at hmem
    exact List.mem_map.mp hmem
  · intro r hr hcyc
    have hspec := snapshotTree_spec rootId hnd
    have hmem : r.id ∈ ids (doc'.readAllSnapshots.map ItemNodeSnapshot.toTreeNode) := by
      obtain ⟨s, hs, rfl⟩ := List.mem_map.mp hr
      rw [ids, List.map_map]
      exact List.mem_map_of_mem hs
    apply not_cyclic_of_reaches (hspec.reaches r.id hmem)
    exact hcyc.lift id fun _ _ h => (rowParent_edge h).2
  · intro r hr q hq hparent hdel
    obtain ⟨s, hs, rfl⟩ := List.mem_map.mp hr
    obtain ⟨t, ht, rfl⟩ := List.mem_map.mp hq
    exact deleted_below hnd hs hparent hdel

def placedDoc (rootId : JsString) (placements : List (JsString × JsString)) : Doc :=
  ⟨some 2, some rootId, .ofList (placements.map fun e =>
    (e.1, { freshNode with move := some ⟨e.2, js ['a', '0'], noHlc⟩ }))⟩

theorem projectSnapshots_visibleRows_tangled :
    ∃ result, projectSnapshots sampleKeys
        (placedDoc (js ['r']) [(js ['a'], js ['b']), (js ['r'], ROOT_PARENT_SENTINEL),
          (js ['b'], js ['a'])]).readAllSnapshots 0 [] (some (js ['r'])) = .ok result ∧
      ViewsAgree (placedDoc (js ['r']) [(js ['r'], ROOT_PARENT_SENTINEL), (js ['a'], js ['b']),
        (js ['b'], js ['a'])]) (js ['r']) result :=
  projectSnapshots_visibleRows sampleKeys _ _ (js ['r']) 0 [] rfl rfl (List.Perm.swap ..) (by decide)
    (by decide) (by decide)

def emptyRootDoc : Doc := placedDoc [] [([], ROOT_PARENT_SENTINEL), (js ['a'], js ['x'])]

def sentinelRootDoc : Doc := placedDoc ROOT_PARENT_SENTINEL
  [(ROOT_PARENT_SENTINEL, ROOT_PARENT_SENTINEL), (js ['a'], ROOT_PARENT_SENTINEL)]

/-- With the empty string as root id the projection falls back to raw parents, and with the
sentinel as root id a child loses its parent. -/
theorem projectSnapshots_disagrees :
    (∃ result, projectSnapshots sampleKeys emptyRootDoc.readAllSnapshots 0 [] emptyRootDoc.rootId =
      .ok result ∧ ¬ ViewsAgree emptyRootDoc [] result) ∧
    (∃ result, projectSnapshots sampleKeys sentinelRootDoc.readAllSnapshots 0 [] sentinelRootDoc.rootId =
      .ok result ∧ ¬ ViewsAgree sentinelRootDoc ROOT_PARENT_SENTINEL result) := by
  refine ⟨⟨_, rfl, fun h => ?_⟩, ⟨_, rfl, fun h => ?_⟩⟩
  · have hdangling := h.parent_row
    revert hdangling
    decide
  · obtain ⟨root, hroots, -⟩ := h.one_root
    have hlen := congrArg List.length hroots
    rw [List.length_singleton] at hlen
    revert hlen
    decide

end Agreement

end OpenOutliner
