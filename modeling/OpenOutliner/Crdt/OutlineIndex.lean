import OpenOutliner.Crdt.Outline
import OpenOutliner.Shared.EffectiveTreeLaws

namespace OpenOutliner

open Foundations Foundations.RootedOrbit Function Relation

theorem pushChild_get (nodes : List OutlineNode) (m : OrderedMap JsString (List OutlineNode))
    (p : JsString) : ((nodes.foldl pushChild m).get p).getD [] =
      (m.get p).getD [] ++ nodes.filter fun n => n.parentId = p := by
  induction nodes generalizing m with
  | nil => simp
  | cons n nodes ih =>
    rw [List.foldl_cons, ih, pushChild, OrderedMap.get_set, List.filter_cons]
    by_cases hp : n.parentId = p
    · simp [hp]
    · simp [hp, Ne.symm hp]

theorem map_getD_nil {α : Type} {f : List α → List α} (hf : f [] = []) (o : Option (List α)) :
    (o.map f).getD [] = f (o.getD []) := by
  cases o with
  | none => exact hf.symm
  | some l => rfl

namespace Doc

variable {doc : Doc} {rootId : JsString}

theorem mem_allNodes {n : OutlineNode} : n ∈ doc.allNodes ↔
    ∃ node move, doc.items.get n.id = some node ∧ node.move = some move ∧
      n = ⟨n.id, move.parentId, move.rank, move.hlc, (readDeleted doc.schemaVersion node).isDeleted⟩ := by
  simp only [allNodes, List.mem_filterMap, Prod.exists, readOutlineNode, Option.map_eq_some_iff,
    OrderedMap.mem_entries_iff]
  constructor
  · rintro ⟨id, node, hget, move, hmove, rfl⟩
    exact ⟨node, move, hget, hmove, rfl⟩
  · rintro ⟨node, move, hget, hmove, hn⟩
    exact ⟨n.id, node, hget, move, hmove, hn.symm⟩

theorem allNodes_moveOf {n : OutlineNode} (h : n ∈ doc.allNodes) :
    doc.moveOf n.id = some ⟨n.parentId, n.rank, n.hlc⟩ := by
  obtain ⟨node, move, hget, hmove, hn⟩ := mem_allNodes.mp h
  rw [moveOf, hget, Option.bind_some, hmove, hn]

theorem allNodes_of_moveOf {id : JsString} {move : MoveRegister} (h : doc.moveOf id = some move) :
    ∃ n ∈ doc.allNodes, n.id = id ∧ n.parentId = move.parentId ∧ n.rank = move.rank := by
  obtain ⟨node, hget, hmove⟩ := Option.bind_eq_some_iff.mp h
  exact ⟨⟨id, move.parentId, move.rank, move.hlc, (readDeleted doc.schemaVersion node).isDeleted⟩,
    mem_allNodes.mpr ⟨node, move, hget, hmove, rfl⟩, rfl, rfl, rfl⟩

theorem allNodes_sublist :
    (doc.allNodes.map OutlineNode.id).Sublist doc.items.keys := by
  have hsub : ∀ es : List (JsString × Node),
      ((es.filterMap fun e => readOutlineNode doc.schemaVersion e.1 e.2).map OutlineNode.id).Sublist
        (es.map Prod.fst) := by
    intro es
    induction es with
    | nil => exact .refl _
    | cons e es ih =>
      cases hm : e.2.move with
      | none => simpa [readOutlineNode, hm] using ih.cons e.1
      | some m => simpa [readOutlineNode, hm] using ih.cons_cons e.1
  exact hsub doc.items.entries

theorem allNodes_nodup : (doc.allNodes.map OutlineNode.id).Nodup :=
  doc.items.keys_nodup.sublist allNodes_sublist

theorem treeNodes_ids : ids (doc.allNodes.map OutlineNode.toTreeNode) = doc.allNodes.map OutlineNode.id := by
  rw [ids, List.map_map]
  rfl

theorem effectiveTree_spec : EffectiveTree.Spec (doc.allNodes.map OutlineNode.toTreeNode)
    (doc.getRootId.getD []) doc.effectiveTree := by
  apply deriveEffectiveTree_spec
  rw [treeNodes_ids]
  exact allNodes_nodup

theorem placedNodes_ids : doc.placedNodes.map OutlineNode.id = doc.allNodes.map OutlineNode.id := by
  rw [placedNodes, List.map_map]
  rfl

theorem getChildren_eq (p : JsString) : doc.getChildren p =
    sortSiblings ((doc.placedNodes.filter doc.isLive).filter fun n => n.parentId = p) := by
  rw [getChildren, outlineIndex, OrderedMap.get_mapValues, map_getD_nil rfl, pushChild_get]
  rfl

theorem mem_getChildren {p : JsString} {n : OutlineNode} :
    n ∈ doc.getChildren p ↔ n ∈ doc.placedNodes ∧ doc.isLive n = true ∧ n.parentId = p := by
  rw [getChildren_eq, mem_sortSiblings]
  simp only [List.mem_filter, decide_eq_true_eq, and_assoc]

theorem getChildren_pairwise (doc : Doc) (p : JsString) :
    (doc.getChildren p).Pairwise fun a b => compareOrder a b ≤ 0 := by
  rw [getChildren_eq]
  exact sortSiblings_pairwise _

theorem getChildren_ids_nodup (doc : Doc) (p : JsString) :
    ((doc.getChildren p).map OutlineNode.id).Nodup := by
  rw [getChildren_eq]
  refine (((sortSiblings_perm _).map OutlineNode.id).nodup_iff).mpr ?_
  have hsub : (((doc.placedNodes.filter doc.isLive).filter fun n => n.parentId = p).map
      OutlineNode.id).Sublist (doc.placedNodes.map OutlineNode.id) :=
    (List.filter_sublist.trans List.filter_sublist).map _
  apply List.Nodup.sublist hsub
  rw [placedNodes_ids]
  exact allNodes_nodup

theorem getChildren_raw {p : JsString} {n : OutlineNode} (h : n ∈ doc.getChildren p) :
    ∃ raw ∈ doc.allNodes, raw.id = n.id ∧ raw.rank = n.rank ∧
      doc.effectiveTree.parents.get n.id = some p := by
  obtain ⟨hplaced, -, hp⟩ := mem_getChildren.mp h
  obtain ⟨raw, hraw, rfl⟩ := List.mem_map.mp hplaced
  refine ⟨raw, hraw, rfl, rfl, ?_⟩
  have hmem : raw.toTreeNode ∈ doc.allNodes.map OutlineNode.toTreeNode := List.mem_map_of_mem hraw
  obtain ⟨q, hq⟩ : ∃ q, doc.effectiveTree.parents.get raw.id = some q := by
    by_cases hr : raw.id = doc.getRootId.getD []
    · refine ⟨_, hr ▸ effectiveTree_spec.root ?_⟩
      rw [← hr]
      exact List.mem_map_of_mem hmem
    · exact ⟨_, effectiveTree_spec.parent _ hmem hr⟩
  change (doc.effectiveTree.parents.get raw.id).getD raw.parentId = p at hp
  rw [hq] at hp ⊢
  rw [← hp]
  rfl

theorem getChildren_ne_root (hroot : doc.getRootId = some rootId) {p : JsString} {n : OutlineNode}
    (h : n ∈ doc.getChildren p) : n.id ≠ rootId := by
  obtain ⟨-, hlive, -⟩ := mem_getChildren.mp h
  rintro rfl
  simp [isLive, hroot] at hlive

section Untouched

theorem find?_map_fst {K V : Type} (p : K × V → Bool) (es : List (K × V)) :
    (es.find? p).map Prod.fst = (es.filterMap fun e => if p e then some e.1 else none).head? := by
  induction es with
  | nil => rfl
  | cons e es ih =>
    by_cases he : p e = true
    · simp [he]
    · simp [he, ih]

theorem updateNode_getChildren (id : JsString) {f : Node → Node} (hmove : ∀ node, (f node).move = node.move)
    (hdel : ∀ node, readDeleted doc.schemaVersion (f node) = readDeleted doc.schemaVersion node)
    (p : JsString) : (doc.updateNode id f).getChildren p = doc.getChildren p := by
  cases hget : doc.items.get id with
  | none =>
    unfold updateNode
    rw [hget]
  | some node =>
    have hnodes : (doc.updateNode id f).allNodes = doc.allNodes := by
      rw [allNodes, updateNode_schemaVersion]
      unfold updateNode
      rw [hget]
      apply OrderedMap.filterMap_set _ hget
      simp only [readOutlineNode, hmove, hdel]
    have hroot : (doc.updateNode id f).getRootId = doc.getRootId := by
      rw [getRootId, getRootId, updateNode_rootId]
      cases doc.rootId with
      | some canonical => rfl
      | none =>
        unfold updateNode
        rw [hget]
        refine (find?_map_fst _ _).trans (Eq.trans ?_ (find?_map_fst _ _).symm)
        dsimp only [setNode]
        rw [OrderedMap.filterMap_set _ hget]
        simp only [hmove]
    have htree : (doc.updateNode id f).effectiveTree = doc.effectiveTree := by
      rw [effectiveTree, effectiveTree, hnodes, hroot]
    have hlive : (doc.updateNode id f).isLive = doc.isLive := by
      funext n
      rw [isLive, isLive, htree, hroot]
    rw [getChildren_eq, getChildren_eq, hlive, placedNodes, placedNodes, hnodes, htree]

theorem readDeleted_congr (v : Option ℕ) {a b : Node} (hdeletes : a.deleteRecords = b.deleteRecords)
    (hrestores : a.restoreRecords = b.restoreRecords) (hdeleted : a.deleted = b.deleted) :
    readDeleted v a = readDeleted v b := by
  unfold readDeleted Node.hasActiveDelete
  rw [hdeletes, hrestores, hdeleted]

theorem ensureContent_getChildren (id p : JsString) :
    (doc.ensureContent id).getChildren p = doc.getChildren p := by
  unfold ensureContent
  apply updateNode_getChildren
  · intro node
    rfl
  · intro node
    exact readDeleted_congr _ rfl rfl rfl

theorem editContent_getChildren (id p : JsString) (f : JsString → JsString) :
    (doc.editContent id f).getChildren p = doc.getChildren p := by
  unfold editContent
  apply updateNode_getChildren
  · intro node
    rfl
  · intro node
    exact readDeleted_congr _ rfl rfl rfl

end Untouched

section Forest

variable (hroot : doc.getRootId = some rootId)

include hroot

theorem rooted_spec : EffectiveTree.Spec (doc.allNodes.map OutlineNode.toTreeNode) rootId
    doc.effectiveTree := by
  have hspec : EffectiveTree.Spec _ (doc.getRootId.getD []) doc.effectiveTree := effectiveTree_spec
  rwa [hroot, Option.getD_some] at hspec

theorem getChildren_edge {p : JsString} {n : OutlineNode} (h : n ∈ doc.getChildren p) :
    EffectiveEdge rootId doc.effectiveTree n.id p := by
  obtain ⟨raw, -, -, -, hparent⟩ := getChildren_raw h
  exact ⟨getChildren_ne_root hroot h, hparent⟩

theorem parent_listed {p : JsString} {n : OutlineNode} (h : n ∈ doc.getChildren p) :
    p = rootId ∨ p ∈ doc.allNodes.map OutlineNode.id := by
  have hspec := rooted_spec hroot
  obtain ⟨raw, hraw, hid, -, hparent⟩ := getChildren_raw h
  have hmem : raw.toTreeNode ∈ doc.allNodes.map OutlineNode.toTreeNode := List.mem_map_of_mem hraw
  have hne : raw.id ≠ rootId := by
    rw [hid]
    exact getChildren_ne_root hroot h
  have hp := hspec.parent _ hmem hne
  change doc.effectiveTree.parents.get raw.id = _ at hp
  rw [hid, hparent] at hp
  split_ifs at hp with hrec
  · exact Or.inl (Option.some.inj hp)
  · refine Or.inr ?_
    rw [Option.some.inj hp, ← treeNodes_ids]
    by_contra hno
    exact hrec ((hspec.recovered _).mpr (Or.inl ⟨hne, _, hmem, rfl, Or.inr hno⟩))

end Forest

def childIds (doc : Doc) (p : JsString) : List JsString := (doc.getChildren p).map OutlineNode.id

theorem childIds_edge (hroot : doc.getRootId = some rootId) {c p : JsString}
    (h : ChildOf doc.childIds c p) : EffectiveEdge rootId doc.effectiveTree c p := by
  obtain ⟨n, hn, rfl⟩ := List.mem_map.mp h
  exact getChildren_edge hroot hn

theorem childIds_up (hroot : doc.getRootId = some rootId) (c p : JsString)
    (h : ChildOf doc.childIds c p) : upward doc.effectiveTree.parents rootId c = p := by
  obtain ⟨hne, hparent⟩ := childIds_edge hroot h
  rw [upward, if_neg hne, EffectiveTree.parentStep, hparent, Option.getD_some]

theorem childIds_listed {c p : JsString} (h : ChildOf doc.childIds c p) :
    c ∈ doc.allNodes.map OutlineNode.id := by
  obtain ⟨n, hn, rfl⟩ := List.mem_map.mp h
  obtain ⟨raw, hraw, hid, -⟩ := getChildren_raw hn
  exact hid ▸ List.mem_map_of_mem hraw

theorem childIds_wellFounded (hroot : doc.getRootId = some rootId) :
    WellFounded (ChildOf doc.childIds) := by
  have hfin : ({x | x ∈ doc.allNodes.map OutlineNode.id} ∪ {rootId} : Set JsString).Finite :=
    (List.finite_toSet _).union (Set.finite_singleton _)
  apply wellFounded_childOf hfin
  · intro c p h
    refine ⟨Or.inl (childIds_listed h), ?_⟩
    obtain ⟨n, hn, -⟩ := List.mem_map.mp h
    exact (parent_listed hroot hn).symm
  · intro c hcyc
    obtain ⟨p, hcp, -⟩ := TransGen.head'_iff.mp hcyc
    have hmem : c ∈ ids (doc.allNodes.map OutlineNode.toTreeNode) := by
      rw [treeNodes_ids]
      exact childIds_listed hcp
    apply not_cyclic_of_reaches ((rooted_spec hroot).reaches c hmem)
    exact hcyc.lift id fun _ _ h => childIds_edge hroot h

section Rows

variable (isCollapsed : JsString → Bool)

theorem flattenVisibleWithin_eq (fuel : ℕ) (start : JsString) :
    doc.flattenVisibleWithin fuel start isCollapsed =
    (doc.visibleRowsWithin fuel start isCollapsed).map fun rows => rows.map VisibleRow.id := by
  have hpoints :=
    drain_points (doc.shownChildren isCollapsed) fuel [] ((doc.getChildren start).map fun n => (n, 0))
  have hstart : ((doc.getChildren start).map fun n => (n, 0)).map Prod.fst = doc.getChildren start := by
    rw [List.map_map]
    exact List.map_id _
  rw [List.map_nil, hstart] at hpoints
  unfold flattenVisibleWithin visibleRowsWithin
  rw [← hpoints, Option.map_map, Option.map_map]
  congr 1
  funext out
  simp only [Function.comp_apply, List.map_map]
  rfl

theorem flattenVisible_eq (start : JsString) :
    doc.flattenVisible start isCollapsed = (doc.visibleRows start isCollapsed).map VisibleRow.id := by
  rw [flattenVisible, flattenVisibleWithin_eq, visibleRows]
  cases doc.visibleRowsWithin (doc.allNodes.length + 1) start isCollapsed with
  | none => rfl
  | some rows => rfl

def shownIds (doc : Doc) (isCollapsed : JsString → Bool) (x : JsString) : List JsString :=
  if isCollapsed x then [] else doc.childIds x

theorem shownIds_childOf {c p : JsString} (h : ChildOf (doc.shownIds isCollapsed) c p) :
    ChildOf doc.childIds c p := by
  unfold ChildOf shownIds at h
  split_ifs at h
  · simp at h
  · exact h

theorem shownIds_nodup (p : JsString) : (doc.shownIds isCollapsed p).Nodup := by
  unfold shownIds
  split_ifs
  · exact List.nodup_nil
  · exact getChildren_ids_nodup doc p

theorem shownIds_wellFounded (hroot : doc.getRootId = some rootId) :
    WellFounded (ChildOf (doc.shownIds isCollapsed)) :=
  Subrelation.wf (shownIds_childOf isCollapsed) (childIds_wellFounded hroot)

theorem shownChildren_ids (n : OutlineNode) : doc.shownIds isCollapsed n.id =
    (doc.shownChildren isCollapsed n).map OutlineNode.id := by
  unfold shownIds shownChildren
  split_ifs <;> rfl

/-- The rows under `start` are the preorder listing of the shown children, and the loop that
computes them ends. -/
theorem visibleRows_listing (hroot : doc.getRootId = some rootId) (start : JsString) :
    Listing (doc.shownIds isCollapsed) (doc.childIds start) 0
        ((doc.visibleRows start isCollapsed).map fun r => (r.id, r.depth)) ∧
      ∀ fuel > doc.allNodes.length, doc.visibleRowsWithin fuel start isCollapsed =
        some (doc.visibleRows start isCollapsed) := by
  have hwf : WellFounded (ChildOf (doc.shownChildren isCollapsed)) := by
    apply Subrelation.wf _ (InvImage.wf OutlineNode.id (shownIds_wellFounded isCollapsed hroot))
    intro c p h
    change c.id ∈ doc.shownIds isCollapsed p.id
    rw [shownChildren_ids]
    exact List.mem_map_of_mem h
  obtain ⟨l, hl⟩ := exists_listing hwf (doc.getChildren start) 0
  have hids := hl.map OutlineNode.id (shownChildren_ids isCollapsed)
  have hnodup := hids.nodup (fun c p h => childIds_up hroot c p (shownIds_childOf isCollapsed h))
    (shownIds_nodup isCollapsed) (shownIds_wellFounded isCollapsed hroot) (getChildren_ids_nodup doc start)
    (by
      intro x hx y hy hxy
      have hlift : ReflTransGen (ChildOf doc.childIds) x y :=
        hxy.lift id fun _ _ h => shownIds_childOf isCollapsed h
      exact siblings_apart (childIds_up hroot) (childIds_wellFounded hroot) hx hy hlift)
  have hlen : l.length ≤ doc.allNodes.length := by
    have hsub : (l.map fun e => (e.1.id, e.2)).map Prod.fst ⊆ doc.allNodes.map OutlineNode.id := by
      intro x hx
      obtain ⟨y, hy, hxy⟩ := (hids.mem_iff x).mp hx
      have hchild : ∃ p, ChildOf doc.childIds x p := by
        rcases ReflTransGen.cases_head hxy with rfl | ⟨m, hm, -⟩
        · exact ⟨start, hy⟩
        · exact ⟨m, shownIds_childOf isCollapsed hm⟩
      obtain ⟨p, hp⟩ := hchild
      exact childIds_listed hp
    have hle := (List.subperm_of_subset hnodup hsub).length_le
    simpa using hle
  have hrun : ∀ fuel > doc.allNodes.length, doc.visibleRowsWithin fuel start isCollapsed =
      some (l.map fun e => ⟨e.1.id, e.2, decide (e.1.id ∈ doc.outlineIndex.recovered)⟩) := by
    intro fuel hfuel
    rw [visibleRowsWithin, drain_eq hl (by omega), Option.map_some]
  have hrows : doc.visibleRows start isCollapsed =
      l.map fun e => ⟨e.1.id, e.2, decide (e.1.id ∈ doc.outlineIndex.recovered)⟩ := by
    rw [visibleRows, hrun _ (Nat.lt_succ_self _), Option.getD_some]
  refine ⟨?_, fun fuel hfuel => by rw [hrun fuel hfuel, hrows]⟩
  rw [hrows, List.map_map]
  exact hids

theorem visibleRows_pairs {doc' : Doc} (hroot : doc.getRootId = some rootId)
    (hroot' : doc'.getRootId = some rootId) (hkids : doc'.childIds = doc.childIds) (start : JsString) :
    (doc'.visibleRows start isCollapsed).map (fun r => (r.id, r.depth)) =
      (doc.visibleRows start isCollapsed).map fun r => (r.id, r.depth) := by
  have hlist := (doc.visibleRows_listing isCollapsed hroot start).1
  have hlist' := (doc'.visibleRows_listing isCollapsed hroot' start).1
  have hshown : doc'.shownIds isCollapsed = doc.shownIds isCollapsed := by
    funext x
    rw [shownIds, shownIds, hkids]
  rw [hshown, hkids] at hlist'
  exact hlist'.unique hlist

end Rows

end Doc

end OpenOutliner
