import OpenOutliner.Crdt.SplitText
import OpenOutliner.Crdt.VisibleMoves

namespace OpenOutliner

open Foundations Relation

section Placements

variable {doc : Doc} {id x y : JsString}

def Doc.placement (doc : Doc) (y : JsString) : Option (JsString × Bool) :=
  (doc.items.get y).bind fun node => node.move.map fun move =>
    (move.parentId, (readDeleted doc.schemaVersion node).isDeleted)

theorem mem_treeNodes_iff {n : TreeNode} : n ∈ doc.treeNodes ↔
    doc.placement n.id = some (n.parentId, n.isDeleted) := by
  simp only [mem_treeNodes, Doc.placement, Option.bind_eq_some_iff, Option.map_eq_some_iff, Prod.mk.injEq]
  constructor
  · rintro ⟨node, move, hget, hmove, he⟩
    rw [he]
    exact ⟨node, hget, move, hmove, rfl, rfl⟩
  · rintro ⟨node, hget, move, hmove, hparent, hdeleted⟩
    exact ⟨node, move, hget, hmove, by rw [hparent, hdeleted]⟩

theorem updateNode_placement (id y : JsString) {f : Node → Node} (hmove : ∀ node, (f node).move = node.move)
    (hdel : ∀ node, readDeleted doc.schemaVersion (f node) = readDeleted doc.schemaVersion node) :
    (doc.updateNode id f).placement y = doc.placement y := by
  unfold Doc.placement
  rw [Doc.updateNode_get, Doc.updateNode_schemaVersion]
  split_ifs with hy
  · cases doc.items.get y with
    | none => rfl
    | some node => simp [hmove, hdel]
  · rfl

theorem ensureContent_placement (id y : JsString) : (doc.ensureContent id).placement y = doc.placement y :=
  updateNode_placement id y (fun _ => rfl) fun _ => Doc.readDeleted_congr _ rfl rfl rfl

theorem editContent_placement (id y : JsString) (f : JsString → JsString) :
    (doc.editContent id f).placement y = doc.placement y :=
  updateNode_placement id y (fun _ => rfl) fun _ => Doc.readDeleted_congr _ rfl rfl rfl

theorem insertContent_placement (id y : JsString) {at_ : ℕ} (s : JsString) :
    (insertContent doc id at_ s).placement y = doc.placement y := by
  unfold insertContent
  split_ifs
  · rfl
  · exact editContent_placement _ _ _

theorem insertContent_rootId (id : JsString) {at_ : ℕ} (s : JsString) :
    (insertContent doc id at_ s).rootId = doc.rootId := by
  unfold insertContent
  split_ifs
  · rfl
  · exact Doc.updateNode_rootId _ _ _

theorem truncated_placement (offset : ℤ) : (truncated doc id offset).placement y = doc.placement y := by
  unfold truncated truncateContent
  dsimp only
  split_ifs
  · exact ensureContent_placement _ _
  · rw [editContent_placement, ensureContent_placement]

theorem truncated_moveOf (offset : ℤ) : (truncated doc id offset).moveOf y = doc.moveOf y := by
  unfold truncated
  simp

theorem placement_fresh {placed : MoveRegister} (hroot : doc.rootId ≠ some x)
    (hfresh : doc.items.get x = none) :
    (doc.writeMove x placed).placement x = some (placed.parentId, false) := by
  have hdeleted : (readDeleted doc.schemaVersion { freshNode with move := some placed }).isDeleted =
      false := by
    unfold readDeleted
    split_ifs <;> rfl
  rw [Doc.placement, writeMove_get hroot, if_pos rfl, hfresh]
  simp only [Option.getD_none, Option.bind_some, Option.map_some, Doc.writeMove_schemaVersion, hdeleted]

theorem placement_other {placed : MoveRegister} (hroot : doc.rootId ≠ some x) (hy : y ≠ x) :
    (doc.writeMove x placed).placement y = doc.placement y := by
  rw [Doc.placement, writeMove_get hroot, if_neg hy, Doc.writeMove_schemaVersion]
  rfl

end Placements

/-- No item has this id, none is placed under it, and the root is another one. -/
structure Fresh (doc : Doc) (newId : JsString) : Prop where
  absent : doc.items.get newId = none
  root : doc.rootId ≠ some newId
  unnamed : ∀ y move, doc.moveOf y = some move → move.parentId ≠ newId

/-- The new item is shown right after `x`, and the others stay where they are. -/
structure SplitsBelow (doc doc' : Doc) (x newId : JsString) : Prop where
  next : NextSibling doc' x newId
  parents : ∀ y, y ≠ newId → doc'.effectiveTree.parents.get y = doc.effectiveTree.parents.get y
  order : ∀ p, (doc'.childIds p).filter (· ≠ newId) = doc.childIds p

/-- `x` is shown under its raw parent, or its raw parent is not there and the first key of the new id
happens to come right after `x` among the children of the root. -/
def SplitsInPlace (lib : FractionalIndexing) (doc : Doc) (rootId x newId : JsString) : Prop :=
  ∃ move, doc.moveOf x = some move ∧
    (x ≠ [] ∧ x ∈ doc.childIds move.parentId ∨
      x ∉ doc.childIds move.parentId ∧
      (move.parentId = ROOT_PARENT_SENTINEL ∨ doc.moveOf move.parentId = none) ∧
        ∃ k, rankBetween lib none none newId = .ok k ∧ ∀ e ∈ doc.siblingKeys rootId,
          (compareOrder e (newId, k) ≤ 0 ↔ compareOrder e (x, move.rank) ≤ 0))

structure ItemAdded (doc doc' : Doc) (x : JsString) (placed : MoveRegister) : Prop where
  fresh : Fresh doc x
  apart : placed.parentId ≠ x
  rootId : doc'.rootId = doc.rootId
  moves : ∀ y, y ≠ x → doc'.moveOf y = doc.moveOf y
  placements : ∀ y, y ≠ x → doc'.placement y = doc.placement y
  move : doc'.moveOf x = some placed
  placement : doc'.placement x = some (placed.parentId, false)

namespace ItemAdded

variable {doc doc' : Doc} {rootId x y p q : JsString} {placed : MoveRegister}
  (h : ItemAdded doc doc' x placed)

include h

theorem notMem : x ∉ ids doc.treeNodes := by
  rw [mem_ids_iff, Doc.moveOf, h.fresh.absent]
  simp

theorem grown : Grown doc.treeNodes doc'.treeNodes x placed.parentId := by
  refine ⟨doc.treeNodes_nodup, doc'.treeNodes_nodup, h.notMem, fun y => ?_, fun n hn => ?_,
    fun n hn hid => ?_, fun n hn => ?_,
    h.apart⟩
  · rw [mem_ids_iff, mem_ids_iff]
    by_cases hy : y = x
    · rw [hy, h.move]
      simp
    · rw [h.moves y hy, or_iff_right hy]
  · rw [mem_treeNodes_iff, mem_treeNodes_iff, h.placements n.id hn]
  · rw [mem_treeNodes_iff, hid, h.placement] at hn
    exact ⟨(congrArg Prod.fst (Option.some.inj hn)).symm, (congrArg Prod.snd (Option.some.inj hn)).symm⟩
  · obtain ⟨move, hmove, hparent⟩ := treeNode_parent hn
    rw [← hparent]
    exact h.fresh.unnamed n.id move hmove

variable (hroot : doc.rootId = some rootId)

include hroot

theorem ne_root : x ≠ rootId := by
  rintro rfl
  exact h.fresh.root hroot

theorem get' : doc'.getRootId = some rootId := getRootId_eq (h.rootId.trans hroot)

theorem edges_agree :
    AgreeOff x (EffectiveEdge rootId doc.effectiveTree) (EffectiveEdge rootId doc'.effectiveTree) :=
  h.grown.edges_agree (Doc.rooted_spec (getRootId_eq hroot)) (Doc.rooted_spec (h.get' hroot))

theorem avoids (hy : y ≠ x) : ¬ ReflTransGen (EffectiveEdge rootId doc.effectiveTree) y x := by
  intro hyx
  rcases ReflTransGen.cases_tail hyx with he | ⟨w, -, hedge⟩
  · exact hy he.symm
  · have hraw := ((Doc.rooted_spec (getRootId_eq hroot)).edge_iff_raw (h.ne_root hroot)).mp hedge
    exact h.notMem (rawEdge_target hraw.1)

theorem deleted_iff (hy : y ≠ x) : y ∈ doc'.effectiveTree.deleted ↔ y ∈ doc.effectiveTree.deleted := by
  rw [(Doc.rooted_spec (getRootId_eq hroot)).deleted, (Doc.rooted_spec (h.get' hroot)).deleted,
    h.grown.listed,
    or_iff_right hy, h.grown.flagged_iff]
  apply and_congr_right
  intro _
  apply and_congr_right
  intro _
  apply or_congr_right
  apply exists_congr
  intro z
  rw [h.grown.flagged_iff, (h.edges_agree hroot).trans_iff_of_avoids (h.avoids hroot hy)]

theorem childIds_other (hy : y ≠ x) : y ∈ doc'.childIds p ↔ y ∈ doc.childIds p := by
  rw [mem_childIds (getRootId_eq hroot), mem_childIds (h.get' hroot), h.deleted_iff hroot hy,
    h.edges_agree hroot y p hy]

theorem new_notMem : x ∉ doc.childIds p := by
  intro hx
  exact h.notMem
    ((Doc.rooted_spec (getRootId_eq hroot)).edge_source ((mem_childIds (getRootId_eq hroot)).mp hx).1)

theorem order (p : JsString) : (doc'.childIds p).filter (· ≠ x) = doc.childIds p := by
  have hkeys : (doc'.siblingKeys p).filter (fun e => e.1 ≠ x) = doc.siblingKeys p := by
    have hnd := (List.Nodup.of_map _ (siblingKeys_nodup doc' p)).filter fun e : JsString × JsString => e.1 ≠ x
    have hperm : ((doc'.siblingKeys p).filter fun e => e.1 ≠ x).Perm (doc.siblingKeys p) := by
      apply (List.perm_ext_iff_of_nodup hnd (List.Nodup.of_map _ (siblingKeys_nodup doc p))).mpr
      rintro ⟨y, r⟩
      rw [List.mem_filter, decide_eq_true_eq, mem_siblingKeys, mem_siblingKeys]
      by_cases hy : y = x
      · rw [hy]
        simp [h.new_notMem hroot]
      · rw [and_iff_left hy, h.childIds_other hroot hy, h.moves y hy]
    apply hperm.eq_of_pairwise _ ((siblingKeys_pairwise doc' p).filter _) (siblingKeys_pairwise doc p)
    intro a b ha hb hab hba
    exact List.inj_on_of_nodup_map (siblingKeys_nodup doc p) (hperm.mem_iff.mp ha) hb
      (compareOrder_antisymm hab hba)
  rw [← siblingKeys_ids, ← siblingKeys_ids, ← hkeys, List.filter_map]
  rfl

theorem splitsBelow_iff : SplitsBelow doc doc' y x ↔ NextSibling doc' y x :=
  ⟨fun hbelow => hbelow.next,
    fun hnext => ⟨hnext, fun _ hz => h.grown.parents_eq (Doc.rooted_spec (getRootId_eq hroot))
    (Doc.rooted_spec (h.get' hroot)) hz, h.order hroot⟩⟩

theorem placed_edge : EffectiveEdge rootId doc'.effectiveTree x q ↔
    (if placed.parentId = ROOT_PARENT_SENTINEL ∨
      doc.moveOf placed.parentId = none then rootId else placed.parentId) = q := by
  have hlisted : placed.parentId ∉ ids doc.treeNodes ↔ doc.moveOf placed.parentId = none := by
    rw [mem_ids_iff, Bool.not_eq_true, Option.isSome_eq_false_iff, Option.isNone_iff_eq_none]
  rw [h.grown.placed_edge (h.ne_root hroot) (Doc.rooted_spec (h.get' hroot))]
  simp only [hlisted]

theorem joins (hq : EffectiveEdge rootId doc'.effectiveTree x q)
    (hlive : AncestorsLive doc.treeNodes rootId doc.effectiveTree q) :
    Joins doc doc' rootId x q placed.rank := by
  have hget := getRootId_eq hroot
  have hspec := Doc.rooted_spec hget
  have hspec' := Doc.rooted_spec (h.get' hroot)
  have hqx : q ≠ x := by
    rintro rfl
    exact hspec'.not_cyclic q (.single hq)
  have hagree := h.edges_agree hroot
  exact
    { root := hget
      root' := h.get' hroot
      moves := h.moves
      rank := ⟨placed, h.move, rfl⟩
      flagged := h.grown.flagged_iff
      placed := hq
      others := fun y hy => (hagree y q hy).symm
      absent := fun hedge => h.notMem (hspec.edge_source hedge)
      above := fun z hz => hagree.symm.path_of_avoids
        (fun hback => h.avoids hroot hqx (hagree.symm.to_point hback)) hz
      live := hlive
      unflagged := fun ⟨n, hn, hid, _⟩ => h.notMem (hid ▸ List.mem_map_of_mem hn) }

end ItemAdded

section Split

variable {lib : FractionalIndexing} {Key : JsString → Prop} {actor : Actor} {doc doc' : Doc}
  {rootId x newId p : JsString} {offset : ℤ} {move placed : MoveRegister}

theorem splitItem_added (hmove : doc.moveOf x = some move) (hfresh : Fresh doc newId)
    (hrun : splitItem lib doc x offset newId actor = (.ok true, doc')) :
    ∃ placed, placed.parentId = move.parentId ∧ ItemAdded doc doc' newId placed ∧
      rankBetween lib (boundsAfter (doc.getChildren move.parentId) (some x)).1
        (boundsAfter (doc.getChildren move.parentId) (some x)).2 newId = .ok placed.rank := by
  by_cases hroom : RoomAfter lib doc move.parentId x newId
  · obtain ⟨rank, hrank⟩ := hroom
    obtain ⟨placed, hparent, rfl, hsplit⟩ := splitItem_with_room actor offset hmove hrank
    rw [hrun] at hsplit
    obtain rfl := congrArg Prod.snd hsplit
    have hne : newId ≠ x := by
      rintro rfl
      rw [Doc.moveOf, hfresh.absent] at hmove
      cases hmove
    have hroot : (truncated doc x offset).rootId ≠ some newId := by
      rw [truncated_rootId]
      exact hfresh.root
    have habsent : (truncated doc x offset).items.get newId = none := truncated_fresh hne hfresh.absent
    refine ⟨placed, hparent, ⟨hfresh, ?_, ?_, fun y hy => ?_, fun y hy => ?_, ?_, ?_⟩, hrank⟩
    · rw [hparent]
      exact hfresh.unnamed x move hmove
    · rw [insertContent_rootId, Doc.ensureContent, Doc.updateNode_rootId, Doc.writeMove_rootId,
        truncated_rootId]
    · simp only [insertContent_moveOf, Doc.ensureContent_moveOf]
      rw [writeMove_moveOf_other _ hy, truncated_moveOf]
    · rw [insertContent_placement, ensureContent_placement, placement_other hroot hy, truncated_placement]
    · simp only [insertContent_moveOf, Doc.ensureContent_moveOf]
      exact writeMove_moveOf_self hroot placed
    · rw [insertContent_placement, ensureContent_placement, placement_fresh hroot habsent]
  · obtain ⟨e, hsplit⟩ := splitItem_without_room actor offset hmove hroom
    rw [hrun] at hsplit
    cases hsplit

variable (h : ItemAdded doc doc' newId placed) (hroot : doc.rootId = some rootId)
  (hmove : doc.moveOf x = some move) (hparent : placed.parentId = move.parentId)

include h hroot hmove hparent

theorem added_shown (hx : x ∈ doc.childIds move.parentId) :
    Joins doc doc' rootId newId move.parentId placed.rank := by
  have hget := getRootId_eq hroot
  obtain ⟨hedge, hlive⟩ := (mem_childIds hget).mp hx
  apply h.joins hroot _ ((Doc.rooted_spec hget).ancestorsLive hedge hlive)
  rw [h.placed_edge hroot, hparent]
  split_ifs with hcase
  · by_contra hne
    obtain ⟨hraw, -⟩ := ((Doc.rooted_spec hget).edge_iff_raw (Ne.symm hne)).mp hedge
    obtain ⟨-, -, hplain, hlisted⟩ := (rawEdge_iff_moveOf hmove).mp hraw
    rcases hcase with hs | hno
    · exact hplain hs
    · rw [hno] at hlisted
      cases hlisted
  · rfl

omit hmove in
theorem added_recovered (hcase : move.parentId = ROOT_PARENT_SENTINEL ∨ doc.moveOf move.parentId = none) :
    Joins doc doc' rootId newId rootId placed.rank := by
  apply h.joins hroot
  · rw [h.placed_edge hroot, hparent, if_pos hcase]
  · intro z hz hne
    rcases ReflTransGen.cases_head hz with he | ⟨w, hw, -⟩
    · exact absurd he.symm hne
    · exact absurd rfl hw.1

theorem added_elsewhere (hcase : ¬ (move.parentId = ROOT_PARENT_SENTINEL ∨ doc.moveOf move.parentId = none))
    (hx : x ∉ doc.childIds move.parentId) : ¬ NextSibling doc' x newId := by
  intro hnext
  obtain ⟨q, hxq, hnew⟩ := hnext.mem
  have hedge := ((mem_childIds (h.get' hroot)).mp hnew).1
  rw [h.placed_edge hroot, hparent, if_neg hcase] at hedge
  rw [← hedge] at hxq
  have hne : x ≠ newId := by
    rintro rfl
    rw [Doc.moveOf, h.fresh.absent] at hmove
    cases hmove
  exact hx ((h.childIds_other hroot hne).mp hxq)

omit h hparent hmove in
theorem missing_childless (hne : p ≠ rootId) (hcase : p = ROOT_PARENT_SENTINEL ∨ doc.moveOf p = none) :
    doc.getChildren p = [] := by
  have hget := getRootId_eq hroot
  rw [List.eq_nil_iff_forall_not_mem]
  intro n hn
  have hedge := Doc.getChildren_edge hget hn
  obtain ⟨hraw, -⟩ := ((Doc.rooted_spec hget).edge_iff_raw hne).mp hedge
  obtain ⟨m, hm⟩ := Option.isSome_iff_exists.mp (mem_ids_iff.mp (rawEdge_source hraw))
  obtain ⟨-, -, hplain, hlisted⟩ := (rawEdge_iff_moveOf hm).mp hraw
  rcases hcase with hs | hno
  · exact hplain hs
  · rw [hno] at hlisted
    cases hlisted

omit h hparent in
theorem recovered_at_root (hx : x ∈ doc.childIds p) (hno : x ∉ doc.childIds move.parentId) : p = rootId := by
  have hget := getRootId_eq hroot
  by_contra hne
  obtain ⟨hraw, -⟩ := ((Doc.rooted_spec hget).edge_iff_raw hne).mp ((mem_childIds hget).mp hx).1
  obtain ⟨-, hp, -⟩ := (rawEdge_iff_moveOf hmove).mp hraw
  rw [hp] at hno
  exact hno hx

end Split

/-- A split that returned puts the new item below the one it splits exactly when that is shown under its raw
parent, or its raw parent is not there and the new id's first key happens to fit. -/
theorem splitItem_below_iff {lib : FractionalIndexing} {Key : JsString → Prop} (hlib : lib.Lawful Key)
    {actor : Actor} {doc doc' : Doc} {rootId x newId : JsString} {offset : ℤ}
    (hroot : doc.rootId = some rootId) (h : RanksValid Key doc) (hx : Visible doc x)
    (hfresh : Fresh doc newId) (hrun : splitItem lib doc x offset newId actor = (.ok true, doc')) :
    SplitsBelow doc doc' x newId ↔ SplitsInPlace lib doc rootId x newId := by
  obtain ⟨move, hmove⟩ := hx.moveOf
  obtain ⟨p, hp⟩ := hx.child
  obtain ⟨placed, hparent, hadded, hrank⟩ := splitItem_added hmove hfresh hrun
  rw [hadded.splitsBelow_iff hroot]
  simp only [SplitsInPlace, hmove, Option.some.injEq, exists_eq_left']
  by_cases hshown : x ∈ doc.childIds move.parentId
  · have hjoin := added_shown hadded hroot hmove hparent hshown
    rw [or_iff_left (fun hcase => hcase.1 hshown), and_iff_left hshown]
    obtain ⟨i, hat⟩ := List.mem_iff_getElem?.mp hshown
    obtain ⟨s, hs, rfl⟩ := standsAt_childIds.mpr hat
    have hgap := boundsAfter_gap h move.parentId (some s.id)
    have hbetween : Between (boundsAfter (doc.getChildren move.parentId) (some s.id)).1 placed.rank
        (boundsAfter (doc.getChildren move.parentId) (some s.id)).2 := by
      rcases rankBetween_gap hlib hgap newId with ⟨-, e, he⟩ | ⟨ht, -⟩
      · rw [hrank] at he
        cases he
      · obtain ⟨k, hk, -, hbetween⟩ := rankBetween_ok hlib (hgap.bounds ht) newId
        rw [hrank] at hk
        rwa [Except.ok.inj hk]
    by_cases hempty : s.id = []
    · refine iff_of_false (fun hnext => ?_) (not_not_intro hempty)
      rw [hempty] at hbetween
      have hlist :=
        hjoin.childIds_eq 0 (by simp) fun e he => rank_lt_compareOrder (before_place hbetween.2 e he)
      have hfirst : (doc'.childIds move.parentId)[0]? = some newId := by
        rw [hlist]
        rfl
      obtain ⟨j, hj, -⟩ := (nextSibling_iff (hadded.get' hroot) hfirst).mp hnext
      omega
    · apply iff_of_true _ hempty
      have hfound : (doc.getChildren move.parentId).findIdx? (fun n => n.id = s.id) = some i := by
        obtain ⟨j, hj, rfl⟩ :=
          (exists_standsAt_iff (doc.getChildren_ids_nodup move.parentId) s.id 0 (· = i)).mp
          ⟨i, standsAt_childIds.mpr hat, rfl⟩
        exact hj
      rw [boundsAfter_found hempty hfound] at hbetween
      exact nextSibling_between hs (hjoin.childIds_between hs hbetween)
  · have hp' := recovered_at_root hroot hmove hp hshown
    subst hp'
    rw [or_iff_right (fun hcase => hshown hcase.2), and_iff_right hshown]
    by_cases hcase : move.parentId = ROOT_PARENT_SENTINEL ∨ doc.moveOf move.parentId = none
    · have hjoin := added_recovered hadded hroot hparent hcase
      have hne : move.parentId ≠ p := by
        rintro rfl
        exact hshown hp
      have hbounds : boundsAfter (doc.getChildren move.parentId) (some x) = (none, none) := by
        rw [missing_childless hroot hne hcase, boundsAfter_absent rfl]
        rfl
      rw [hbounds] at hrank
      rw [hjoin.nextSibling_iff hmove, and_iff_right hp, and_iff_right hcase, hrank]
      simp only [Except.ok.injEq, exists_eq_left']
    · refine iff_of_false (added_elsewhere hadded hroot hmove hparent hcase hshown) (fun hno => hcase hno.1)

section Examples

theorem fresh_of_allNodes {doc : Doc} {newId : JsString} (habsent : doc.items.get newId = none)
    (hroot : doc.rootId ≠ some newId) (h : ∀ n ∈ doc.allNodes, n.parentId ≠ newId) : Fresh doc newId := by
  refine ⟨habsent, hroot, fun y move hmove => ?_⟩
  obtain ⟨n, hn, -, hparent, -⟩ := Doc.allNodes_of_moveOf hmove
  rw [← hparent]
  exact h n hn

theorem splitItem_below_bullets :
    SplitsBelow bullets (splitItem sampleKeys bullets (js ['a']) 0 (js ['z']) deviceA).2 (js ['a'])
      (js ['z']) ↔
      SplitsInPlace sampleKeys bullets (js ['r']) (js ['a']) (js ['z']) := by
  have hvisible : ∃ n ∈ bullets.placedNodes, n.id = js ['a'] ∧ bullets.isLive n = true := by decide
  have hrun : splitItem sampleKeys bullets (js ['a']) 0 (js ['z']) deviceA =
    (.ok true, (splitItem sampleKeys bullets (js ['a']) 0 (js ['z']) deviceA).2) := rfl
  exact splitItem_below_iff sampleKeys_lawful rfl
    (reachable_ranksValid sampleKeys_lawful bullets_reachable) hvisible
    (fresh_of_allNodes (by decide) (by decide) (by decide)) hrun

/-- `a` is shown at the top level; its split puts the new item below `b`, which is shown under `a`. -/
theorem splitItem_astray : sampleKeys.Lawful SampleKey ∧ Reachable sampleKeys (js ['r']) crossed ∧
    Visible crossed (js ['a']) ∧ Fresh crossed (js ['z']) ∧
    crossed.childIds (js ['r']) = [js ['k'], js ['a']] ∧
    (splitItem sampleKeys crossed (js ['a']) 0 (js ['z']) deviceA).1 = .ok true ∧
    (splitItem sampleKeys crossed (js ['a']) 0 (js ['z']) deviceA).2.childIds
    (js ['r']) = [js ['k'], js ['a']] ∧
    (splitItem sampleKeys crossed (js ['a']) 0 (js ['z']) deviceA).2.childIds (js ['b']) = [js ['z']] ∧
    ¬ SplitsBelow crossed (splitItem sampleKeys crossed (js ['a']) 0 (js ['z']) deviceA).2 (js ['a'])
      (js ['z']) := by
  have hvisible : ∃ n ∈ crossed.placedNodes, n.id = js ['a'] ∧ crossed.isLive n = true := by decide
  have htop : (splitItem sampleKeys crossed (js ['a']) 0 (js ['z']) deviceA).2.childIds (js ['r']) =
      [js ['k'], js ['a']] := by
    decide
  refine ⟨sampleKeys_lawful, crossed_reachable, hvisible,
    fresh_of_allNodes (by decide) (by decide) (by decide), by decide, rfl,
    htop, by decide, fun hbelow => ?_⟩
  obtain ⟨q, ha, hz⟩ := hbelow.next.mem
  have hroot : (splitItem sampleKeys crossed (js ['a']) 0 (js ['z']) deviceA).2.getRootId =
      some (js ['r']) := rfl
  have hq : q = js ['r'] := childIds_parent_unique hroot ha (by rw [htop]; simp)
  rw [hq, htop] at hz
  exact absurd hz (by decide)

end Examples

end OpenOutliner
