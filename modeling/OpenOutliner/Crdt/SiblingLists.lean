import OpenOutliner.Crdt.StructuralMoves
import OpenOutliner.Shared.SiblingMoves

namespace OpenOutliner

open Foundations Relation

def Doc.siblingKeys (doc : Doc) (p : JsString) : List (JsString × JsString) :=
  (doc.getChildren p).map siblingKey

/-- A reader sees `b` right after `a` in one list of children. -/
def NextSibling (doc : Doc) (a b : JsString) : Prop := ∃ q, [a, b] <:+: doc.childIds q

section Lists

variable {doc : Doc} {rootId x y p q a b : JsString}

theorem siblingKeys_ids (doc : Doc) (p : JsString) : (doc.siblingKeys p).map Prod.fst = doc.childIds p := by
  rw [Doc.siblingKeys, List.map_map]
  rfl

theorem siblingKeys_nodup (doc : Doc) (p : JsString) : ((doc.siblingKeys p).map Prod.fst).Nodup := by
  rw [siblingKeys_ids]
  exact doc.getChildren_ids_nodup p

theorem siblingKeys_pairwise (doc : Doc) (p : JsString) :
    (doc.siblingKeys p).Pairwise fun a b => compareOrder a b ≤ 0 := by
  rw [Doc.siblingKeys, List.pairwise_map]
  exact doc.getChildren_pairwise p

theorem mem_childIds (hget : doc.getRootId = some rootId) :
    x ∈ doc.childIds p ↔ EffectiveEdge rootId doc.effectiveTree x p ∧ x ∉ doc.effectiveTree.deleted := by
  constructor
  · intro hx
    obtain ⟨n, hn, rfl⟩ := List.mem_map.mp hx
    refine ⟨Doc.getChildren_edge hget hn, ?_⟩
    obtain ⟨-, hlive, -⟩ := Doc.mem_getChildren.mp hn
    simp only [Doc.isLive, Bool.not_eq_true', Bool.or_eq_false_iff, decide_eq_false_iff_not] at hlive
    exact hlive.1
  · rintro ⟨hedge, hlive⟩
    obtain ⟨t, ht, hid⟩ := List.mem_map.mp ((Doc.rooted_spec hget).edge_source hedge)
    obtain ⟨n, hn, rfl⟩ := List.mem_map.mp ht
    obtain rfl : n.id = x := hid
    refine List.mem_map.mpr ⟨{ n with parentId := p }, Doc.mem_getChildren.mpr ⟨?_, ?_, rfl⟩, rfl⟩
    · refine List.mem_map.mpr ⟨n, hn, ?_⟩
      rw [hedge.2, Option.getD_some]
    · simp only [Doc.isLive, hget, Bool.not_eq_true', Bool.or_eq_false_iff, decide_eq_false_iff_not,
        Option.some.injEq]
      exact ⟨hlive, hedge.1⟩

theorem mem_siblingKeys {r : JsString} :
    (x, r) ∈ doc.siblingKeys p ↔ x ∈ doc.childIds p ∧ ∃ move, doc.moveOf x = some move ∧ move.rank = r := by
  have hmove : ∀ {n : OutlineNode}, n ∈ doc.getChildren p → ∃ move, doc.moveOf n.id = some move ∧
      move.rank = n.rank := by
    intro n hn
    obtain ⟨raw, hraw, hid, hrank, -⟩ := Doc.getChildren_raw hn
    rw [← hid, ← hrank]
    exact ⟨_, Doc.allNodes_moveOf hraw, rfl⟩
  constructor
  · intro hx
    obtain ⟨n, hn, he⟩ := List.mem_map.mp hx
    obtain ⟨rfl, rfl⟩ := Prod.mk.inj he
    exact ⟨List.mem_map_of_mem hn, hmove hn⟩
  · rintro ⟨hx, move, hm, rfl⟩
    obtain ⟨n, hn, rfl⟩ := List.mem_map.mp hx
    obtain ⟨move', hm', hrank⟩ := hmove hn
    rw [hm] at hm'
    obtain rfl := Option.some.inj hm'
    exact List.mem_map.mpr ⟨n, hn, Prod.ext rfl hrank.symm⟩

theorem Visible.child (h : Visible doc x) : ∃ p, x ∈ doc.childIds p := by
  obtain ⟨n, hn, rfl, hlive⟩ := h
  exact ⟨n.parentId, List.mem_map_of_mem (Doc.mem_getChildren.mpr ⟨hn, hlive, rfl⟩)⟩

theorem mem_flattenVisible (hget : doc.getRootId = some rootId) :
    x ∈ doc.flattenVisible rootId (fun _ => false) ↔
      (doc.moveOf x).isSome = true ∧ x ≠ rootId ∧ x ∉ doc.effectiveTree.deleted := by
  have hspec := Doc.rooted_spec hget
  have hrows := (doc.visibleRows_listing (fun _ => false) hget rootId).1.mem_iff x
  have hids : doc.flattenVisible rootId (fun _ => false) =
      ((doc.visibleRows rootId fun _ => false).map fun r => (r.id, r.depth)).map Prod.fst := by
    rw [Doc.flattenVisible_eq, List.map_map]
    rfl
  rw [hids, hrows]
  change (∃ y ∈ doc.childIds rootId, ReflTransGen (ChildOf doc.childIds) x y) ↔ _
  constructor
  · rintro ⟨y, hy, hxy⟩
    obtain ⟨p, hp⟩ : ∃ p, x ∈ doc.childIds p := by
      rcases ReflTransGen.cases_head hxy with rfl | ⟨m, hm, -⟩
      · exact ⟨rootId, hy⟩
      · exact ⟨m, hm⟩
    obtain ⟨hedge, hlive⟩ := (mem_childIds hget).mp hp
    exact ⟨mem_ids_iff.mp (hspec.edge_source hedge), hedge.1, hlive⟩
  · rintro ⟨hmove, hne, hlive⟩
    have hreach := hspec.reaches x (mem_ids_iff.mpr hmove)
    clear hmove
    induction hreach using ReflTransGen.head_induction_on with
    | refl => exact absurd rfl hne
    | @head x q hedge _ ih =>
      have hchild := (mem_childIds hget).mpr ⟨hedge, hlive⟩
      by_cases hq : q = rootId
      · exact ⟨x, hq ▸ hchild, .refl⟩
      · have hqlive := hspec.parent_live hedge hlive
        obtain ⟨y, hy, hqy⟩ :=
          ih (doc.visibleRows_listing (fun _ => false) hget rootId |>.1.mem_iff q) hq hqlive
        exact ⟨y, hy, .head hchild hqy⟩

theorem visibleRows_recovered {isCollapsed : JsString → Bool} {row : VisibleRow}
    (h : row ∈ doc.visibleRows rootId isCollapsed) :
    row.recovered = decide (row.id ∈ doc.effectiveTree.recovered) := by
  unfold Doc.visibleRows Doc.visibleRowsWithin at h
  cases hdrain : drain (doc.shownChildren isCollapsed) (doc.allNodes.length + 1) []
      ((doc.getChildren rootId).map fun n => (n, 0)) with
  | none =>
    rw [hdrain] at h
    cases h
  | some out =>
    rw [hdrain, Option.map_some, Option.getD_some] at h
    obtain ⟨e, -, rfl⟩ := List.mem_map.mp h
    rfl

theorem childIds_parent_unique (hget : doc.getRootId = some rootId) (hp : x ∈ doc.childIds p)
    (hq : x ∈ doc.childIds q) :
    p = q :=
  effectiveEdge_unique ((mem_childIds hget).mp hp).1 ((mem_childIds hget).mp hq).1

theorem childIds_not_self (hget : doc.getRootId = some rootId) : x ∉ doc.childIds x := by
  intro hx
  exact (Doc.rooted_spec hget).not_cyclic x (.single ((mem_childIds hget).mp hx).1)

theorem NextSibling.mem (h : NextSibling doc a b) : ∃ q, a ∈ doc.childIds q ∧ b ∈ doc.childIds q := by
  obtain ⟨q, hq⟩ := h
  exact ⟨q, hq.subset (by simp), hq.subset (by simp)⟩

theorem not_nextSibling_of_child (hget : doc.getRootId = some rootId) (hb : b ∈ doc.childIds a) :
    ¬ NextSibling doc a b := by
  intro h
  obtain ⟨q, ha, hb'⟩ := h.mem
  obtain rfl := childIds_parent_unique hget hb hb'
  exact childIds_not_self hget ha

theorem standsAt_childIds {i : ℕ} : StandsAt (doc.getChildren p) i x ↔ (doc.childIds p)[i]? = some x := by
  rw [Doc.childIds, List.getElem?_map, Option.map_eq_some_iff]
  rfl

theorem nextSibling_at {i : ℕ} (ha : (doc.childIds p)[i]? = some a) (hb : (doc.childIds p)[i + 1]? = some b) :
    NextSibling doc a b := by
  obtain ⟨hi, rfl⟩ := List.getElem?_eq_some_iff.mp ha
  obtain ⟨hj, rfl⟩ := List.getElem?_eq_some_iff.mp hb
  refine ⟨p, (doc.childIds p).take i, (doc.childIds p).drop (i + 2), ?_⟩
  rw [List.append_assoc]
  simp

theorem nextSibling_iff (hget : doc.getRootId = some rootId) {i : ℕ} (hb : (doc.childIds p)[i]? = some b) :
    NextSibling doc a b ↔ ∃ j, i = j + 1 ∧ (doc.childIds p)[j]? = some a := by
  constructor
  · rintro ⟨q, l, r, hq⟩
    have hmem : b ∈ doc.childIds q := by
      rw [← hq]
      simp
    obtain rfl := childIds_parent_unique hget hmem (List.mem_of_getElem? hb)
    have hat : (doc.childIds q)[l.length + 1]? = some b := by
      rw [← hq]
      simp
    have hbefore : (doc.childIds q)[l.length]? = some a := by
      rw [← hq]
      simp
    have hi :=
      standsAt_unique (doc.getChildren_ids_nodup q) (standsAt_childIds.mpr hb) (standsAt_childIds.mpr hat)
    exact ⟨l.length, hi, hbefore⟩
  · rintro ⟨j, rfl, ha⟩
    exact nextSibling_at ha hb

end Lists

section Joining

variable {doc doc' : Doc} {rootId x y p q k : JsString}

/-- `doc'` has `x` in the list of children of `q`, where `doc` has the others. -/
structure Joins (doc doc' : Doc) (rootId x q k : JsString) : Prop where
  root : doc.getRootId = some rootId
  root' : doc'.getRootId = some rootId
  moves : ∀ y, y ≠ x → doc'.moveOf y = doc.moveOf y
  rank : ∃ move, doc'.moveOf x = some move ∧ move.rank = k
  flagged : ∀ y, FlaggedDeleted doc'.treeNodes y ↔ FlaggedDeleted doc.treeNodes y
  placed : EffectiveEdge rootId doc'.effectiveTree x q
  others : ∀ y, y ≠ x →
    (EffectiveEdge rootId doc'.effectiveTree y q ↔ EffectiveEdge rootId doc.effectiveTree y q)
  absent : ¬ EffectiveEdge rootId doc.effectiveTree x q
  above : ∀ z, ReflTransGen (EffectiveEdge rootId doc'.effectiveTree) q z →
    ReflTransGen (EffectiveEdge rootId doc.effectiveTree) q z
  live : AncestorsLive doc.treeNodes rootId doc.effectiveTree q
  unflagged : ¬ FlaggedDeleted doc.treeNodes x

namespace Joins

variable (h : Joins doc doc' rootId x q k)

include h

theorem live' : AncestorsLive doc'.treeNodes rootId doc'.effectiveTree q := by
  intro z hz hne
  rw [h.flagged]
  exact h.live z (h.above z hz) hne

theorem notMem : x ∉ doc.childIds q := fun hx => h.absent ((mem_childIds h.root).mp hx).1

theorem mem_childIds' : y ∈ doc'.childIds q ↔ y ∈ doc.childIds q ∨ y = x := by
  rw [mem_childIds h.root, mem_childIds h.root']
  by_cases hy : y = x
  · subst hy
    refine iff_of_true ⟨h.placed, ?_⟩ (Or.inr rfl)
    rw [(Doc.rooted_spec h.root').live_child h.placed h.live', h.flagged]
    exact h.unflagged
  · rw [or_iff_left hy, h.others y hy]
    apply and_congr_right
    intro hedge
    rw [(Doc.rooted_spec h.root).live_child hedge h.live,
      (Doc.rooted_spec h.root').live_child ((h.others y hy).mpr hedge) h.live', h.flagged]

theorem mem_siblingKeys' {r : JsString} : (y, r) ∈ doc'.siblingKeys q ↔
    (y, r) ∈ doc.siblingKeys q ∨ (y, r) = (x, k) := by
  rw [mem_siblingKeys, mem_siblingKeys, h.mem_childIds', Prod.mk.injEq]
  by_cases hy : y = x
  · subst hy
    obtain ⟨move, hmove, rfl⟩ := h.rank
    rw [hmove]
    simp [h.notMem, eq_comm]
  · rw [h.moves y hy]
    simp [hy]

theorem childIds_eq (n : ℕ) (hbefore : ∀ e ∈ (doc.siblingKeys q).take n, compareOrder e (x, k) ≤ 0)
    (hafter : ∀ e ∈ (doc.siblingKeys q).drop n, compareOrder (x, k) e ≤ 0) :
    doc'.childIds q = (doc.childIds q).take n ++ x :: (doc.childIds q).drop n := by
  have hnd : (((doc.siblingKeys q).take n ++ (x, k) :: (doc.siblingKeys q).drop n).map Prod.fst).Nodup := by
    have hperm : ((doc.siblingKeys q).take n ++ (x, k) :: (doc.siblingKeys q).drop n).Perm
        ((x, k) :: doc.siblingKeys q) := by
      refine List.perm_middle.trans (List.Perm.cons _ ?_)
      rw [List.take_append_drop]
    rw [(hperm.map Prod.fst).nodup_iff, List.map_cons, List.nodup_cons, siblingKeys_ids]
    exact ⟨h.notMem, doc.getChildren_ids_nodup q⟩
  have hperm :
      (doc'.siblingKeys q).Perm ((doc.siblingKeys q).take n ++ (x, k) :: (doc.siblingKeys q).drop n) := by
    apply (List.perm_ext_iff_of_nodup (List.Nodup.of_map _ (siblingKeys_nodup doc' q))
      (List.Nodup.of_map _ hnd)).mpr
    rintro ⟨y, r⟩
    rw [h.mem_siblingKeys', List.mem_append, List.mem_cons, or_left_comm, ← List.mem_append,
      List.take_append_drop, or_comm]
  have hsorted : ((doc.siblingKeys q).take n ++ (x, k) :: (doc.siblingKeys q).drop n).Pairwise
      fun a b => compareOrder a b ≤ 0 := by
    have hold := siblingKeys_pairwise doc q
    rw [← List.take_append_drop n (doc.siblingKeys q), List.pairwise_append] at hold
    rw [List.pairwise_append, List.pairwise_cons]
    refine ⟨hold.1, ⟨hafter, hold.2.1⟩, fun a ha b hb => ?_⟩
    rcases List.mem_cons.mp hb with rfl | hb
    · exact hbefore a ha
    · exact hold.2.2 a ha b hb
  have hkeys : doc'.siblingKeys q = (doc.siblingKeys q).take n ++ (x, k) :: (doc.siblingKeys q).drop n := by
    apply hperm.eq_of_pairwise _ (siblingKeys_pairwise doc' q) hsorted
    intro a b ha hb hab hba
    exact List.inj_on_of_nodup_map hnd (hperm.mem_iff.mp ha) hb (compareOrder_antisymm hab hba)
  rw [← siblingKeys_ids, ← siblingKeys_ids, hkeys, List.map_append, List.map_cons, List.map_take,
    List.map_drop]

end Joins

theorem rank_lt_compareOrder {a b : JsString × JsString} (h : a.2 < b.2) : compareOrder a b ≤ 0 :=
  (compareOrder_le_iff a b).mpr (Or.inl h)

theorem before_place {i : ℕ} (hk : ∀ r ∈ (doc.getChildren q)[i]?.map OutlineNode.rank, k < r) :
    ∀ e ∈ (doc.siblingKeys q).drop i, k < e.2 := by
  intro e he
  rw [Doc.siblingKeys, ← List.map_drop] at he
  obtain ⟨n, hn, rfl⟩ := List.mem_map.mp he
  obtain ⟨j, hj, rfl⟩ := List.mem_drop_iff_getElem.mp hn
  have hi : i < (doc.getChildren q).length := by omega
  have hup : k < (doc.getChildren q)[i].rank := hk _ (by rw [List.getElem?_eq_getElem hi]; rfl)
  rcases Nat.eq_zero_or_pos j with rfl | hpos
  · exact hup
  · have hsorted :=
      List.pairwise_iff_getElem.mp (doc.getChildren_pairwise q) i (i + j) hi (by omega) (by omega)
    exact lt_of_lt_of_le hup (compareOrder_rank_le hsorted)

theorem after_place {i : ℕ} {s : OutlineNode} (hs : (doc.getChildren q)[i]? = some s) (hk : s.rank < k) :
    ∀ e ∈ (doc.siblingKeys q).take (i + 1), e.2 < k := by
  obtain ⟨hi, rfl⟩ := List.getElem?_eq_some_iff.mp hs
  intro e he
  rw [Doc.siblingKeys, ← List.map_take] at he
  obtain ⟨n, hn, rfl⟩ := List.mem_map.mp he
  obtain ⟨j, hj, rfl⟩ := List.mem_take_iff_getElem.mp hn
  rcases Nat.lt_or_ge j i with hlt | hge
  · have hsorted := List.pairwise_iff_getElem.mp (doc.getChildren_pairwise q) j i (by omega) hi hlt
    exact lt_of_le_of_lt (compareOrder_rank_le hsorted) hk
  · obtain rfl : j = i := by omega
    exact hk

theorem between_splits {i : ℕ} {s : OutlineNode} (hs : (doc.getChildren q)[i]? = some s)
    (hk : Between ((doc.getChildren q)[i]?.map OutlineNode.rank) k
      ((doc.getChildren q)[i + 1]?.map OutlineNode.rank)) :
    (∀ e ∈ (doc.siblingKeys q).take (i + 1), e.2 < k) ∧ ∀ e ∈ (doc.siblingKeys q).drop (i + 1), k < e.2 :=
  ⟨after_place hs (hk.1 _ (by rw [hs]; rfl)), before_place hk.2⟩

theorem Joins.childIds_between (h : Joins doc doc' rootId x q k) {i : ℕ} {s : OutlineNode}
    (hs : (doc.getChildren q)[i]? = some s)
    (hk : Between ((doc.getChildren q)[i]?.map OutlineNode.rank) k
      ((doc.getChildren q)[i + 1]?.map OutlineNode.rank)) :
    doc'.childIds q = (doc.childIds q).take (i + 1) ++ x :: (doc.childIds q).drop (i + 1) := by
  obtain ⟨hbefore, hafter⟩ := between_splits hs hk
  exact h.childIds_eq (i + 1) (fun e he => rank_lt_compareOrder (hbefore e he)) fun e he =>
    rank_lt_compareOrder (hafter e he)

theorem nextSibling_between {i : ℕ} {s : OutlineNode} (hs : (doc.getChildren q)[i]? = some s)
    (h : doc'.childIds q = (doc.childIds q).take (i + 1) ++ x :: (doc.childIds q).drop (i + 1)) :
    NextSibling doc' s.id x := by
  have hat : (doc.childIds q)[i]? = some s.id := by
    rw [Doc.childIds, List.getElem?_map, hs, Option.map_some]
  obtain ⟨hi, hid⟩ := List.getElem?_eq_some_iff.mp hat
  refine ⟨q, (doc.childIds q).take i, (doc.childIds q).drop (i + 1), ?_⟩
  rw [h, List.take_add_one, hat]
  simp

theorem siblingKeys_at {i : ℕ} (hx : (doc.childIds q)[i]? = some x) :
    ∃ move, doc.moveOf x = some move ∧ (doc.siblingKeys q)[i]? = some (x, move.rank) := by
  rw [← siblingKeys_ids, List.getElem?_map, Option.map_eq_some_iff] at hx
  obtain ⟨⟨y, r⟩, hat, rfl⟩ := hx
  obtain ⟨-, move, hmove, rfl⟩ := mem_siblingKeys.mp (List.mem_of_getElem? hat)
  exact ⟨move, hmove, hat⟩

theorem siblingKeys_le_iff {i j : ℕ} {d e : JsString × JsString} (hd : (doc.siblingKeys q)[i]? = some d)
    (he : (doc.siblingKeys q)[j]? = some e) : compareOrder e d ≤ 0 ↔ j ≤ i := by
  have hsorted := List.pairwise_iff_getElem.mp (siblingKeys_pairwise doc q)
  obtain ⟨hi, rfl⟩ := List.getElem?_eq_some_iff.mp hd
  obtain ⟨hj, rfl⟩ := List.getElem?_eq_some_iff.mp he
  constructor
  · intro hle
    by_contra hlt
    have hid : (doc.siblingKeys q)[j].1 = (doc.siblingKeys q)[i].1 :=
      compareOrder_antisymm hle (hsorted i j hi hj (by omega))
    rw [← List.getElem_map Prod.fst (h := by rwa [List.length_map]),
      ← List.getElem_map Prod.fst (h := by rwa [List.length_map]),
      (siblingKeys_nodup doc q).getElem_inj_iff] at hid
    omega
  · intro hle
    rcases hle.lt_or_eq with hlt | rfl
    · exact hsorted j i hj hi hlt
    · exact (compareOrder_le_iff _ _).mpr (Or.inr ⟨rfl, le_rfl⟩)

theorem Joins.nextSibling_iff (h : Joins doc doc' rootId x q k) {move : MoveRegister}
    (hmove : doc.moveOf y = some move) :
    NextSibling doc' y x ↔ y ∈ doc.childIds q ∧
      ∀ e ∈ doc.siblingKeys q, (compareOrder e (x, k) ≤ 0 ↔ compareOrder e (y, move.rank) ≤ 0) := by
  constructor
  · intro hnext
    have hxin : x ∈ doc'.childIds q := h.mem_childIds'.mpr (Or.inr rfl)
    obtain ⟨n, hxat⟩ := List.mem_iff_getElem?.mp hxin
    obtain ⟨i, rfl, hyat⟩ := (OpenOutliner.nextSibling_iff h.root' hxat).mp hnext
    have hyx : y ≠ x := by
      rintro rfl
      have := standsAt_unique (doc'.getChildren_ids_nodup q) (standsAt_childIds.mpr hyat)
          (standsAt_childIds.mpr hxat)
      omega
    obtain ⟨ymove, hymove, hykey⟩ := siblingKeys_at hyat
    obtain ⟨xmove, hxmove, hxkey⟩ := siblingKeys_at hxat
    rw [h.moves y hyx, hmove] at hymove
    obtain rfl := Option.some.inj hymove
    obtain ⟨xmove', hxmove', rfl⟩ := h.rank
    rw [hxmove] at hxmove'
    obtain rfl := Option.some.inj hxmove'
    refine ⟨(h.mem_childIds'.mp (List.mem_of_getElem? hyat)).resolve_right hyx, ?_⟩
    rintro ⟨z, r⟩ he
    obtain ⟨j, hj⟩ := List.mem_iff_getElem?.mp (h.mem_siblingKeys'.mpr (Or.inl he))
    rw [siblingKeys_le_iff hxkey hj, siblingKeys_le_iff hykey hj]
    have hne : j ≠ i + 1 := by
      rintro rfl
      rw [hxkey] at hj
      rw [← Option.some.inj hj] at he
      exact h.notMem (mem_siblingKeys.mp he).1
    omega
  · rintro ⟨hy, hsplit⟩
    obtain ⟨i, hyat⟩ := List.mem_iff_getElem?.mp hy
    obtain ⟨ymove, hymove, hykey⟩ := siblingKeys_at hyat
    rw [hmove] at hymove
    obtain rfl := Option.some.inj hymove
    obtain ⟨s, hs, rfl⟩ := standsAt_childIds.mpr hyat
    apply nextSibling_between hs
    apply h.childIds_eq
    · intro e he
      obtain ⟨j, hj, rfl⟩ := List.mem_take_iff_getElem.mp he
      have hat : (doc.siblingKeys q)[j]? = some (doc.siblingKeys q)[j] := List.getElem?_eq_getElem _
      rw [hsplit _ (List.mem_of_getElem? hat), siblingKeys_le_iff hykey hat]
      omega
    · intro e he
      obtain ⟨j, hj, rfl⟩ := List.mem_drop_iff_getElem.mp he
      have hat : (doc.siblingKeys q)[i + 1 + j]? = some (doc.siblingKeys q)[i + 1 + j] :=
        List.getElem?_eq_getElem _
      apply (compareOrder_total _ _).resolve_right
      rw [hsplit _ (List.mem_of_getElem? hat), siblingKeys_le_iff hykey hat]
      omega

end Joining

end OpenOutliner
