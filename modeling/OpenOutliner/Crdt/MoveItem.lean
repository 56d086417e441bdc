import OpenOutliner.Crdt.SiblingSwaps
import OpenOutliner.Shared.CycleExit

namespace OpenOutliner

open Foundations Relation

/-- The item to place after, where an empty id is none. -/
def named (afterId : Option JsString) : Option JsString := afterId.filter (· ≠ [])

def keptBeside (doc' : Doc) (p x : JsString) (l : List JsString) : List JsString :=
  l.filter fun y => y ≠ x ∧ y ∈ doc'.childIds p

/-- `x` is a child of `p` at the place that `afterId` names. The only child that `p` can lose is the
recovered member of a raw cycle that `x` leaves. -/
structure MovesItem (doc doc' : Doc) (rootId x p : JsString) (afterId : Option JsString) : Prop where
  parent : EffectiveEdge rootId doc'.effectiveTree x p
  unrecovered : x ∈ doc'.effectiveTree.recovered → p = rootId ∧ doc.moveOf rootId = none
  after : ∀ a ∈ afterId, a ∈ doc.childIds p → a ∈ doc'.childIds p → ∃ l r, doc'.childIds p = l ++ a :: x :: r
  place : ∀ a ∈ afterId, a ∈ doc.childIds p → ∃ l r, doc.childIds p = l ++ a :: r ∧
    doc'.childIds p = keptBeside doc' p x (l ++ [a]) ++ x :: keptBeside doc' p x r
  first : (∀ a ∈ afterId, a ∉ doc.childIds p) → doc'.childIds p = x :: keptBeside doc' p x (doc.childIds p)
  order : (doc'.childIds p).filter (· ≠ x) = keptBeside doc' p x (doc.childIds p)
  leaves : ∀ y ∈ doc.childIds p, y ≠ x → y ∉ doc'.childIds p → y ∈ doc.effectiveTree.recovered ∧
    Heads doc.treeNodes rootId x y

section Command

variable {lib : FractionalIndexing} {Key : JsString → Prop} {doc doc' : Doc} {rootId x p : JsString}
  {afterId : Option JsString} {actor : Actor}

theorem moveItem_kept {r : Except JsError Bool} (hrun : moveItem lib doc x p afterId actor = (r, doc'))
    (hr : r ≠ .ok true) :
    doc' = doc := by
  unfold moveItem at hrun
  split at hrun
  · cases hrun
    rfl
  · split at hrun
    · cases hrun
      rfl
    · exact placeBetween_kept hrun hr

theorem moveItem_refuses (hp : p = x ∨ doc.isDescendantOf p x = true) :
    moveItem lib doc x p afterId actor = (.ok false, doc) := by
  unfold moveItem
  apply if_pos
  rw [Bool.or_eq_true, decide_eq_true_eq]
  exact hp.symm

theorem moveItem_placed (hlib : lib.Lawful Key) (h : RanksValid Key doc)
    (hrun : moveItem lib doc x p afterId actor = (.ok true, doc')) :
    doc.isDescendantOf p x = false ∧ ∃ placed : MoveRegister, placed.parentId = p ∧
      Between (boundsAfter (doc.getChildren p) afterId).1 placed.rank
        (boundsAfter (doc.getChildren p) afterId).2 ∧
      doc' = doc.writeMove x placed := by
  unfold moveItem at hrun
  split at hrun
  · cases hrun
  · rename_i hguard
    rw [Bool.or_eq_true, not_or, Bool.not_eq_true] at hguard
    refine ⟨hguard.1, ?_⟩
    split at hrun
    · cases hrun
    · exact placeBetween_placed hlib (boundsAfter_gap h p afterId) hrun

theorem boundsAfter_splits {k : JsString}
    (hk : Between (boundsAfter (doc.getChildren p) afterId).1 k (boundsAfter (doc.getChildren p) afterId).2) :
    ∃ n, (∀ e ∈ (doc.siblingKeys p).take n, e.2 < k) ∧ (∀ e ∈ (doc.siblingKeys p).drop n, k < e.2) ∧
      ((∃ a i, named afterId = some a ∧ (doc.childIds p)[i]? = some a ∧ n = i + 1) ∨
        (∀ a ∈ named afterId, a ∉ doc.childIds p) ∧ n = 0) := by
  cases afterId with
  | none => exact ⟨0, by simp, before_place hk.2, Or.inr ⟨by simp [named], rfl⟩⟩
  | some a =>
    by_cases ha : a = []
    · subst ha
      exact ⟨0, by simp, before_place hk.2, Or.inr ⟨by simp [named], rfl⟩⟩
    · have hnamed : named (some a) = some a := by simp [named, ha]
      rw [hnamed]
      cases hfind : (doc.getChildren p).findIdx? fun s => s.id = a with
      | none =>
        rw [boundsAfter_absent hfind] at hk
        refine ⟨0, by simp, before_place hk.2, Or.inr ⟨?_, rfl⟩⟩
        rintro b ⟨⟩
        exact findIdx?_absent hfind
      | some i =>
        rw [boundsAfter_found ha hfind] at hk
        obtain ⟨s, hs, hid⟩ := findIdx?_standsAt hfind
        obtain ⟨hlow, hhigh⟩ := between_splits hs hk
        exact ⟨i + 1, hlow, hhigh, Or.inl ⟨a, i, rfl, standsAt_childIds.mp ⟨s, hs, hid⟩, rfl⟩⟩

end Command

section Written

variable {doc : Doc} {rootId x y q p : JsString} {placed : MoveRegister} (hroot : doc.rootId = some rootId)
  (hx : x ∈ doc.childIds q) (hp : p = rootId ∨ ∃ g, p ∈ doc.childIds g) (hplain : p ≠ ROOT_PARENT_SENTINEL)
  (hparent : placed.parentId = p) (hback : ¬ ReflTransGen (RawEdge doc.treeNodes rootId) p x)

include hroot hp

theorem target_ancestorsLive : AncestorsLive doc.treeNodes rootId doc.effectiveTree p := by
  rcases hp with rfl | ⟨g, hg⟩
  · intro z hz hne
    rcases ReflTransGen.cases_head hz with he | ⟨w, hw, -⟩
    · exact absurd he.symm hne
    · exact absurd rfl hw.1
  · obtain ⟨hedge, hlive⟩ := (mem_childIds (getRootId_eq hroot)).mp hg
    exact (Doc.rooted_spec (getRootId_eq hroot)).ancestorsLive_self hedge hlive

theorem target_listed : p = rootId ∨ p ∈ ids doc.treeNodes := by
  rcases hp with rfl | ⟨g, hg⟩
  · exact Or.inl rfl
  · exact Or.inr
      ((Doc.rooted_spec (getRootId_eq hroot)).edge_source ((mem_childIds (getRootId_eq hroot)).mp hg).1)

include hx hparent hback

theorem moved_ancestorsLive :
    AncestorsLive (doc.writeMove x placed).treeNodes rootId (doc.writeMove x placed).effectiveTree p := by
  obtain ⟨hne, h⟩ := child_reparented hroot placed hx
  rw [hparent] at h
  intro z hz hzne
  rw [h.flagged_iff]
  exact target_ancestorsLive hroot hp z (exit_above h hback (Doc.rooted_spec (getRootId_eq hroot))
    (Doc.rooted_spec (written_rootId hroot x placed)) hne hz) hzne

theorem moved_other (hy : y ≠ x) : y ∈ (doc.writeMove x placed).childIds p ↔
    y ∈ doc.childIds p ∧ ¬ Heads doc.treeNodes rootId x y := by
  have hget := getRootId_eq hroot
  have hget' := written_rootId hroot x placed
  have ht := Doc.rooted_spec hget
  have ht' := Doc.rooted_spec hget'
  obtain ⟨hne, h⟩ := child_reparented hroot placed hx
  rw [hparent] at h
  have hedges := exit_edge_iff h hback ht ht' hy
  rw [mem_childIds hget, mem_childIds hget']
  constructor
  · rintro ⟨hedge', hlive⟩
    obtain ⟨hedge, hheads⟩ := hedges.mp hedge'
    rw [ht'.live_child hedge' (moved_ancestorsLive hroot hx hp hparent hback), h.flagged_iff] at hlive
    exact ⟨⟨hedge, (ht.live_child hedge (target_ancestorsLive hroot hp)).mpr hlive⟩, hheads⟩
  · rintro ⟨⟨hedge, hlive⟩, hheads⟩
    have hedge' := hedges.mpr ⟨hedge, hheads⟩
    rw [ht.live_child hedge (target_ancestorsLive hroot hp)] at hlive
    refine ⟨hedge', ?_⟩
    rw [ht'.live_child hedge' (moved_ancestorsLive hroot hx hp hparent hback), h.flagged_iff]
    exact hlive

theorem moved_recovered (hrec : x ∈ (doc.writeMove x placed).effectiveTree.recovered)
    (hplain : p ≠ ROOT_PARENT_SENTINEL) :
    p = rootId ∧ doc.moveOf rootId = none := by
  obtain ⟨hne, h⟩ := child_reparented hroot placed hx
  rw [hparent] at h
  have hlisted :=
    (Doc.rooted_spec (getRootId_eq hroot)).edge_source ((mem_childIds (getRootId_eq hroot)).mp hx).1
  obtain ⟨rfl, hno⟩ :=
    exit_recovered_new h hback (Doc.rooted_spec (written_rootId hroot x placed)) hne hlisted hplain
    (target_listed hroot hp) hrec
  refine ⟨rfl, ?_⟩
  rw [mem_ids_iff, Bool.not_eq_true, Option.isSome_eq_false_iff, Option.isNone_iff_eq_none] at hno
  exact hno

theorem moved_child (hplain : p ≠ ROOT_PARENT_SENTINEL) :
    EffectiveEdge rootId (doc.writeMove x placed).effectiveTree x p ∧
    x ∈ (doc.writeMove x placed).childIds p := by
  obtain ⟨hne, h⟩ := child_reparented hroot placed hx
  rw [hparent] at h
  have hget' := written_rootId hroot x placed
  have ht := Doc.rooted_spec (getRootId_eq hroot)
  have ht' := Doc.rooted_spec hget'
  have hlisted := ht.edge_source ((mem_childIds (getRootId_eq hroot)).mp hx).1
  have hedge := exit_placed h hback ht' hne hlisted hplain (target_listed hroot hp)
  refine ⟨hedge, (mem_childIds hget').mpr ⟨hedge, ?_⟩⟩
  rw [ht'.live_child hedge (moved_ancestorsLive hroot hx hp hparent hback), h.flagged_iff]
  exact child_unflagged hroot hx

theorem moved_list {n : ℕ} (hplain : p ≠ ROOT_PARENT_SENTINEL)
    (hlow : ∀ e ∈ (doc.siblingKeys p).take n, e.2 < placed.rank)
    (hhigh : ∀ e ∈ (doc.siblingKeys p).drop n, placed.rank < e.2) : (doc.writeMove x placed).childIds p =
      keptBeside (doc.writeMove x placed) p x ((doc.childIds p).take n) ++
        x :: keptBeside (doc.writeMove x placed) p x ((doc.childIds p).drop n) := by
  have hmove : (doc.writeMove x placed).moveOf x = some placed :=
    writeMove_moveOf_self (root_apart hroot ((mem_childIds (getRootId_eq hroot)).mp hx).1.1) placed
  have hrank : ∀ y ∈ (doc.writeMove x placed).childIds p,
      ∃ m, (doc.writeMove x placed).moveOf y = some m := by
    intro y hy
    have ht' := Doc.rooted_spec (written_rootId hroot x placed)
    exact Option.isSome_iff_exists.mp
      (mem_ids_iff.mp (ht'.edge_source ((mem_childIds (written_rootId hroot x placed)).mp hy).1))
  have hkept : ∀ {y l}, y ∈ keptBeside (doc.writeMove x placed) p x l ↔
      y ∈ l ∧ y ≠ x ∧ y ∈ (doc.writeMove x placed).childIds p := by
    intro y l
    simp [keptBeside]
  have hold : (keptBeside (doc.writeMove x placed) p x (doc.childIds p)).Pairwise
      (doc.writeMove x placed).Precedes := by
    apply ((childIds_ordered doc p).sublist List.filter_sublist).imp_of_mem
    intro a b ha hb hab
    exact precedes_congr (writeMove_moveOf_other placed (hkept.mp ha).2.1)
      (writeMove_moveOf_other placed (hkept.mp hb).2.1) hab
  rw [← List.take_append_drop n (doc.childIds p), keptBeside, List.filter_append,
    List.pairwise_append] at hold
  apply ordered_unique (childIds_ordered (doc.writeMove x placed) p)
  · rw [List.pairwise_append]
    refine ⟨hold.1, List.pairwise_cons.mpr ⟨?_, hold.2.1⟩, ?_⟩
    · intro b hb
      obtain ⟨hdrop, hne, hchild⟩ := hkept.mp hb
      obtain ⟨m, hm⟩ := hrank b hchild
      rw [← siblingKeys_ids, ← List.map_drop] at hdrop
      rw [writeMove_moveOf_other placed hne] at hm
      refine ⟨placed, hmove, m, (writeMove_moveOf_other placed hne).trans hm, Or.inl ?_⟩
      exact ranks_of_keys (P := fun r => placed.rank < r) (List.drop_sublist n _) hhigh hdrop hm
    · intro a ha b hb
      rcases List.mem_cons.mp hb with rfl | hb
      · obtain ⟨htake, hne, hchild⟩ := hkept.mp ha
        obtain ⟨m, hm⟩ := hrank a hchild
        rw [← siblingKeys_ids, ← List.map_take] at htake
        rw [writeMove_moveOf_other placed hne] at hm
        refine ⟨m, (writeMove_moveOf_other placed hne).trans hm, placed, hmove, Or.inl ?_⟩
        exact ranks_of_keys (P := fun r => r < placed.rank) (List.take_sublist n _) hlow htake hm
      · exact hold.2.2 a ha b hb
  · intro y
    rw [List.mem_append, List.mem_cons, hkept, hkept, or_left_comm, ← or_and_right, ← List.mem_append,
      List.take_append_drop]
    by_cases hy : y = x
    · simp [hy, (moved_child hroot hx hp hparent hback hplain).2]
    · simp only [hy, false_or, ne_eq, not_false_eq_true, true_and]
      exact ⟨fun hchild => ⟨((moved_other hroot hx hp hparent hback hy).mp hchild).1, hchild⟩, And.right⟩

omit hp in
theorem moved_cycles : rawCycles (doc.writeMove x placed) rootId ⊆ rawCycles doc rootId := by
  obtain ⟨hne, h⟩ := child_reparented hroot placed hx
  rw [hparent] at h
  rintro c ⟨y, hcyc, rfl⟩
  obtain ⟨hold, hy⟩ := (exit_cycle_iff h hback).mp hcyc
  refine ⟨y, hold, ?_⟩
  ext z
  exact exit_path h hy

end Written

section Lists

variable {doc' : Doc} {p x a : JsString} {l l' : List JsString}

theorem keptBeside_append : keptBeside doc' p x (l ++ l') =
    keptBeside doc' p x l ++ keptBeside doc' p x l' := List.filter_append ..

theorem keptBeside_kept (hne : a ≠ x) (ha : a ∈ doc'.childIds p) : keptBeside doc' p x [a] = [a] := by
  simp [keptBeside, hne, ha]

theorem keptBeside_ne : (keptBeside doc' p x l).filter (· ≠ x) = keptBeside doc' p x l := by
  apply List.filter_eq_self.mpr
  intro y hy
  simp only [keptBeside, List.mem_filter, decide_eq_true_eq] at hy
  simpa using hy.2.1

end Lists

section MoveItem

variable {lib : FractionalIndexing} {Key : JsString → Prop} (hlib : lib.Lawful Key) {doc doc' : Doc}
  {rootId x p q : JsString} {afterId : Option JsString} {actor : Actor} (hroot : doc.rootId = some rootId)
  (h : RanksValid Key doc) (hx : x ∈ doc.childIds q) (hp : p = rootId ∨ ∃ g, p ∈ doc.childIds g)

include hroot hx

theorem moveItem_below (hpath : p = x ∨ TransGen (EffectiveEdge rootId doc.effectiveTree) p x) :
    moveItem lib doc x p afterId actor = (.ok false, doc) := by
  apply moveItem_refuses
  rcases hpath with hpx | hpath
  · exact Or.inl hpx
  · have ht := Doc.rooted_spec (getRootId_eq hroot)
    have hne := ((mem_childIds (getRootId_eq hroot)).mp hx).1.1
    exact Or.inr (isDescendantOf_of_path (effective_path_raw ht hne hpath.to_reflTransGen))

include hlib h hp

theorem moveItem_moves (hafter : afterId ≠ some x)
    (hrun : moveItem lib doc x p afterId actor = (.ok true, doc')) :
    rawCycles doc' rootId ⊆ rawCycles doc rootId ∧
      (p ≠ ROOT_PARENT_SENTINEL → MovesItem doc doc' rootId x p (named afterId)) := by
  obtain ⟨hguard, placed, hparent, hbetween, rfl⟩ := moveItem_placed hlib h hrun
  have hback : ¬ ReflTransGen (RawEdge doc.treeNodes rootId) p x := by
    intro hpath
    rw [isDescendantOf_of_path hpath] at hguard
    cases hguard
  refine ⟨moved_cycles hroot hx hparent hback, fun hplain => ?_⟩
  obtain ⟨n, hlow, hhigh, hplace⟩ := boundsAfter_splits hbetween
  have hlist := moved_list hroot hx hp hparent hback hplain hlow hhigh
  -- the place that `afterId` names is right before the split
  have hnamed : ∀ a ∈ named afterId, a ∈ doc.childIds p →
      ∃ i, a ≠ x ∧ (doc.childIds p).take n = (doc.childIds p).take i ++ [a] := by
    intro a ha hchild
    rcases hplace with ⟨b, i, hb, hat, rfl⟩ | ⟨hno, -⟩
    · obtain rfl := Option.mem_unique ha hb
      refine ⟨i, ?_, by rw [List.take_add_one, hat, Option.toList_some]⟩
      rintro rfl
      exact hafter (Option.mem_filter_iff.mp ha).1
    · exact absurd hchild (hno a ha)
  constructor
  · exact (moved_child hroot hx hp hparent hback hplain).1
  · exact fun hrec => moved_recovered hroot hx hp hparent hback hrec hplain
  · intro a ha hchild hkept
    obtain ⟨i, hne, htake⟩ := hnamed a ha hchild
    rw [htake, keptBeside_append, keptBeside_kept hne hkept, List.append_assoc] at hlist
    exact ⟨_, _, hlist⟩
  · intro a ha hchild
    obtain ⟨i, -, htake⟩ := hnamed a ha hchild
    rw [htake] at hlist
    refine ⟨_, _, ?_, hlist⟩
    have hsplit := List.take_append_drop n (doc.childIds p)
    rw [htake, List.append_assoc] at hsplit
    exact hsplit.symm
  · intro hno
    rcases hplace with ⟨a, i, ha, hat, -⟩ | ⟨-, rfl⟩
    · exact absurd (List.mem_of_getElem? hat) (hno a ha)
    · exact hlist
  · rw [hlist, List.filter_append, List.filter_cons_of_neg (by simp), keptBeside_ne, keptBeside_ne,
      ← keptBeside_append,
      List.take_append_drop]
  · intro y hy hne hgone
    rw [moved_other hroot hx hp hparent hback hne, not_and, not_not] at hgone
    have hheads := hgone hy
    exact ⟨((Doc.rooted_spec (getRootId_eq hroot)).recovered y).mpr (Or.inr hheads.1), hheads⟩

end MoveItem

theorem moveItem_contract {lib : FractionalIndexing} {Key : JsString → Prop} (hlib : lib.Lawful Key)
    {doc : Doc} {rootId x p : JsString} (hroot : doc.rootId = some rootId) (h : RanksValid Key doc)
    (hx : Visible doc x) (hp : p = rootId ∨ Visible doc p) {afterId : Option JsString}
    (hafter : afterId ≠ some x) (actor : Actor) :
    (∀ doc', moveItem lib doc x p afterId actor = (.ok true, doc') →
      rawCycles doc' rootId ⊆ rawCycles doc rootId ∧
      (p ≠ ROOT_PARENT_SENTINEL → MovesItem doc doc' rootId x p (named afterId))) ∧
    (∀ doc', moveItem lib doc x p afterId actor = (.ok false, doc') → doc' = doc) ∧
    (p = x ∨ TransGen (EffectiveEdge rootId doc.effectiveTree) p x →
      moveItem lib doc x p afterId actor = (.ok false, doc)) := by
  obtain ⟨q, hq⟩ := hx.child
  refine ⟨fun doc' hrun => ?_, fun doc' hrun => moveItem_kept hrun (by simp), moveItem_below hroot hq⟩
  exact moveItem_moves hlib hroot h hq (hp.imp_right Visible.child) hafter hrun

section Examples

def namelessDoc : Doc :=
  placedDoc (js ['r']) [(js ['r'], ROOT_PARENT_SENTINEL), ([], js ['r']), (js ['x'], js ['r'])]

theorem moveItem_contract_bullets :
    let moved := (moveItem sampleKeys bullets (js ['k']) (js ['r']) (some (js ['a'])) deviceA).2
    moveItem sampleKeys bullets (js ['k']) (js ['r']) (some (js ['a'])) deviceA = (.ok true, moved) ∧
      MovesItem bullets moved (js ['r']) (js ['k']) (js ['r']) (some (js ['a'])) ∧
      bullets.childIds (js ['r']) = [js ['k'], js ['a'], js ['b']] ∧
      moved.childIds (js ['r']) = [js ['a'], js ['k'], js ['b']] := by
  have hvisible : ∃ n ∈ bullets.placedNodes, n.id = js ['k'] ∧ bullets.isLive n = true := by decide
  have hranks := reachable_ranksValid sampleKeys_lawful bullets_reachable
  have hcontract :=
    moveItem_contract sampleKeys_lawful (show bullets.rootId = some (js ['r']) from rfl) hranks hvisible
    (Or.inl rfl) (show some (js ['a']) ≠ some (js ['k']) by decide) deviceA
  exact ⟨rfl, (hcontract.1 _ rfl).2 (by decide), by decide, by decide⟩

/-- `b` leaves its cycle for the place after `a`, and `a` falls back under `b`. Before the root has arrived,
and under an item named like the parent of the root, the item is recovered. An item with an empty id has
nothing placed after it. -/
theorem moveItem_misses :
    (Reachable sampleKeys (js ['r']) crossed ∧ Visible crossed (js ['b']) ∧
      crossed.childIds (js ['r']) = [js ['k'], js ['a']] ∧
      (moveItem sampleKeys crossed (js ['b']) (js ['r']) (some (js ['a'])) deviceA).1 = .ok true ∧
      (moveItem sampleKeys crossed (js ['b']) (js ['r']) (some (js ['a'])) deviceA).2.childIds (js ['r']) =
        [js ['k'], js ['b']]) ∧
    (rootlessDoc.schemaVersion = some 2 ∧ rootlessDoc.rootId = some (js ['r']) ∧
      Visible rootlessDoc (js ['b']) ∧
      (moveItem sampleKeys rootlessDoc (js ['b']) (js ['r']) none deviceA).1 = .ok true ∧
      js ['b'] ∈
      (moveItem sampleKeys rootlessDoc (js ['b']) (js ['r']) none deviceA).2.effectiveTree.recovered) ∧
    (sentinelItemDoc.schemaVersion = some 2 ∧ sentinelItemDoc.rootId = some (js ['r']) ∧
      Visible sentinelItemDoc (js ['x']) ∧
      Visible sentinelItemDoc ROOT_PARENT_SENTINEL ∧
      (moveItem sampleKeys sentinelItemDoc (js ['x']) ROOT_PARENT_SENTINEL none deviceA).1 = .ok true ∧
      js ['x'] ∈
      (moveItem sampleKeys sentinelItemDoc
        (js ['x']) ROOT_PARENT_SENTINEL none deviceA).2.effectiveTree.recovered) ∧
    (namelessDoc.schemaVersion = some 2 ∧ namelessDoc.rootId = some (js ['r']) ∧
      Visible namelessDoc (js ['x']) ∧
      [] ∈ namelessDoc.childIds (js ['r']) ∧
      (moveItem sampleKeys namelessDoc (js ['x']) (js ['r']) (some []) deviceA).1 = .ok true ∧
      (moveItem sampleKeys namelessDoc (js ['x']) (js ['r']) (some []) deviceA).2.childIds
      (js ['r']) = [js ['x'], []]) := by
  have hvisible : ∃ n ∈ crossed.placedNodes, n.id = js ['b'] ∧ crossed.isLive n = true := by decide
  have hrootless : ∃ n ∈ rootlessDoc.placedNodes, n.id = js ['b'] ∧ rootlessDoc.isLive n = true := by decide
  have hitem : ∃ n ∈ sentinelItemDoc.placedNodes, n.id = js ['x'] ∧ sentinelItemDoc.isLive n = true := by
    decide
  have hsentinel : ∃ n ∈ sentinelItemDoc.placedNodes, n.id = ROOT_PARENT_SENTINEL ∧
      sentinelItemDoc.isLive n = true := by decide
  have hnameless : ∃ n ∈ namelessDoc.placedNodes, n.id = js ['x'] ∧ namelessDoc.isLive n = true := by decide
  exact ⟨⟨crossed_reachable, hvisible, by decide, rfl, by decide⟩, ⟨rfl, rfl, hrootless, rfl, by decide⟩,
    ⟨rfl, rfl, hitem, hsentinel, rfl, by decide⟩, rfl, rfl, hnameless, by decide, rfl, by decide⟩

end Examples

end OpenOutliner
