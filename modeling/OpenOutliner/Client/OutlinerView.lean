import Mathlib.Data.List.ReduceOption
import OpenOutliner.Crdt.VisibleOrder

namespace OpenOutliner

open Foundations Relation

structure OutlinerView where
  zoomRoot : JsString
  collapsedIds : Finset JsString

structure Crumb where
  id : JsString
  label : JsString
deriving DecidableEq, Repr

def HOME : JsString := js ['H', 'o', 'm', 'e']

def UNTITLED_LABEL : JsString := js ['U', 'n', 't', 'i', 't', 'l', 'e', 'd']

def isParent (parent : Option JsString) : Bool := parent.any fun p => p ≠ [] && p ≠ ROOT_PARENT_SENTINEL

namespace Doc

variable (doc : Doc) (rootId : JsString)

def getParentId (id : JsString) : Option JsString :=
  ((doc.outlineIndex.nodes.find? fun n => n.id = id).map OutlineNode.parentId).or
    ((doc.moveOf id).map MoveRegister.parentId)

def effectiveZoom (zoomRoot : JsString) : JsString :=
  if doc.getRootId.any (· ≠ []) && (doc.getParentId zoomRoot).any (· ≠ []) then zoomRoot else rootId

def shownRows (view : OutlinerView) : List VisibleRow :=
  doc.visibleRows (doc.effectiveZoom rootId view.zoomRoot) fun id => decide (id ∈ view.collapsedIds)

def revealWithin (fuel : ℕ) (view : OutlinerView) (revealItem : JsString) : Option OutlinerView :=
  if revealItem = [] ∨ (doc.items.get revealItem).isNone = true then some view
  else
    (walk (fun parent => !isParent parent) (fun parent => parent.bind doc.getParentId) fuel []
      (doc.getParentId revealItem)).map fun w => ⟨rootId,
      w.path.reduceOption.foldl Finset.erase view.collapsedIds⟩

def reveal (view : OutlinerView) (revealItem : JsString) : OutlinerView :=
  (doc.revealWithin rootId (doc.allNodes.length + 2) view revealItem).getD view

def crumb (id : JsString) : Crumb :=
  { id := id
    label := if id = rootId then HOME
      else if (doc.contentOf id).getD [] = [] then UNTITLED_LABEL else (doc.contentOf id).getD [] }

def crumbAbove (cur : JsString) : JsString :=
  if isParent (doc.getParentId cur) then (doc.getParentId cur).getD rootId else rootId

def buildBreadcrumbWithin (fuel : ℕ) (zoomRoot : JsString) : Option (List Crumb) :=
  (walk (fun cur => cur = [] || cur = rootId) (doc.crumbAbove rootId) fuel [] zoomRoot).map fun w =>
    ((w.path ++ if w.repeated = false ∧ w.last ≠ [] then [w.last] else []).map (doc.crumb rootId)).reverse

def buildBreadcrumb (zoomRoot : JsString) : List Crumb :=
  (doc.buildBreadcrumbWithin rootId (doc.allNodes.length + 2) zoomRoot).getD []

def spots : Finset JsString := insert rootId (ids doc.treeNodes).toFinset

/-- Ids as clients mint them: none is empty or stands for the place above the root. -/
def PlainIds : Prop := ∀ x ∈ doc.spots rootId, x ≠ [] ∧ x ≠ ROOT_PARENT_SENTINEL

end Doc

def OutlinerView.toggleCollapse (view : OutlinerView) (id : JsString) : OutlinerView :=
  { view with
    collapsedIds := if id ∈ view.collapsedIds then view.collapsedIds.erase id
      else insert id view.collapsedIds }

theorem mem_foldl_erase {xs : List JsString} {s : Finset JsString} {a : JsString} :
    a ∈ xs.foldl Finset.erase s ↔ a ∈ s ∧ a ∉ xs := by
  induction xs generalizing s with
  | nil => simp
  | cons x xs ih =>
    rw [List.foldl_cons, ih, Finset.mem_erase, List.mem_cons, not_or]
    tauto

section Climb

variable {doc : Doc} {rootId : JsString} (hget : doc.getRootId = some rootId)

theorem mem_spots {x : JsString} : x ∈ doc.spots rootId ↔ x = rootId ∨ (doc.moveOf x).isSome = true := by
  rw [Doc.spots, Finset.mem_insert, List.mem_toFinset, mem_ids_iff]

theorem spots_card : (doc.spots rootId).card ≤ doc.allNodes.length + 1 := by
  apply (Finset.card_insert_le _ _).trans
  apply Nat.succ_le_succ
  apply (List.toFinset_card_le _).trans
  simp [ids]

include hget

theorem getParentId_eq (id : JsString) : doc.getParentId id = doc.effectiveTree.parents.get id := by
  have hspec := Doc.rooted_spec hget
  rw [Doc.getParentId]
  cases hfind : doc.outlineIndex.nodes.find? fun n => decide (n.id = id) with
  | none =>
    have hid : id ∉ ids doc.treeNodes := by
      rw [Doc.treeNodes_ids, ← Doc.placedNodes_ids]
      intro hmem
      obtain ⟨n, hn, rfl⟩ := List.mem_map.mp hmem
      simpa using List.find?_eq_none.mp hfind n hn
    rw [hspec.unlisted id hid]
    rw [mem_ids_iff] at hid
    simpa using hid
  | some n =>
    have hn := List.mem_of_find?_eq_some hfind
    have hid : n.id = id := by simpa using List.find?_some hfind
    obtain ⟨raw, hraw, rfl⟩ := List.mem_map.mp hn
    have hraw' := List.mem_map_of_mem (f := OutlineNode.toTreeNode) hraw
    obtain ⟨p, hp⟩ : ∃ p, doc.effectiveTree.parents.get raw.id = some p := by
      by_cases hr : raw.id = rootId
      · refine ⟨_, hr ▸ hspec.root ?_⟩
        exact hr ▸ List.mem_map_of_mem (f := TreeNode.id) hraw'
      · exact ⟨_, hspec.parent _ hraw' hr⟩
    have he : raw.id = id := hid
    rw [Option.map_some, Option.some_or, ← he, hp]
    simp

theorem spot_reaches {x : JsString} (hx : x ∈ doc.spots rootId) :
    ReflTransGen (EffectiveEdge rootId doc.effectiveTree) x rootId := by
  rcases mem_spots.mp hx with rfl | hmove
  · exact .refl
  · exact (Doc.rooted_spec hget).reaches x (mem_ids_iff.mpr hmove)

theorem edge_source {x p : JsString} (h : EffectiveEdge rootId doc.effectiveTree x p) :
    (doc.moveOf x).isSome = true :=
  mem_ids_iff.mp ((Doc.rooted_spec hget).edge_source h)

theorem edge_target {x p : JsString} (h : EffectiveEdge rootId doc.effectiveTree x p) :
    p ∈ doc.spots rootId := by
  have hx := spot_reaches hget (mem_spots.mpr (.inr (edge_source hget h)))
  rcases ReflTransGen.cases_head hx with he | ⟨y, hedge, hy⟩
  · exact absurd he h.1
  · obtain rfl := effectiveEdge_unique hedge h
    rcases ReflTransGen.cases_head hy with he | ⟨z, hz, -⟩
    · exact mem_spots.mpr (.inl he)
    · exact mem_spots.mpr (.inr (edge_source hget hz))

theorem exists_edge {x : JsString} (hx : x ∈ doc.spots rootId) (hr : x ≠ rootId) :
    ∃ p, EffectiveEdge rootId doc.effectiveTree x p := by
  rcases ReflTransGen.cases_head (spot_reaches hget hx) with he | ⟨p, hp, -⟩
  · exact absurd he hr
  · exact ⟨p, hp⟩

variable (hplain : doc.PlainIds rootId)

include hplain

theorem climbs_iff {x p : JsString} :
    doc.getParentId x = some p ∧ isParent (some p) = true ↔ EffectiveEdge rootId doc.effectiveTree x p := by
  rw [getParentId_eq hget]
  constructor
  · rintro ⟨hp, hparent⟩
    refine ⟨?_, hp⟩
    rintro rfl
    by_cases hmem : x ∈ ids doc.treeNodes
    · rw [(Doc.rooted_spec hget).root hmem] at hp
      obtain rfl := Option.some.inj hp
      simp [isParent] at hparent
    · rw [(Doc.rooted_spec hget).unlisted x hmem] at hp
      cases hp
  · intro h
    obtain ⟨hne, hroot⟩ := hplain p (edge_target hget h)
    exact ⟨h.2, by simp [isParent, hne, hroot]⟩

theorem crumbAbove_eq {x p : JsString} (h : EffectiveEdge rootId doc.effectiveTree x p) :
    doc.crumbAbove rootId x = p := by
  obtain ⟨hp, hparent⟩ := (climbs_iff hget hplain).mpr h
  rw [Doc.crumbAbove, hp, if_pos hparent, Option.getD_some]

theorem crumbAbove_mem (x : JsString) : doc.crumbAbove rootId x ∈ doc.spots rootId := by
  rw [Doc.crumbAbove]
  split_ifs with hparent
  · cases hp : doc.getParentId x with
    | none => simp [isParent, hp] at hparent
    | some p =>
      rw [hp] at hparent
      exact edge_target hget ((climbs_iff hget hplain).mp ⟨hp, hparent⟩)
  · exact mem_spots.mpr (.inl rfl)

theorem climb_path {item : JsString} {fuel : ℕ} {w : Walk (Option JsString)}
    (hw : walk (fun parent => !isParent parent) (fun parent => parent.bind doc.getParentId) fuel []
      (doc.getParentId item) = some w) (a : JsString) :
    some a ∈ w.path ↔ TransGen (EffectiveEdge rootId doc.effectiveTree) item a := by
  obtain ⟨n, hspec⟩ := walk_spec hw
  constructor
  · intro ha
    rw [hspec.path_eq] at ha
    obtain ⟨i, hi, he⟩ := List.mem_iterate.mp ha
    clear ha
    induction i generalizing a with
    | zero =>
      have hgo := hspec.pushed 0 hi
      rw [← he] at hgo
      exact .single ((climbs_iff hget hplain).mp ⟨he.symm, by simpa using hgo⟩)
    | succ i ih =>
      have hgo := hspec.pushed (i + 1) hi
      rw [← he] at hgo
      rw [Function.iterate_succ_apply'] at he
      obtain ⟨b, hb, hparent⟩ := Option.bind_eq_some_iff.mp he.symm
      exact (ih b (by omega) hb.symm).tail ((climbs_iff hget hplain).mp ⟨hparent, by simpa using hgo⟩)
  · intro ha
    induction ha with
    | single hedge =>
      obtain ⟨hp, hparent⟩ := (climbs_iff hget hplain).mpr hedge
      rw [← hp]
      exact hspec.mem_path (i := 0) (Nat.zero_le n) (by simpa [hp] using hparent)
    | @tail b c _ hedge ih =>
      obtain ⟨hp, hparent⟩ := (climbs_iff hget hplain).mpr hedge
      rw [hspec.path_eq] at ih
      obtain ⟨i, hi, he⟩ := List.mem_iterate.mp ih
      have hnext : (fun parent : Option JsString => parent.bind doc.getParentId)^[i + 1]
          (doc.getParentId item) =
          some c := by
        rw [Function.iterate_succ_apply', ← he]
        exact hp
      rw [← hnext]
      exact hspec.mem_path hi (by simpa [hnext] using hparent)

theorem reveal_climbs (item : JsString) {fuel : ℕ} (hfuel : doc.allNodes.length + 1 < fuel) :
    ∃ w, walk (fun parent => !isParent parent) (fun parent => parent.bind doc.getParentId) fuel []
      (doc.getParentId item) = some w := by
  have hup : ∀ x, doc.getParentId x ∈ (doc.spots rootId).image some ∨
      (!isParent (doc.getParentId x)) = true := by
    intro x
    cases hp : doc.getParentId x with
    | none => exact .inr rfl
    | some p =>
      cases hparent : isParent (some p) with
      | false => exact .inr rfl
      | true =>
        exact .inl
          (Finset.mem_image_of_mem _ (edge_target hget ((climbs_iff hget hplain).mp ⟨hp, hparent⟩)))
  apply walk_isSome _ (hup item) List.nodup_nil (by simp)
  · have hcard := (Finset.card_image_le (s := doc.spots rootId) (f := some)).trans spots_card
    simp only [List.length_nil, Nat.zero_add]
    omega
  · intro y hy _
    obtain ⟨x, -, rfl⟩ := Finset.mem_image.mp hy
    exact hup x

theorem effectiveZoom_eq (zoomRoot : JsString) :
    doc.effectiveZoom rootId zoomRoot = if (doc.moveOf zoomRoot).isSome then zoomRoot else rootId := by
  have hroot : rootId ≠ [] := (hplain rootId (mem_spots.mpr (.inl rfl))).1
  rw [Doc.effectiveZoom, hget, getParentId_eq hget]
  by_cases hmove : (doc.moveOf zoomRoot).isSome = true
  · rw [if_pos hmove]
    by_cases hz : zoomRoot = rootId
    · rw [hz, ite_self]
    · obtain ⟨p, hp⟩ := exists_edge hget (mem_spots.mpr (.inr hmove)) hz
      have hne := (hplain p (edge_target hget hp)).1
      rw [hp.2]
      simp [hroot, hne]
  · have hnone := (Doc.rooted_spec hget).unlisted zoomRoot (mt mem_ids_iff.mp hmove)
    rw [if_neg hmove, hnone]
    simp

theorem effectiveZoom_mem (zoomRoot : JsString) : doc.effectiveZoom rootId zoomRoot ∈ doc.spots rootId := by
  rw [effectiveZoom_eq hget hplain, mem_spots]
  split_ifs with hmove
  · exact .inr hmove
  · exact .inl rfl

theorem breadcrumb_climbs {z : JsString} (hz : z ∈ doc.spots rootId) {fuel : ℕ}
    (hfuel : doc.allNodes.length + 1 < fuel) :
    ∃ w, walk (fun cur => cur = [] || cur = rootId) (doc.crumbAbove rootId) fuel [] z = some w := by
  apply walk_isSome _ (.inl hz) List.nodup_nil (by simp)
  · have hcard : (doc.spots rootId).card ≤ doc.allNodes.length + 1 := spots_card
    simp only [List.length_nil, Nat.zero_add]
    omega
  · intro y _ _
    exact .inl (crumbAbove_mem hget hplain y)

theorem breadcrumb_path {z : JsString} (hz : z ∈ doc.spots rootId) {fuel : ℕ} {w : Walk JsString}
    (hw : walk (fun cur => cur = [] || cur = rootId) (doc.crumbAbove rootId) fuel [] z = some w) :
    w.repeated = false ∧ w.last = rootId ∧ (w.path ++ [w.last]).head? = some z ∧
      (w.path ++ [w.last]).IsChain (EffectiveEdge rootId doc.effectiveTree) := by
  obtain ⟨n, hspec⟩ := walk_spec hw
  have hmem : ∀ i, (doc.crumbAbove rootId)^[i] z ∈ doc.spots rootId := by
    intro i
    cases i with
    | zero => exact hz
    | succ i =>
      rw [Function.iterate_succ_apply']
      exact crumbAbove_mem hget hplain _
  have hedge : ∀ i < n, EffectiveEdge rootId doc.effectiveTree ((doc.crumbAbove rootId)^[i] z)
      ((doc.crumbAbove rootId)^[i + 1] z) := by
    intro i hi
    have hgo := hspec.pushed i hi
    simp only [Bool.or_eq_false_iff, decide_eq_false_iff_not] at hgo
    obtain ⟨p, hp⟩ := exists_edge hget (hmem i) hgo.2
    rw [Function.iterate_succ_apply', crumbAbove_eq hget hplain hp]
    exact hp
  have hrep : w.repeated = false := by
    rw [Bool.eq_false_iff]
    intro hrep
    have hlast := (hspec.looped hrep).2
    rw [hspec.path_eq, hspec.last_eq] at hlast
    obtain ⟨i, hi, he⟩ := List.mem_iterate.mp hlast
    -- a point that comes again would be above itself
    apply not_cyclic_of_reaches (spot_reaches hget (hmem i))
    have hup : ∀ j, i < j → j ≤ n →
        TransGen (EffectiveEdge rootId doc.effectiveTree) ((doc.crumbAbove rootId)^[i] z)
        ((doc.crumbAbove rootId)^[j] z) := by
      intro j hij hjn
      induction j, hij using Nat.le_induction with
      | base => exact .single (hedge i hi)
      | succ j hij ih => exact (ih (by omega)).tail (hedge j (by omega))
    exact he ▸ hup n hi le_rfl
  have hlast : w.last = rootId := by
    have hstop := hspec.stopped hrep
    have hne := (hplain w.last (hspec.last_eq ▸ hmem n)).1
    simpa [hne] using hstop
  refine ⟨hrep, hlast, ?_, ?_⟩
  · rw [hspec.path_eq, hspec.last_eq, iterate_append_last]
    rfl
  · rw [hspec.path_eq, hspec.last_eq, iterate_append_last]
    exact isChain_iterate hedge

end Climb

section Navigation

variable {doc : Doc} {rootId : JsString}

def Doc.Shows (doc : Doc) (rootId : JsString) (view : OutlinerView) (x : JsString) : Prop :=
  x ∈ (doc.shownRows rootId view).map VisibleRow.id

/-- Whatever zoom and collapsed items the browser has kept. -/
structure Navigates (doc : Doc) (rootId : JsString) (view : OutlinerView) : Prop where
  zoom : doc.effectiveZoom rootId view.zoomRoot = if (doc.moveOf view.zoomRoot).isSome
    then view.zoomRoot else rootId
  reveal_ends : ∀ item, ∀ fuel > doc.allNodes.length + 1,
    doc.revealWithin rootId fuel view item = some (doc.reveal rootId view item)
  revealed : ∀ item, doc.Shows rootId (doc.reveal rootId view item) item ↔ LiveBelow doc rootId rootId item
  opened : ∀ item a, LiveBelow doc rootId rootId item → (a ∈ (doc.reveal rootId view item).collapsedIds ↔
    a ∈ view.collapsedIds ∧ ¬ TransGen (EffectiveEdge rootId doc.effectiveTree) item a)
  kept : ∀ item x, LiveBelow doc rootId rootId item → doc.Shows rootId { view with zoomRoot := rootId } x →
    doc.Shows rootId (doc.reveal rootId view item) x
  hides : ∀ id x, id ∉ view.collapsedIds →
    (doc.Shows rootId (view.toggleCollapse id) x ↔ doc.Shows rootId view x ∧
    ¬ (TransGen (EffectiveEdge rootId doc.effectiveTree) x id ∧
      TransGen (EffectiveEdge rootId doc.effectiveTree) id (doc.effectiveZoom rootId view.zoomRoot)))
  breadcrumb_ends : ∀ fuel > doc.allNodes.length + 1,
    doc.buildBreadcrumbWithin rootId fuel (doc.effectiveZoom rootId view.zoomRoot) =
      some (doc.buildBreadcrumb rootId (doc.effectiveZoom rootId view.zoomRoot))
  home : ((doc.buildBreadcrumb rootId (doc.effectiveZoom rootId view.zoomRoot)).map Crumb.id).head? =
    some rootId
  here : ((doc.buildBreadcrumb rootId (doc.effectiveZoom rootId view.zoomRoot)).map Crumb.id).getLast? =
    some (doc.effectiveZoom rootId view.zoomRoot)
  chain : ((doc.buildBreadcrumb rootId (doc.effectiveZoom rootId view.zoomRoot)).map Crumb.id).IsChain
    fun p c =>
    EffectiveEdge rootId doc.effectiveTree c p

theorem shows_iff (hget : doc.getRootId = some rootId) (view : OutlinerView) (x : JsString) :
    doc.Shows rootId view x ↔ LiveBelow doc rootId (doc.effectiveZoom rootId view.zoomRoot) x ∧
      Uncollapsed doc rootId (doc.effectiveZoom rootId view.zoomRoot)
        (fun id => decide (id ∈ view.collapsedIds)) x :=
  (visibleRows_preorder hget _ _).mem x

theorem effectiveZoom_root : doc.effectiveZoom rootId rootId = rootId := by
  rw [Doc.effectiveZoom, ite_self]

theorem mem_toggleCollapse {view : OutlinerView} {id : JsString} (hid : id ∉ view.collapsedIds)
    (a : JsString) :
    a ∈ (view.toggleCollapse id).collapsedIds ↔ a = id ∨ a ∈ view.collapsedIds := by
  rw [OutlinerView.toggleCollapse, if_neg hid, Finset.mem_insert]

variable (hget : doc.getRootId = some rootId) (hplain : doc.PlainIds rootId)

include hget hplain

theorem revealWithin_eq (view : OutlinerView) (item : JsString) {fuel : ℕ}
    (hfuel : doc.allNodes.length + 1 < fuel) :
    doc.revealWithin rootId fuel view item = some (doc.reveal rootId view item) := by
  obtain ⟨w, hw⟩ := reveal_climbs hget hplain item (Nat.lt_succ_self (doc.allNodes.length + 1))
  rw [Doc.reveal, Doc.revealWithin, Doc.revealWithin, hw, walk_mono hfuel hw]
  split_ifs <;> rfl

theorem reveal_eq (view : OutlinerView) {item : JsString} (hitem : (doc.moveOf item).isSome = true) :
    (doc.reveal rootId view item).zoomRoot = rootId ∧ ∀ a, a ∈ (doc.reveal rootId view item).collapsedIds ↔
      a ∈ view.collapsedIds ∧ ¬ TransGen (EffectiveEdge rootId doc.effectiveTree) item a := by
  obtain ⟨w, hw⟩ := reveal_climbs hget hplain item (Nat.lt_succ_self (doc.allNodes.length + 1))
  have hgo : ¬ (item = [] ∨ (doc.items.get item).isNone = true) := by
    rintro (hnil | hnone)
    · exact (hplain item (mem_spots.mpr (.inr hitem))).1 hnil
    · rw [Doc.moveOf, Option.isNone_iff_eq_none.mp hnone] at hitem
      cases hitem
  rw [Doc.reveal, Doc.revealWithin, if_neg hgo, hw, Option.map_some, Option.getD_some]
  refine ⟨rfl, ?_⟩
  intro a
  rw [mem_foldl_erase, List.reduceOption_mem_iff, climb_path hget hplain hw]

theorem buildBreadcrumbWithin_eq {z : JsString} (hz : z ∈ doc.spots rootId) {fuel : ℕ}
    (hfuel : doc.allNodes.length + 1 < fuel) :
    doc.buildBreadcrumbWithin rootId fuel z = some (doc.buildBreadcrumb rootId z) := by
  obtain ⟨w, hw⟩ := breadcrumb_climbs hget hplain hz (Nat.lt_succ_self (doc.allNodes.length + 1))
  rw [Doc.buildBreadcrumb, Doc.buildBreadcrumbWithin, Doc.buildBreadcrumbWithin, hw, walk_mono hfuel hw]
  rfl

theorem buildBreadcrumb_ids {z : JsString} (hz : z ∈ doc.spots rootId) :
    ∃ up : List JsString, (doc.buildBreadcrumb rootId z).map Crumb.id = up.reverse ∧ up.head? = some z ∧
      up.getLast? = some rootId ∧ up.IsChain (EffectiveEdge rootId doc.effectiveTree) := by
  obtain ⟨w, hw⟩ := breadcrumb_climbs hget hplain hz (Nat.lt_succ_self (doc.allNodes.length + 1))
  obtain ⟨hrep, hlast, hhead, hchain⟩ := breadcrumb_path hget hplain hz hw
  have hne : w.last ≠ [] := hlast ▸ (hplain rootId (mem_spots.mpr (.inl rfl))).1
  refine ⟨_, ?_, hhead, by rw [List.getLast?_concat, hlast], hchain⟩
  rw [Doc.buildBreadcrumb, Doc.buildBreadcrumbWithin, hw, Option.map_some, Option.getD_some,
    if_pos ⟨hrep, hne⟩,
    List.map_reverse, List.map_map]
  have hid : Crumb.id ∘ doc.crumb rootId = id := rfl
  rw [hid, List.map_id]

/-- The zoom falls back to the root only where its item is gone, a search result comes into sight with the
rows that were there, a closed row hides what is below it, and the breadcrumb leads down from the root. -/
theorem outliner_navigates (view : OutlinerView) : Navigates doc rootId view := by
  have hzoom := effectiveZoom_mem hget hplain view.zoomRoot
  obtain ⟨up, hids, hhead, hlast, hchain⟩ := buildBreadcrumb_ids hget hplain hzoom
  have hshown : ∀ {item}, (doc.moveOf item).isSome = true →
      ∀ x, doc.Shows rootId (doc.reveal rootId view item) x ↔
      LiveBelow doc rootId rootId x ∧ ∀ a, TransGen (EffectiveEdge rootId doc.effectiveTree) x a →
        TransGen (EffectiveEdge rootId doc.effectiveTree) a rootId → a ∈ view.collapsedIds →
          TransGen (EffectiveEdge rootId doc.effectiveTree) item a := by
    intro item hitem x
    obtain ⟨hroot, hopen⟩ := reveal_eq hget hplain view hitem
    rw [shows_iff hget, hroot, effectiveZoom_root]
    simp only [Uncollapsed, decide_eq_false_iff_not, hopen, not_and_not_right]
  constructor
  case zoom => exact effectiveZoom_eq hget hplain view.zoomRoot
  case reveal_ends =>
    intro item fuel hfuel
    exact revealWithin_eq hget hplain view item hfuel
  case revealed =>
    intro item
    constructor
    · intro h
      have hitem := ((shows_iff hget _ item).mp h).1.1
      exact ((hshown hitem item).mp h).1
    · intro h
      exact (hshown h.1 item).mpr ⟨h, fun a ha _ _ => ha⟩
  case opened =>
    intro item a h
    exact (reveal_eq hget hplain view h.1).2 a
  case kept =>
    intro item x h hx
    rw [shows_iff hget, effectiveZoom_root] at hx
    apply (hshown h.1 x).mpr
    refine ⟨hx.1, ?_⟩
    intro a ha hroot hcollapsed
    exact absurd (decide_eq_true hcollapsed) (by simpa using hx.2 a ha hroot)
  case hides =>
    intro id x hid
    rw [shows_iff hget, shows_iff hget, and_assoc]
    apply and_congr Iff.rfl
    simp only [Uncollapsed, decide_eq_false_iff_not, mem_toggleCollapse hid, not_or]
    constructor
    · intro h
      refine ⟨fun a ha hz => (h a ha hz).2, ?_⟩
      rintro ⟨hx, hz⟩
      exact (h id hx hz).1 rfl
    · rintro ⟨hopen, hnot⟩ a ha hz
      refine ⟨?_, hopen a ha hz⟩
      rintro rfl
      exact hnot ⟨ha, hz⟩
  case breadcrumb_ends =>
    intro fuel hfuel
    exact buildBreadcrumbWithin_eq hget hplain hzoom hfuel
  case home => rw [hids, List.head?_reverse, hlast]
  case here => rw [hids, List.getLast?_reverse, hhead]
  case chain =>
    rw [hids]
    exact List.isChain_reverse.mpr hchain

end Navigation

/-- `b` is closed and zoomed to, in a document whose moves have made it its own ancestor. -/
theorem outliner_navigates_tangled : Navigates tangledDoc (js ['r']) ⟨js ['b'], {js ['b']}⟩ :=
  outliner_navigates rfl (by unfold Doc.PlainIds; decide) _

end OpenOutliner
