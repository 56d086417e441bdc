import OpenOutliner.Crdt.SplitPlacement
import OpenOutliner.Crdt.VisibleOrder

namespace OpenOutliner

open Foundations Relation

/-- `doc'` is `doc` but for the rank of `x`; texts may differ. -/
structure Reordered (doc doc' : Doc) (x : JsString) : Prop where
  rootId : doc'.rootId = doc.rootId
  moves : ∀ y, y ≠ x → doc'.moveOf y = doc.moveOf y
  placements : ∀ y, doc'.placement y = doc.placement y

/-- In `l'` the neighbours `a` and `b` of `l` have changed places. -/
def Exchanged (a b : JsString) (l l' : List JsString) : Prop :=
  ∃ before after, l = before ++ a :: b :: after ∧
  l' = before ++ b :: a :: after

structure Slot (doc : Doc) (x q k : JsString) (before after : List JsString) : Prop where
  rest : (doc.childIds q).erase x = before ++ after
  low : ∀ y ∈ before, ∀ m ∈ doc.moveOf y, m.rank < k
  high : ∀ y ∈ after, ∀ m ∈ doc.moveOf y, k < m.rank

structure ShowsSame (doc doc' : Doc) : Prop where
  tree : (∀ y, doc'.effectiveTree.parents.get y = doc.effectiveTree.parents.get y) ∧
    doc'.effectiveTree.recovered = doc.effectiveTree.recovered ∧
    doc'.effectiveTree.deleted = doc.effectiveTree.deleted
  lists : doc'.childIds = doc.childIds
  rows : ∀ start isCollapsed, doc'.visibleRows start isCollapsed = doc.visibleRows start isCollapsed

theorem precedes_congr {doc doc' : Doc} {a b : JsString} (ha : doc'.moveOf a = doc.moveOf a)
    (hb : doc'.moveOf b = doc.moveOf b) (h : doc.Precedes a b) : doc'.Precedes a b := by
  unfold Doc.Precedes
  rw [ha, hb]
  exact h

theorem childIds_nodup (doc : Doc) (q : JsString) : (doc.childIds q).Nodup := doc.getChildren_ids_nodup q

section Rows

variable {doc doc' : Doc} {rootId : JsString}

theorem visibleRows_congr (hget : doc.getRootId = some rootId) (hget' : doc'.getRootId = some rootId)
    (hkids : doc'.childIds = doc.childIds) (hrec : doc'.effectiveTree.recovered = doc.effectiveTree.recovered)
    (start : JsString) (isCollapsed : JsString → Bool) :
    doc'.visibleRows start isCollapsed = doc.visibleRows start isCollapsed := by
  have hrows : ∀ d : Doc, d.visibleRows start isCollapsed =
      ((d.visibleRows start isCollapsed).map fun row => (row.id, row.depth)).map
        fun e => ⟨e.1, e.2, decide (e.1 ∈ d.effectiveTree.recovered)⟩ := by
    intro d
    rw [List.map_map]
    refine (List.map_id _).symm.trans (List.map_congr_left fun row hrow => ?_)
    have hflag := visibleRows_recovered hrow
    obtain ⟨id, depth, recovered⟩ := row
    change recovered = _ at hflag
    rw [hflag]
    rfl
  rw [hrows doc', hrows doc, doc.visibleRows_pairs isCollapsed hget hget' hkids start, hrec]

end Rows

namespace Reordered

variable {doc doc' : Doc} {rootId x y q : JsString} {placed : MoveRegister} (h : Reordered doc doc' x)
  (hroot : doc.rootId = some rootId)

include h hroot

theorem get' : doc'.getRootId = some rootId := getRootId_eq (h.rootId.trans hroot)

omit hroot in
theorem perm : doc'.treeNodes.Perm doc.treeNodes := by
  apply (List.perm_ext_iff_of_nodup (List.Nodup.of_map _ doc'.treeNodes_nodup)
    (List.Nodup.of_map _ doc.treeNodes_nodup)).mpr
  intro n
  rw [mem_treeNodes_iff, mem_treeNodes_iff, h.placements]

theorem tree : (∀ y, doc'.effectiveTree.parents.get y = doc.effectiveTree.parents.get y) ∧
    doc'.effectiveTree.recovered = doc.effectiveTree.recovered ∧
    doc'.effectiveTree.deleted = doc.effectiveTree.deleted :=
  (Doc.rooted_spec (h.get' hroot)).unique h.perm (Doc.rooted_spec (getRootId_eq hroot))

theorem edge_eq : EffectiveEdge rootId doc'.effectiveTree = EffectiveEdge rootId doc.effectiveTree := by
  funext a b
  rw [EffectiveEdge, EffectiveEdge, (h.tree hroot).1]

theorem mem_childIds : y ∈ doc'.childIds q ↔ y ∈ doc.childIds q := by
  rw [OpenOutliner.mem_childIds (h.get' hroot), OpenOutliner.mem_childIds (getRootId_eq hroot),
    (h.tree hroot).2.2,
    h.edge_eq hroot]

omit hroot in
theorem trans {doc'' : Doc} (h' : Reordered doc' doc'' x) : Reordered doc doc'' x :=
  ⟨h'.rootId.trans h.rootId, fun y hy => (h'.moves y hy).trans (h.moves y hy),
    fun y => (h'.placements y).trans (h.placements y)⟩

omit hroot in
theorem precedes {a b : JsString} (ha : a ≠ x) (hb : b ≠ x) (hab : doc.Precedes a b) : doc'.Precedes a b :=
  precedes_congr (h.moves a ha) (h.moves b hb) hab

theorem childIds_other (hx : x ∉ doc.childIds q) : doc'.childIds q = doc.childIds q := by
  apply ordered_unique (childIds_ordered doc' q)
  · apply (childIds_ordered doc q).imp_of_mem
    intro a b ha hb hab
    exact h.precedes (ne_of_mem_of_not_mem ha hx) (ne_of_mem_of_not_mem hb hx) hab
  · intro y
    exact h.mem_childIds hroot

theorem childIds_slot {before after : List JsString} (hx : x ∈ doc.childIds q)
    (hplaced : doc'.moveOf x = some placed)
    (hslot : Slot doc x q placed.rank before after) : doc'.childIds q = before ++ x :: after := by
  have hnd := childIds_nodup doc q
  have hmem : ∀ y, y ∈ before ++ after ↔ y ≠ x ∧ y ∈ doc.childIds q := by
    intro y
    rw [← hslot.rest, hnd.mem_erase_iff]
  have hrank : ∀ y, y ∈ before ++ after → ∃ m, doc.moveOf y = some m ∧ doc'.moveOf y = some m := by
    intro y hy
    obtain ⟨hne, hchild⟩ := (hmem y).mp hy
    obtain ⟨hedge, -⟩ := (OpenOutliner.mem_childIds (getRootId_eq hroot)).mp hchild
    obtain ⟨m, hm⟩ :=
      Option.isSome_iff_exists.mp
        (mem_ids_iff.mp ((Doc.rooted_spec (getRootId_eq hroot)).edge_source hedge))
    exact ⟨m, hm, (h.moves y hne).trans hm⟩
  have hold : (before ++ after).Pairwise doc'.Precedes := by
    rw [← hslot.rest]
    apply ((childIds_ordered doc q).sublist List.erase_sublist).imp_of_mem
    intro a b ha hb hab
    rw [hslot.rest] at ha hb
    exact h.precedes ((hmem a).mp ha).1 ((hmem b).mp hb).1 hab
  apply ordered_unique (childIds_ordered doc' q)
  · rw [List.pairwise_append] at hold ⊢
    refine ⟨hold.1, List.pairwise_cons.mpr ⟨?_, hold.2.1⟩, ?_⟩
    · intro b hb
      obtain ⟨m, hm, hm'⟩ := hrank b (List.mem_append_right _ hb)
      exact ⟨placed, hplaced, m, hm', Or.inl (hslot.high b hb m hm)⟩
    · intro a ha b hb
      rcases List.mem_cons.mp hb with rfl | hb
      · obtain ⟨m, hm, hm'⟩ := hrank a (List.mem_append_left _ ha)
        exact ⟨m, hm', placed, hplaced, Or.inl (hslot.low a ha m hm)⟩
      · exact hold.2.2 a ha b hb
  · intro y
    rw [h.mem_childIds hroot, List.mem_append, List.mem_cons, or_left_comm, ← List.mem_append, hmem]
    by_cases hy : y = x
    · simp [hy, hx]
    · simp [hy]

theorem showsSame (hlists : ∀ q, x ∈ doc.childIds q → doc'.childIds q = doc.childIds q) :
    ShowsSame doc doc' := by
  have htree := h.tree hroot
  have hkids : doc'.childIds = doc.childIds := by
    funext q
    by_cases hx : x ∈ doc.childIds q
    · exact hlists q hx
    · exact h.childIds_other hroot hx
  exact ⟨htree, hkids, visibleRows_congr (getRootId_eq hroot) (h.get' hroot) hkids htree.2.1⟩

end Reordered

section Slots

variable {doc : Doc} {x q k : JsString} {n : ℕ} {before after : List JsString}

theorem ranks_of_keys {l : List (JsString × JsString)} (hl : l.Sublist (doc.siblingKeys q))
    {P : JsString → Prop} (h : ∀ e ∈ l, P e.2) {y : JsString} (hy : y ∈ l.map Prod.fst) {m : MoveRegister}
    (hm : m ∈ doc.moveOf y) : P m.rank := by
  obtain ⟨e, he, rfl⟩ := List.mem_map.mp hy
  obtain ⟨-, m', hm', hrank⟩ := mem_siblingKeys.mp (hl.subset he)
  obtain rfl := Option.mem_unique hm hm'
  rw [hrank]
  exact h e he

theorem slot_of_parts (hrest : (doc.childIds q).erase x = before ++ after)
    (hbefore : before ⊆ (doc.childIds q).take n)
    (hafter : after ⊆ (doc.childIds q).drop n) (hlow : ∀ e ∈ (doc.siblingKeys q).take n, e.2 < k)
    (hhigh : ∀ e ∈ (doc.siblingKeys q).drop n, k < e.2) : Slot doc x q k before after := by
  rw [← siblingKeys_ids, ← List.map_take] at hbefore
  rw [← siblingKeys_ids, ← List.map_drop] at hafter
  refine ⟨hrest, fun y hy m hm => ?_, fun y hy m hm => ?_⟩
  · exact ranks_of_keys (P := fun r => r < k) (List.take_sublist n _) hlow (hbefore hy) hm
  · exact ranks_of_keys (P := fun r => k < r) (List.drop_sublist n _) hhigh (hafter hy) hm

theorem split_pair {l : List JsString} {i : ℕ} {a b : JsString} (ha : l[i]? = some a)
    (hb : l[i + 1]? = some b) :
    l = l.take i ++ a :: b :: l.drop (i + 2) := by
  obtain ⟨hi, rfl⟩ := List.getElem?_eq_some_iff.mp ha
  obtain ⟨hj, rfl⟩ := List.getElem?_eq_some_iff.mp hb
  rw [← List.drop_eq_getElem_cons hj, ← List.drop_eq_getElem_cons hi, List.take_append_drop]

end Slots

section Writes

variable {doc : Doc} {rootId x y : JsString} {move placed : MoveRegister} (hroot : doc.rootId = some rootId)
  (hx : x ≠ rootId)

include hroot hx

theorem writeMove_placement (hmove : doc.moveOf x = some move) :
    (doc.writeMove x placed).placement y = if y = x then
    (doc.placement x).map fun e => (placed.parentId, e.2) else doc.placement y := by
  have hne := root_apart hroot hx
  split_ifs with hy
  · subst hy
    obtain ⟨node, hget, hnode⟩ := Option.bind_eq_some_iff.mp hmove
    have hdeleted : readDeleted doc.schemaVersion { node with move := some placed } =
        readDeleted doc.schemaVersion node :=
      Doc.readDeleted_congr _ rfl rfl rfl
    rw [Doc.placement, writeMove_get hne, if_pos rfl, hget, Doc.writeMove_schemaVersion]
    simp only [Doc.placement, hget, Option.getD_some, Option.bind_some, Option.map_some, hnode, hdeleted]
  · exact placement_other hne hy

theorem writeMove_reordered (hmove : doc.moveOf x = some move) (hparent : placed.parentId = move.parentId) :
    Reordered doc (doc.writeMove x placed) x := by
  refine ⟨doc.writeMove_rootId x placed, fun y hy => writeMove_moveOf_other placed hy, fun y => ?_⟩
  rw [writeMove_placement hroot hx hmove]
  split_ifs with hy
  · subst hy
    obtain ⟨node, hget, hnode⟩ := Option.bind_eq_some_iff.mp hmove
    simp only [Doc.placement, hget, Option.bind_some, hnode, Option.map_some, hparent]
  · rfl

end Writes

end OpenOutliner
