import OpenOutliner.Crdt.ItemChanges
import OpenOutliner.Crdt.SiblingLists
import OpenOutliner.Shared.Overgrowth

namespace OpenOutliner

open Foundations Relation

def ItemNodeSnapshot.cell (s : ItemNodeSnapshot) : (MoveRegister × Bool × Bool) × JsString :=
  (s.registers, s.content)

def Doc.cell (doc : Doc) (x : JsString) : Option ((MoveRegister × Bool × Bool) × JsString) :=
  (doc.snapshot x).map ItemNodeSnapshot.cell

def Doc.registersOf (doc : Doc) (x : JsString) : Option (MoveRegister × Bool × Bool) :=
  (doc.snapshot x).map ItemNodeSnapshot.registers

def Doc.textOf (doc : Doc) (x : JsString) : JsString :=
  ((doc.snapshot x).map ItemNodeSnapshot.content).getD []

structure ShownRow where
  row : VisibleRow
  text : JsString
  isCompleted : Bool
deriving DecidableEq

def Doc.shownRow (doc : Doc) (row : VisibleRow) : ShownRow :=
  ⟨row, doc.textOf row.id, ((doc.registersOf row.id).map fun r => r.2.2).getD false⟩

/-- The visible outline: the live items in order with their depths, texts and completion. -/
def Doc.outline (doc : Doc) (rootId : JsString) : List ShownRow :=
  (doc.visibleRows rootId fun _ => false).map doc.shownRow

def Doc.Unnamed (doc : Doc) (x : JsString) : Prop := ∀ y move, doc.moveOf y = some move → move.parentId ≠ x

structure Sane (rootId : JsString) (doc : Doc) : Prop where
  versioned : doc.schemaVersion = some 2
  rooted : doc.rootId = some rootId
  root : ∃ move completed, doc.registersOf rootId = some (move, false, completed) ∧
    move.parentId = ROOT_PARENT_SENTINEL
  texts : ∀ x, (doc.items.get x).isSome = true → (doc.contentOf x).isSome = true

/-- `doc'` has what `doc` has, and beside that only deleted items that no item of `doc` is placed under. -/
structure Agree (doc doc' : Doc) : Prop where
  cell : ∀ x, doc.registersOf x ≠ none → doc'.cell x = doc.cell x
  extra : ∀ x r, doc.registersOf x = none → doc'.registersOf x = some r → r.2.1 = true ∧ doc.Unnamed x

section Cells

variable {doc doc' : Doc} {rootId x y p : JsString}

theorem registersOf_eq (doc : Doc) (x : JsString) : doc.registersOf x = (doc.cell x).map Prod.fst := by
  rw [Doc.registersOf, Doc.cell, Option.map_map]
  rfl

theorem textOf_eq (doc : Doc) (x : JsString) : doc.textOf x = ((doc.cell x).map Prod.snd).getD [] := by
  rw [Doc.textOf, Doc.cell, Option.map_map]
  rfl

theorem cell_eq_some {c : (MoveRegister × Bool × Bool) × JsString} :
    doc.cell x = some c ↔ doc.registersOf x = some c.1 ∧ doc.textOf x = c.2 := by
  rw [registersOf_eq, textOf_eq]
  cases doc.cell x with
  | none => simp
  | some d =>
    simp only [Option.map_some, Option.getD_some, Option.some.injEq]
    exact Prod.ext_iff

theorem cell_eq (hregisters : doc'.registersOf x = doc.registersOf x) (htext : doc'.textOf x = doc.textOf x) :
    doc'.cell x = doc.cell x := by
  cases hc : doc.cell x with
  | none =>
    rw [registersOf_eq doc, hc, registersOf_eq, Option.map_none, Option.map_eq_none_iff] at hregisters
    exact hregisters
  | some c =>
    obtain ⟨hr, ht⟩ := cell_eq_some.mp hc
    exact cell_eq_some.mpr ⟨hregisters.trans hr, htext.trans ht⟩

theorem textOf_none (h : doc.registersOf x = none) : doc.textOf x = [] := by
  rw [Doc.registersOf, Option.map_eq_none_iff] at h
  rw [Doc.textOf, h]
  rfl

theorem registersOf_congr (h : doc'.cell x = doc.cell x) : doc'.registersOf x = doc.registersOf x := by
  rw [registersOf_eq, h, registersOf_eq]

theorem textOf_congr (h : doc'.cell x = doc.cell x) : doc'.textOf x = doc.textOf x := by
  rw [textOf_eq, h, textOf_eq]

theorem moveOf_eq (doc : Doc) (x : JsString) : doc.moveOf x = (doc.registersOf x).map Prod.fst := by
  unfold Doc.moveOf Doc.registersOf Doc.snapshot readNodeSnapshot
  cases hget : doc.items.get x with
  | none => rfl
  | some node =>
    rw [Option.bind_some, Option.bind_some, Option.map_map, Option.map_map]
    exact Option.map_id'.symm

theorem registersOf_ne_none : doc.registersOf x ≠ none ↔ (doc.moveOf x).isSome = true := by
  rw [moveOf_eq, Option.isSome_map, Option.isSome_iff_ne_none]

theorem treeNode_registers {n : TreeNode} (h : n ∈ doc.treeNodes) :
    ∃ r, doc.registersOf n.id = some r ∧ n = ⟨n.id, r.1.parentId, r.2.1⟩ := by
  obtain ⟨node, move, hget, hmove, he⟩ := mem_treeNodes.mp h
  refine ⟨(move, (readDeleted doc.schemaVersion node).isDeleted, node.isCompleted.getD false), ?_, he⟩
  simp only [Doc.registersOf, Doc.snapshot, hget, readNodeSnapshot, hmove, Option.bind_some, Option.map_some]
  rfl

theorem mem_treeNodes_of_registers {r : MoveRegister × Bool × Bool} (h : doc.registersOf x = some r) :
    (⟨x, r.1.parentId, r.2.1⟩ : TreeNode) ∈ doc.treeNodes := by
  have hx : x ∈ ids doc.treeNodes := by
    rw [mem_ids_iff, ← registersOf_ne_none, h]
    exact Option.some_ne_none r
  obtain ⟨n, hn, rfl⟩ := List.mem_map.mp hx
  obtain ⟨r', hr', he⟩ := treeNode_registers hn
  rw [h] at hr'
  obtain rfl := Option.some.inj hr'
  rwa [← he]

end Cells

namespace Agree

variable {a b c : Doc} {rootId x y p : JsString}

theorem refl (doc : Doc) : Agree doc doc := by
  refine ⟨fun _ _ => rfl, ?_⟩
  intro x r hnone hsome
  rw [hnone] at hsome
  cases hsome

theorem registers (h : Agree a b) (hx : a.registersOf x ≠ none) : b.registersOf x = a.registersOf x :=
  registersOf_congr (h.cell x hx)

theorem present (h : Agree a b) (hx : a.registersOf x ≠ none) : b.registersOf x ≠ none := by
  rwa [h.registers hx]

theorem moveOf (h : Agree a b) {move : MoveRegister} (hx : a.moveOf x = some move) :
    b.moveOf x = some move := by
  have hne : a.registersOf x ≠ none := by
    rw [registersOf_ne_none, hx]
    rfl
  rw [moveOf_eq, h.registers hne, ← moveOf_eq, hx]

theorem unnamed (h : Agree a b) (hx : b.Unnamed x) : a.Unnamed x := by
  intro y move hmove
  exact hx y move (h.moveOf hmove)

theorem trans (hab : Agree a b) (hbc : Agree b c) : Agree a c := by
  constructor
  · intro x hx
    rw [hbc.cell x (hab.present hx), hab.cell x hx]
  · intro x r hnone hsome
    cases hb : b.registersOf x with
    | none =>
      obtain ⟨hflag, hun⟩ := hbc.extra x r hb hsome
      exact ⟨hflag, hab.unnamed hun⟩
    | some r' =>
      obtain ⟨hflag, hun⟩ := hab.extra x r' hnone hb
      have hsame := hbc.registers (hb ▸ Option.some_ne_none r')
      rw [hsome, hb] at hsame
      obtain rfl := Option.some.inj hsame
      exact ⟨hflag, hun⟩

theorem overgrown (h : Agree a b) : Overgrown a.treeNodes b.treeNodes := by
  have habsent : ∀ {x}, x ∉ ids a.treeNodes → a.registersOf x = none := by
    intro x hx
    rw [mem_ids_iff, ← registersOf_ne_none, not_not] at hx
    exact hx
  refine ⟨a.treeNodes_nodup, b.treeNodes_nodup, ?_, ?_, ?_⟩
  · intro n hn
    obtain ⟨r, hr, he⟩ := treeNode_registers hn
    rw [he]
    apply mem_treeNodes_of_registers
    rw [h.registers (hr ▸ Option.some_ne_none r), hr]
  · intro n hn hparent
    by_contra hno
    obtain ⟨move, hmove, hp⟩ := treeNode_parent hn
    obtain ⟨m, hm, hid⟩ := List.mem_map.mp hparent
    obtain ⟨r, hr, -⟩ := treeNode_registers hm
    rw [hid] at hr
    exact (h.extra _ r (habsent hno) hr).2 n.id move hmove hp
  · intro n hn hid
    obtain ⟨r, hr, he⟩ := treeNode_registers hn
    rw [he]
    exact (h.extra _ r (habsent hid) hr).1

section Shown

variable (ha : Sane rootId a) (hb : Sane rootId b) (h : Agree a b)

include ha hb h

omit hb h in
theorem root_mem : rootId ∈ ids a.treeNodes := by
  obtain ⟨move, completed, hroot, -⟩ := ha.root
  rw [mem_ids_iff, ← registersOf_ne_none, hroot]
  exact Option.some_ne_none _

theorem mem_childIds_iff : x ∈ b.childIds p ↔ x ∈ a.childIds p := by
  have hga := getRootId_eq ha.rooted
  have hgb := getRootId_eq hb.rooted
  rw [mem_childIds hga, mem_childIds hgb]
  exact h.overgrown.live_iff (Doc.rooted_spec hga) (Doc.rooted_spec hgb) (root_mem ha)

omit hb h in
theorem child_present (hx : x ∈ a.childIds p) : a.registersOf x ≠ none := by
  rw [registersOf_ne_none, ← mem_ids_iff]
  exact (Doc.rooted_spec (getRootId_eq ha.rooted)).edge_source
    ((mem_childIds (getRootId_eq ha.rooted)).mp hx).1

theorem mem_siblingKeys_iff {r : JsString} : (x, r) ∈ b.siblingKeys p ↔ (x, r) ∈ a.siblingKeys p := by
  rw [mem_siblingKeys, mem_siblingKeys, h.mem_childIds_iff ha hb]
  apply and_congr_right
  intro hx
  rw [moveOf_eq b, h.registers (child_present ha hx), ← moveOf_eq]

theorem childIds_eq (p : JsString) : b.childIds p = a.childIds p := by
  have hnd : ∀ doc : Doc, (doc.siblingKeys p).Nodup :=
    fun doc => List.Nodup.of_map _ (siblingKeys_nodup doc p)
  have hperm : (b.siblingKeys p).Perm (a.siblingKeys p) := by
    apply (List.perm_ext_iff_of_nodup (hnd b) (hnd a)).mpr
    rintro ⟨x, r⟩
    exact h.mem_siblingKeys_iff ha hb
  have hkeys : b.siblingKeys p = a.siblingKeys p := by
    apply hperm.eq_of_pairwise _ (siblingKeys_pairwise b p) (siblingKeys_pairwise a p)
    intro d e hd he hde hed
    exact List.inj_on_of_nodup_map (siblingKeys_nodup a p) (hperm.mem_iff.mp hd) he
      (compareOrder_antisymm hde hed)
  rw [← siblingKeys_ids, ← siblingKeys_ids, hkeys]

end Shown

end Agree

theorem agree_outline {a b : Doc} {rootId : JsString} (ha : Sane rootId a) (hb : Sane rootId b)
    (h : Agree a b) :
    b.outline rootId = a.outline rootId := by
  have hga := getRootId_eq ha.rooted
  have hgb := getRootId_eq hb.rooted
  have hpairs := a.visibleRows_pairs (fun _ => false) hga hgb (funext (h.childIds_eq ha hb)) rootId
  have hpresent : ∀ row ∈ a.visibleRows rootId fun _ => false, a.registersOf row.id ≠ none := by
    intro row hrow
    rw [registersOf_ne_none]
    have hmem : row.id ∈ a.flattenVisible rootId fun _ => false := by
      rw [Doc.flattenVisible_eq]
      exact List.mem_map_of_mem hrow
    exact ((mem_flattenVisible hga).mp hmem).1
  have hrow : ∀ {rb ra : VisibleRow}, rb ∈ b.visibleRows rootId (fun _ => false) →
      ra ∈ a.visibleRows rootId (fun _ => false) → (rb.id, rb.depth) = (ra.id, ra.depth) →
      b.shownRow rb = a.shownRow ra := by
    intro rb ra hrb hra he
    obtain ⟨hid, hdepth⟩ := Prod.mk.inj he
    have hcell := h.cell ra.id (hpresent ra hra)
    have hrec : rb.recovered = ra.recovered := by
      rw [visibleRows_recovered hrb, visibleRows_recovered hra, hid]
      apply decide_eq_decide.mpr
      apply h.overgrown.recovered_iff (Doc.rooted_spec hga) (Doc.rooted_spec hgb)
      rw [mem_ids_iff, ← registersOf_ne_none]
      exact hpresent ra hra
    obtain ⟨idb, depthb, recoveredb⟩ := rb
    obtain ⟨ida, deptha, recovereda⟩ := ra
    obtain rfl : idb = ida := hid
    obtain rfl : depthb = deptha := hdepth
    obtain rfl : recoveredb = recovereda := hrec
    simp only [Doc.shownRow, registersOf_congr hcell, textOf_congr hcell]
  have hlength := congrArg List.length hpairs
  rw [List.length_map, List.length_map] at hlength
  apply List.ext_getElem
  · rw [Doc.outline, Doc.outline, List.length_map, List.length_map, hlength]
  · intro i hi hi'
    simp only [Doc.outline, List.getElem_map]
    rw [Doc.outline, List.length_map] at hi hi'
    apply hrow (List.getElem_mem hi) (List.getElem_mem hi')
    have hat := congrArg (fun l => l[i]?) hpairs
    simp only [List.getElem?_map, List.getElem?_eq_getElem hi, List.getElem?_eq_getElem hi', Option.map_some,
      Option.some.injEq] at hat
    exact hat

end OpenOutliner
