import OpenOutliner.Client.Portable

namespace OpenOutliner

open Foundations Relation

def PlacedUnder (items : List PortableItem) (x y : JsString) : Prop :=
  ∃ i ∈ items, i.id = x ∧ i.parentId = some y

structure IsPortableTree (items : List PortableItem) (root : PortableItem) : Prop where
  distinct : (items.map PortableItem.id).Nodup
  mem : root ∈ items
  top : ∀ i ∈ items, i.parentId = none ↔ i = root
  listed : ∀ i ∈ items, ∀ p, i.parentId = some p → p ∈ items.map PortableItem.id ∧ p ≠ ROOT_PARENT_SENTINEL
  reaches : ∀ i ∈ items, ReflTransGen (PlacedUnder items) i.id root.id

section Tree

variable {items : List PortableItem} {root : PortableItem} {x y z : JsString}

theorem portable_ids : ids (items.map PortableItem.toTreeNode) = items.map PortableItem.id := by
  rw [ids, List.map_map]
  rfl

namespace IsPortableTree

variable (ht : IsPortableTree items root)

include ht

theorem eq_of_id {i j : PortableItem} (hi : i ∈ items) (hj : j ∈ items) (h : i.id = j.id) : i = j :=
  List.inj_on_of_nodup_map ht.distinct hi hj h

theorem placed_unique (hy : PlacedUnder items x y) (hz : PlacedUnder items x z) : y = z := by
  obtain ⟨i, hi, rfl, hy⟩ := hy
  obtain ⟨j, hj, he, hz⟩ := hz
  rw [ht.eq_of_id hj hi he, hy] at hz
  exact Option.some.inj hz

theorem root_unplaced : ¬ PlacedUnder items root.id y := by
  rintro ⟨i, hi, he, hy⟩
  rw [ht.eq_of_id hi ht.mem he, (ht.top root ht.mem).mpr rfl] at hy
  cases hy

theorem root_rooted : rootItems items = [root] := by
  rw [rootItems, List.filter_congr (fun i hi => decide_eq_decide.mpr ((ht.top i hi).trans ?_))]
  · exact OrderedMap.filter_key_eq ht.distinct ht.mem
  · exact ⟨fun he => congrArg PortableItem.id he, fun he => ht.eq_of_id hi ht.mem he⟩

theorem acyclic (hx : x ∈ items.map PortableItem.id) : ¬ TransGen (PlacedUnder items) x x := by
  obtain ⟨i, hi, rfl⟩ := List.mem_map.mp hx
  have hreach := ht.reaches i hi
  generalize i.id = x at hreach
  induction hreach using ReflTransGen.head_induction_on with
  | refl =>
    intro hcyc
    obtain ⟨y, hedge, -⟩ := TransGen.head'_iff.mp hcyc
    exact ht.root_unplaced hedge
  | head hedge _ ih =>
    intro hcyc
    obtain ⟨y, hedge', hback⟩ := TransGen.head'_iff.mp hcyc
    rw [ht.placed_unique hedge' hedge] at hback
    exact ih (TransGen.tail' hback hedge)

theorem recovered_empty :
    (deriveEffectiveTree (items.map PortableItem.toTreeNode) root.id).recovered = ∅ := by
  have hspec : EffectiveTree.Spec (items.map PortableItem.toTreeNode) root.id _ :=
    deriveEffectiveTree_spec (portable_ids ▸ ht.distinct)
  rw [Finset.eq_empty_iff_forall_notMem]
  intro x hx
  rcases (hspec.recovered x).mp hx with ⟨hne, n, hn, rfl, hdetached⟩ | ⟨hcyc, -⟩
  · obtain ⟨i, hi, rfl⟩ := List.mem_map.mp hn
    cases hp : i.parentId with
    | none => exact hne (congrArg PortableItem.id ((ht.top i hi).mp hp))
    | some p =>
      obtain ⟨hlisted, hplain⟩ := ht.listed i hi p hp
      have hparent : i.toTreeNode.parentId = p := by simp [PortableItem.toTreeNode, hp]
      rw [hparent, portable_ids] at hdetached
      exact hdetached.elim hplain fun hno => hno hlisted
  · have hedges : TransGen (PlacedUnder items) x x := by
      refine hcyc.lift id fun a b hedge => ?_
      obtain ⟨hne, -, n, hn, rfl, rfl⟩ := hedge
      obtain ⟨i, hi, rfl⟩ := List.mem_map.mp hn
      cases hp : i.parentId with
      | none => exact absurd (congrArg PortableItem.id ((ht.top i hi).mp hp)) hne
      | some p => exact ⟨i, hi, rfl, by simp [PortableItem.toTreeNode, hp]⟩
    obtain ⟨y, ⟨i, hi, hx, -⟩, -⟩ := TransGen.head'_iff.mp hedges
    exact ht.acyclic (hx ▸ List.mem_map_of_mem hi) hedges

theorem accepted {value : PortableDocument} (hitems : value.items = items) (hlen : items.length ≤ MAX_ITEMS)
    (hnamed : ∀ i ∈ items, i.id ≠ []) : Accepted value := by
  subst hitems
  exact ⟨List.ne_nil_of_mem ht.mem, hlen, hnamed, ht.distinct, root, ht.root_rooted, ht.recovered_empty⟩

end IsPortableTree

theorem Accepted.isTree {value : PortableDocument} (h : Accepted value) :
    ∃ root, IsPortableTree value.items root := by
  obtain ⟨root, hroot, hrecovered⟩ := h.tree
  have htop : ∀ i ∈ value.items, i.parentId = none ↔ i = root := by
    intro i hi
    have hmem : i ∈ rootItems value.items ↔ i.parentId = none := by simp [rootItems, hi]
    rw [← hmem, hroot, List.mem_singleton]
  have hin : root ∈ value.items := List.mem_of_mem_filter (hroot ▸ List.mem_singleton_self root)
  have hspec : EffectiveTree.Spec (value.items.map PortableItem.toTreeNode) root.id _ :=
    deriveEffectiveTree_spec (portable_ids ▸ h.distinct)
  have hlisted : ∀ i ∈ value.items, ∀ p, i.parentId = some p →
      p ∈ value.items.map PortableItem.id ∧ p ≠ ROOT_PARENT_SENTINEL := by
    intro i hi p hp
    have hne : i.id ≠ root.id := by
      intro he
      rw [List.inj_on_of_nodup_map h.distinct hi hin he, (htop root hin).mpr rfl] at hp
      cases hp
    have hattached : ¬ Detached (value.items.map PortableItem.toTreeNode) root.id i.id := by
      intro hdetached
      have hmem := (hspec.recovered i.id).mpr (Or.inl hdetached)
      rw [hrecovered] at hmem
      exact absurd hmem (Finset.notMem_empty _)
    have hparent : i.toTreeNode.parentId = p := by simp [PortableItem.toTreeNode, hp]
    constructor
    · by_contra hno
      refine hattached ⟨hne, i.toTreeNode, List.mem_map_of_mem hi, rfl, Or.inr ?_⟩
      rwa [hparent, portable_ids]
    · rintro rfl
      exact hattached ⟨hne, i.toTreeNode, List.mem_map_of_mem hi, rfl, Or.inl hparent⟩
  refine ⟨root, h.distinct, hin, htop, hlisted, fun i hi => ?_⟩
  have hreach := hspec.reaches i.id (portable_ids ▸ List.mem_map_of_mem hi)
  refine hreach.lift id fun a b hedge => ?_
  obtain ⟨hne, hparent⟩ := hedge
  have ha : a ∈ ids (value.items.map PortableItem.toTreeNode) := by
    by_contra hno
    rw [hspec.unlisted a hno] at hparent
    cases hparent
  rw [portable_ids] at ha
  obtain ⟨j, hj, rfl⟩ := List.mem_map.mp ha
  have hkept := hspec.parent _ (List.mem_map_of_mem hj) hne
  rw [hrecovered, if_neg (Finset.notMem_empty _)] at hkept
  change _ = some b at hparent
  rw [show j.id = j.toTreeNode.id from rfl, hkept] at hparent
  cases hp : j.parentId with
  | none => exact absurd (congrArg PortableItem.id ((htop j hj).mp hp)) hne
  | some p =>
    refine ⟨j, hj, rfl, ?_⟩
    rw [hp]
    simpa [PortableItem.toTreeNode, hp] using hparent

end Tree

section Export

variable {localeCompare : JsString → JsString → ℤ} {d : TitledDoc} {rootId : JsString} {includeTrash : Bool}
  {x y : JsString}

def Exported (d : TitledDoc) (rootId : JsString) (includeTrash : Bool) (x : JsString) : Prop :=
  x ∈ d.doc.readAllSnapshots.map ItemNodeSnapshot.id ∧
    (includeTrash = true ∨ x ∉ (snapshotTree d.doc.readAllSnapshots rootId).deleted)

theorem mem_portableDocument (hroot : d.doc.getRootId = some rootId) {i : PortableItem} :
    i ∈ (portableDocument localeCompare d includeTrash).items ↔ ∃ n ∈ d.doc.readAllSnapshots,
      Exported d rootId includeTrash n.id ∧
      portableItem (snapshotTree d.doc.readAllSnapshots rootId) rootId includeTrash n = i := by
  rw [portableDocument, List.mem_insertionSort, List.mem_map, hroot, Option.getD_some]
  constructor
  · rintro ⟨n, hn, rfl⟩
    obtain ⟨hn, hkeep⟩ := List.mem_filter.mp hn
    exact ⟨n, hn, ⟨List.mem_map_of_mem hn, by simpa [snapshotTree] using hkeep⟩, rfl⟩
  · rintro ⟨n, hn, ⟨-, hkeep⟩, rfl⟩
    exact ⟨n, List.mem_filter.mpr ⟨hn, by simpa [snapshotTree] using hkeep⟩, rfl⟩

theorem portableDocument_ids (hroot : d.doc.getRootId = some rootId) :
    x ∈ (portableDocument localeCompare d includeTrash).items.map PortableItem.id ↔
    Exported d rootId includeTrash x := by
  constructor
  · intro hx
    obtain ⟨i, hi, rfl⟩ := List.mem_map.mp hx
    obtain ⟨n, -, hkeep, rfl⟩ := (mem_portableDocument hroot).mp hi
    exact hkeep
  · intro hx
    obtain ⟨n, hn, rfl⟩ := List.mem_map.mp hx.1
    exact List.mem_map.mpr ⟨_, (mem_portableDocument hroot).mpr ⟨n, hn, hx, rfl⟩, rfl⟩

theorem portableDocument_nodup :
    ((portableDocument localeCompare d includeTrash).items.map PortableItem.id).Nodup := by
  rw [portableDocument, ((List.perm_insertionSort _ _).map _).nodup_iff, List.map_map]
  exact snapshots_nodup.sublist (List.filter_sublist.map _)

theorem portableDocument_length :
    (portableDocument localeCompare d includeTrash).items.length ≤ d.doc.readAllSnapshots.length := by
  rw [portableDocument, List.length_insertionSort, List.length_map]
  exact List.length_filter_le _ _

theorem Exported.above (h : Exported d rootId includeTrash x)
    (hpresent : rootId ∈ d.doc.readAllSnapshots.map ItemNodeSnapshot.id)
    (hedge : EffectiveEdge rootId (snapshotTree d.doc.readAllSnapshots rootId) x y) :
    Exported d rootId includeTrash y := by
  obtain ⟨hlisted, hkeep⟩ := h
  obtain ⟨n, hn, rfl⟩ := List.mem_map.mp hlisted
  obtain ⟨p, hp, hcase⟩ := snapshotTree_parent snapshots_nodup hn hedge.1
  obtain rfl : y = p := Option.some.inj (hedge.2.symm.trans hp)
  refine ⟨?_, hkeep.imp_right fun hlive hdel => hlive ?_⟩
  · obtain rfl | ⟨-, hin⟩ := hcase
    · exact hpresent
    · exact hin
  · have hspec : EffectiveTree.Spec _ rootId (snapshotTree d.doc.readAllSnapshots rootId) :=
      snapshotTree_spec rootId snapshots_nodup
    obtain ⟨-, hne, hflag⟩ := (hspec.deleted y).mp hdel
    refine (hspec.deleted n.id).mpr ⟨?_, hedge.1, Or.inr ?_⟩
    · rw [ids, List.map_map]
      exact hlisted
    · rcases hflag with hflag | ⟨z, hyz, hz⟩
      · exact ⟨y, .single hedge, hne, hflag⟩
      · exact ⟨z, .head hedge hyz, hz⟩

theorem portableDocument_placed (hroot : d.doc.getRootId = some rootId) :
    PlacedUnder (portableDocument localeCompare d includeTrash).items x y ↔
      Exported d rootId includeTrash x ∧
      EffectiveEdge rootId (snapshotTree d.doc.readAllSnapshots rootId) x y := by
  constructor
  · rintro ⟨i, hi, rfl, hy⟩
    obtain ⟨n, hn, hkeep, rfl⟩ := (mem_portableDocument hroot).mp hi
    refine ⟨hkeep, ?_⟩
    simp only [portableItem] at hy
    split at hy
    · cases hy
    · rename_i hne
      obtain ⟨p, hp, -⟩ := snapshotTree_parent snapshots_nodup hn hne
      rw [hp, Option.getD_some] at hy
      exact ⟨hne, hp.trans hy⟩
  · rintro ⟨hkeep, hne, hy⟩
    obtain ⟨n, hn, rfl⟩ := List.mem_map.mp hkeep.1
    refine ⟨_, (mem_portableDocument hroot).mpr ⟨n, hn, hkeep, rfl⟩, rfl, ?_⟩
    simp only [portableItem]
    rw [if_neg hne, hy, Option.getD_some]

theorem portableDocument_isTree (hroot : d.doc.getRootId = some rootId)
    (hpresent : rootId ∈ d.doc.readAllSnapshots.map ItemNodeSnapshot.id)
    (hplain : rootId ≠ ROOT_PARENT_SENTINEL) :
    ∃ root, root.id = rootId ∧ IsPortableTree (portableDocument localeCompare d includeTrash).items root := by
  have hspec : EffectiveTree.Spec _ rootId (snapshotTree d.doc.readAllSnapshots rootId) :=
    snapshotTree_spec rootId snapshots_nodup
  have hkept : Exported d rootId includeTrash rootId :=
    ⟨hpresent, Or.inr fun hdel => ((hspec.deleted rootId).mp hdel).2.1 rfl⟩
  obtain ⟨n, hn, hid⟩ := List.mem_map.mp hpresent
  refine ⟨portableItem (snapshotTree d.doc.readAllSnapshots rootId) rootId includeTrash n, hid,
    portableDocument_nodup,
    (mem_portableDocument hroot).mpr ⟨n, hn, hid ▸ hkept, rfl⟩, ?_, ?_, ?_⟩
  · intro i hi
    obtain ⟨m, hm, -, rfl⟩ := (mem_portableDocument hroot).mp hi
    constructor
    · intro hnone
      simp only [portableItem] at hnone
      split at hnone
      · rename_i he
        rw [List.inj_on_of_nodup_map snapshots_nodup hm hn (he.trans hid.symm)]
      · cases hnone
    · intro he
      simp only [portableItem]
      rw [if_pos]
      exact (congrArg PortableItem.id he).trans hid
  · intro i hi p hp
    have hplaced : PlacedUnder (portableDocument localeCompare d includeTrash).items i.id p :=
      ⟨i, hi, rfl, hp⟩
    obtain ⟨hkeep, hedge⟩ := (portableDocument_placed hroot).mp hplaced
    refine ⟨(portableDocument_ids hroot).mpr (hkeep.above hpresent hedge), ?_⟩
    obtain ⟨m, hm, hmid⟩ := List.mem_map.mp hkeep.1
    obtain ⟨q, hq, hcase⟩ := snapshotTree_parent snapshots_nodup hm (hmid ▸ hedge.1)
    rw [hmid] at hq
    obtain rfl : p = q := Option.some.inj (hedge.2.symm.trans hq)
    obtain rfl | ⟨hne, -⟩ := hcase
    · exact hplain
    · exact hne
  · intro i hi
    have hkeep : Exported d rootId includeTrash i.id :=
      (portableDocument_ids hroot).mp (List.mem_map_of_mem hi)
    have hreach := hspec.reaches i.id (by rw [ids, List.map_map]; exact hkeep.1)
    have hgo :
        ∀ a, ReflTransGen (EffectiveEdge rootId (snapshotTree d.doc.readAllSnapshots rootId)) a rootId →
        Exported d rootId includeTrash a →
        ReflTransGen (PlacedUnder (portableDocument localeCompare d includeTrash).items) a rootId := by
      intro a ha
      induction ha using ReflTransGen.head_induction_on with
      | refl => exact fun _ => .refl
      | head hedge _ ih =>
        intro hkeep
        exact .head ((portableDocument_placed hroot).mpr ⟨hkeep, hedge⟩) (ih (hkeep.above hpresent hedge))
    exact hid.symm ▸ hgo i.id hreach hkeep

end Export

end OpenOutliner
