import OpenOutliner.Crdt.Merging
import OpenOutliner.Crdt.MoveItem

namespace OpenOutliner

open Foundations Relation

/-- `y` is placed by `m` and not deleted itself. -/
def Standing (doc : Doc) (y : JsString) (m : MoveRegister) : Prop :=
  doc.moveOf y = some m ∧ doc.placement y = some (m.parentId, false)

def Under (doc : Doc) (rootId y p : JsString) : Prop :=
  y ≠ rootId ∧ ∃ m, doc.moveOf y = some m ∧ m.parentId = p

structure RanksApart (doc : Doc) (rootId : JsString) : Prop where
  pinned : doc.rootId = none ∨ doc.rootId = some rootId
  root : ∃ m, doc.moveOf rootId = some m ∧ m.parentId = ROOT_PARENT_SENTINEL
  plain : doc.moveOf ROOT_PARENT_SENTINEL = none
  parents : ∀ y m, doc.moveOf y = some m → y ≠ rootId → (doc.moveOf m.parentId).isSome = true
  reaches : ∀ y, (doc.moveOf y).isSome = true → ReflTransGen (Under doc rootId) y rootId
  apart : ∀ y z m n, y ≠ z → Standing doc y m → Standing doc z n → m.parentId = n.parentId → m.rank ≠ n.rank

/-- All that stands under `p` is shown there. -/
def ShowsAll (doc : Doc) (p : JsString) : Prop :=
  ∀ y m, Standing doc y m → m.parentId = p → y ∈ doc.childIds p

section Places

variable {doc : Doc} {y : JsString} {m : MoveRegister}

theorem placement_of_moveOf (hmove : doc.moveOf y = some m) :
    ∃ b, doc.placement y = some (m.parentId, b) := by
  obtain ⟨node, hget, hnode⟩ := Option.bind_eq_some_iff.mp hmove
  refine ⟨(readDeleted doc.schemaVersion node).isDeleted, ?_⟩
  rw [Doc.placement, hget, Option.bind_some, hnode]
  rfl

theorem standing_iff (hmove : doc.moveOf y = some m) : Standing doc y m ↔
    ¬ FlaggedDeleted doc.treeNodes y := by
  obtain ⟨b, hb⟩ := placement_of_moveOf hmove
  unfold Standing FlaggedDeleted
  rw [hmove, hb]
  constructor
  · rintro ⟨-, hstand⟩ ⟨n, hn, rfl, hdeleted⟩
    rw [mem_treeNodes_iff, hb, hstand] at hn
    simp only [Option.some.injEq, Prod.mk.injEq] at hn
    rw [← hn.2] at hdeleted
    cases hdeleted
  · intro hno
    refine ⟨rfl, ?_⟩
    cases b with
    | false => rfl
    | true => exact absurd ⟨⟨y, m.parentId, true⟩, mem_treeNodes_iff.mpr hb, rfl, rfl⟩ hno

end Places

namespace RanksApart

variable {doc doc' : Doc} {rootId x y p q : JsString} {m placed : MoveRegister} (h : RanksApart doc rootId)

theorem written_agree : AgreeOff x (Under doc rootId) (Under (doc.writeMove x placed) rootId) := by
  intro y q hy
  rw [Under, Under, writeMove_moveOf_other placed hy]

include h

theorem parent_plain (hmove : doc.moveOf y = some m) (hy : y ≠ rootId) :
    m.parentId ≠ ROOT_PARENT_SENTINEL := by
  intro hs
  have hlisted := h.parents y m hmove hy
  rw [hs, h.plain] at hlisted
  cases hlisted

theorem apart_root (hx : x ≠ rootId) : doc.rootId ≠ some x := by
  rcases h.pinned with hnone | hsome
  · rw [hnone]
    simp
  · exact root_apart hsome hx

theorem getRootId : doc.getRootId = some rootId := by
  rcases h.pinned with hnone | hsome
  · obtain ⟨m, hm, hparent⟩ := h.root
    obtain ⟨node, hget, hnode⟩ := Option.bind_eq_some_iff.mp hm
    have hplaced : (node.move.any fun m => isRootParent m.parentId) = true := by
      rw [hnode]
      simpa [isRootParent] using hparent
    have hentry : (rootId, node) ∈ doc.items.entries := (doc.items.mem_entries_iff rootId node).mpr hget
    unfold Doc.getRootId
    rw [hnone]
    dsimp only
    cases hfind : doc.items.entries.find? fun e => e.2.move.any fun m => isRootParent m.parentId with
    | none => exact absurd hplaced (List.find?_eq_none.mp hfind _ hentry)
    | some e =>
      have hmem := (doc.items.mem_entries_iff e.1 e.2).mp (List.mem_of_find?_eq_some hfind)
      obtain ⟨n, hn, hsentinel⟩ : ∃ n, e.2.move = some n ∧ isRootParent n.parentId = true := by
        have hany := List.find?_some hfind
        cases hn : e.2.move with
        | none => simp [hn] at hany
        | some n => exact ⟨n, rfl, by simpa [hn] using hany⟩
      by_contra hne
      have hmove : doc.moveOf e.1 = some n := by
        rw [Doc.moveOf, hmem, Option.bind_some, hn]
      apply h.parent_plain hmove fun he => hne (by rw [Option.map_some, he])
      simpa [isRootParent] using hsentinel
  · exact getRootId_eq hsome

theorem spec : EffectiveTree.Spec doc.treeNodes rootId doc.effectiveTree := Doc.rooted_spec h.getRootId

theorem under_iff : Under doc rootId y p ↔ RawEdge doc.treeNodes rootId y p := by
  constructor
  · rintro ⟨hne, m, hmove, rfl⟩
    exact (rawEdge_iff_moveOf hmove).mpr ⟨hne, rfl, h.parent_plain hmove hne, h.parents y m hmove hne⟩
  · intro hedge
    obtain ⟨m, hmove⟩ := Option.isSome_iff_exists.mp (mem_ids_iff.mp (rawEdge_source hedge))
    obtain ⟨hne, hparent, -⟩ := (rawEdge_iff_moveOf hmove).mp hedge
    exact ⟨hne, m, hmove, hparent⟩

theorem under_eq : Under doc rootId = RawEdge doc.treeNodes rootId := by
  funext y p
  exact propext h.under_iff

theorem acyclic : ¬ TransGen (Under doc rootId) y y := by
  rw [h.under_eq]
  intro hcyc
  obtain ⟨w, hw, -⟩ := TransGen.head'_iff.mp hcyc
  have hreach := h.reaches y (mem_ids_iff.mp (rawEdge_source hw))
  rw [h.under_eq] at hreach
  obtain ⟨z, hz, -⟩ := TransGen.head'_iff.mp (cycle_forward (rawEdge_unique doc.treeNodes_nodup) hcyc hreach)
  exact hz.1 rfl

theorem not_recovered : y ∉ doc.effectiveTree.recovered := by
  intro hrec
  rcases (h.spec.recovered y).mp hrec with ⟨hne, n, hn, rfl, hcase⟩ | hleast
  · obtain ⟨m, hmove, hparent⟩ := treeNode_parent hn
    rw [← hparent, mem_ids_iff] at hcase
    exact hcase.elim (h.parent_plain hmove hne) fun hno => hno (h.parents _ m hmove hne)
  · have hcyc := hleast.1
    rw [← h.under_eq] at hcyc
    exact h.acyclic hcyc

theorem edge_iff : EffectiveEdge rootId doc.effectiveTree y p ↔ Under doc rootId y p := by
  rw [h.under_iff]
  constructor
  · intro hedge
    exact h.spec.edge_raw hedge h.not_recovered
  · intro hraw
    obtain ⟨hne, -, n, hn, rfl, rfl⟩ := hraw
    rw [h.spec.edge_iff hn, if_neg h.not_recovered]
    exact ⟨hne, rfl⟩

theorem child_standing (hy : y ∈ doc.childIds q) :
    Under doc rootId y q ∧ ∃ m, Standing doc y m ∧ m.parentId = q := by
  obtain ⟨hedge, hlive⟩ := (mem_childIds h.getRootId).mp hy
  have hunder := h.edge_iff.mp hedge
  obtain ⟨hne, m, hmove, hparent⟩ := hunder
  refine ⟨⟨hne, m, hmove, hparent⟩, m, (standing_iff hmove).mpr ?_, hparent⟩
  exact (h.spec.live_child hedge (h.spec.ancestorsLive hedge hlive)).mp hlive

theorem showsAll (hq : AncestorsLive doc.treeNodes rootId doc.effectiveTree q)
    (hplain : q ≠ ROOT_PARENT_SENTINEL) :
    ShowsAll doc q := by
  intro y m hstand hparent
  have hne : y ≠ rootId := by
    rintro rfl
    obtain ⟨m', hm', hroot⟩ := h.root
    obtain rfl := Option.some.inj (hm'.symm.trans hstand.1)
    exact hplain (hparent.symm.trans hroot)
  have hedge := h.edge_iff.mpr ⟨hne, m, hstand.1, hparent⟩
  exact (mem_childIds h.getRootId).mpr
    ⟨hedge, (h.spec.live_child hedge hq).mpr ((standing_iff hstand.1).mp hstand)⟩

theorem plain_of_listed (hq : (doc.moveOf q).isSome = true) : q ≠ ROOT_PARENT_SENTINEL := by
  rintro rfl
  rw [h.plain] at hq
  cases hq

theorem root_listed : (doc.moveOf rootId).isSome = true := by
  obtain ⟨m, hm, -⟩ := h.root
  rw [hm]
  rfl

theorem child_listed (hy : y ∈ doc.childIds q) : (doc.moveOf y).isSome = true := by
  obtain ⟨-, m, hstand, -⟩ := h.child_standing hy
  rw [hstand.1]
  rfl

theorem showsAll_root : ShowsAll doc rootId := by
  apply h.showsAll _ (h.plain_of_listed h.root_listed)
  intro z hz hne
  rcases ReflTransGen.cases_head hz with he | ⟨w, hw, -⟩
  · exact absurd he.symm hne
  · exact absurd rfl hw.1

theorem parent_listed (hy : y ∈ doc.childIds q) : (doc.moveOf q).isSome = true := by
  obtain ⟨⟨hne, m, hmove, rfl⟩, -⟩ := h.child_standing hy
  exact h.parents y m hmove hne

theorem showsAll_parent (hy : y ∈ doc.childIds q) : ShowsAll doc q := by
  obtain ⟨hedge, hlive⟩ := (mem_childIds h.getRootId).mp hy
  exact h.showsAll (h.spec.ancestorsLive hedge hlive) (h.plain_of_listed (h.parent_listed hy))

theorem showsAll_child (hy : y ∈ doc.childIds q) : ShowsAll doc y := by
  obtain ⟨hedge, hlive⟩ := (mem_childIds h.getRootId).mp hy
  exact h.showsAll (h.spec.ancestorsLive_self hedge hlive) (h.plain_of_listed (h.child_listed hy))

theorem avoids_of_below (hx : Under doc rootId x p) (hq : ReflTransGen (Under doc rootId) p q) :
    ¬ ReflTransGen (Under doc rootId) q x := by
  intro hback
  exact h.acyclic (TransGen.head' hx (hq.trans hback))

theorem same_moves (hroot : doc'.rootId = doc.rootId) (hmoves : ∀ y, doc'.moveOf y = doc.moveOf y)
    (hapart : ∀ y z m n, y ≠ z → Standing doc' y m → Standing doc' z n → m.parentId = n.parentId →
      m.rank ≠ n.rank) :
    RanksApart doc' rootId := by
  have hunder : Under doc' rootId = Under doc rootId := by
    funext y p
    rw [Under, Under, hmoves]
  constructor
  · rw [hroot]
    exact h.pinned
  · rw [hmoves]
    exact h.root
  · rw [hmoves]
    exact h.plain
  · intro y m hmove hne
    rw [hmoves] at hmove ⊢
    exact h.parents y m hmove hne
  · intro y hy
    rw [hmoves] at hy
    rw [hunder]
    exact h.reaches y hy
  · exact hapart

theorem same_places (hroot : doc'.rootId = doc.rootId) (hmoves : ∀ y, doc'.moveOf y = doc.moveOf y)
    (hstand : ∀ y m, Standing doc' y m → Standing doc y m) : RanksApart doc' rootId := by
  apply h.same_moves hroot hmoves
  intro y z m n hne hy hz
  exact h.apart y z m n hne (hstand y m hy) (hstand z n hz)

theorem same_placements (hroot : doc'.rootId = doc.rootId) (hmoves : ∀ y, doc'.moveOf y = doc.moveOf y)
    (hplaces : ∀ y, doc'.placement y = doc.placement y) : RanksApart doc' rootId := by
  apply h.same_places hroot hmoves
  intro y m hstand
  rwa [Standing, hmoves, hplaces] at hstand

section Placed

variable (hx : x ≠ rootId)

include hx

theorem written_standing (hstand : Standing (doc.writeMove x placed) y m) :
    y = x ∧ m = placed ∨ y ≠ x ∧ Standing doc y m := by
  by_cases hy : y = x
  · subst hy
    have hself := writeMove_moveOf_self (h.apart_root hx) placed
    exact Or.inl ⟨rfl, Option.some.inj (hstand.1.symm.trans hself)⟩
  · refine Or.inr ⟨hy, ?_⟩
    rwa [Standing, writeMove_moveOf_other placed hy, placement_other (h.apart_root hx) hy] at hstand

theorem written_listed (hq : (doc.moveOf q).isSome = true) :
    ((doc.writeMove x placed).moveOf q).isSome = true := by
  by_cases hqx : q = x
  · rw [hqx, writeMove_moveOf_self (h.apart_root hx)]
    rfl
  · rwa [writeMove_moveOf_other placed hqx]

theorem write (hplain : x ≠ ROOT_PARENT_SENTINEL) (hlisted : (doc.moveOf placed.parentId).isSome = true)
    (hback : ¬ ReflTransGen (Under doc rootId) placed.parentId x)
    (hrank : ∀ y m, y ≠ x → Standing doc y m → m.parentId = placed.parentId → m.rank ≠ placed.rank) :
    RanksApart (doc.writeMove x placed) rootId := by
  have hself := writeMove_moveOf_self (h.apart_root hx) placed
  have hagree : AgreeOff x (Under doc rootId) (Under (doc.writeMove x placed) rootId) := written_agree
  have hup := hagree.path_of_avoids hback (h.reaches _ hlisted)
  have hfrom : ReflTransGen (Under (doc.writeMove x placed) rootId) x rootId :=
    .head ⟨hx, placed, hself, rfl⟩ hup
  constructor
  · rw [Doc.writeMove_rootId]
    exact h.pinned
  · rw [writeMove_moveOf_other placed hx.symm]
    exact h.root
  · rw [writeMove_moveOf_other placed hplain.symm]
    exact h.plain
  · intro y m hmove hne
    apply h.written_listed hx
    by_cases hy : y = x
    · rw [hy, hself] at hmove
      rwa [← Option.some.inj hmove]
    · rw [writeMove_moveOf_other placed hy] at hmove
      exact h.parents y m hmove hne
  · intro y hy
    by_cases hyx : y = x
    · rwa [hyx]
    · rw [writeMove_moveOf_other placed hyx] at hy
      by_cases hpath : ReflTransGen (Under doc rootId) y x
      · exact (hagree.to_point hpath).trans hfrom
      · exact hagree.path_of_avoids hpath (h.reaches y hy)
  · intro y z m n hne hy hz hparent
    rcases h.written_standing hx hy with ⟨rfl, rfl⟩ | ⟨hyx, hyold⟩
    · rcases h.written_standing hx hz with ⟨rfl, rfl⟩ | ⟨hzx, hzold⟩
      · exact absurd rfl hne
      · exact (hrank z n hzx hzold hparent.symm).symm
    · rcases h.written_standing hx hz with ⟨rfl, rfl⟩ | ⟨hzx, hzold⟩
      · exact hrank y m hyx hyold hparent
      · exact h.apart y z m n hne hyold hzold hparent

theorem write_shown (hplain : x ≠ ROOT_PARENT_SENTINEL) (hlisted : (doc.moveOf placed.parentId).isSome = true)
    (hback : ¬ ReflTransGen (Under doc rootId) placed.parentId x) (hshows : ShowsAll doc placed.parentId)
    (hkeys : ∀ e ∈ doc.siblingKeys placed.parentId, e.1 ≠ x → e.2 ≠ placed.rank) :
    RanksApart (doc.writeMove x placed) rootId := by
  apply h.write hx hplain hlisted hback
  intro y m hyx hstand hparent
  exact hkeys (y, m.rank) (mem_siblingKeys.mpr ⟨hshows y m hstand hparent, m, hstand.1, rfl⟩) hyx

end Placed

theorem children_apart {n : MoveRegister} (hx : x ∈ doc.childIds q) (hy : y ∈ doc.childIds q) (hne : x ≠ y)
    (hm : doc.moveOf x = some m) (hn : doc.moveOf y = some n) : m.rank ≠ n.rank := by
  obtain ⟨-, m', hxm, hmq⟩ := h.child_standing hx
  obtain ⟨-, n', hyn, hnq⟩ := h.child_standing hy
  obtain rfl := Option.some.inj (hm.symm.trans hxm.1)
  obtain rfl := Option.some.inj (hn.symm.trans hyn.1)
  exact h.apart x y m n hne hxm hyn (hmq.trans hnq.symm)

end RanksApart

end OpenOutliner
