import OpenOutliner.Client.PortableImport
import OpenOutliner.Foundations.OrderedForest

namespace OpenOutliner

open Foundations Relation

section Children

variable {doc : Doc} {rootId p : JsString}

theorem childIds_eq (hget : doc.getRootId = some rootId) {l : List (JsString × JsString)}
    (hnd : (l.map Prod.fst).Nodup) (hsorted : l.Pairwise fun a b => compareOrder a b ≤ 0)
    (hmem : ∀ c r, (c, r) ∈ l ↔ ∃ s ∈ doc.readAllSnapshots, s.id = c ∧ s.move.rank = r ∧
      c ∉ (snapshotTree doc.readAllSnapshots rootId).deleted ∧
      EffectiveEdge rootId (snapshotTree doc.readAllSnapshots rootId) c p) : doc.childIds p =
      l.map Prod.fst := by
  rw [← rowChildren_rooted hget, rowChildren]
  refine (sortSiblings_ids _).trans (congrArg (List.map Prod.fst) ?_)
  have hrows :
      (((doc.readAllSnapshots.map (effectiveRow (snapshotTree doc.readAllSnapshots rootId) rootId)).filter
      fun r => !r.deleted && decide (r.parentId = some p)).map ProjectedItem.id).Nodup := by
    apply List.Nodup.sublist (List.filter_sublist.map _)
    rw [rows_ids]
    exact snapshots_nodup
  have hperm :
      (((doc.readAllSnapshots.map (effectiveRow (snapshotTree doc.readAllSnapshots rootId) rootId)).filter
      fun r => !r.deleted && decide (r.parentId = some p)).map siblingKey).Perm l := by
    apply (List.perm_ext_iff_of_nodup _ (List.Nodup.of_map _ hnd)).mpr
    · rintro ⟨c, r⟩
      rw [hmem]
      simp only [List.mem_map, List.mem_filter, siblingKey, Ordered.id, Ordered.rank, Prod.mk.injEq,
        Bool.and_eq_true,
        Bool.not_eq_true', decide_eq_true_eq]
      constructor
      · rintro ⟨row, ⟨⟨s, hs, rfl⟩, hlive, hparent⟩, rfl, rfl⟩
        simp only [effectiveRow, decide_eq_false_iff_not] at hlive hparent
        split at hparent
        · cases hparent
        · rename_i hne
          exact ⟨s, hs, rfl, rfl, hlive, hne, hparent⟩
      · rintro ⟨s, hs, rfl, rfl, hlive, hne, hparent⟩
        refine ⟨_, ⟨⟨s, hs, rfl⟩, ?_, ?_⟩, rfl, rfl⟩
        · simpa [effectiveRow] using hlive
        · simp only [effectiveRow]
          rw [if_neg hne, hparent]
    · exact List.Nodup.of_map Prod.fst (by rw [List.map_map]; exact hrows)
  rw [sortSiblings_eq_of_perm hperm (by rw [List.map_map]; exact hrows)]
  exact hsorted.insertionSort_eq

theorem mem_deleted_iff {x : JsString} (hx : x ∈ doc.readAllSnapshots.map ItemNodeSnapshot.id) :
    x ∈ (snapshotTree doc.readAllSnapshots rootId).deleted ↔
      ∃ y, ReflTransGen (EffectiveEdge rootId (snapshotTree doc.readAllSnapshots rootId)) x y ∧ y ≠ rootId ∧
        FlaggedDeleted (doc.readAllSnapshots.map ItemNodeSnapshot.toTreeNode) y := by
  have hspec : EffectiveTree.Spec _ rootId (snapshotTree doc.readAllSnapshots rootId) :=
    snapshotTree_spec rootId snapshots_nodup
  rw [hspec.deleted, ids, List.map_map]
  constructor
  · rintro ⟨-, hne, hflag | ⟨y, hxy, hy⟩⟩
    · exact ⟨x, .refl, hne, hflag⟩
    · exact ⟨y, hxy.to_reflTransGen, hy⟩
  · rintro ⟨y, hxy, hne, hflag⟩
    rcases ReflTransGen.cases_head hxy with rfl | ⟨z, hxz, hzy⟩
    · exact ⟨hx, hne, Or.inl hflag⟩
    · exact ⟨hx, hxz.1, Or.inr ⟨y, TransGen.head' hxz hzy, hne, hflag⟩⟩

theorem snapshot_content {s : ItemNodeSnapshot} (hs : s ∈ doc.readAllSnapshots) :
    (doc.contentOf s.id).getD [] = s.content := by
  obtain ⟨e, he, hread⟩ := List.mem_filterMap.mp hs
  obtain ⟨move, -, rfl⟩ := Option.map_eq_some_iff.mp hread
  rw [Doc.contentOf, (OrderedMap.mem_entries_iff _ e.1 e.2).mp he]
  rfl

end Children

/-- An item that is marked deleted or is below one that is. -/
def Trashed (items : List PortableItem) (x : JsString) : Prop :=
  ∃ y, ReflTransGen (PlacedUnder items) x y ∧ ∃ j ∈ items, j.id = y ∧ j.flagged = true

open scoped Classical in
noncomputable def liveGroup (items : List PortableItem) (p : JsString) : List PortableItem :=
  (siblingGroup items (some p)).filter fun i => ¬ Trashed items i.id

section Groups

variable {items : List PortableItem} {p : JsString} (hnd : (items.map PortableItem.id).Nodup)

theorem mem_liveGroup {i : PortableItem} : i ∈ liveGroup items p ↔
    i ∈ items ∧ i.parentId = some p ∧ ¬ Trashed items i.id := by
  simp only [liveGroup, List.mem_filter, mem_siblingGroup, decide_eq_true_eq, and_assoc]

theorem liveGroup_sorted : (liveGroup items p).Pairwise fun a b => compareOrder a b ≤ 0 :=
  (sortSiblings_pairwise _).sublist List.filter_sublist

theorem liveGroup_listed {x : JsString} (hx : x ∈ (liveGroup items p).map PortableItem.id) :
    x ∈ items.map PortableItem.id := by
  obtain ⟨i, hi, rfl⟩ := List.mem_map.mp hx
  exact List.mem_map_of_mem (mem_liveGroup.mp hi).1

include hnd

theorem liveGroup_nodup : (liveGroup items p).Nodup :=
  (siblingGroup_nodup hnd _).sublist List.filter_sublist

theorem liveGroup_ids : ((liveGroup items p).map PortableItem.id).Nodup := by
  refine List.Nodup.map_on (fun i hi j hj h => ?_) (liveGroup_nodup hnd)
  exact List.inj_on_of_nodup_map hnd (mem_liveGroup.mp hi).1 (mem_liveGroup.mp hj).1 h

end Groups

section Imported

variable {ctx : ImportContext} {documentId : JsString} {value : PortableDocument} {root : PortableItem}
  (ht : IsPortableTree value.items root) (hctx : ctx.Lawful documentId)

include ht hctx

theorem instantiated_edge {x y : JsString} (hx : x ∈ value.items.map PortableItem.id) :
    EffectiveEdge documentId
      (snapshotTree (instantiated ctx documentId value).doc.readAllSnapshots documentId)
        (newIdOf ctx documentId value.items x) y ↔
      ∃ p ∈ value.items.map PortableItem.id, newIdOf ctx documentId value.items p = y ∧
      PlacedUnder value.items x p := by
  obtain ⟨i, hi, rfl⟩ := List.mem_map.mp hx
  have hroot : newIdOf ctx documentId value.items i.id = documentId ↔ i.parentId = none := by
    rw [newIdOf_eq_root ht hctx hx, ht.top i hi]
    exact ⟨fun h => ht.eq_of_id hi ht.mem h, fun h => congrArg PortableItem.id h⟩
  constructor
  · rintro ⟨hne, hy⟩
    cases hp : i.parentId with
    | none => exact absurd (hroot.mpr hp) hne
    | some p =>
      rw [instantiated_parent ht hctx hi hp] at hy
      exact ⟨p, (ht.listed i hi p hp).1, Option.some.inj hy, i, hi, rfl, hp⟩
  · rintro ⟨p, -, rfl, j, hj, he, hp⟩
    rw [ht.eq_of_id hj hi he] at hp
    refine ⟨fun hno => ?_, instantiated_parent ht hctx hi hp⟩
    rw [hroot.mp hno] at hp
    cases hp

theorem instantiated_flagged {x : JsString} (hx : x ∈ value.items.map PortableItem.id) :
    FlaggedDeleted ((instantiated ctx documentId value).doc.readAllSnapshots.map ItemNodeSnapshot.toTreeNode)
      (newIdOf ctx documentId value.items x) ↔ ∃ j ∈ value.items, j.id = x ∧ j.flagged = true := by
  obtain ⟨i, hi, rfl⟩ := List.mem_map.mp hx
  constructor
  · rintro ⟨n, hn, hid, hflag⟩
    rw [newNode_unique ht hctx hi hn hid] at hflag
    exact ⟨i, hi, rfl, hflag⟩
  · rintro ⟨j, hj, he, hflag⟩
    obtain ⟨k, hk⟩ := List.mem_iff_getElem?.mp hj
    refine ⟨_, List.mem_map_of_mem ((mem_instantiated ht hctx).mpr ⟨j, k, hk, rfl⟩), ?_, hflag⟩
    exact congrArg (newIdOf ctx documentId value.items) he

theorem instantiated_below {x y : JsString} (hx : x ∈ value.items.map PortableItem.id) :
    ReflTransGen (EffectiveEdge documentId
        (snapshotTree (instantiated ctx documentId value).doc.readAllSnapshots documentId))
        (newIdOf ctx documentId value.items x) y ↔
      ∃ p ∈ value.items.map PortableItem.id, newIdOf ctx documentId value.items p = y ∧
        ReflTransGen (PlacedUnder value.items) x p := by
  constructor
  · intro h
    induction h with
    | refl => exact ⟨x, hx, rfl, .refl⟩
    | tail _ hedge ih =>
      obtain ⟨p, hp, rfl, hxp⟩ := ih
      obtain ⟨q, hq, he, hplaced⟩ := (instantiated_edge ht hctx hp).mp hedge
      exact ⟨q, hq, he, hxp.tail hplaced⟩
  · rintro ⟨p, hp, rfl, hxp⟩
    clear hp
    induction hxp with
    | refl => exact .refl
    | tail _ hplaced ih =>
      obtain ⟨i, hi, rfl, hparent⟩ := hplaced
      refine ih.tail ((instantiated_edge ht hctx (List.mem_map_of_mem hi)).mpr ?_)
      exact ⟨_, (ht.listed i hi _ hparent).1, rfl, i, hi, rfl, hparent⟩

theorem instantiated_deleted {x : JsString} (hx : x ∈ value.items.map PortableItem.id) :
    newIdOf ctx documentId value.items x ∈
        (snapshotTree (instantiated ctx documentId value).doc.readAllSnapshots documentId).deleted ↔
      Trashed value.items x := by
  rw [mem_deleted_iff ((instantiated_ids ht hctx).mpr ⟨x, hx, rfl⟩)]
  constructor
  · rintro ⟨y, hxy, -, hflag⟩
    obtain ⟨p, hp, rfl, hxp⟩ := (instantiated_below ht hctx hx).mp hxy
    exact ⟨p, hxp, (instantiated_flagged ht hctx hp).mp hflag⟩
  · rintro ⟨y, hxy, j, hj, rfl, hflag⟩
    have hy : j.id ∈ value.items.map PortableItem.id := List.mem_map_of_mem hj
    refine ⟨_, (instantiated_below ht hctx hx).mpr ⟨j.id, hy, rfl, hxy⟩, fun he => ?_,
      (instantiated_flagged ht hctx hy).mpr ⟨j, hj, rfl, hflag⟩⟩
    -- the root is never flagged
    rw [ht.eq_of_id hj ht.mem ((newIdOf_eq_root ht hctx hy).mp he), PortableItem.flagged,
      (ht.top root ht.mem).mpr rfl] at hflag
    simp at hflag

theorem instantiated_childIds {p : JsString} (hp : p ∈ value.items.map PortableItem.id) :
    (instantiated ctx documentId value).doc.childIds (newIdOf ctx documentId value.items p) =
      ((liveGroup value.items p).map PortableItem.id).map (newIdOf ctx documentId value.items) := by
  have hget : (instantiated ctx documentId value).doc.getRootId = some documentId := by
    rw [Doc.getRootId, (instantiated_entries ht hctx).2.1]
  have hl : ((liveGroup value.items p).map PortableItem.id).map (newIdOf ctx documentId value.items) =
      ((liveGroup value.items p).map fun i =>
        (newIdOf ctx documentId value.items i.id, newRankOf ctx value.items i)).map
        Prod.fst := by
    rw [List.map_map, List.map_map]
    rfl
  rw [hl]
  apply childIds_eq hget
  · rw [← hl]
    refine List.Nodup.map_on (fun x hx y hy h => ?_) (liveGroup_ids ht.distinct)
    exact newIdOf_injective ht hctx (liveGroup_listed hx) (liveGroup_listed hy) h
  · rw [List.pairwise_map]
    refine (liveGroup_sorted.and (liveGroup_nodup ht.distinct)).imp_of_mem ?_
    rintro i j hi hj ⟨hle, hne⟩
    obtain ⟨hi, hpi, -⟩ := mem_liveGroup.mp hi
    obtain ⟨hj, hpj, -⟩ := mem_liveGroup.mp hj
    exact (compareOrder_le_iff _ _).mpr
      (Or.inl (newRankOf_lt ht.distinct hctx hi hj (hpi.trans hpj.symm) hle hne))
  · intro c r
    simp only [List.mem_map, Prod.mk.injEq]
    constructor
    · rintro ⟨i, hi, rfl, rfl⟩
      obtain ⟨hi, hpi, hlive⟩ := mem_liveGroup.mp hi
      obtain ⟨k, hk⟩ := List.mem_iff_getElem?.mp hi
      have hx : i.id ∈ value.items.map PortableItem.id := List.mem_map_of_mem hi
      refine ⟨_, (mem_instantiated ht hctx).mpr ⟨i, k, hk, rfl⟩, rfl, rfl, ?_, ?_⟩
      · rwa [instantiated_deleted ht hctx hx]
      · exact (instantiated_edge ht hctx hx).mpr ⟨p, hp, rfl, i, hi, rfl, hpi⟩
    · rintro ⟨s, hs, rfl, rfl, hlive, hedge⟩
      obtain ⟨i, k, hk, rfl⟩ := (mem_instantiated ht hctx).mp hs
      have hi : i ∈ value.items := List.mem_of_getElem? hk
      have hx : i.id ∈ value.items.map PortableItem.id := List.mem_map_of_mem hi
      obtain ⟨q, hq, he, j, hj, hji, hpj⟩ := (instantiated_edge ht hctx hx).mp hedge
      rw [ht.eq_of_id hj hi hji, newIdOf_injective ht hctx hq hp he] at hpj
      exact ⟨i, mem_liveGroup.mpr ⟨hi, hpj, fun h => hlive ((instantiated_deleted ht hctx hx).mpr h)⟩,
        rfl, rfl⟩

end Imported

section Exports

variable {localeCompare : JsString → JsString → ℤ} {d : TitledDoc} {rootId : JsString} {includeTrash : Bool}
  {x y : JsString}
  (hget : d.doc.getRootId = some rootId) (hpresent : rootId ∈ d.doc.readAllSnapshots.map ItemNodeSnapshot.id)

include hget

theorem exported_flagged :
    (∃ j ∈ (portableDocument localeCompare d includeTrash).items, j.id = x ∧ j.flagged = true) ↔
    Exported d rootId includeTrash x ∧ includeTrash = true ∧ x ≠ rootId ∧
      FlaggedDeleted (d.doc.readAllSnapshots.map ItemNodeSnapshot.toTreeNode) x := by
  constructor
  · rintro ⟨j, hj, rfl, hflag⟩
    obtain ⟨n, hn, hkeep, rfl⟩ := (mem_portableDocument hget).mp hj
    obtain ⟨hmarked, hplaced⟩ := Bool.and_eq_true_iff.mp hflag
    have htrash : includeTrash = true ∧ n.deleted.isDeleted = true := by
      cases includeTrash with
      | false => simp [portableItem] at hmarked
      | true => exact ⟨rfl, by simpa [portableItem] using hmarked⟩
    refine ⟨hkeep, htrash.1, ?_, n.toTreeNode, List.mem_map_of_mem hn, rfl, htrash.2⟩
    change n.id ≠ rootId
    intro he
    simp [portableItem, he] at hplaced
  · rintro ⟨hkeep, rfl, hne, n, hn, rfl, hflag⟩
    obtain ⟨s, hs, rfl⟩ := List.mem_map.mp hn
    refine ⟨_, (mem_portableDocument hget).mpr ⟨s, hs, hkeep, rfl⟩, rfl, ?_⟩
    have hmarked : s.deleted.isDeleted = true := hflag
    have hplain : s.id ≠ rootId := hne
    simp [PortableItem.flagged, portableItem, hmarked, hplain]

include hpresent

theorem exported_below (hx : Exported d rootId includeTrash x) :
    ReflTransGen (EffectiveEdge rootId (snapshotTree d.doc.readAllSnapshots rootId)) x y ↔
      Exported d rootId includeTrash y ∧
      ReflTransGen (PlacedUnder (portableDocument localeCompare d includeTrash).items) x y := by
  constructor
  · intro h
    induction h with
    | refl => exact ⟨hx, .refl⟩
    | tail _ hedge ih =>
      obtain ⟨hkeep, hto⟩ := ih
      exact ⟨hkeep.above hpresent hedge, hto.tail ((portableDocument_placed hget).mpr ⟨hkeep, hedge⟩)⟩
  · rintro ⟨-, h⟩
    exact h.lift id fun a b hplaced => ((portableDocument_placed hget).mp hplaced).2

theorem exported_trashed (hx : Exported d rootId includeTrash x) :
    Trashed (portableDocument localeCompare d includeTrash).items x ↔
      x ∈ (snapshotTree d.doc.readAllSnapshots rootId).deleted := by
  rw [mem_deleted_iff hx.1]
  constructor
  · rintro ⟨y, hxy, hflag⟩
    obtain ⟨hkeep, -, hne, hflag⟩ := (exported_flagged hget).mp hflag
    exact ⟨y, (exported_below hget hpresent hx).mpr ⟨hkeep, hxy⟩, hne, hflag⟩
  · rintro ⟨y, hxy, hne, hflag⟩
    have htrash : includeTrash = true := by
      refine hx.2.resolve_right fun hlive => hlive ?_
      exact (mem_deleted_iff hx.1).mpr ⟨y, hxy, hne, hflag⟩
    obtain ⟨hkeep, hto⟩ := (exported_below hget hpresent hx).mp hxy
    exact ⟨y, hto, (exported_flagged hget).mpr ⟨hkeep, htrash, hne, hflag⟩⟩

variable (localeCompare includeTrash) in
theorem exported_childIds (p : JsString) :
    d.doc.childIds p =
    (liveGroup (portableDocument localeCompare d includeTrash).items p).map PortableItem.id := by
  have hnd : ((portableDocument localeCompare d includeTrash).items.map PortableItem.id).Nodup :=
    portableDocument_nodup
  have hl : (liveGroup (portableDocument localeCompare d includeTrash).items p).map PortableItem.id =
      ((liveGroup (portableDocument localeCompare d includeTrash).items p).map siblingKey).map Prod.fst := by
    rw [List.map_map]
    rfl
  rw [hl]
  apply childIds_eq hget
  · rw [← hl]
    exact liveGroup_ids hnd
  · rw [List.pairwise_map]
    refine liveGroup_sorted.imp fun {a b} hle => ?_
    rw [compareOrder_le_iff] at hle ⊢
    exact hle
  · intro c r
    simp only [List.mem_map, siblingKey, Prod.mk.injEq]
    constructor
    · rintro ⟨i, hi, rfl, rfl⟩
      obtain ⟨hi, hpi, hlive⟩ := mem_liveGroup.mp hi
      obtain ⟨n, hn, hkeep, rfl⟩ := (mem_portableDocument hget).mp hi
      refine ⟨n, hn, rfl, rfl, fun hdel => hlive ((exported_trashed hget hpresent hkeep).mpr hdel), ?_⟩
      exact ((portableDocument_placed hget).mp ⟨_, hi, rfl, hpi⟩).2
    · rintro ⟨s, hs, rfl, rfl, hlive, hne, hp⟩
      have hkeep : Exported d rootId includeTrash s.id := ⟨List.mem_map_of_mem hs, Or.inr hlive⟩
      refine ⟨_, mem_liveGroup.mpr ⟨(mem_portableDocument hget).mpr ⟨s, hs, hkeep, rfl⟩, ?_, ?_⟩, rfl, rfl⟩
      · simp only [portableItem]
        rw [if_neg hne, hp, Option.getD_some]
      · exact fun htrash => hlive ((exported_trashed hget hpresent hkeep).mp htrash)

variable (includeTrash) in
theorem exported_shown (hshown : ∃ p, ChildOf d.doc.childIds x p) : Exported d rootId includeTrash x := by
  obtain ⟨p, hp⟩ := hshown
  have hx : x ∈ d.doc.childIds p := hp
  rw [exported_childIds (fun _ _ => 0) includeTrash hget hpresent p] at hx
  exact (portableDocument_ids hget).mp (liveGroup_listed hx)

end Exports

def outlineRows (doc : Doc) (rootId : JsString) : List (ℕ × JsString) :=
  (doc.visibleRows rootId fun _ => false).map fun r => (r.depth, (doc.contentOf r.id).getD [])

theorem outlineRows_listing {doc : Doc} {rootId : JsString} (hget : doc.getRootId = some rootId) :
    ∃ out, Listing doc.childIds (doc.childIds rootId) 0 out ∧
      outlineRows doc rootId = out.map fun e => (e.2, (doc.contentOf e.1).getD []) := by
  obtain ⟨hrows, -⟩ := doc.visibleRows_listing (fun _ => false) hget rootId
  have hshown : doc.shownIds (fun _ => false) = doc.childIds := by
    funext x
    simp [Doc.shownIds]
  rw [hshown] at hrows
  refine ⟨_, hrows, ?_⟩
  rw [List.map_map]
  rfl

section RoundTrip

variable {localeCompare : JsString → JsString → ℤ} {ctx : ImportContext} {documentId : JsString}
  {d : TitledDoc} {rootId : JsString} {includeTrash : Bool} (hctx : ctx.Lawful documentId)
  (hget : d.doc.getRootId = some rootId)
  (hpresent : rootId ∈ d.doc.readAllSnapshots.map ItemNodeSnapshot.id)
  (hplain : rootId ≠ ROOT_PARENT_SENTINEL)

include hctx hget hpresent hplain

theorem reimported_content {x : JsString} (hx : Exported d rootId includeTrash x) :
    ((instantiated ctx documentId (portableDocument localeCompare d includeTrash)).doc.contentOf
      (newIdOf ctx documentId (portableDocument localeCompare d includeTrash).items x)).getD [] =
        (d.doc.contentOf x).getD [] := by
  obtain ⟨root, -, ht⟩ : ∃ root, root.id = rootId ∧
      IsPortableTree (portableDocument localeCompare d includeTrash).items root :=
    portableDocument_isTree hget hpresent hplain
  obtain ⟨n, hn, rfl⟩ := List.mem_map.mp hx.1
  obtain ⟨k, hk⟩ := List.mem_iff_getElem?.mp ((mem_portableDocument hget).mpr ⟨n, hn, hx, rfl⟩)
  have hnew := snapshot_content ((mem_instantiated ht hctx).mpr ⟨_, k, hk, rfl⟩)
  rw [snapshot_content hn]
  exact hnew

theorem reimported_rows :
    outlineRows (instantiated ctx documentId (portableDocument localeCompare d includeTrash)).doc documentId =
      outlineRows d.doc rootId := by
  obtain ⟨root, hid, ht⟩ : ∃ root, root.id = rootId ∧
      IsPortableTree (portableDocument localeCompare d includeTrash).items root :=
    portableDocument_isTree hget hpresent hplain
  have hget' : (instantiated ctx documentId (portableDocument localeCompare d includeTrash)).doc.getRootId =
      some documentId := by
    rw [Doc.getRootId, (instantiated_entries ht hctx).2.1]
  obtain ⟨out, hout, hrows⟩ := outlineRows_listing hget
  obtain ⟨out', hout', hrows'⟩ := outlineRows_listing hget'
  have hkids : ∀ x, Exported d rootId includeTrash x →
      (instantiated ctx documentId (portableDocument localeCompare d includeTrash)).doc.childIds
        (newIdOf ctx documentId (portableDocument localeCompare d includeTrash).items x) =
      (d.doc.childIds x).map
        (newIdOf ctx documentId (portableDocument localeCompare d includeTrash).items) := by
    intro x hx
    rw [instantiated_childIds ht hctx ((portableDocument_ids hget).mpr hx),
      exported_childIds localeCompare includeTrash hget hpresent]
  have hshown : ∀ x ∈ out.map Prod.fst, Exported d rootId includeTrash x := by
    intro x hx
    obtain ⟨y, hy, hxy⟩ := (hout.mem_iff x).mp hx
    apply exported_shown includeTrash hget hpresent
    rcases ReflTransGen.cases_head hxy with rfl | ⟨z, hz, -⟩
    · exact ⟨rootId, hy⟩
    · exact ⟨z, hz⟩
  have hroot : newIdOf ctx documentId (portableDocument localeCompare d includeTrash).items rootId =
      documentId := by
    rw [← hid]
    exact newIdOf_root ht
  have hmapped := hout.map_on (newIdOf ctx documentId (portableDocument localeCompare d includeTrash).items)
    fun x hx => hkids x (hshown x hx)
  have hkept : Exported d rootId includeTrash rootId := by
    have hmem : root.id ∈ (portableDocument localeCompare d includeTrash).items.map PortableItem.id :=
      List.mem_map_of_mem ht.mem
    exact (portableDocument_ids hget).mp (hid ▸ hmem)
  rw [← hkids rootId hkept, hroot] at hmapped
  rw [hrows, hrows', hout'.unique hmapped, List.map_map]
  refine List.map_congr_left fun e he => ?_
  exact congrArg (Prod.mk e.2)
    (reimported_content hctx hget hpresent hplain (hshown e.1 (List.mem_map_of_mem he)))

end RoundTrip

def renamedItem (f : JsString → JsString) (rank : PortableItem → JsString) (item : PortableItem) :
    PortableItem :=
  { item with
    id := f item.id
    parentId := item.parentId.map f
    rank := rank item
    deleted := some (item.deleted.getD false) }

/-- The second document is the first one up to names, list order and ranks. -/
structure SamePortable (f : JsString → JsString) (rank : PortableItem → JsString)
    (a b : PortableDocument) : Prop where
  title : b.title = a.title
  injective : Set.InjOn f {x | x ∈ a.items.map PortableItem.id}
  items : b.items.Perm (a.items.map (renamedItem f rank))
  order : ∀ i ∈ a.items, ∀ j ∈ a.items, i.parentId = j.parentId →
    (compareOrder i j ≤ 0 ↔ compareOrder (renamedItem f rank i) (renamedItem f rank j) ≤ 0)

section Identity

variable {localeCompare : JsString → JsString → ℤ} {ctx : ImportContext} {documentId : JsString}
  {value : PortableDocument}
  {root : PortableItem} (ht : IsPortableTree value.items root) (hctx : ctx.Lawful documentId)

include ht hctx

theorem reexported_item (hkept : root.deleted ≠ some true) {i : PortableItem} {k : ℕ}
    (hk : value.items[k]? = some i) :
    portableItem
      (snapshotTree (instantiated ctx documentId value).doc.readAllSnapshots documentId) documentId true
        (newSnapshotOf ctx documentId value.items (i, k)) =
      renamedItem (newIdOf ctx documentId value.items) (newRankOf ctx value.items) i := by
  have hi : i ∈ value.items := List.mem_of_getElem? hk
  have hdeleted : i.flagged = i.deleted.getD false := by
    cases hp : i.parentId with
    | none =>
      obtain rfl := (ht.top i hi).mp hp
      cases hd : i.deleted with
      | none => simp [PortableItem.flagged, hd]
      | some b =>
        cases b with
        | false => simp [PortableItem.flagged, hd]
        | true => exact absurd hd hkept
    | some p => cases hd : i.deleted <;> simp [PortableItem.flagged, hp, hd]
  have hparent : (if newIdOf ctx documentId value.items i.id = documentId then none
      else some
        (((snapshotTree (instantiated ctx documentId value).doc.readAllSnapshots documentId).parents.get
        (newIdOf ctx documentId value.items i.id)).getD documentId)) =
      i.parentId.map (newIdOf ctx documentId value.items) := by
    cases hp : i.parentId with
    | none => rw [(ht.top i hi).mp hp, newIdOf_root ht, if_pos rfl, Option.map_none]
    | some p =>
      rw [if_neg, instantiated_parent ht hctx hi hp, Option.getD_some, Option.map_some]
      rw [newIdOf_eq_root ht hctx (List.mem_map_of_mem hi)]
      intro he
      rw [ht.eq_of_id hi ht.mem he, (ht.top root ht.mem).mpr rfl] at hp
      cases hp
  simp only [portableItem, newSnapshotOf, renamedItem, newMoveOf, if_true, hparent, hdeleted,
    Option.getD_some]

theorem reexported (hkept : root.deleted ≠ some true) :
    SamePortable (newIdOf ctx documentId value.items) (newRankOf ctx value.items) value
      (portableDocument localeCompare (instantiated ctx documentId value) true) := by
  refine ⟨rfl, fun x hx y hy h => newIdOf_injective ht hctx hx hy h, ?_, ?_⟩
  · have hget : (instantiated ctx documentId value).doc.getRootId = some documentId := by
      rw [Doc.getRootId, (instantiated_entries ht hctx).2.1]
    have hall : ∀ l : List ItemNodeSnapshot, (l.filter fun n => true || decide (n.id ∉
        (snapshotTree (instantiated ctx documentId value).doc.readAllSnapshots documentId).deleted)) = l := by
      intro l
      exact List.filter_eq_self.mpr fun _ _ => rfl
    rw [portableDocument, hget, Option.getD_some]
    refine (List.perm_insertionSort _ _).trans (List.Perm.of_eq ?_)
    rw [show deriveEffectiveTree _ documentId =
      snapshotTree (instantiated ctx documentId value).doc.readAllSnapshots documentId from rfl, hall,
      instantiated_snapshots ht hctx, List.map_map]
    have hzip : ∀ g : PortableItem → PortableItem,
        value.items.map g = value.items.zipIdx.map (g ∘ Prod.fst) := by
      intro g
      rw [← List.map_map, List.zipIdx_map_fst]
    rw [hzip]
    refine List.map_congr_left fun e he => ?_
    rw [← instantiated_snapshots ht hctx]
    exact reexported_item ht hctx hkept (List.mk_mem_zipIdx_iff_getElem?.mp he)
  · intro i hi j hj hsiblings
    have hkeep : ∀ {i j : PortableItem}, i ∈ value.items → j ∈ value.items → i.parentId = j.parentId →
        compareOrder i j ≤ 0 →
        compareOrder (renamedItem (newIdOf ctx documentId value.items) (newRankOf ctx value.items) i)
          (renamedItem (newIdOf ctx documentId value.items) (newRankOf ctx value.items) j) ≤ 0 := by
      intro i j hi hj hsiblings hle
      rw [compareOrder_le_iff]
      by_cases he : i = j
      · subst he
        exact Or.inr ⟨rfl, le_refl _⟩
      · exact Or.inl (newRankOf_lt ht.distinct hctx hi hj hsiblings hle he)
    refine ⟨hkeep hi hj hsiblings, fun hle => ?_⟩
    rcases compareOrder_total i j with h | h
    · exact h
    · have hid := compareOrder_antisymm hle (hkeep hj hi hsiblings.symm h)
      have he :=
        ht.eq_of_id hi hj (newIdOf_injective ht hctx (List.mem_map_of_mem hi) (List.mem_map_of_mem hj) hid)
      rw [he] at h ⊢
      exact h

end Identity

/-- What was imported is exported again as the same outline, and what was exported is accepted and shows the
same rows after import. -/
theorem portable_roundTrip (localeCompare : JsString → JsString → ℤ) {ctx : ImportContext}
    {documentId : JsString} (hctx : ctx.Lawful documentId) :
    (∀ input value, validatePortable input = .ok value →
      (∀ i ∈ value.items, i.parentId = none → i.deleted ≠ some true) →
      ∃ d f rank, instantiatePortable ctx documentId input = .ok d ∧
        (∀ i ∈ value.items, i.parentId = none → f i.id = documentId) ∧
        SamePortable f rank value (portableDocument localeCompare d true)) ∧
    ∀ (d : TitledDoc) rootId, d.doc.getRootId = some rootId →
    rootId ∈ d.doc.readAllSnapshots.map ItemNodeSnapshot.id →
      rootId ≠ ROOT_PARENT_SENTINEL → (∀ s ∈ d.doc.readAllSnapshots, s.id ≠ []) →
      d.doc.readAllSnapshots.length ≤ MAX_ITEMS →
      ∀ includeTrash, ∃ d', validatePortable (portableDocument localeCompare d includeTrash).toValue =
          .ok (portableDocument localeCompare d includeTrash) ∧
        instantiatePortable ctx documentId (portableDocument localeCompare d includeTrash).toValue = .ok d' ∧
        outlineRows d'.doc documentId = outlineRows d.doc rootId := by
  constructor
  · intro input value hinput hkept
    obtain ⟨root, ht⟩ := (validatePortable_accepted hinput).isTree
    refine ⟨instantiated ctx documentId value, _, _, by rw [instantiatePortable, hinput]; rfl, ?_,
      reexported ht hctx (hkept root ht.mem ((ht.top root ht.mem).mpr rfl))⟩
    intro i hi hp
    rw [(ht.top i hi).mp hp]
    exact newIdOf_root ht
  · intro d rootId hget hpresent hplain hnamed hlen includeTrash
    obtain ⟨root, -, ht⟩ : ∃ root, root.id = rootId ∧
        IsPortableTree (portableDocument localeCompare d includeTrash).items root :=
      portableDocument_isTree hget hpresent hplain
    have hvalid :=
      validatePortable_toValue (ht.accepted rfl (portableDocument_length.trans hlen) fun i hi => by
      obtain ⟨n, hn, -, rfl⟩ := (mem_portableDocument hget).mp hi
      exact hnamed n hn)
    refine ⟨instantiated ctx documentId (portableDocument localeCompare d includeTrash), hvalid, ?_,
      reimported_rows hctx hget hpresent hplain⟩
    rw [instantiatePortable, hvalid]
    rfl

section Examples

def sampleRank (k : ℕ) : JsString :=
  0x61 :: (if k < 10 then [Fin.ofNat 65536 (0x30 + k)] else List.replicate k 0x7A)

theorem sampleRank_strictMono : StrictMono sampleRank := by
  refine strictMono_nat_of_lt_succ fun k => ?_
  unfold sampleRank
  rw [List.cons_lt_cons_iff]
  refine Or.inr ⟨rfl, ?_⟩
  by_cases hk : k < 10
  · revert k
    decide
  · rw [if_neg hk, if_neg (by omega)]
    clear hk
    induction k with
    | zero => exact List.nil_lt_cons _ _
    | succ k ih => exact List.cons_lt_cons_iff.mpr (Or.inr ⟨rfl, ih⟩)

def sampleImport : ImportContext where
  ranksBetween n := (List.range n).map sampleRank
  randomUUID k := js ['u'] ++ List.replicate k 0x30
  now _ := 0

theorem sampleImport_lawful : sampleImport.Lawful (js ['d']) := by
  refine ⟨fun k k' h => ?_, fun k h => ?_, fun k h => ?_, fun n => ?_, fun n => ?_⟩
  · simpa [sampleImport] using congrArg List.length h
  · exact absurd (List.head_eq_of_cons_eq h) (by decide)
  · exact absurd (List.head_eq_of_cons_eq h) (by decide)
  · simp [sampleImport]
  · exact List.pairwise_map.mpr (List.pairwise_lt_range.imp fun h => sampleRank_strictMono h)

def tangledOutline : TitledDoc where
  title := none
  doc := placedDoc (js ['r']) [(js ['r'], ROOT_PARENT_SENTINEL), (js ['a'], js ['b']), (js ['b'], js ['a']),
    (js ['c'], js ['x'])]

theorem portable_roundTrip_tangled :
    (∃ d f rank, instantiatePortable sampleImport (js ['d'])
      (portableDocument (fun _ _ => 0) tangledOutline true).toValue = .ok d ∧
      (∀ i ∈ (portableDocument (fun _ _ => 0) tangledOutline true).items, i.parentId = none →
        f i.id = js ['d']) ∧
      SamePortable f rank (portableDocument (fun _ _ => 0) tangledOutline true)
        (portableDocument (fun _ _ => 0) d true)) ∧
    ∃ d', validatePortable (portableDocument (fun _ _ => 0) tangledOutline false).toValue =
        .ok (portableDocument (fun _ _ => 0) tangledOutline false) ∧
      instantiatePortable sampleImport (js ['d'])
        (portableDocument (fun _ _ => 0) tangledOutline false).toValue = .ok d' ∧
      outlineRows d'.doc (js ['d']) = outlineRows tangledOutline.doc (js ['r']) := by
  have hround := portable_roundTrip (fun _ _ => 0) sampleImport_lawful
  exact ⟨hround.1 _ _ rfl (by decide),
    hround.2 tangledOutline (js ['r']) rfl (by decide) (by decide) (by decide)
    (by decide) false⟩

/-- The outline of a root that is named like the parent of the root is not accepted. -/
theorem portable_roundTrip_sentinel :
    sentinelRootDoc.schemaVersion = some 2 ∧ sentinelRootDoc.getRootId = some ROOT_PARENT_SENTINEL ∧
      ROOT_PARENT_SENTINEL ∈ sentinelRootDoc.readAllSnapshots.map ItemNodeSnapshot.id ∧
      (∀ s ∈ sentinelRootDoc.readAllSnapshots, s.id ≠ []) ∧
      sentinelRootDoc.readAllSnapshots.length ≤ MAX_ITEMS ∧
      validatePortable (portableDocument (fun _ _ => 0) ⟨none, sentinelRootDoc⟩ false).toValue =
      .error .notATree :=
  ⟨rfl, rfl, by decide, by decide, by decide, rfl⟩

end Examples

end OpenOutliner
