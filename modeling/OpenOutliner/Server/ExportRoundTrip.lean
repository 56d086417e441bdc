import OpenOutliner.Server.ExactProjection
import OpenOutliner.Server.Serializer

namespace OpenOutliner

open Foundations Relation

section Tree

variable {rows : List LiveRow} {root : LiveRow} (ht : IsTree rows root)

theorem mem_childRows {c p : LiveRow} : c ∈ childRows rows p ↔ c ∈ rows ∧ c.parentId = some p.id := by
  rw [childRows, bucket, mem_sortSiblings, List.mem_filter, decide_eq_true_iff]

structure Siblings (rows : List LiveRow) (kids : LiveRow → List LiveRow) : Prop where
  mem : ∀ c p, c ∈ kids p ↔ p ∈ rows ∧ c ∈ rows ∧ c.parentId = some p.id
  nodup : ∀ p, (kids p).Nodup

def rowKids (rows : List LiveRow) (row : LiveRow) : List LiveRow :=
  if row ∈ rows then childRows rows row else []

include ht

theorem rowKids_siblings : Siblings rows (rowKids rows) := by
  constructor
  · intro c p
    unfold rowKids
    split
    · rename_i hp
      rw [mem_childRows]
      exact (and_iff_right hp).symm
    · rename_i hp
      exact iff_of_false List.not_mem_nil fun h => hp h.1
  · intro p
    unfold rowKids
    split
    · exact (sortSiblings_perm _).nodup_iff.mpr ((List.Nodup.of_map _ ht.ids).filter _)
    · exact List.nodup_nil

theorem row_unique {r r' : LiveRow} (hr : r ∈ rows) (hr' : r' ∈ rows) (h : r.id = r'.id) : r = r' :=
  List.inj_on_of_nodup_map ht.ids hr hr' h

variable {kids : LiveRow → List LiveRow} (hk : Siblings rows kids)

include hk

theorem parent_unique (c p p' : LiveRow) (h : ChildOf kids c p) (h' : ChildOf kids c p') : p = p' := by
  obtain ⟨hp, -, hc⟩ := (hk.mem c p).mp h
  obtain ⟨hp', -, hc'⟩ := (hk.mem c p').mp h'
  exact row_unique ht hp hp' (Option.some.inj (hc.symm.trans hc'))

theorem reaches_root {c : LiveRow} (hc : c ∈ rows) : ReflTransGen (ChildOf kids) c root := by
  have hreach := ht.reaches c hc
  induction hreach using ReflTransGen.head_induction_on with
  | refl => exact .refl
  | head hstep hreach ih =>
    rename_i c m
    have hm : m ∈ rows := by
      cases ReflTransGen.cases_head hreach with
      | inl he => exact he ▸ ht.mem
      | inr h =>
        obtain ⟨_, hstep', -⟩ := h
        exact (mem_childRows.mp hstep').1
    exact .head ((hk.mem c m).mpr ⟨hm, mem_childRows.mp hstep⟩) (ih hm)

theorem tree_acyclic (c : LiveRow) : ¬ TransGen (ChildOf kids) c c := by
  intro hcycle
  have hc : c ∈ rows := by
    obtain ⟨m, hm, -⟩ := TransGen.head'_iff.mp hcycle
    exact ((hk.mem c m).mp hm).2.1
  have hreach := reaches_root ht hk hc
  -- the cycle goes along with the way up, to the root, which has no parent
  clear hc
  induction hreach using ReflTransGen.head_induction_on with
  | refl =>
    obtain ⟨m, hm, -⟩ := TransGen.head'_iff.mp hcycle
    have hnone := (ht.root_iff root ht.mem).mpr rfl
    rw [((hk.mem root m).mp hm).2.2] at hnone
    cases hnone
  | head hstep hreach ih =>
    rename_i c m
    obtain ⟨m', hm', hback⟩ := TransGen.head'_iff.mp hcycle
    obtain rfl := parent_unique ht hk c m m' hstep hm'
    exact ih (TransGen.tail'_iff.mpr ⟨c, hback, hstep⟩)

theorem tree_wellFounded : WellFounded (ChildOf kids) :=
  wellFounded_childOf (List.finite_toSet rows) (fun c p h => ⟨((hk.mem c p).mp h).2.1, ((hk.mem c p).mp h).1⟩)
    (tree_acyclic ht hk)

theorem tree_nodup {x : LiveRow} {d : ℕ} {out : List (LiveRow × ℕ)} (hout : Listing kids [x] d out) :
    (out.map Prod.fst).Nodup := by
  have hparent : ∀ c, ∃ q, ∀ p, ChildOf kids c p → q = p := by
    intro c
    by_cases hc : ∃ p, ChildOf kids c p
    · obtain ⟨q, hq⟩ := hc
      exact ⟨q, fun p hp => parent_unique ht hk c q p hq hp⟩
    · exact ⟨c, fun p hp => absurd ⟨p, hp⟩ hc⟩
  choose up hup using hparent
  exact hout.nodup hup hk.nodup (tree_wellFounded ht hk) (List.nodup_singleton x) (by simp)

theorem tree_listing : ∃ sub, Listing kids [root] 0 ((root, 0) :: sub) ∧
    (root :: sub.map Prod.fst).Perm rows := by
  obtain ⟨out, hout⟩ := exists_listing (tree_wellFounded ht hk) [root] 0
  have hnd := tree_nodup ht hk hout
  have hmem : ∀ r, r ∈ out.map Prod.fst ↔ r ∈ rows := by
    intro r
    rw [hout.mem_iff]
    constructor
    · rintro ⟨x, hx, hbelow⟩
      obtain rfl := List.mem_singleton.mp hx
      cases ReflTransGen.cases_head hbelow with
      | inl he => exact he ▸ ht.mem
      | inr h =>
        obtain ⟨m, hm, -⟩ := h
        exact ((hk.mem r m).mp hm).2.1
    · intro hr
      exact ⟨root, List.mem_singleton_self root, reaches_root ht hk hr⟩
  cases hout with
  | cons hsub hnil =>
    cases hnil
    rename_i sub
    rw [List.append_nil] at hnd hmem
    exact ⟨sub, by simpa using Listing.cons hsub (.nil 0),
      (List.perm_ext_iff_of_nodup hnd (List.Nodup.of_map _ ht.ids)).mpr hmem⟩

end Tree

theorem IsTree.export_listing {rows : List LiveRow} {root : LiveRow} (ht : IsTree rows root) :
    ∃ sub, Listing (rowKids rows) [root] 0 ((root, 0) :: sub) ∧
    Listing (childRows rows) [root] 0 ((root, 0) :: sub) ∧
      (root :: sub.map Prod.fst).Perm rows := by
  obtain ⟨sub, hsub, hperm⟩ := tree_listing ht (rowKids_siblings ht)
  refine ⟨sub, hsub, hsub.congr ?_, hperm⟩
  intro x hx
  rw [rowKids, if_pos (hperm.mem_iff.mp hx)]

theorem IsTree.bucket_none {rows : List LiveRow} {root : LiveRow} (ht : IsTree rows root) :
    bucket rows none = [root] := by
  have hfilter : rows.filter (fun row => decide (row.parentId = none)) = [root] := by
    rw [← OrderedMap.filter_key_eq ht.ids ht.mem]
    apply List.filter_congr
    intro r hr
    rw [decide_eq_decide, ht.root_iff r hr]
    exact ⟨congrArg _, row_unique ht hr ht.mem⟩
  rw [bucket, hfilter]
  rfl

structure ExportOrder (rows : List LiveRow) (root : LiveRow) (below : List LiveRow) : Prop where
  perm : (root :: below).Perm rows
  parent : ∀ pre row post, below = pre ++ row :: post → ∃ p ∈ root :: pre, row.parentId = some p.id

theorem IsTree.exportOrder {rows : List LiveRow} {root : LiveRow} (ht : IsTree rows root)
    {sub : List (LiveRow × ℕ)} (hsub : Listing (childRows rows) [root] 0 ((root, 0) :: sub))
    (hperm : (root :: sub.map Prod.fst).Perm rows) :
    ExportOrder rows root (sub.map Prod.fst) := by
  refine ⟨hperm, ?_⟩
  intro pre row post hsplit
  obtain ⟨pre', mid, rfl, rfl, hmid⟩ := List.map_eq_append_iff.mp hsplit
  obtain ⟨⟨row', n⟩, post', rfl, rfl, -⟩ := List.map_eq_cons_iff.mp hmid
  have hout : (root, 0) :: (pre' ++ (row', n) :: post') = ((root, 0) :: pre') ++ (row', n) :: post' := rfl
  cases hsub.parent_before hout with
  | inl hroot =>
    obtain rfl := List.mem_singleton.mp hroot
    have hnd := hperm.nodup_iff.mpr (List.Nodup.of_map _ ht.ids)
    simp at hnd
  | inr h =>
    obtain ⟨p, hp, hrow⟩ := h
    exact ⟨p, hp, (mem_childRows.mp hrow).2⟩

section Import

variable {Uuid : Type} [DecidableEq Uuid] {uuids : UuidText Uuid} {lib : FractionalIndexing}
  {freshRank exportedAt : JsString}
  {rows : List LiveRow} {root : LiveRow} {below : List LiveRow} {documentId : Uuid} {minted : List Uuid}

def exportOf (exportedAt : JsString) (root : LiveRow) (below : List LiveRow) : ExportedDocument :=
  ⟨1, exportedAt, (root :: below).map LiveRow.exported⟩

def importedRow (newId : JsString → Uuid) (freshRank : JsString) (row : LiveRow) : Uuid × ItemRow Uuid :=
  (newId row.id, insertedRow (row.parentId.map newId) (importedRank freshRank row) row.toItemValues)

def renamed (uuids : UuidText Uuid) (newId : JsString → Uuid) (freshRank : JsString)
    (row : LiveRow) : LiveRow :=
  ⟨row.toItemValues, uuids.text (newId row.id), row.parentId.map fun p => uuids.text (newId p),
    if row.parentId = none then freshRank else importedRank freshRank row⟩

variable (ht : IsTree rows root) (ho : ExportOrder rows root below)

include ht ho

omit ho in
theorem root_parent : root.parentId = none := (ht.root_iff root ht.mem).mpr rfl

theorem below_parent {row : LiveRow} (h : row ∈ below) : row.parentId ≠ none := by
  intro hnone
  obtain rfl := (ht.root_iff row (ho.perm.mem_iff.mp (List.mem_cons_of_mem _ h))).mp hnone
  have hnd := ho.perm.nodup_iff.mpr (List.Nodup.of_map _ ht.ids)
  exact (List.nodup_cons.mp hnd).1 h

theorem roots_exportOf : roots (exportOf exportedAt root below) = [root.exported] := by
  have hnone : (below.map LiveRow.exported).filter (fun i => decide (i.parentId = none)) = [] := by
    rw [List.filter_eq_nil_iff]
    intro i hi
    obtain ⟨row, hrow, rfl⟩ := List.mem_map.mp hi
    rw [decide_eq_true_iff]
    exact below_parent ht ho hrow
  have hroot : root.exported.parentId = none := root_parent ht
  have hcons : decide (root.exported.parentId = none) = true := decide_eq_true hroot
  rw [roots, exportOf, List.map_cons]
  dsimp only
  rw [List.filter_cons, if_pos hcons, hnone]

theorem nonRoots_exportOf : nonRoots (exportOf exportedAt root below) = below.map LiveRow.exported := by
  have hroot : root.exported.parentId = none := root_parent ht
  have hdrop : ¬ decide (root.exported.parentId ≠ none) = true := by
    rw [decide_eq_true_iff]
    exact not_not.mpr hroot
  rw [nonRoots, exportOf, List.map_cons]
  dsimp only
  rw [List.filter_cons, if_neg hdrop, List.filter_eq_self]
  intro i hi
  obtain ⟨row, hrow, rfl⟩ := List.mem_map.mp hi
  exact decide_eq_true (below_parent ht ho hrow)

theorem export_ids : ((root :: below).map LiveRow.id).Nodup := (ho.perm.map _).nodup_iff.mpr ht.ids

omit [DecidableEq Uuid] in
theorem idMap_exportOf (documentId : Uuid) (exportedAt : JsString) (hlength : minted.length = below.length) :
    (idMap documentId minted (exportOf exportedAt root below)).get root.id = some documentId ∧
      below.map (fun row => (idMap documentId minted (exportOf exportedAt root below)).get row.id) =
      minted.map some := by
  have hids := List.nodup_cons.mp (export_ids ht ho)
  have hpairs : idMap documentId minted (exportOf exportedAt root below) =
      ((below.zip minted).map fun e => (e.1.id, e.2)).foldl (fun m e => m.set e.1 e.2)
        (OrderedMap.empty.set root.id documentId) := by
    rw [idMap, roots_exportOf ht ho, nonRoots_exportOf ht ho, List.zip_map_left, List.foldl_map,
      List.foldl_map]
    rfl
  have hfst : (below.zip minted).map Prod.fst = below := List.map_fst_zip (by omega)
  have hsnd : (below.zip minted).map Prod.snd = minted := List.map_snd_zip (by omega)
  have hkeys : ((below.zip minted).map fun e => (e.1.id, e.2)).map Prod.fst = below.map LiveRow.id :=
    OrderedMap.map_fst_zip LiveRow.id (by omega)
  rw [hpairs]
  constructor
  · rw [OrderedMap.get_foldl_set _ _ _ (hkeys ▸ hids.1), OrderedMap.get_set_self]
  · generalize hids' : ((below.zip minted).map fun e => (e.1.id, e.2)).foldl (fun m e => m.set e.1 e.2)
      (OrderedMap.empty.set root.id documentId) = ids
    have hget : ∀ e ∈ below.zip minted, ids.get e.1.id = some e.2 := by
      intro e he
      rw [← hids']
      exact OrderedMap.get_foldl_set_mem _ (hkeys ▸ hids.2) _ (List.mem_map.mpr ⟨e, he, rfl⟩)
    calc below.map (fun row => ids.get row.id)
        = ((below.zip minted).map Prod.fst).map fun row => ids.get row.id := by rw [hfst]
      _ = ((below.zip minted).map Prod.snd).map some := by
          rw [List.map_map, List.map_map]
          exact List.map_congr_left hget
      _ = minted.map some := by rw [hsnd]

structure NewIds (ids : OrderedMap JsString Uuid) (documentId : Uuid) (minted : List Uuid) (root : LiveRow)
    (below : List LiveRow) (newId : JsString → Uuid) : Prop where
  get : ∀ row ∈ root :: below, ids.get row.id = some (newId row.id)
  root : newId root.id = documentId
  below : below.map (fun row => newId row.id) = minted

omit [DecidableEq Uuid] in
theorem exists_newIds (documentId : Uuid) (exportedAt : JsString) (hlength : minted.length = below.length) :
    ∃ newId, NewIds
      (idMap documentId minted (exportOf exportedAt root below)) documentId minted root below newId := by
  obtain ⟨hroot, hbelow⟩ := idMap_exportOf ht ho documentId exportedAt hlength
  generalize idMap documentId minted (exportOf exportedAt root below) = ids at hroot hbelow
  have hget : ∀ row ∈ root :: below, ids.get row.id = some ((ids.get row.id).getD documentId) := by
    intro row hrow
    cases List.mem_cons.mp hrow with
    | inl he => rw [he, hroot, Option.getD_some]
    | inr hrow =>
      have hsome : ids.get row.id ∈ minted.map some := by
        rw [← hbelow]
        exact List.mem_map.mpr ⟨row, hrow, rfl⟩
      obtain ⟨u, -, hu⟩ := List.mem_map.mp hsome
      rw [← hu, Option.getD_some]
  refine ⟨fun id => (ids.get id).getD documentId, hget, by rw [hroot, Option.getD_some], ?_⟩
  apply List.map_injective_iff.mpr (Option.some_injective Uuid)
  rw [← hbelow, List.map_map]
  exact List.map_congr_left fun row hrow => (hget row (List.mem_cons_of_mem _ hrow)).symm

omit ht ho [DecidableEq Uuid] in
theorem NewIds.nodup {ids : OrderedMap JsString Uuid} {newId : JsString → Uuid}
    (h : NewIds ids documentId minted root below newId) (hfresh : (documentId :: minted).Nodup) :
    ((root :: below).map fun row => newId row.id).Nodup := by
  rwa [List.map_cons, h.root, h.below]

theorem importItem_fold (freshRank : JsString) {ids : OrderedMap JsString Uuid} {newId : JsString → Uuid}
    (h : NewIds ids documentId minted root below newId) (hfresh : (documentId :: minted).Nodup)
    {rootRow : ItemRow Uuid}
    (todo done : List LiveRow) (hsplit : below = done ++ todo) (items : Items Uuid)
    (hitems : items.entries = (documentId, rootRow) :: done.map (importedRow newId freshRank)) :
    ∃ items', (todo.map LiveRow.exported).foldlM (importItem ids freshRank) items = some items' ∧
      items'.entries = (documentId, rootRow) :: below.map (importedRow newId freshRank) := by
  induction todo generalizing done items with
  | nil => exact ⟨items, rfl, by rw [hitems, hsplit, List.append_nil]⟩
  | cons row todo ih =>
    obtain ⟨p, hp, hparent⟩ := ho.parent done row todo hsplit
    have hrow : row ∈ root :: below := by simp [hsplit]
    have hpbelow : p ∈ root :: below := by
      rw [hsplit]
      cases List.mem_cons.mp hp with
      | inl he => simp [he]
      | inr hp => simp [hp]
    have hkeys : items.keys = (root :: done).map fun r => newId r.id := by
      rw [OrderedMap.keys, hitems, List.map_cons, List.map_cons, List.map_map, h.root]
      rfl
    have hnew : newId row.id ∉ items.keys := by
      have hnd := h.nodup hfresh
      rw [hsplit, ← List.cons_append, List.map_append, List.map_cons] at hnd
      rw [hkeys]
      exact fun hin => (List.disjoint_of_nodup_append hnd) hin List.mem_cons_self
    have hpkey : items.has (newId p.id) = true := by
      rw [OrderedMap.has_iff, ← OrderedMap.mem_keys_iff, hkeys]
      exact List.mem_map.mpr ⟨p, hp, rfl⟩
    have himported : importedParent ids row.exported = some (newId p.id) := by
      rw [importedParent, exported_parentId, hparent, Option.bind_some,
        if_neg (ht.named p (ho.perm.mem_iff.mp hpbelow)),
        h.get p hpbelow]
    have hstep : importItem ids freshRank items row.exported =
        some (items.set (newId row.id) (importedRow newId freshRank row).2) := by
      have hnot : ¬ items.has (newId row.id) = true := by
        rw [OrderedMap.has_iff, ← OrderedMap.mem_keys_iff]
        exact hnew
      have hget : ids.get row.exported.id = some (newId row.id) := h.get row hrow
      rw [importItem, hget, Option.bind_some, himported, insertRow, if_neg hnot, importedRow, hparent]
      exact if_pos (.inr hpkey)
    rw [List.map_cons, List.foldlM_cons, hstep]
    apply ih (done ++ [row]) (by rw [hsplit, List.append_assoc, List.singleton_append])
    rw [OrderedMap.entries_set_of_notMem _ hnew, hitems, List.map_append, List.cons_append]
    rfl

theorem importDocument_export (uuids : UuidText Uuid) (exportedAt : JsString)
    (hkey : rankBetween lib none none [] = .ok freshRank)
    (hlength : minted.length = below.length) (hfresh : (documentId :: minted).Nodup) :
    ∃ items newId, importDocument lib documentId minted (exportOf exportedAt root below) = some items ∧
      newId root.id = documentId ∧ below.map (fun row => newId row.id) = minted ∧
      getLiveItems uuids items = (root :: below).map (renamed uuids newId freshRank) := by
  obtain ⟨newId, h⟩ := exists_newIds ht ho documentId exportedAt hlength
  obtain ⟨items, hfold, hitems⟩ := importItem_fold ht ho freshRank h hfresh below [] rfl
    (createdItems documentId freshRank) rfl
  refine ⟨items.set documentId (insertedRow none freshRank root.toItemValues), newId, ?_, h.root, h.below, ?_⟩
  · rw [importDocument, hkey]
    simp only [nonRoots_exportOf ht ho, roots_exportOf ht ho, hfold, Option.map_some,
      OrderedMap.get_head hitems]
    rfl
  · have hroot : readLive uuids (documentId, insertedRow none freshRank root.toItemValues) =
        some (renamed uuids newId freshRank root) := by
      rw [renamed, root_parent ht, h.root]
      rfl
    have hbelow : ∀ row ∈ below, readLive uuids (importedRow newId freshRank row) =
        some (renamed uuids newId freshRank row) := by
      intro row hrow
      rw [renamed, if_neg (below_parent ht ho hrow)]
      simp [readLive, importedRow, insertedRow, Function.comp_def]
    rw [getLiveItems, OrderedMap.entries_set_head _ hitems, List.filterMap_cons_some hroot,
      List.filterMap_map,
      List.map_cons, ← List.filterMap_eq_map]
    congr 1
    exact List.filterMap_congr hbelow

end Import

section Reordered

variable {Uuid : Type} [DecidableEq Uuid] {uuids : UuidText Uuid} {lib : FractionalIndexing}
  {freshRank : JsString}
  {rows : List LiveRow} {root : LiveRow} {below : List LiveRow} {newId : JsString → Uuid}

def reordered (image : LiveRow → LiveRow) (rows : List LiveRow) (row : LiveRow) : List LiveRow :=
  if row ∈ rows then
    (rows.filter fun r => r.parentId = some row.id).insertionSort fun a b =>
      compareOrder (image a) (image b) ≤ 0
  else []

theorem reordered_pairwise (image : LiveRow → LiveRow) (rows : List LiveRow) (row : LiveRow) :
    (reordered image rows row).Pairwise fun a b => compareOrder (image a) (image b) ≤ 0 := by
  have : Std.Total (fun a b : LiveRow => compareOrder (image a) (image b) ≤ 0) :=
    ⟨fun _ _ => compareOrder_total _ _⟩
  have : IsTrans LiveRow (fun a b : LiveRow => compareOrder (image a) (image b) ≤ 0) :=
    ⟨fun _ _ _ => compareOrder_trans⟩
  unfold reordered
  split
  · exact List.pairwise_insertionSort _ _
  · exact .nil

theorem mem_reordered {image : LiveRow → LiveRow} {c p : LiveRow} :
    c ∈ reordered image rows p ↔ p ∈ rows ∧ c ∈ rows ∧ c.parentId = some p.id := by
  unfold reordered
  split
  · rename_i hp
    rw [List.mem_insertionSort, List.mem_filter, decide_eq_true_iff]
    exact (and_iff_right hp).symm
  · rename_i hp
    exact iff_of_false List.not_mem_nil fun h => hp h.1

variable (ht : IsTree rows root) (ho : ExportOrder rows root below)

include ht ho

theorem reordered_siblings (image : LiveRow → LiveRow) : Siblings rows (reordered image (root :: below)) := by
  constructor
  · intro c p
    rw [mem_reordered, ho.perm.mem_iff, ho.perm.mem_iff]
  · intro p
    unfold reordered
    split
    · have hnd := ho.perm.nodup_iff.mpr (List.Nodup.of_map _ ht.ids)
      exact (List.perm_insertionSort _ _).nodup_iff.mpr (hnd.filter _)
    · exact List.nodup_nil

variable (hnew : ((root :: below).map fun row => newId row.id).Nodup)

include hnew

omit [DecidableEq Uuid] ht in
theorem newId_injective {r r' : LiveRow} (hr : r ∈ rows) (hr' : r' ∈ rows)
    (h : uuids.text (newId r.id) = uuids.text (newId r'.id)) : r = r' := by
  have hid : newId r.id = newId r'.id := by
    have hparse := congrArg uuids.parse h
    rw [uuids.parse_text, uuids.parse_text] at hparse
    exact Option.some.inj hparse
  exact List.inj_on_of_nodup_map hnew (ho.perm.mem_iff.mpr hr) (ho.perm.mem_iff.mpr hr') hid

omit [DecidableEq Uuid] in
theorem childRows_renamed {p : LiveRow} (hp : p ∈ rows) :
    childRows ((root :: below).map (renamed uuids newId freshRank)) (renamed uuids newId freshRank p) =
      (reordered (renamed uuids newId freshRank) (root :: below) p).map (renamed uuids newId freshRank) := by
  have hfilter : (root :: below).filter
      ((fun row => decide (row.parentId = some (renamed uuids newId freshRank p).id)) ∘
      renamed uuids newId freshRank) = (root :: below).filter fun r => decide (r.parentId = some p.id) := by
    apply List.filter_congr
    intro r hr
    rw [Function.comp_apply, decide_eq_decide]
    change r.parentId.map (fun q => uuids.text (newId q)) = some (uuids.text (newId p.id)) ↔ _
    cases hparent : r.parentId with
    | none => simp
    | some q =>
      have hreach := ht.reaches r (ho.perm.mem_iff.mp hr)
      have hq : ∃ p' ∈ rows, q = p'.id := by
        cases ReflTransGen.cases_head (reaches_root ht (rowKids_siblings ht) (ho.perm.mem_iff.mp hr)) with
        | inl he =>
          rw [he, root_parent ht] at hparent
          cases hparent
        | inr h =>
          obtain ⟨m, hm, -⟩ := h
          obtain ⟨hmrows, -, hrm⟩ := ((rowKids_siblings ht).mem r m).mp hm
          exact ⟨m, hmrows, Option.some.inj (hparent.symm.trans hrm)⟩
      obtain ⟨p', hp', rfl⟩ := hq
      rw [Option.map_some, Option.some.injEq, Option.some.injEq]
      exact ⟨fun h => congrArg _ (newId_injective ho hnew hp' hp h), fun h => by rw [h]⟩
  rw [childRows, bucket, List.filter_map, hfilter, reordered, if_pos (ho.perm.mem_iff.mpr hp)]
  refine (List.map_insertionSort _ _ (renamed uuids newId freshRank) _ ?_).symm
  intro a _ b _
  exact Iff.rfl

omit hnew [DecidableEq Uuid] in
theorem bucket_renamed : bucket ((root :: below).map (renamed uuids newId freshRank)) none =
    [renamed uuids newId freshRank root] := by
  have hfilter :
      (root :: below).filter ((fun row => decide (row.parentId = none)) ∘ renamed uuids newId freshRank) =
      (root :: below).filter fun r => decide (r.id = root.id) := by
    apply List.filter_congr
    intro r hr
    rw [Function.comp_apply, decide_eq_decide]
    change r.parentId.map (fun q => uuids.text (newId q)) = none ↔ _
    rw [Option.map_eq_none_iff, ht.root_iff r (ho.perm.mem_iff.mp hr)]
    exact ⟨congrArg _, row_unique ht (ho.perm.mem_iff.mp hr) ht.mem⟩
  rw [bucket, List.filter_map, hfilter, OrderedMap.filter_key_eq (export_ids ht ho) List.mem_cons_self]
  rfl

omit [DecidableEq Uuid] in
theorem imported_listing (uuids : UuidText Uuid) (freshRank : JsString) : ∃ sub,
    Listing (reordered (renamed uuids newId freshRank) (root :: below)) [root] 0 ((root, 0) :: sub) ∧
    (root :: sub.map Prod.fst).Perm rows ∧
    Listing (childRows ((root :: below).map (renamed uuids newId freshRank)))
      (bucket ((root :: below).map (renamed uuids newId freshRank)) none) 0
      (((root, 0) :: sub).map fun e => (renamed uuids newId freshRank e.1, e.2)) := by
  obtain ⟨sub, hsub, hperm⟩ := tree_listing ht (reordered_siblings ht ho (renamed uuids newId freshRank))
  refine ⟨sub, hsub, hperm, ?_⟩
  rw [bucket_renamed ht ho]
  exact hsub.map_on _ fun x hx => childRows_renamed ht ho hnew (hperm.mem_iff.mp hx)

end Reordered

section Shapes

variable {rows : List LiveRow} {root : LiveRow} (ht : IsTree rows root)

def rowShape (rows : List LiveRow) (row : LiveRow) : List (ItemValues × ℕ) :=
  if row ∈ rows then (subtree rows row).getD [] else [(row.toItemValues, 0)]

include ht

theorem listing_in_rows {x : LiveRow} (hx : x ∈ rows) {d : ℕ} {out : List (LiveRow × ℕ)}
    (hout : Listing (rowKids rows) [x] d out) : ∀ y ∈ out.map Prod.fst, y ∈ rows := by
  intro y hy
  obtain ⟨x', hx', hbelow⟩ := (hout.mem_iff y).mp hy
  obtain rfl := List.mem_singleton.mp hx'
  cases ReflTransGen.cases_head hbelow with
  | inl he => exact he ▸ hx
  | inr h =>
    obtain ⟨m, hm, -⟩ := h
    exact (((rowKids_siblings ht).mem y m).mp hm).2.1

theorem listing_length {x : LiveRow} (hx : x ∈ rows) {d : ℕ} {out : List (LiveRow × ℕ)}
    (hout : Listing (rowKids rows) [x] d out) : out.length ≤ rows.length := by
  have hsub := List.subperm_of_subset (tree_nodup ht (rowKids_siblings ht) hout) (listing_in_rows ht hx hout)
  simpa using hsub.length_le

theorem listing_childRows {x : LiveRow} (hx : x ∈ rows) {d : ℕ} {out : List (LiveRow × ℕ)}
    (hout : Listing (rowKids rows) [x] d out) : Listing (childRows rows) [x] d out := by
  apply hout.congr
  intro y hy
  rw [rowKids, if_pos (listing_in_rows ht hx hout y hy)]

theorem rowShape_isShape : IsShape LiveRow.toItemValues (rowKids rows) (rowShape rows) := by
  intro x
  by_cases hx : x ∈ rows
  · obtain ⟨out, hout⟩ := exists_listing (tree_wellFounded ht (rowKids_siblings ht)) [x] 0
    refine ⟨out, hout, ?_⟩
    have hlength := listing_length ht hx hout
    rw [rowShape, if_pos hx, subtree, preorder_eq (listing_childRows ht hx hout) (by omega)]
    rfl
  · have hnone : rowKids rows x = [] := by rw [rowKids, if_neg hx]
    refine ⟨[(x, 0)], ?_, by rw [rowShape, if_neg hx]; rfl⟩
    have hnil : Listing (rowKids rows) (rowKids rows x) 1 [] := hnone ▸ .nil 1
    exact .cons hnil (.nil 0)

theorem subtree_eq {x : LiveRow} (hx : x ∈ rows) : subtree rows x = some (rowShape rows x) := by
  obtain ⟨out, hout⟩ := exists_listing (tree_wellFounded ht (rowKids_siblings ht)) [x] 0
  have hlength := listing_length ht hx hout
  rw [rowShape, if_pos hx, subtree, preorder_eq (listing_childRows ht hx hout) (by omega)]
  rfl

theorem map_subtree_iff {l l' : List LiveRow} (hl : ∀ r ∈ l, r ∈ rows) (hl' : ∀ r ∈ l', r ∈ rows) :
    l.map (subtree rows) = l'.map (subtree rows) ↔ l.map (rowShape rows) = l'.map (rowShape rows) := by
  have hsome : ∀ {k : List LiveRow}, (∀ r ∈ k, r ∈ rows) →
      k.map (subtree rows) = (k.map (rowShape rows)).map some := by
    intro k hk
    rw [List.map_map]
    exact List.map_congr_left fun r hr => subtree_eq ht (hk r hr)
  rw [hsome hl, hsome hl']
  exact (List.map_injective_iff.mpr (Option.some_injective _)).eq_iff

end Shapes

/-- Exporting the rows and importing the export gives the same outline, whatever UUIDs are minted. -/
def RoundTrips {Uuid : Type} [DecidableEq Uuid] (lib : FractionalIndexing) (uuids : UuidText Uuid)
    (rows : List LiveRow) : Prop :=
  ∀ (exportedAt : JsString) (documentId : Uuid) (minted : List Uuid), (documentId :: minted).Nodup →
    minted.length + 1 = rows.length → ∃ data items, serializeJson exportedAt rows = some data ∧
      importDocument lib documentId minted data = some items ∧ SameOutline rows (getLiveItems uuids items)

section RoundTrip

variable {Uuid : Type} [DecidableEq Uuid] {uuids : UuidText Uuid} {lib : FractionalIndexing}
  {freshRank : JsString} {rows : List LiveRow} {root : LiveRow} {sub : List (LiveRow × ℕ)}

theorem roundTrip_step (ht : IsTree rows root) (uuids : UuidText Uuid)
    (hkey : rankBetween lib none none [] = .ok freshRank)
    (hsub : Listing (rowKids rows) [root] 0 ((root, 0) :: sub)) (hperm : (root :: sub.map Prod.fst).Perm rows)
    (exportedAt : JsString) {documentId : Uuid} {minted : List Uuid} (hfresh : (documentId :: minted).Nodup)
    (hlength : minted.length + 1 = rows.length) :
    ∃ data items newId sub', serializeJson exportedAt rows = some data ∧
      importDocument lib documentId minted data = some items ∧
      (sub.map Prod.fst).map (fun row => newId row.id) = minted ∧
      ((root :: sub.map Prod.fst).map fun row => newId row.id).Nodup ∧
      Listing (reordered (renamed uuids newId freshRank) (root :: sub.map Prod.fst)) [root] 0
        ((root, 0) :: sub') ∧
      (root :: sub'.map Prod.fst).Perm rows ∧
      (SameOutline rows (getLiveItems uuids items) ↔
        shown LiveRow.toItemValues ((root, 0) :: sub') = shown LiveRow.toItemValues ((root, 0) :: sub)) := by
  have hchild := listing_childRows ht ht.mem hsub
  have ho := ht.exportOrder hchild hperm
  have hlen : minted.length = (sub.map Prod.fst).length := by
    have := hperm.length_eq
    rw [List.length_cons] at this
    omega
  obtain ⟨items, newId, himport, hroot, hbelow, hlive⟩ :=
    importDocument_export ht ho uuids exportedAt hkey hlen hfresh
  have hnew : ((root :: sub.map Prod.fst).map fun row => newId row.id).Nodup := by
    rw [List.map_cons, hroot, hbelow]
    exact hfresh
  obtain ⟨sub', hsub', hperm', himported⟩ := imported_listing ht ho hnew uuids freshRank
  refine ⟨exportOf exportedAt root (sub.map Prod.fst), items, newId, sub', ?_, himport, hbelow, hnew,
    hsub', hperm', ?_⟩
  · have hfuel := listing_length ht ht.mem hsub
    rw [serializeJson, ht.bucket_none, preorder_eq hchild (by omega), exportOf, Option.map_some,
      List.map_cons,
      List.map_cons, List.map_map]
    rfl
  · rw [hlive]
    have hshown : shown LiveRow.toItemValues
        (((root, 0) :: sub').map fun e => (renamed uuids newId freshRank e.1, e.2)) =
        shown LiveRow.toItemValues ((root, 0) :: sub') := by
      rw [shown, shown, List.map_map]
      rfl
    constructor
    · rintro ⟨out, out', hout, hout', he⟩
      rw [ht.bucket_none] at hout
      rw [← hshown, himported.unique hout', hchild.unique hout]
      exact he
    · intro he
      exact ⟨_, _, ht.bucket_none ▸ hchild, himported, hshown.trans he⟩

theorem roundTrips_of_orderFree (ht : IsTree rows root) (hkey : rankBetween lib none none [] = .ok freshRank)
    (hfree : OrderFree freshRank rows) : RoundTrips lib uuids rows := by
  intro exportedAt documentId minted hfresh hlength
  obtain ⟨sub, hsub, -, hperm⟩ := ht.export_listing
  obtain ⟨data, items, newId, sub', hdata, himport, -, -, hsub', hperm', hiff⟩ :=
    roundTrip_step ht uuids hkey hsub hperm exportedAt hfresh hlength
  refine ⟨data, items, hdata, himport, hiff.mpr ?_⟩
  have hshape := rowShape_isShape ht
  rw [hsub'.shown_reordered hshape, hsub.shown_eq hshape]
  intro x hx
  have hxrows : x ∈ rows := hperm'.mem_iff.mp hx
  have hrank : ∀ r ∈ reordered (renamed uuids newId freshRank) (root :: sub.map Prod.fst) x,
      (renamed uuids newId freshRank r).rank = importedRank freshRank r := by
    intro r hr
    obtain ⟨-, -, hparent⟩ := mem_reordered.mp hr
    rw [renamed, if_neg (by rw [hparent]; simp)]
  have hl : (reordered (renamed uuids newId freshRank) (root :: sub.map Prod.fst) x).Perm
      (childRows rows x) := by
    rw [reordered, if_pos (hperm.mem_iff.mpr hxrows)]
    exact (List.perm_insertionSort _ _).trans ((hperm.filter _).trans (sortSiblings_perm _).symm)
  have hsorted := (reordered_pairwise (renamed uuids newId freshRank) (root :: sub.map Prod.fst) x).imp_of_mem
    (S := fun a b => importedRank freshRank a ≤ importedRank freshRank b) fun ha hb hle => by
      rw [← hrank _ ha, ← hrank _ hb]
      exact compareOrder_rank_le hle
  have hsame := hfree x hxrows _ hl hsorted
  have hin : ∀ r ∈ childRows rows x, r ∈ rows := fun r hr => (mem_childRows.mp hr).1
  rw [map_subtree_iff ht (fun r hr => hin r (hl.mem_iff.mp hr)) hin] at hsame
  rw [hsame, rowKids, if_pos hxrows]

end RoundTrip

section Minting

variable {Uuid : Type}

theorem exists_map_eq {α β : Type} [DecidableEq α] (b : β) {l : List α} (hl : l.Nodup) {values : List β}
    (hlength : values.length = l.length) : ∃ g : α → β, l.map g = values := by
  refine ⟨fun a => values.getD (l.idxOf a) b, ?_⟩
  apply List.ext_getElem
  · rw [List.length_map, hlength]
  · intro n h _
    rw [List.length_map] at h
    rw [List.getElem_map, hl.idxOf_getElem n h, List.getD_eq_getElem?_getD, List.getElem?_eq_getElem,
      Option.getD_some]

variable [DecidableEq Uuid] {uuids : UuidText Uuid} {freshRank : JsString} {rows : List LiveRow}
  {root : LiveRow} {below : List LiveRow} {newId : JsString → Uuid}

omit [DecidableEq Uuid] in
theorem text_injective : Function.Injective uuids.text := by
  intro u u' h
  have hparse := congrArg uuids.parse h
  rwa [uuids.parse_text, uuids.parse_text, Option.some.injEq] at hparse

omit [DecidableEq Uuid] in
theorem exists_minted (uuids : UuidText Uuid) (u : Uuid) {order : List LiveRow} (horder : order.Nodup)
    (hperm : order.Perm below) {spare : List Uuid}
    (hspare : spare.Nodup) (hlength : spare.length = below.length) :
    ∃ g : LiveRow → Uuid, (below.map g).Perm spare ∧
    order.Pairwise fun a b => uuids.text (g a) < uuids.text (g b) := by
  let sorted := spare.insertionSort fun u v => uuids.text u ≤ uuids.text v
  have hsorted : sorted.Perm spare := List.perm_insertionSort _ _
  have hle : sorted.Pairwise fun u v => uuids.text u ≤ uuids.text v := by
    have : Std.Total (fun u v : Uuid => uuids.text u ≤ uuids.text v) := ⟨fun _ _ => le_total _ _⟩
    have : IsTrans Uuid (fun u v : Uuid => uuids.text u ≤ uuids.text v) := ⟨fun _ _ _ => le_trans⟩
    exact List.pairwise_insertionSort _ _
  have hlt : sorted.Pairwise fun u v => uuids.text u < uuids.text v :=
    (hle.and (hsorted.nodup_iff.mpr hspare)).imp fun h => lt_of_le_of_ne h.1 fun he => h.2 (text_injective he)
  have hlen : sorted.length = order.length := by rw [hsorted.length_eq, hlength, hperm.length_eq]
  obtain ⟨g, hg⟩ := exists_map_eq u horder hlen
  refine ⟨g, (hperm.symm.map g).trans (hg ▸ hsorted), ?_⟩
  rwa [← hg, List.pairwise_map] at hlt

end Minting

section Necessity

variable {Uuid : Type} [DecidableEq Uuid] {uuids : UuidText Uuid} {freshRank : JsString} {rows : List LiveRow}
  {root : LiveRow} {below : List LiveRow} {newId : JsString → Uuid}

variable (ht : IsTree rows root) (ho : ExportOrder rows root below)
  (hnew : ((root :: below).map fun row => newId row.id).Nodup)

include ht ho hnew

omit [DecidableEq Uuid] ht in
theorem reordered_eq {p : LiveRow} {l : List LiveRow} (hp : p ∈ rows) (hl : l.Perm (childRows rows p))
    (hsorted : l.Pairwise fun a b => compareOrder (renamed uuids newId freshRank a)
      (renamed uuids newId freshRank b) ≤ 0) :
    reordered (renamed uuids newId freshRank) (root :: below) p = l := by
  have hperm : (reordered (renamed uuids newId freshRank) (root :: below) p).Perm l := by
    rw [reordered, if_pos (ho.perm.mem_iff.mpr hp)]
    exact (List.perm_insertionSort _ _).trans
      (((ho.perm.filter _).trans (sortSiblings_perm _).symm).trans hl.symm)
  apply hperm.eq_of_pairwise _ (reordered_pairwise _ _ _) hsorted
  intro a b ha hb hab hba
  have hin : ∀ r ∈ l, r ∈ rows := fun r hr => (mem_childRows.mp (hl.mem_iff.mp hr)).1
  exact newId_injective ho hnew (hin a (hperm.mem_iff.mp ha)) (hin b hb) (compareOrder_antisymm hab hba)

omit ht ho hnew [DecidableEq Uuid] in
theorem renamed_le {a b : LiveRow} (ha : a.parentId ≠ none) (hb : b.parentId ≠ none)
    (hrank : importedRank freshRank a ≤ importedRank freshRank b)
    (htext : importedRank freshRank a = importedRank freshRank b →
      uuids.text (newId a.id) ≤ uuids.text (newId b.id)) :
    compareOrder (renamed uuids newId freshRank a) (renamed uuids newId freshRank b) ≤ 0 := by
  rw [compareOrder_le_iff]
  change (renamed uuids newId freshRank a).rank < (renamed uuids newId freshRank b).rank ∨
    (renamed uuids newId freshRank a).rank = (renamed uuids newId freshRank b).rank ∧
      uuids.text (newId a.id) ≤ uuids.text (newId b.id)
  simp only [renamed, if_neg ha, if_neg hb]
  cases hrank.lt_or_eq with
  | inl hlt => exact Or.inl hlt
  | inr he => exact Or.inr ⟨he, htext he⟩

omit hnew in
theorem mem_below_iff {r : LiveRow} : r ∈ below ↔ r ∈ rows ∧ r.parentId ≠ none := by
  constructor
  · exact fun hr => ⟨ho.perm.mem_iff.mp (List.mem_cons_of_mem _ hr), below_parent ht ho hr⟩
  · rintro ⟨hr, hparent⟩
    cases List.mem_cons.mp (ho.perm.mem_iff.mpr hr) with
    | inl he => exact absurd (he ▸ root_parent ht) hparent
    | inr hr => exact hr

omit hnew in
theorem exists_others {l : List LiveRow} (hl : l.Nodup) (hin : ∀ r ∈ l, r ∈ below) :
    ∃ rest, (l ++ rest).Nodup ∧ (l ++ rest).Perm below ∧ (rest.Pairwise fun a b => compareOrder a b ≤ 0) ∧
      ∀ r, r ∈ rest ↔ r ∈ below ∧ r ∉ l := by
  have hnd : below.Nodup := (List.nodup_cons.mp (ho.perm.nodup_iff.mpr (List.Nodup.of_map _ ht.ids))).2
  have hrest : ∀ r, r ∈ sortSiblings (below.filter fun r => r ∉ l) ↔ r ∈ below ∧ r ∉ l := by
    intro r
    rw [mem_sortSiblings, List.mem_filter, decide_eq_true_iff]
  have hrestnd : (sortSiblings (below.filter fun r => r ∉ l)).Nodup :=
    (sortSiblings_perm _).nodup_iff.mpr (hnd.filter _)
  have horder := hl.append hrestnd fun r hr hr' => ((hrest r).mp hr').2 hr
  refine ⟨_, horder, ?_, sortSiblings_pairwise _, hrest⟩
  apply (List.perm_ext_iff_of_nodup horder hnd).mpr
  intro r
  rw [List.mem_append, hrest]
  constructor
  · rintro (hr | hr)
    · exact hin r hr
    · exact hr.1
  · intro hr
    by_cases hrl : r ∈ l
    · exact Or.inl hrl
    · exact Or.inr ⟨hr, hrl⟩

omit ho hnew [DecidableEq Uuid] in
theorem text_le_of_sorted {rest : List LiveRow} {g : LiveRow → Uuid}
    (hsorted : rest.Pairwise fun a b => compareOrder a b ≤ 0)
    (htexts : rest.Pairwise fun a b => uuids.text (g a) < uuids.text (g b)) (hrows : ∀ r ∈ rest, r ∈ rows)
    {a b : LiveRow} (ha : a ∈ rest) (hb : b ∈ rest) (hab : compareOrder a b ≤ 0) :
    uuids.text (g a) ≤ uuids.text (g b) := by
  by_cases hne : a = b
  · rw [hne]
  · let R : LiveRow → LiveRow → Prop := fun x y => compareOrder x y ≤ 0 ∧ uuids.text (g x) < uuids.text (g y)
    have : Std.Symm (fun x y => R x y ∨ R y x) := ⟨fun _ _ h => h.symm⟩
    have hpair : rest.Pairwise fun x y => R x y ∨ R y x := (hsorted.and htexts).imp Or.inl
    cases hpair.forall ha hb hne with
    | inl h => exact h.2.le
    | inr h => exact absurd (row_unique ht (hrows a ha) (hrows b hb) (compareOrder_antisymm hab h.1)) hne

end Necessity

section RoundTrip

variable {Uuid : Type} [DecidableEq Uuid] {uuids : UuidText Uuid} {lib : FractionalIndexing}
  {freshRank : JsString} {rows : List LiveRow} {root : LiveRow}

theorem orderFree_of_roundTrips (ht : IsTree rows root) (hkey : rankBetween lib none none [] = .ok freshRank)
    (hranks : ∀ row ∈ rows, row.rank ≠ [])
    (hfresh : ∃ (documentId : Uuid) (minted : List Uuid), (documentId :: minted).Nodup ∧
      minted.length + 1 = rows.length)
    (h : RoundTrips lib uuids rows) : OrderFree freshRank rows := by
  intro p hp l hl hsorted
  obtain ⟨sub, hsub, hchild, hperm⟩ := ht.export_listing
  have ho := ht.exportOrder hchild hperm
  have hrow : ∀ r ∈ l, r ∈ rows ∧ r.parentId = some p.id := fun r hr => mem_childRows.mp (hl.mem_iff.mp hr)
  have hlnd : l.Nodup := by
    rw [hl.nodup_iff]
    exact (sortSiblings_perm _).nodup_iff.mpr ((List.Nodup.of_map _ ht.ids).filter _)
  obtain ⟨rest, horder, horderperm, hrestsorted, hrest⟩ := exists_others ht ho hlnd fun r hr =>
    (mem_below_iff ht ho).mpr ⟨(hrow r hr).1, by rw [(hrow r hr).2]; simp⟩
  obtain ⟨documentId, spare, hspare, hlength⟩ := hfresh
  have hlen : spare.length = (sub.map Prod.fst).length := by
    have := hperm.length_eq
    rw [List.length_cons] at this
    omega
  obtain ⟨g, hg, hgorder⟩ :=
    exists_minted uuids documentId horder horderperm (List.nodup_cons.mp hspare).2 hlen
  have hminted : (documentId :: (sub.map Prod.fst).map g).Nodup := (hg.cons documentId).nodup_iff.mpr hspare
  have hmintedlen : ((sub.map Prod.fst).map g).length + 1 = rows.length := by rw [hg.length_eq, hlength]
  obtain ⟨data, items, newId, sub', hdata, himport, hnewg, hnew, hsub', -, hiff⟩ :=
    roundTrip_step ht uuids hkey hsub hperm [] hminted hmintedlen
  have hnewid : ∀ r ∈ sub.map Prod.fst, newId r.id = g r := fun r hr => List.map_inj_left.mp hnewg r hr
  have hshown : shown LiveRow.toItemValues ((root, 0) :: sub') =
      shown LiveRow.toItemValues ((root, 0) :: sub) := by
    obtain ⟨data', items', hdata', himport', hsame⟩ := h [] documentId _ hminted hmintedlen
    obtain rfl := Option.some.inj (hdata.symm.trans hdata')
    obtain rfl := Option.some.inj (himport.symm.trans himport')
    exact hiff.mp hsame
  have hparent : ∀ {q r : LiveRow}, r ∈ childRows rows q → r ∈ sub.map Prod.fst ∧ r.parentId ≠ none := by
    intro q r hr
    obtain ⟨hr, hq⟩ := mem_childRows.mp hr
    have hsome : r.parentId ≠ none := by rw [hq]; simp
    exact ⟨(mem_below_iff ht ho).mpr ⟨hr, hsome⟩, hsome⟩
  have hkids_p : reordered (renamed uuids newId freshRank) (root :: sub.map Prod.fst) p = l := by
    apply reordered_eq ho hnew hp hl
    have hboth := hsorted.and (hgorder.sublist (List.sublist_append_left l rest))
    refine hboth.imp_of_mem fun {a b} ha hb hab => ?_
    obtain ⟨ha, hanone⟩ := hparent (hl.mem_iff.mp ha)
    obtain ⟨hb, hbnone⟩ := hparent (hl.mem_iff.mp hb)
    refine renamed_le hanone hbnone hab.1 fun _ => ?_
    rw [hnewid a ha, hnewid b hb]
    exact hab.2.le
  have hkids : ∀ q, q ≠ p → reordered (renamed uuids newId freshRank) (root :: sub.map Prod.fst) q =
      rowKids rows q := by
    intro q hq
    unfold rowKids
    split
    · rename_i hqrows
      apply reordered_eq ho hnew hqrows (List.Perm.refl _)
      refine (sortSiblings_pairwise _).imp_of_mem fun {a b} ha hb hab => ?_
      have hother : ∀ r ∈ childRows rows q, r ∈ rest := by
        intro r hr
        refine (hrest r).mpr ⟨(hparent hr).1, fun hrl => hq ?_⟩
        have hids := (mem_childRows.mp hr).2.symm.trans (hrow r hrl).2
        exact row_unique ht hqrows hp (Option.some.inj hids)
      have hrank : ∀ r ∈ childRows rows q, importedRank freshRank r = r.rank := fun r hr =>
        if_neg (hranks r (mem_childRows.mp hr).1)
      refine renamed_le (hparent ha).2 (hparent hb).2 ?_ fun _ => ?_
      · rw [hrank a ha, hrank b hb]
        exact compareOrder_rank_le hab
      · rw [hnewid a (hparent ha).1, hnewid b (hparent hb).1]
        exact text_le_of_sorted ht hrestsorted (hgorder.sublist (List.sublist_append_right l rest))
          (fun r hr => ((mem_below_iff ht ho).mp ((hrest r).mp hr).1).1) (hother a ha) (hother b hb) hab
    · rename_i hqrows
      rw [reordered, if_neg fun hin => hqrows (hperm.mem_iff.mp hin)]
  have hmembers : ∀ c ∈ reordered (renamed uuids newId freshRank) (root :: sub.map Prod.fst) p,
      c ∈ rowKids rows p := by
    intro c hc
    rw [hkids_p] at hc
    rw [rowKids, if_pos hp]
    exact hl.mem_iff.mp hc
  have hshapes := hsub.shown_reorders (rowShape_isShape ht) hkids hsub' hmembers
    (tree_nodup ht (rowKids_siblings ht) hsub) (hperm.mem_iff.mpr hp) hshown
  rw [hkids_p, rowKids, if_pos hp] at hshapes
  exact (map_subtree_iff ht (fun r hr => (hrow r hr).1) fun r hr => (mem_childRows.mp hr).1).mpr hshapes

theorem orderFree_of_strict (ht : IsTree rows root)
    (hstrict : ∀ a ∈ rows, ∀ b ∈ rows, a.parentId = b.parentId → compareOrder a b ≤ 0 → a ≠ b →
      importedRank freshRank a < importedRank freshRank b) : OrderFree freshRank rows := by
  intro p hp l hl hsorted
  have hrow : ∀ r ∈ l, r ∈ rows ∧ r.parentId = some p.id := fun r hr => mem_childRows.mp (hl.mem_iff.mp hr)
  have hleast : ∀ {a b : LiveRow}, a ∈ l → b ∈ l → importedRank freshRank a ≤ importedRank freshRank b →
      compareOrder a b ≤ 0 := by
    intro a b ha hb hle
    obtain ⟨ha, hpa⟩ := hrow a ha
    obtain ⟨hb, hpb⟩ := hrow b hb
    by_contra hnot
    have hba := (compareOrder_total a b).resolve_left hnot
    have hne : b ≠ a := by
      rintro rfl
      exact hnot hba
    exact absurd (hstrict b hb a ha (hpb.trans hpa.symm) hba hne) hle.not_gt
  have heq : l = childRows rows p := by
    apply hl.eq_of_pairwise _ (hsorted.imp_of_mem fun ha hb hle => hleast ha hb hle) (sortSiblings_pairwise _)
    intro a b ha hb hab hba
    exact row_unique ht (hrow a ha).1 (mem_childRows.mp hb).1 (compareOrder_antisymm hab hba)
  rw [heq]

end RoundTrip

/-- The round trip gives the same outline for all minted UUIDs if the order among siblings of equal rank
does not show; and, for rows without an empty rank, only then. -/
theorem importDocument_roundTrips {Uuid : Type} [DecidableEq Uuid] (uuids : UuidText Uuid)
    (lib : FractionalIndexing) {freshRank : JsString}
    (hkey : rankBetween lib none none [] = .ok freshRank) {rows : List LiveRow} {root : LiveRow}
    (ht : IsTree rows root) :
    (OrderFree freshRank rows → RoundTrips lib uuids rows) ∧
    ((∀ row ∈ rows, row.rank ≠ []) →
      (∃ (documentId : Uuid) (minted : List Uuid), (documentId :: minted).Nodup ∧
        minted.length + 1 = rows.length) →
        RoundTrips lib uuids rows → OrderFree freshRank rows) :=
  ⟨roundTrips_of_orderFree ht hkey, orderFree_of_roundTrips ht hkey⟩

section Example

def exampleRoot : LiveRow := ⟨⟨.bullet, [], none, false, false⟩, js ['1'], none, js ['a', '0']⟩

def exampleChild (id : Char) (rank : JsString) : LiveRow :=
  ⟨⟨.bullet, js [id], none, false, false⟩, js [id], some (js ['1']), rank⟩

def twoChildren (first second : JsString) : List LiveRow :=
  [exampleRoot, exampleChild '2' first, exampleChild '3' second]

theorem twoChildren_tree (first second : JsString) : IsTree (twoChildren first second) exampleRoot := by
  have hchild : ∀ row ∈ twoChildren first second, row.parentId = some exampleRoot.id →
      ReflTransGen (ChildOf (childRows (twoChildren first second))) row exampleRoot :=
    fun row hrow hparent => .single (mem_childRows.mpr ⟨hrow, hparent⟩)
  refine ⟨?_, ?_, List.mem_cons_self, ?_, ?_⟩
  · change [js ['1'], js ['2'], js ['3']].Nodup
    decide
  · simp [twoChildren, exampleRoot, exampleChild, js]
  · simp [twoChildren, exampleRoot, exampleChild]
  · intro row hrow
    have hcases := hrow
    simp only [twoChildren, List.mem_cons, List.not_mem_nil, or_false] at hcases
    obtain rfl | rfl | rfl := hcases
    · exact .refl
    · exact hchild _ hrow rfl
    · exact hchild _ hrow rfl

theorem importDocument_roundTrips_distinct :
    RoundTrips sampleKeys hexDigits (twoChildren (js ['a', '1']) (js ['a', '2'])) :=
  (importDocument_roundTrips hexDigits sampleKeys rfl (twoChildren_tree _ _)).1
    (orderFree_of_strict (twoChildren_tree _ _) (by decide))

/-- Two children of one rank change places when the second gets the smaller id. -/
theorem importDocument_swaps :
    ∃ data items, serializeJson [] (twoChildren (js ['a', '1']) (js ['a', '1'])) = some data ∧
      importDocument sampleKeys (0 : Fin 16) [5, 4] data = some items ∧
      ¬ SameOutline (twoChildren (js ['a', '1']) (js ['a', '1'])) (getLiveItems hexDigits items) := by
  refine ⟨_, _, rfl, rfl, ?_⟩
  rintro ⟨out, out', hout, hout', hshown⟩
  obtain rfl := hout.unique (listing_of_preorder 4 rfl)
  obtain rfl := hout'.unique (listing_of_preorder 4 rfl)
  exact absurd hshown (by decide)

end Example

end OpenOutliner
