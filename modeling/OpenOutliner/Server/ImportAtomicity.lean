import OpenOutliner.Server.RawImport

namespace OpenOutliner

open Foundations

namespace RawImport

variable {Uuid : Type} [DecidableEq Uuid]

structure Fresh (db : ImportDb Uuid) (documentId : Uuid) (uuids : List Uuid) : Prop where
  document : db.documents.get documentId = none
  projection : db.projection.get documentId = none
  items : ∀ u row, db.items.get u = some row → u ≠ documentId ∧ u ∉ uuids ∧ row.documentId ≠ documentId
  nodup : (documentId :: uuids).Nodup

def Shows (columns : SqlColumns) (documentId : Uuid) (placed : List (RawItem × Uuid)) (e : RawItem × Uuid)
    (row : StoredItem Uuid) : Prop :=
  row.documentId = documentId ∧ row.deletedAt = none ∧ columns.values e.1 = some row.values ∧
    if e.1.parentId = .null then row.parentId = none
    else (e.1.rank.truthy = true → columns.rank e.1.rank = some row.rank) ∧
      ∃ parent ∈ placed, parent.1.id = e.1.parentId ∧ row.parentId = some parent.2

/-- The document exists, and every item has a row of its own in it. -/
structure Complete (columns : SqlColumns) (workspaceId documentId : Uuid) (title : JsonField)
    (elements : List (Option RawItem)) (db : ImportDb Uuid) : Prop where
  document : ∃ text, SqlColumns.notNull columns.text title = some text ∧
    db.documents.get documentId = some ⟨workspaceId, text, some documentId⟩
  projection : db.projection.get documentId = some (0, 0)
  items : ∃ placed : List (RawItem × Uuid), placed.map (fun e => some e.1) = elements ∧
    (placed.map Prod.snd).Nodup ∧
    ∀ e ∈ placed, ∃ row, db.items.get e.2 = some row ∧ Shows columns documentId placed e row

/-- The items can be imported as they stand. -/
structure Importable (columns : SqlColumns) (freshRank : JsString) (items : List RawItem) : Prop where
  oneRoot : (roots items).length ≤ 1
  values : ∀ item ∈ items, columns.values item ≠ none
  ranks : ∀ item ∈ nonRoots items, newRank columns freshRank item ≠ none
  ids : ((nonRoots items).map RawItem.id).Nodup
  -- the parent is the item itself, an item before it, or a root
  parents : ∀ (j : ℕ) item, (nonRoots items)[j]? = some item → item.parentId.truthy = true ∧
    ((∃ i ≤ j, ∃ parent, (nonRoots items)[i]? = some parent ∧ parent.id = item.parentId) ∨
      item.parentId ∉ (nonRoots items).map RawItem.id ∧ ∃ root ∈ roots items, root.id = item.parentId)

/-- The statements that matter: the creation, the insertions, and the update if it changes the root. -/
def needed (columns : SqlColumns) (items : List RawItem) : ℕ :=
  1 + (nonRoots items).length + if ∀ root ∈ roots items, columns.values root = some .default then 0 else 1

def created (db : ImportDb Uuid) (workspaceId documentId : Uuid) (title rank : JsString) : ImportDb Uuid where
  documents := db.documents.set documentId ⟨workspaceId, title, some documentId⟩
  items := db.items.set documentId ⟨documentId, none, rank, .default, none⟩
  projection := db.projection.set documentId (0, 0)

theorem hasRoot_iff {db : ImportDb Uuid} {documentId : Uuid} : hasRoot db documentId = true ↔
    ∃ u row, db.items.get u = some row ∧ row.documentId = documentId ∧ row.parentId = none ∧
    row.deletedAt = none := by
  simp only [hasRoot, List.any_eq_true, decide_eq_true_eq, OrderedMap.mem_values_iff]
  constructor
  · rintro ⟨row, ⟨u, hu⟩, hrow⟩
    exact ⟨u, row, hu, hrow⟩
  · rintro ⟨u, row, hu, hrow⟩
    exact ⟨row, ⟨u, hu⟩, hrow⟩

section Create

variable {columns : SqlColumns} {rootRank : JsString} {workspaceId documentId : Uuid} {uuids : List Uuid}
  {title : JsonField} {db db' : ImportDb Uuid}

theorem create_iff (hfresh : Fresh db documentId uuids) :
    createDocumentWithRoot columns rootRank workspaceId documentId title db = some db' ↔
      ∃ text rank, SqlColumns.notNull columns.text title = some text ∧
      columns.rank (.string rootRank) = some rank ∧
        db' = created db workspaceId documentId text rank := by
  have hitem : db.items.has documentId = false := by
    rw [Bool.eq_false_iff, ne_eq, OrderedMap.has_iff]
    rintro ⟨row, hrow⟩
    exact (hfresh.items documentId row hrow).1 rfl
  have hroot : hasRoot db documentId = false := by
    rw [Bool.eq_false_iff, ne_eq, hasRoot_iff]
    rintro ⟨u, row, hrow, hd, -⟩
    exact (hfresh.items u row hrow).2.2 hd
  have hprojection : db.projection.has documentId = false := by
    rw [OrderedMap.has, hfresh.projection, Option.isSome_none]
  rw [createDocumentWithRoot, hfresh.document]
  simp only [hitem, hroot, hprojection, Bool.or_self, Bool.false_eq_true, if_false, Option.bind_eq_bind,
    Option.bind_eq_some_iff,
    Option.some.injEq]
  constructor
  · rintro ⟨text, htext, rank, hrank, rfl⟩
    exact ⟨text, rank, htext, hrank, rfl⟩
  · rintro ⟨text, rank, htext, hrank, rfl⟩
    exact ⟨text, htext, rank, hrank, rfl⟩

end Create

section Ids

variable {documentId : Uuid} {uuids : List Uuid} {items : List RawItem} {k : JsonField} {u : Uuid}

section

omit [DecidableEq Uuid]

theorem idMap_eq (documentId : Uuid) (uuids : List Uuid) (items : List RawItem) :
    idMap documentId uuids items =
    (((nonRoots items).zip uuids).map fun e => (e.1.id, e.2)).foldl (fun m e => m.set e.1 e.2)
      (((roots items).map fun item => (item.id, documentId)).foldl (fun m e => m.set e.1 e.2) .empty) := by
  rw [idMap, List.foldl_map, List.foldl_map]

theorem zip_ids (hlength : uuids.length = (nonRoots items).length) :
    (((nonRoots items).zip uuids).map fun e => (e.1.id, e.2)).map Prod.fst =
    (nonRoots items).map RawItem.id :=
  OrderedMap.map_fst_zip RawItem.id hlength.ge

theorem idMap_child (hlength : uuids.length = (nonRoots items).length)
    (hk : k ∈ (nonRoots items).map RawItem.id) :
    ∃ u ∈ uuids, (idMap documentId uuids items).get k = some u := by
  obtain ⟨u, hin, hget⟩ := OrderedMap.get_foldl_set_exists _
    (((roots items).map fun item => (item.id, documentId)).foldl (fun m e => m.set e.1 e.2) .empty)
      ((zip_ids hlength).symm ▸ hk)
  obtain ⟨e, he, heq⟩ := List.mem_map.mp hin
  obtain ⟨-, rfl⟩ := Prod.mk.inj heq
  exact ⟨e.2, (List.of_mem_zip he).2, by rw [idMap_eq]; exact hget⟩

theorem idMap_root_iff (hlength : uuids.length = (nonRoots items).length)
    (hk : k ∉ (nonRoots items).map RawItem.id) :
    (idMap documentId uuids items).get k = some u ↔ u = documentId ∧ ∃ root ∈ roots items, root.id = k := by
  rw [idMap_eq, OrderedMap.get_foldl_set _ _ _ (by rwa [zip_ids hlength])]
  have hkeys : ((roots items).map fun item => (item.id, documentId)).map Prod.fst =
      (roots items).map RawItem.id := by
    rw [List.map_map]
    rfl
  by_cases hroot : k ∈ (roots items).map RawItem.id
  · obtain ⟨v, hv, hget⟩ := OrderedMap.get_foldl_set_exists _ OrderedMap.empty (hkeys.symm ▸ hroot)
    obtain ⟨root, -, heq⟩ := List.mem_map.mp hv
    obtain ⟨-, rfl⟩ := Prod.mk.inj heq
    rw [hget, Option.some.injEq, eq_comm, iff_self_and]
    exact fun _ => List.mem_map.mp hroot
  · rw [OrderedMap.get_foldl_set _ _ _ (by rwa [hkeys]), OrderedMap.get_empty]
    constructor
    · rintro ⟨⟩
    · rintro ⟨-, root, hin, rfl⟩
      exact absurd (List.mem_map.mpr ⟨root, hin, rfl⟩) hroot

theorem idMap_distinct (hlength : uuids.length = (nonRoots items).length)
    (hids : ((nonRoots items).map RawItem.id).Nodup)
    {j : ℕ} {item : RawItem} (hj : (nonRoots items)[j]? = some item) :
    (idMap documentId uuids items).get item.id = uuids[j]? := by
  obtain ⟨hlt, -⟩ := List.getElem?_eq_some_iff.mp hj
  have hu : uuids[j]? = some uuids[j] := List.getElem?_eq_getElem _
  rw [hu, idMap_eq]
  refine OrderedMap.get_foldl_set_mem _ (by rwa [zip_ids hlength]) _
    (List.mem_map.mpr ⟨(item, uuids[j]), ?_, rfl⟩)
  exact List.mem_of_getElem? (List.getElem?_zip_eq_some.mpr ⟨hj, hu⟩)

end

end Ids

structure RowOf (columns : SqlColumns) (freshRank : JsString) (documentId : Uuid) (item : RawItem)
    (row : StoredItem Uuid) : Prop where
  document : row.documentId = documentId
  live : row.deletedAt = none
  rank : newRank columns freshRank item = some row.rank
  values : columns.values item = some row.values

section Insert

variable {columns : SqlColumns} {freshRank : JsString} {documentId : Uuid}
  {ids : OrderedMap JsonField Uuid} {item : RawItem} {db db' : ImportDb Uuid}

theorem insertItem_iff (hroot : hasRoot db documentId = true) :
    insertItem columns freshRank documentId ids item db = some db' ↔ ∃ u row, ids.get item.id = some u ∧
      RowOf columns freshRank documentId item row ∧
      (db.items.has u = true ∧ db' = db ∨ db.items.get u = none ∧
        (∃ parent, row.parentId = some parent ∧ newParentId ids item = some parent ∧
        (parent = u ∨ ∃ other, db.items.get parent = some other ∧ other.documentId = documentId)) ∧
        db' = { db with items := db.items.set u row }) := by
  have hset : ∀ u row parent, ((db.items.set u row).get parent).any
      (fun r : StoredItem Uuid => decide (r.documentId = documentId)) = true ↔
      parent = u ∧ row.documentId = documentId ∨ parent ≠ u ∧ ∃ other, db.items.get parent = some other ∧
      other.documentId = documentId := by
    intro u row parent
    rw [OrderedMap.get_set]
    by_cases hp : parent = u <;> simp [hp, Option.any_eq_true]
  rw [insertItem]
  simp only [Option.bind_eq_bind, Option.bind_eq_some_iff]
  constructor
  · rintro ⟨u, hu, rank, hrank, values, hvalues, h⟩
    refine ⟨u, ⟨documentId, newParentId ids item, rank, values, none⟩, hu, ⟨rfl, rfl, hrank, hvalues⟩, ?_⟩
    split at h
    · next hhas => exact .inl ⟨hhas, (Option.some.inj h).symm⟩
    · next hhas =>
      have hnone : db.items.get u = none := by simpa [OrderedMap.has] using hhas
      cases hparent : newParentId ids item with
      | none =>
        rw [hparent] at h
        cases h
      | some parent =>
        simp only [hparent] at h
        split at h
        · next hin =>
          refine .inr ⟨hnone, ⟨parent, rfl, rfl, ?_⟩, (Option.some.inj h).symm⟩
          obtain ⟨hp, -⟩ | ⟨-, hother⟩ := (hset u _ parent).mp hin
          · exact .inl hp
          · exact .inr hother
        · cases h
  · rintro ⟨u, row, hu, hrow, h⟩
    refine ⟨u, hu, row.rank, hrow.rank, row.values, hrow.values, ?_⟩
    obtain ⟨hhas, rfl⟩ | ⟨hnone, ⟨parent, hrowparent, hparent, hin⟩, rfl⟩ := h
    · rw [if_pos hhas]
    · have hhas : db.items.has u = false := by rw [OrderedMap.has, hnone, Option.isSome_none]
      have hrow' : (⟨documentId, some parent, row.rank, row.values, none⟩ : StoredItem Uuid) = row := by
        obtain ⟨d, p, rank, values, deletedAt⟩ := row
        obtain ⟨rfl, rfl, -, -⟩ := hrow
        exact hrowparent ▸ rfl
      simp only [hhas, Bool.false_eq_true, if_false, hparent]
      rw [hrow', if_pos ((hset u row parent).mpr ?_)]
      by_cases hp : parent = u
      · exact .inl ⟨hp, hrow.document⟩
      · exact .inr ⟨hp, hin.resolve_left hp⟩

end Insert

structure Base (documentId : Uuid) (uuids : List Uuid) (base : ImportDb Uuid) : Prop where
  root : ∃ rank, base.items.get documentId = some ⟨documentId, none, rank, .default, none⟩
  other : ∀ u row, base.items.get u = some row → row.documentId = documentId → u = documentId
  free : ∀ u ∈ uuids, base.items.get u = none
  nodup : (documentId :: uuids).Nodup

theorem Fresh.base {db : ImportDb Uuid} {documentId : Uuid} {uuids : List Uuid}
    (h : Fresh db documentId uuids) (workspaceId : Uuid)
    (text rank : JsString) : Base documentId uuids (created db workspaceId documentId text rank) where
  root := ⟨rank, OrderedMap.get_set_self _ _ _⟩
  other := by
    intro u row hrow hd
    by_contra hne
    rw [created, OrderedMap.get_set_of_ne _ _ hne] at hrow
    exact (h.items u row hrow).2.2 hd
  free := by
    intro u hu
    have hne : u ≠ documentId := fun he => (List.nodup_cons.mp h.nodup).1 (he ▸ hu)
    rw [created, OrderedMap.get_set_of_ne _ _ hne, Option.eq_none_iff_forall_ne_some]
    exact fun row hrow => (h.items u row hrow).2.1 hu
  nodup := h.nodup

def RowAt (columns : SqlColumns) (freshRank : JsString) (documentId : Uuid) (uuids : List Uuid)
    (items : List RawItem) (j : ℕ) (u : Uuid) (row : StoredItem Uuid) : Prop :=
  ∃ item, (nonRoots items)[j]? = some item ∧ (idMap documentId uuids items).get item.id = some u ∧
    RowOf columns freshRank documentId item row ∧
    ∃ parent, row.parentId = some parent ∧ newParentId (idMap documentId uuids items) item = some parent ∧
      (parent = documentId ∨
        ∃ i ≤ j, ∃ other, (nonRoots items)[i]? = some other ∧
        (idMap documentId uuids items).get other.id = some parent)

structure Inserted (columns : SqlColumns) (freshRank : JsString) (documentId : Uuid) (uuids : List Uuid)
    (items : List RawItem) (base : ImportDb Uuid) (m : ℕ) (db : ImportDb Uuid) : Prop where
  documents : db.documents = base.documents
  projection : db.projection = base.projection
  kept : ∀ u row, base.items.get u = some row → db.items.get u = some row
  rows : ∀ u row, db.items.get u = some row → base.items.get u = some row ∨
    ∃ j < m, RowAt columns freshRank documentId uuids items j u row
  present : ∀ j < m, ∀ item, (nonRoots items)[j]? = some item →
    ∃ u row, (idMap documentId uuids items).get item.id = some u ∧
    db.items.get u = some row

section Stages

variable {columns : SqlColumns} {freshRank : JsString} {documentId : Uuid} {uuids : List Uuid}
  {items : List RawItem} {base db db' : ImportDb Uuid} {m : ℕ} {item : RawItem}

theorem Inserted.zero : Inserted columns freshRank documentId uuids items base 0 base where
  documents := rfl
  projection := rfl
  kept := fun _ _ h => h
  rows := fun _ _ h => .inl h
  present := fun j hj => absurd hj (Nat.not_lt_zero j)

theorem Inserted.hasRoot (hb : Base documentId uuids base)
    (h : Inserted columns freshRank documentId uuids items base m db) :
    hasRoot db documentId = true := by
  obtain ⟨rank, hroot⟩ := hb.root
  exact hasRoot_iff.mpr ⟨documentId, _, h.kept _ _ hroot, rfl, rfl, rfl⟩

theorem Inserted.parent (hb : Base documentId uuids base)
    (h : Inserted columns freshRank documentId uuids items base m db)
    {u : Uuid} {row : StoredItem Uuid} (hu : db.items.get u = some row) (hd : row.documentId = documentId) :
    u = documentId ∨ ∃ j < m, ∃ item, (nonRoots items)[j]? = some item ∧
    (idMap documentId uuids items).get item.id = some u := by
  obtain hbase | ⟨j, hj, item, hitem, hget, -⟩ := h.rows u row hu
  · exact .inl (hb.other u row hbase hd)
  · exact .inr ⟨j, hj, item, hitem, hget⟩

theorem Inserted.step (hb : Base documentId uuids base)
    (h : Inserted columns freshRank documentId uuids items base m db)
    (hitem : (nonRoots items)[m]? = some item)
    (hq : insertItem columns freshRank documentId (idMap documentId uuids items) item db = some db') :
    Inserted columns freshRank documentId uuids items base (m + 1) db' := by
  obtain ⟨u, row, hu, hrow, hcase⟩ := (insertItem_iff (h.hasRoot hb)).mp hq
  have hearlier : ∀ {v : Uuid} {other : StoredItem Uuid}, db.items.get v = some other →
      base.items.get v = some other ∨
      ∃ j < m + 1, RowAt columns freshRank documentId uuids items j v other := by
    intro v other hv
    obtain hbase | ⟨j, hj, hat⟩ := h.rows v other hv
    · exact .inl hbase
    · exact .inr ⟨j, by omega, hat⟩
  obtain ⟨hhas, rfl⟩ | ⟨hnone, ⟨parent, hparent, hnew, hin⟩, rfl⟩ := hcase
  · refine ⟨h.documents, h.projection, h.kept, fun v other => hearlier, fun j hj other hother => ?_⟩
    obtain hlt | rfl := Nat.lt_succ_iff_lt_or_eq.mp hj
    · exact h.present j hlt other hother
    · obtain rfl := Option.some.inj (hother.symm.trans hitem)
      obtain ⟨old, hold⟩ := (OrderedMap.has_iff _ _).mp hhas
      exact ⟨u, old, hu, hold⟩
  · have hset : ∀ {v : Uuid} {other : StoredItem Uuid}, db.items.get v = some other →
        (db.items.set u row).get v = some other := by
      intro v other hv
      have hne : v ≠ u := fun he => by rw [he, hnone] at hv; cases hv
      rw [OrderedMap.get_set_of_ne _ _ hne, hv]
    refine ⟨h.documents, h.projection, fun v other hv => hset (h.kept v other hv), fun v other hv => ?_,
      fun j hj other hother => ?_⟩
    · dsimp only at hv
      rw [OrderedMap.get_set] at hv
      by_cases hvu : v = u
      · rw [if_pos hvu] at hv
        obtain rfl := Option.some.inj hv
        refine .inr ⟨m, by omega, item, hitem, hvu ▸ hu, hrow, parent, hparent, hnew, ?_⟩
        obtain rfl | ⟨old, hold, hd⟩ := hin
        · exact .inr ⟨m, le_rfl, item, hitem, hu⟩
        · obtain hroot | ⟨i, hi, earlier, hearlier', hget⟩ := h.parent hb hold hd
          · exact .inl hroot
          · exact .inr ⟨i, hi.le, earlier, hearlier', hget⟩
      · rw [if_neg hvu] at hv
        exact hearlier hv
    · obtain hlt | rfl := Nat.lt_succ_iff_lt_or_eq.mp hj
      · obtain ⟨v, old, hget, hold⟩ := h.present j hlt other hother
        exact ⟨v, old, hget, hset hold⟩
      · obtain rfl := Option.some.inj (hother.symm.trans hitem)
        exact ⟨u, row, hu, OrderedMap.get_set_self _ _ _⟩

def Stage (columns : SqlColumns) (freshRank : JsString) (documentId : Uuid) (uuids : List Uuid)
    (items : List RawItem) (base : ImportDb Uuid) (m : ℕ) (db : ImportDb Uuid) : Prop :=
  m ≤ (nonRoots items).length ∧ Inserted columns freshRank documentId uuids items base m db ∨
    m = (nonRoots items).length + 1 ∧ ∃ root before, roots items = [root] ∧
      Inserted columns freshRank documentId uuids items base (nonRoots items).length before ∧
      updateRoot columns documentId root before = some db

theorem itemStatements_get {q : Statement (ImportDb Uuid)}
    (hq : (itemStatements columns freshRank documentId uuids items)[m]? = some q) :
    (∃ item, (nonRoots items)[m]? = some item ∧
      q = insertItem columns freshRank documentId (idMap documentId uuids items) item) ∨
      m = (nonRoots items).length ∧ ∃ root, roots items = [root] ∧
      q = updateRoot columns documentId root := by
  rw [itemStatements, List.getElem?_append] at hq
  split at hq
  · obtain ⟨item, hitem, rfl⟩ := by simpa using hq
    exact .inl ⟨item, hitem, rfl⟩
  · next hlt =>
    rw [List.length_map] at hq hlt
    unfold rootStatements at hq
    split at hq
    · next root hroots =>
      obtain ⟨hzero, rfl⟩ := List.getElem?_eq_some_iff.mp hq
      rw [List.length_singleton] at hzero
      exact .inr ⟨by omega, root, hroots, by simp⟩
    · cases hq

theorem Stage.step (hb : Base documentId uuids base) {q : Statement (ImportDb Uuid)}
    (hq : (itemStatements columns freshRank documentId uuids items)[m]? = some q)
    (h : Stage columns freshRank documentId uuids items base m db) (hrun : q db = some db') :
    Stage columns freshRank documentId uuids items base (m + 1) db' := by
  obtain ⟨hm, h⟩ | ⟨rfl, -⟩ := h
  · obtain ⟨item, hitem, rfl⟩ | ⟨rfl, root, hroots, rfl⟩ := itemStatements_get hq
    · exact .inl ⟨(List.getElem?_eq_some_iff.mp hitem).1, h.step hb hitem hrun⟩
    · exact .inr ⟨rfl, root, db, hroots, h, hrun⟩
  · obtain ⟨item, hitem, -⟩ | ⟨heq, -⟩ := itemStatements_get hq
    · exact absurd (List.getElem?_eq_some_iff.mp hitem).1 (by omega)
    · omega

theorem updateRoot_iff (hb : Base documentId uuids base)
    (h : Inserted columns freshRank documentId uuids items base m db) {root : RawItem} :
    updateRoot columns documentId root db = some db' ↔ ∃ values rank, columns.values root = some values ∧
      db.items.get documentId = some ⟨documentId, none, rank, .default, none⟩ ∧
      db' = { db with items := db.items.set documentId ⟨documentId, none, rank, values, none⟩ } := by
  obtain ⟨rank, hrank⟩ := hb.root
  have hroot := h.kept _ _ hrank
  simp only [updateRoot, Option.bind_eq_bind, Option.bind_eq_some_iff, hroot, if_true, Option.some.injEq]
  constructor
  · rintro ⟨values, hvalues, rfl⟩
    exact ⟨values, rank, hvalues, rfl, rfl⟩
  · rintro ⟨values, rank', hvalues, heq, rfl⟩
    obtain rfl : rank = rank' := (StoredItem.mk.inj heq).2.2.1
    exact ⟨values, hvalues, rfl⟩

theorem Stage.view (hb : Base documentId uuids base)
    (h : Stage columns freshRank documentId uuids items base m db) :
    db.documents = base.documents ∧ db.projection = base.projection ∧
      (∃ before, Inserted columns freshRank documentId uuids items base
        (min m (nonRoots items).length) before ∧
        ∀ u, u ≠ documentId → db.items.get u = before.items.get u) ∧
      ∃ rank values, db.items.get documentId = some ⟨documentId, none, rank, values, none⟩ ∧
        (m ≤ (nonRoots items).length ∧ values = .default ∨
          (nonRoots items).length < m ∧ ∃ root, roots items = [root] ∧
          columns.values root = some values) := by
  obtain ⟨hm, h⟩ | ⟨rfl, root, before, hroots, h, hupdate⟩ := h
  · obtain ⟨rank, hrank⟩ := hb.root
    rw [min_eq_left hm]
    exact ⟨h.documents, h.projection, ⟨db, h, fun _ _ => rfl⟩, rank, .default, h.kept _ _ hrank,
      .inl ⟨hm, rfl⟩⟩
  · obtain ⟨values, rank, hvalues, -, rfl⟩ := (updateRoot_iff hb h).mp hupdate
    rw [min_eq_right (Nat.le_succ _)]
    refine ⟨h.documents, h.projection, ⟨before, h, fun u hu => OrderedMap.get_set_of_ne _ _ hu⟩, rank, values,
      OrderedMap.get_set_self _ _ _, .inr ⟨Nat.lt_succ_self _, root, hroots, hvalues⟩⟩

section Distinct

variable (hb : Base documentId uuids base) (hlength : uuids.length = (nonRoots items).length)
  (hids : ((nonRoots items).map RawItem.id).Nodup)

include hlength in
omit [DecidableEq Uuid] in
theorem child_id (hitem : (nonRoots items)[m]? = some item) :
    ∃ u ∈ uuids, (idMap documentId uuids items).get item.id = some u :=
  idMap_child hlength (List.mem_map.mpr ⟨item, List.mem_of_getElem? hitem, rfl⟩)

include hb hlength hids in
theorem child_unique {i j : ℕ} {other : RawItem} {u : Uuid} (hi : (nonRoots items)[i]? = some other)
    (hother : (idMap documentId uuids items).get other.id = some u) (hj : (nonRoots items)[j]? = some item)
    (hitem : (idMap documentId uuids items).get item.id = some u) : i = j := by
  rw [idMap_distinct hlength hids hi] at hother
  rw [idMap_distinct hlength hids hj] at hitem
  obtain ⟨hlt, -⟩ := List.getElem?_eq_some_iff.mp hother
  exact (List.getElem?_inj hlt (List.nodup_cons.mp hb.nodup).2).mp (hother.trans hitem.symm)

include hb hlength hids in
theorem Inserted.row (h : Inserted columns freshRank documentId uuids items base m db) {j : ℕ} (hj : j < m)
    (hitem : (nonRoots items)[j]? = some item) :
    ∃ u row, (idMap documentId uuids items).get item.id = some u ∧ u ∈ uuids ∧
      db.items.get u = some row ∧ RowAt columns freshRank documentId uuids items j u row := by
  obtain ⟨v, hv, hget⟩ : ∃ v ∈ uuids, (idMap documentId uuids items).get item.id = some v :=
    child_id hlength hitem
  obtain ⟨u, row, hu, hrow⟩ := h.present j hj item hitem
  obtain rfl := Option.some.inj (hu.symm.trans hget)
  obtain hbase | ⟨i, -, hat⟩ := h.rows u row hrow
  · rw [hb.free u hv] at hbase
    cases hbase
  · obtain ⟨other, hother, hotherId, -⟩ := id hat
    obtain rfl := child_unique hb hlength hids hother hotherId hitem hu
    exact ⟨u, row, hu, hv, hrow, hat⟩

include hb hlength hids in
theorem Inserted.parents (h : Inserted columns freshRank documentId uuids items base m db) {j : ℕ}
    (hj : j < m) (hitem : (nonRoots items)[j]? = some item) : item.parentId.truthy = true ∧
      ((∃ i ≤ j, ∃ parent, (nonRoots items)[i]? = some parent ∧ parent.id = item.parentId) ∨
        item.parentId ∉ (nonRoots items).map RawItem.id ∧ ∃ root ∈ roots items, root.id = item.parentId) := by
  obtain ⟨u, row, -, -, -, item', hitem', -, -, parent, -, hparent, hplace⟩ := h.row hb hlength hids hj hitem
  obtain rfl := Option.some.inj (hitem'.symm.trans hitem)
  unfold newParentId at hparent
  split at hparent
  · next htruthy =>
    refine ⟨htruthy, ?_⟩
    by_cases hchild : item'.parentId ∈ (nonRoots items).map RawItem.id
    · left
      obtain ⟨other, hin, hother⟩ := List.mem_map.mp hchild
      obtain ⟨k, hk⟩ := List.getElem?_of_mem hin
      rw [← hother] at hparent
      obtain rfl | ⟨i, hi, early, hearly, hget⟩ := hplace
      · obtain ⟨v, hv, hget⟩ : ∃ v ∈ uuids, (idMap parent uuids items).get other.id = some v :=
          child_id hlength hk
        obtain rfl := Option.some.inj (hparent.symm.trans hget)
        exact absurd hv (List.nodup_cons.mp hb.nodup).1
      · obtain rfl := child_unique hb hlength hids hearly hget hk hparent
        exact ⟨i, hi, other, hk, hother⟩
    · exact .inr ⟨hchild, ((idMap_root_iff hlength hchild).mp hparent).2⟩
  · cases hparent

end Distinct

section Necessary

variable {workspaceId : Uuid} {title : JsonField} {placed : List (RawItem × Uuid)}

omit [DecidableEq Uuid] in
theorem placed_nonRoots : ((placed.filter fun e => e.1.parentId ≠ .null).map Prod.fst) =
    nonRoots (placed.map Prod.fst) := by
  rw [nonRoots, List.filter_map]
  rfl

omit [DecidableEq Uuid] in
theorem placed_roots : ((placed.filter fun e => e.1.parentId = .null).map Prod.fst) =
    roots (placed.map Prod.fst) := by
  rw [roots, List.filter_map]
  rfl

theorem placed_ids (hb : Base documentId uuids base) (hitems : placed.map Prod.fst = items)
    (hnd : (placed.map Prod.snd).Nodup) (h : Stage columns freshRank documentId uuids items base m db)
    (hplaced : ∀ e ∈ placed, ∃ row, db.items.get e.2 = some row ∧ Shows columns documentId placed e row) :
    (nonRoots items).length ≤ m ∧ ((nonRoots items).map RawItem.id).Nodup := by
  obtain ⟨-, -, ⟨before, hbefore, hother⟩, rank, values, hroot, -⟩ := h.view hb
  set children := placed.filter fun e => e.1.parentId ≠ .null with hchildren
  have hlength : children.length = (nonRoots items).length := by
    rw [← hitems, ← placed_nonRoots, List.length_map]
  have hnodup : (children.map fun e => some e.2).Nodup := by
    have hsub : (children.map Prod.snd).Nodup := hnd.sublist (List.filter_sublist.map _)
    rw [show (fun e : RawItem × Uuid => some e.2) = some ∘ Prod.snd from rfl, ← List.map_map]
    exact hsub.map (Option.some_injective _)
  have hsubset : children.map (fun e => some e.2) ⊆
      ((nonRoots items).take m).map fun item => (idMap documentId uuids items).get item.id := by
    intro o ho
    obtain ⟨e, he, rfl⟩ := List.mem_map.mp ho
    obtain ⟨hin, hnull⟩ := List.mem_filter.mp he
    obtain ⟨row, hrow, hd, -, -, hparent⟩ := hplaced e hin
    rw [if_neg (by simpa using hnull)] at hparent
    obtain ⟨-, parent, -, -, hrowParent⟩ := hparent
    have hne : e.2 ≠ documentId := by
      intro heq
      rw [heq, hroot] at hrow
      obtain rfl := Option.some.inj hrow
      cases hrowParent
    rw [hother e.2 hne] at hrow
    obtain heq | ⟨j, hj, item, hitem, hget⟩ := hbefore.parent hb hrow hd
    · exact absurd heq hne
    · refine List.mem_map.mpr ⟨item, ?_, hget⟩
      exact List.mem_of_getElem? ((List.getElem?_take_of_lt (by omega)).trans hitem)
  have hperm := List.subperm_of_subset hnodup hsubset
  have hcount : (nonRoots items).length ≤ m := by
    have hle := hperm.length_le
    rw [List.length_map, List.length_map, List.length_take, hlength] at hle
    omega
  refine ⟨hcount, ?_⟩
  rw [List.take_of_length_le hcount] at hperm
  have hperm := hperm.perm_of_length_le (by rw [List.length_map, List.length_map, hlength])
  have hall := hperm.nodup_iff.mp hnodup
  rw [show (fun item : RawItem => (idMap documentId uuids items).get item.id) =
    (idMap documentId uuids items).get ∘ RawItem.id from rfl,
    ← List.map_map] at hall
  exact hall.of_map _

theorem placed_root (hb : Base documentId uuids base)
    (h : Stage columns freshRank documentId uuids items base m db) {e : RawItem × Uuid}
    {row : StoredItem Uuid} (he : e.1.parentId = .null) (hrow : db.items.get e.2 = some row)
    (hshows : Shows columns documentId placed e row) : e.2 = documentId := by
  obtain ⟨-, -, ⟨before, hbefore, hother⟩, -⟩ := h.view hb
  obtain ⟨hd, -, -, hparent⟩ := hshows
  rw [if_pos he] at hparent
  by_contra hne
  rw [hother e.2 hne] at hrow
  obtain hbase | ⟨j, -, item, -, -, -, parent, hsome, -⟩ := hbefore.rows e.2 row hrow
  · exact hne (hb.other e.2 row hbase hd)
  · rw [hparent] at hsome
    cases hsome

theorem placed_roots_length (hb : Base documentId uuids base) (hitems : placed.map Prod.fst = items)
    (hnd : (placed.map Prod.snd).Nodup) (h : Stage columns freshRank documentId uuids items base m db)
    (hplaced : ∀ e ∈ placed, ∃ row, db.items.get e.2 = some row ∧ Shows columns documentId placed e row) :
    (roots items).length ≤ 1 := by
  have hall : ∀ u ∈ (placed.filter fun e => e.1.parentId = .null).map Prod.snd, u = documentId := by
    intro u hu
    obtain ⟨e, he, rfl⟩ := List.mem_map.mp hu
    obtain ⟨hin, hnull⟩ := List.mem_filter.mp he
    obtain ⟨row, hrow, hshows⟩ := hplaced e hin
    exact placed_root hb h (of_decide_eq_true hnull) hrow hshows
  have hsub : ((placed.filter fun e => e.1.parentId = .null).map Prod.snd).Nodup :=
    hnd.sublist (List.filter_sublist.map _)
  rw [List.eq_replicate_of_mem hall, List.nodup_replicate, List.length_map] at hsub
  rwa [← hitems, ← placed_roots, List.length_map]

theorem importable_of_complete (hb : Base documentId uuids base)
    (hlength : uuids.length = (nonRoots items).length)
    (h : Stage columns freshRank documentId uuids items base m db)
    (hcomplete : Complete columns workspaceId documentId title (items.map some) db) :
    Importable columns freshRank items ∧ needed columns items ≤ m + 1 := by
  obtain ⟨placed, hmap, hnd, hplaced⟩ := hcomplete.items
  have hitems : placed.map Prod.fst = items := by
    rw [show (fun e : RawItem × Uuid => some e.1) = some ∘ Prod.fst from rfl, ← List.map_map] at hmap
    exact List.map_injective_iff.mpr (Option.some_injective _) hmap
  obtain ⟨hcount, hids⟩ := placed_ids hb hitems hnd h hplaced
  obtain ⟨-, -, ⟨before, hbefore, -⟩, rank, values, hroot, hvalues⟩ := h.view hb
  rw [min_eq_right hcount] at hbefore
  have hvalue : ∀ item ∈ items, ∃ u row, (item, u) ∈ placed ∧ db.items.get u = some row ∧
      Shows columns documentId placed (item, u) row := by
    intro item hin
    rw [← hitems] at hin
    obtain ⟨⟨item, u⟩, he, rfl⟩ := List.mem_map.mp hin
    obtain ⟨row, hrow, hshows⟩ := hplaced _ he
    exact ⟨u, row, he, hrow, hshows⟩
  have hrootValues : ∀ root ∈ roots items, columns.values root = some values := by
    intro root hin
    obtain ⟨hin, hnull⟩ := List.mem_filter.mp hin
    obtain ⟨u, row, -, hrow, hshows⟩ := hvalue root hin
    obtain rfl : u = documentId := placed_root hb h (of_decide_eq_true hnull) hrow hshows
    obtain rfl := Option.some.inj (hroot.symm.trans hrow)
    exact hshows.2.2.1
  refine ⟨⟨placed_roots_length hb hitems hnd h hplaced, ?_, ?_, hids, ?_⟩, ?_⟩
  · intro item hin
    obtain ⟨u, row, -, -, hshows⟩ := hvalue item hin
    rw [hshows.2.2.1]
    exact Option.some_ne_none _
  · intro item hin
    obtain ⟨j, hj⟩ := List.getElem?_of_mem hin
    obtain ⟨hlt, -⟩ := List.getElem?_eq_some_iff.mp hj
    obtain ⟨u, row, -, -, -, item', hitem', -, hrow, -⟩ := hbefore.row hb hlength hids hlt hj
    obtain rfl := Option.some.inj (hitem'.symm.trans hj)
    rw [hrow.rank]
    exact Option.some_ne_none _
  · intro j item hj
    exact hbefore.parents hb hlength hids (List.getElem?_eq_some_iff.mp hj).1 hj
  · unfold needed
    split
    · omega
    · next hchanged =>
      obtain ⟨-, rfl⟩ | ⟨hlt, -⟩ := hvalues
      · exact absurd hrootValues hchanged
      · omega

end Necessary

section Sufficient

variable (hb : Base documentId uuids base) (hlength : uuids.length = (nonRoots items).length)
  (himportable : Importable columns freshRank items)

include hb hlength himportable in
theorem insert_goes (h : Inserted columns freshRank documentId uuids items base m db)
    (hitem : (nonRoots items)[m]? = some item) :
    insertItem columns freshRank documentId (idMap documentId uuids items) item db ≠ none := by
  obtain ⟨u, hu, hget⟩ : ∃ u ∈ uuids, (idMap documentId uuids items).get item.id = some u :=
    child_id hlength hitem
  have hin := List.mem_of_getElem? hitem
  obtain ⟨rank, hrank⟩ := Option.ne_none_iff_exists'.mp (himportable.ranks item hin)
  obtain ⟨values, hvalues⟩ :=
    Option.ne_none_iff_exists'.mp (himportable.values item (List.mem_filter.mp hin).1)
  obtain ⟨htruthy, hparent⟩ := himportable.parents m item hitem
  have hnone : db.items.get u = none := by
    rw [Option.eq_none_iff_forall_ne_some]
    intro row hrow
    obtain hbase | ⟨j, hj, other, hother, hotherId, -⟩ := h.rows u row hrow
    · rw [hb.free u hu] at hbase
      cases hbase
    · exact absurd (child_unique hb hlength himportable.ids hother hotherId hitem hget) (by omega)
  obtain ⟨parent, hnew, hplace⟩ : ∃ parent, newParentId (idMap documentId uuids items) item = some parent ∧
      (parent = u ∨ ∃ other, db.items.get parent = some other ∧ other.documentId = documentId) := by
    rw [newParentId, if_pos htruthy]
    obtain ⟨i, hi, other, hother, hid⟩ | ⟨hchild, hroot⟩ := hparent
    · rw [← hid]
      obtain hlt | rfl := hi.lt_or_eq
      · obtain ⟨v, row, hv, -, hrow, _, _, _, hrowOf, _⟩ := h.row hb hlength himportable.ids hlt hother
        exact ⟨v, hv, .inr ⟨row, hrow, hrowOf.document⟩⟩
      · obtain rfl := Option.some.inj (hother.symm.trans hitem)
        exact ⟨u, hget, .inl rfl⟩
    · obtain ⟨rank, hrank⟩ := hb.root
      exact ⟨documentId, (idMap_root_iff hlength hchild).mpr ⟨rfl, hroot⟩, .inr ⟨_, h.kept _ _ hrank, rfl⟩⟩
  have hgoes : insertItem columns freshRank documentId (idMap documentId uuids items) item db =
      some { db with items := db.items.set u ⟨documentId, some parent, rank, values, none⟩ } :=
    (insertItem_iff (h.hasRoot hb)).mpr
      ⟨u, _, hget, ⟨rfl, rfl, hrank, hvalues⟩, .inr ⟨hnone, ⟨parent, rfl, hnew, hplace⟩, rfl⟩⟩
  rw [hgoes]
  exact Option.some_ne_none _

include hb hlength himportable in
theorem statement_goes {q : Statement (ImportDb Uuid)}
    (hq : (itemStatements columns freshRank documentId uuids items)[m]? = some q)
    (h : Stage columns freshRank documentId uuids items base m db) : q db ≠ none := by
  obtain ⟨item, hitem, rfl⟩ | ⟨rfl, root, hroots, rfl⟩ := itemStatements_get hq
  · obtain ⟨-, h⟩ | ⟨rfl, -⟩ := h
    · exact insert_goes hb hlength himportable h hitem
    · exact absurd (List.getElem?_eq_some_iff.mp hitem).1 (by omega)
  · obtain ⟨-, h⟩ | ⟨heq, -⟩ := h
    · have hin : root ∈ items :=
        (List.mem_filter.mp (show root ∈ roots items by rw [hroots]; exact List.mem_singleton_self _)).1
      obtain ⟨values, hvalues⟩ := Option.ne_none_iff_exists'.mp (himportable.values root hin)
      obtain ⟨rank, hrank⟩ := hb.root
      rw [ne_eq, (updateRoot_iff hb h).mpr ⟨values, rank, hvalues, h.kept _ _ hrank, rfl⟩]
      exact Option.some_ne_none _
    · omega

def placeOf (documentId : Uuid) (uuids : List Uuid) (items : List RawItem) (item : RawItem) : Uuid :=
  if item.parentId = .null then documentId else ((idMap documentId uuids items).get item.id).getD documentId

omit [DecidableEq Uuid] in
theorem placeOf_child {u : Uuid} (hitem : (nonRoots items)[m]? = some item)
    (hget : (idMap documentId uuids items).get item.id = some u) :
    placeOf documentId uuids items item = u := by
  have hnull := (List.mem_filter.mp (List.mem_of_getElem? hitem)).2
  rw [placeOf, if_neg (of_decide_eq_true hnull), hget, Option.getD_some]

include hb hlength himportable in
theorem placeOf_nodup : (items.map (placeOf documentId uuids items)).Nodup := by
  have hchildren : (nonRoots items).map (placeOf documentId uuids items) = uuids := by
    refine List.ext_getElem? fun j => ?_
    rw [List.getElem?_map]
    cases hj : (nonRoots items)[j]? with
    | none =>
      rw [Option.map_none, eq_comm, List.getElem?_eq_none_iff, hlength]
      exact List.getElem?_eq_none_iff.mp hj
    | some item =>
      obtain ⟨u, -, hget⟩ : ∃ u ∈ uuids, (idMap documentId uuids items).get item.id = some u :=
        child_id hlength hj
      rw [Option.map_some, placeOf_child hj hget, ← hget, idMap_distinct hlength himportable.ids hj]
  have hroots : ∀ u ∈ (roots items).map (placeOf documentId uuids items), u = documentId := by
    intro u hu
    obtain ⟨root, hin, rfl⟩ := List.mem_map.mp hu
    rw [placeOf, if_pos (of_decide_eq_true (List.mem_filter.mp hin).2)]
  have hperm : ((roots items ++ nonRoots items).map (placeOf documentId uuids items)).Perm
      (items.map (placeOf documentId uuids items)) := by
    refine List.Perm.map _ ?_
    have hsplit := List.filter_append_perm (fun i : RawItem => decide (i.parentId = .null)) items
    simpa only [roots, nonRoots, ne_eq, decide_not] using hsplit
  refine hperm.nodup_iff.mp ?_
  rw [List.map_append, hchildren, List.nodup_append]
  refine ⟨?_, (List.nodup_cons.mp hb.nodup).2, ?_⟩
  · rw [List.eq_replicate_of_mem hroots, List.nodup_replicate, List.length_map]
    exact himportable.oneRoot
  · rintro u hu v hv rfl
    exact (List.nodup_cons.mp hb.nodup).1 (hroots u hu ▸ hv)

theorem root_shows (hb : Base documentId uuids base)
    (h : Stage columns freshRank documentId uuids items base m db)
    (hm : needed columns items ≤ m + 1) (placed : List (RawItem × Uuid)) (hin : item ∈ roots items) :
    ∃ row, db.items.get documentId = some row ∧ Shows columns documentId placed (item, documentId) row := by
  obtain ⟨-, -, -, rank, values, hroot, hvalues⟩ := h.view hb
  have hnull : item.parentId = .null := of_decide_eq_true (List.mem_filter.mp hin).2
  refine ⟨_, hroot, rfl, rfl, ?_, by rw [if_pos hnull]⟩
  obtain ⟨hle, rfl⟩ | ⟨-, root, hroots, hrootValues⟩ := hvalues
  · unfold needed at hm
    split at hm
    · next hsame => exact hsame item hin
    · omega
  · rw [hroots] at hin
    rw [List.mem_singleton.mp hin]
    exact hrootValues

include hlength himportable in
theorem child_shows (hb : Base documentId uuids base)
    (h : Inserted columns freshRank documentId uuids items base (nonRoots items).length db)
    (hitem : (nonRoots items)[m]? = some item) :
    ∃ u row, placeOf documentId uuids items item = u ∧ u ≠ documentId ∧ db.items.get u = some row ∧
      Shows columns documentId (items.map fun item => (item, placeOf documentId uuids items item))
        (item, u) row := by
  obtain ⟨u, row, hget, hu, hrow, item', hitem', -, hrowOf, parent, hrowParent, hnew, -⟩ :=
    h.row hb hlength himportable.ids (List.getElem?_eq_some_iff.mp hitem).1 hitem
  obtain rfl := Option.some.inj (hitem'.symm.trans hitem)
  have hnull : item'.parentId ≠ .null := of_decide_eq_true (List.mem_filter.mp (List.mem_of_getElem? hitem)).2
  refine ⟨u, row, placeOf_child hitem hget, fun heq => (List.nodup_cons.mp hb.nodup).1 (heq ▸ hu), hrow,
    hrowOf.document, hrowOf.live, hrowOf.values, ?_⟩
  rw [if_neg hnull]
  constructor
  · intro htruthy
    have hrank := hrowOf.rank
    rw [newRank, if_pos htruthy] at hrank
    unfold SqlColumns.notNull at hrank
    split at hrank
    · cases hrank
    · cases hrank
    · exact hrank
  · obtain ⟨htruthy, hplaced⟩ := himportable.parents m item' hitem
    rw [newParentId, if_pos htruthy] at hnew
    obtain ⟨i, -, other, hi, hid⟩ | ⟨hchild, root, hrootIn, hid⟩ := hplaced
    · refine ⟨_, List.mem_map.mpr ⟨other, (List.mem_filter.mp (List.mem_of_getElem? hi)).1, rfl⟩, hid, ?_⟩
      rw [← hid] at hnew
      rw [hrowParent, placeOf_child hi hnew]
    · obtain ⟨hin, hrootNull⟩ := List.mem_filter.mp hrootIn
      refine ⟨_, List.mem_map.mpr ⟨root, hin, rfl⟩, hid, ?_⟩
      obtain ⟨rfl, -⟩ := (idMap_root_iff hlength hchild).mp hnew
      rw [hrowParent, placeOf, if_pos (of_decide_eq_true hrootNull)]

include hb hlength himportable in
theorem complete_of_importable {workspaceId : Uuid} {title : JsonField} {text : JsString}
    (htitle : SqlColumns.notNull columns.text title = some text)
    (hdocument : base.documents.get documentId = some ⟨workspaceId, text, some documentId⟩)
    (hprojection : base.projection.get documentId = some (0, 0))
    (h : Stage columns freshRank documentId uuids items base m db) (hm : needed columns items ≤ m + 1) :
    Complete columns workspaceId documentId title (items.map some) db := by
  obtain ⟨hdocuments, hprojections, ⟨before, hbefore, hother⟩, -⟩ := h.view hb
  have hcount : (nonRoots items).length ≤ m := by
    unfold needed at hm
    omega
  rw [min_eq_right hcount] at hbefore
  refine ⟨⟨text, htitle, hdocuments ▸ hdocument⟩, hprojections ▸ hprojection,
    items.map fun item => (item, placeOf documentId uuids items item), ?_, ?_, ?_⟩
  · rw [List.map_map]
    rfl
  · rw [List.map_map]
    exact placeOf_nodup hb hlength himportable
  · intro e he
    obtain ⟨item, hin, rfl⟩ := List.mem_map.mp he
    by_cases hnull : item.parentId = .null
    · have hplace : placeOf documentId uuids items item = documentId := if_pos hnull
      dsimp only
      rw [hplace]
      exact root_shows hb h hm _ (List.mem_filter.mpr ⟨hin, decide_eq_true hnull⟩)
    · obtain ⟨j, hj⟩ :=
        List.getElem?_of_mem (List.mem_filter.mpr ⟨hin, decide_eq_true hnull⟩ : item ∈ nonRoots items)
      obtain ⟨u, row, rfl, hne, hrow, hshows⟩ := child_shows hlength himportable hb hbefore hj
      exact ⟨row, (hother _ hne).trans hrow, hshows⟩

end Sufficient

theorem needed_le (freshRank : JsString) (documentId : Uuid) (uuids : List Uuid)
    (hroots : (roots items).length ≤ 1) :
    needed columns items ≤ (itemStatements columns freshRank documentId uuids items).length + 1 := by
  rw [needed, itemStatements, List.length_append, List.length_map]
  match hcase : roots items with
  | [] => simp [rootStatements, Nat.add_comm]
  | [root] =>
    dsimp only [rootStatements, List.length_singleton]
    split <;> omega
  | _ :: _ :: _ =>
    rw [hcase, List.length_cons, List.length_cons] at hroots
    omega

end Stages

/-- All or nothing: the document is complete, or the tables are as they were. -/
def AllOrNothing (columns : SqlColumns) (workspaceId documentId : Uuid) (title : JsonField)
    (elements : List (Option RawItem)) (before after : ImportDb Uuid) : Prop :=
  Complete columns workspaceId documentId title elements after ∨ after = before

def Creates (columns : SqlColumns) (lib : FractionalIndexing) (title : JsonField)
    (freshRank : JsString) : Prop :=
  rankBetween lib none none [] = .ok freshRank ∧ SqlColumns.notNull columns.text title ≠ none ∧
    columns.rank (.string freshRank) ≠ none

section Outcome

variable {columns : SqlColumns} {lib : FractionalIndexing} {freshRank : JsString}
  {workspaceId documentId : Uuid} {uuids : List Uuid}
  {title : JsonField} {elements : List (Option RawItem)} {db : ImportDb Uuid}

theorem reduceOption_map_some (h : none ∉ elements) : elements.reduceOption.map some = elements := by
  induction elements with
  | nil => rfl
  | cons e elements ih =>
    obtain ⟨he, hes⟩ := not_or.mp (List.mem_cons.not.mp h)
    cases e with
    | none => exact absurd rfl he
    | some item => rw [List.reduceOption_cons_of_some, List.map_cons, ih hes]

theorem complete_objects {after : ImportDb Uuid}
    (h : Complete columns workspaceId documentId title elements after) : none ∉ elements := by
  obtain ⟨placed, rfl, -⟩ := h.items
  simp

theorem outcome_iff (hfresh : Fresh db documentId uuids)
    (hlength : uuids.length = (nonRoots elements.reduceOption).length)
    {text rank : JsString} (htitle : SqlColumns.notNull columns.text title = some text) (n : ℕ) :
    AllOrNothing columns workspaceId documentId title elements db
        (effect n (if none ∈ elements then [fun _ => none]
          else itemStatements columns freshRank documentId uuids elements.reduceOption)
          (created db workspaceId documentId text rank)) ↔
      none ∉ elements ∧ Importable columns freshRank elements.reduceOption ∧
      needed columns elements.reduceOption ≤ n + 1 := by
  have hb := hfresh.base workspaceId text rank
  have hdocument : (created db workspaceId documentId text rank).documents.get documentId =
      some ⟨workspaceId, text, some documentId⟩ :=
    OrderedMap.get_set_self _ _ _
  by_cases hnull : none ∈ elements
  · rw [if_pos hnull, effect_refused rfl]
    refine iff_of_false ?_ (fun h => h.1 hnull)
    rintro (hcomplete | hsame)
    · exact complete_objects hcomplete hnull
    · rw [hsame, hfresh.document] at hdocument
      cases hdocument
  · rw [if_neg hnull]
    have hitems := reduceOption_map_some hnull
    generalize elements.reduceOption = items at hitems hlength ⊢
    subst hitems
    constructor
    · intro hall
      obtain ⟨m, hle, hstage, -⟩ := effect_stage
        (fun i q s t (hq : (itemStatements columns freshRank documentId uuids items)[i]? = some q) hi hrun =>
          Stage.step hb hq hi hrun) (.inl ⟨Nat.zero_le _, .zero⟩) n
      obtain hcomplete | hsame := hall
      · obtain ⟨himportable, hneeded⟩ := importable_of_complete hb hlength hstage hcomplete
        exact ⟨hnull, himportable, by omega⟩
      · obtain ⟨hdocuments, -⟩ := hstage.view hb
        rw [← hdocuments, hsame, hfresh.document] at hdocument
        cases hdocument
    · rintro ⟨-, himportable, hneeded⟩
      have hstage := effect_all
        (fun i q s t (hq : (itemStatements columns freshRank documentId uuids items)[i]? = some q) hi hrun =>
          Stage.step hb hq hi hrun)
        (fun i q s hq hi => statement_goes hb hlength himportable hq hi) (.inl ⟨Nat.zero_le _, .zero⟩) n
      have hmost : needed columns items ≤ _ := needed_le freshRank documentId uuids himportable.oneRoot
      exact .inl (complete_of_importable hb hlength himportable htitle hdocument
        (OrderedMap.get_set_self _ _ _) hstage (by omega))

end Outcome

/-- An import is all or nothing if and only if, whenever its document is made, no item is `null`, the items
can be imported as they stand, and the connection holds until the last statement that matters. -/
theorem import_all_or_nothing_iff {Uuid : Type} [DecidableEq Uuid] (columns : SqlColumns)
    (lib : FractionalIndexing) {documentId : Uuid} {uuids : List Uuid} {params : ImportParams Uuid}
    {elements : List (Option RawItem)} {db : ImportDb Uuid} (failure : Option Failure)
    (hchecked : params.data.checked = some elements) (hfresh : Fresh db documentId uuids)
    (hlength : uuids.length = (nonRoots elements.reduceOption).length) :
    AllOrNothing columns params.workspaceId documentId
      (JsonField.orElse (.string defaultTitle) params.title) elements db
        (ImportDocument columns lib documentId uuids params failure db).1 ↔
      ∀ freshRank, Creates columns lib (JsonField.orElse (.string defaultTitle) params.title) freshRank →
      Lets failure 1 →
        none ∉ elements ∧ Importable columns freshRank elements.reduceOption ∧
        Lets failure (needed columns elements.reduceOption) := by
  generalize htitle : JsonField.orElse (.string defaultTitle) params.title = title
  rw [ImportDocument, hchecked]
  dsimp only
  rw [htitle, RawImport.importDocument]
  cases hrank : rankBetween lib none none [] with
  | error fault =>
    exact iff_of_true (.inr rfl) fun freshRank hcreates => absurd (hrank.symm.trans hcreates.1) (by simp)
  | ok freshRank =>
    dsimp only
    rw [runStatements_fst, List.length_cons]
    have hfreshRank : ∀ {other}, Creates columns lib title other → other = freshRank := by
      intro other hcreates
      exact (Except.ok.inj (hrank.symm.trans hcreates.1)).symm
    by_cases hcreates : Creates columns lib title freshRank ∧ Lets failure 1
    · obtain ⟨⟨-, htext, hkey⟩, hlets⟩ := id hcreates
      obtain ⟨text, htext⟩ := Option.ne_none_iff_exists'.mp htext
      obtain ⟨rank, hkey⟩ := Option.ne_none_iff_exists'.mp hkey
      have hcreate : createDocumentWithRoot columns freshRank params.workspaceId documentId title db =
        some (created db params.workspaceId documentId text rank) :=
      (create_iff hfresh).mpr ⟨text, rank, htext, hkey, rfl⟩
      obtain ⟨k, hk⟩ : ∃ k, budget failure ((if none ∈ elements then [fun _ => none] else
          itemStatements columns freshRank documentId uuids elements.reduceOption :
          List (Statement (ImportDb Uuid))).length + 1) = k + 1 :=
        Nat.exists_eq_add_of_le' ((le_budget_iff (Nat.le_add_left _ _)).mpr hlets)
      rw [hk, effect_applied hcreate, outcome_iff hfresh hlength htext]
      constructor
      · rintro ⟨hnull, himportable, hneeded⟩ other hother -
        obtain rfl := hfreshRank hother
        rw [if_neg hnull] at hk
        exact ⟨hnull, himportable,
          (le_budget_iff (needed_le other documentId uuids himportable.oneRoot)).mp (hk ▸ hneeded)⟩
      · intro h
        obtain ⟨hnull, himportable, hall⟩ := h freshRank hcreates.1 hlets
        rw [if_neg hnull] at hk
        exact ⟨hnull, himportable,
          hk ▸ (le_budget_iff (needed_le freshRank documentId uuids himportable.oneRoot)).mpr hall⟩
    · refine iff_of_true (.inr ?_) fun other hother hlets =>
        absurd ⟨hfreshRank hother ▸ hother, hlets⟩ hcreates
      obtain hrefused | hlets := not_and_or.mp hcreates
      · refine effect_refused ?_ _ _
        rw [Option.eq_none_iff_forall_ne_some]
        intro after hafter
        obtain ⟨text, rank, htext, hkey, -⟩ := (create_iff hfresh).mp hafter
        exact hrefused ⟨hrank, by rw [htext]; exact Option.some_ne_none _,
          by rw [hkey]; exact Option.some_ne_none _⟩
      · have hnothing : ∀ n, budget failure (n + 1) = 0 := fun n =>
          Nat.lt_one_iff.mp (Nat.not_le.mp ((le_budget_iff (Nat.le_add_left 1 n)).not.mpr hlets))
        rw [hnothing]
        rfl

def sampleColumns : SqlColumns where
  text
    | .string s => if 0 ∈ s then none else some s
    | _ => none
  rank
    | .string s => if 0 ∈ s then none else some s
    | _ => none
  boolean
    | .boolean b => some b
    | _ => none

def rawItem (id parentId : JsonField) (content : JsString) : RawItem :=
  ⟨id, parentId, .string (js ['a', '1']), .string (js ['t', 'a', 's', 'k']), .string content, .null,
    .boolean false, .boolean false⟩

def twoItems (parentId : Char) : ImportParams ℕ :=
  ⟨9, .undefined, .number 1, some [some (rawItem (.string (js ['r'])) .null (js ['h'])),
    some (rawItem (.string (js ['c'])) (.string (js [parentId])) (js ['i']))]⟩

def noRows : ImportDb ℕ := ⟨.empty, .empty, .empty⟩

theorem noRows_fresh : Fresh noRows 0 [1] where
  document := rfl
  projection := rfl
  items := fun u row h => by cases h
  nodup := by decide

/-- An item whose parent is not in the export: the document stays behind with its root alone. -/
theorem missingParent_leaves_document :
    ¬ AllOrNothing sampleColumns 9 0 (.string defaultTitle) ((twoItems 'x').data.checked.getD []) noRows
    (ImportDocument sampleColumns sampleKeys 0 [1] (twoItems 'x') none noRows).1 := by
  have hentries :
      (ImportDocument sampleColumns sampleKeys 0 [1] (twoItems 'x') none noRows).1.items.entries.map
      (fun e => (e.1, e.2.parentId)) = [(0, none)] := by decide
  rintro (hcomplete | hsame)
  · obtain ⟨placed, hmap, -, hplaced⟩ := hcomplete.items
    have hchild : some (rawItem (.string (js ['c'])) (.string (js ['x'])) (js ['i'])) ∈
        placed.map fun e => some e.1 := by
      rw [hmap]
      exact List.mem_cons_of_mem _ (List.mem_cons_self ..)
    obtain ⟨e, he, heq⟩ := List.mem_map.mp hchild
    obtain ⟨row, hrow, -, -, -, hparent⟩ := hplaced e he
    rw [Option.some.inj heq, if_neg (by decide)] at hparent
    obtain ⟨-, parent, -, -, hsome⟩ := hparent
    have hin :=
      List.mem_map_of_mem (f := fun e => (e.1, e.2.parentId)) ((OrderedMap.mem_entries_iff _ _ _).mpr hrow)
    rw [hentries, List.mem_singleton] at hin
    rw [(Prod.mk.inj hin).2] at hsome
    cases hsome
  · rw [hsame] at hentries
    cases hentries

theorem twoItems_importable (freshRank : JsString) :
    Importable sampleColumns freshRank ((twoItems 'r').data.checked.getD []).reduceOption := by
  have hchildren : nonRoots ((twoItems 'r').data.checked.getD []).reduceOption =
      [rawItem (.string (js ['c'])) (.string (js ['r'])) (js ['i'])] := by decide
  refine ⟨by decide, by decide, fun item hin => ?_, by decide, fun j item hj => ?_⟩
  · rw [hchildren, List.mem_singleton] at hin
    rw [hin, newRank, if_pos (by decide)]
    decide
  · have hin := List.mem_of_getElem? hj
    rw [hchildren, List.mem_singleton] at hin
    rw [hin]
    exact ⟨by decide, .inr ⟨by decide, by decide⟩⟩

theorem import_all_or_nothing_iff_twoItems :
    AllOrNothing sampleColumns 9 0 (.string defaultTitle) ((twoItems 'r').data.checked.getD []) noRows
    (ImportDocument sampleColumns sampleKeys 0 [1] (twoItems 'r') none noRows).1 := by
  have hchecked : (twoItems 'r').data.checked = some ((twoItems 'r').data.checked.getD []) := by decide
  refine (import_all_or_nothing_iff sampleColumns sampleKeys none hchecked noRows_fresh (by decide)).mpr
    fun freshRank hcreates _ => ?_
  exact ⟨by decide, twoItems_importable freshRank, fun f hf => by cases hf⟩

end RawImport

end OpenOutliner
