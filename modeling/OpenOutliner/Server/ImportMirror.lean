import OpenOutliner.Client.Portable
import OpenOutliner.Server.ImportAtomicity

namespace OpenOutliner

open Foundations

def SqlItemType.ofItemType : ItemType → SqlItemType
  | .bullet => .bullet
  | .task => .task
  | .heading => .heading
  | .divider => .divider

def ItemValues.stored (v : ItemValues) : StoredValues :=
  ⟨.ofItemType v.type, v.content, v.note, v.isCompleted, v.isCollapsed⟩

def ItemRow.values {Uuid : Type} (row : ItemRow Uuid) : ItemValues :=
  ⟨row.type, row.content, row.note, row.isCompleted, row.isCollapsed⟩

def ItemRow.stored {Uuid : Type} (documentId : Uuid) (row : ItemRow Uuid) : StoredItem Uuid :=
  ⟨documentId, row.parentId, row.rank, row.values.stored, row.deletedAt⟩

def ExportedItem.raw (item : ExportedItem) : RawItem :=
  ⟨.string item.id, (item.parentId.map JsonField.string).getD .null, .string item.rank,
    .string item.type.text, .string item.content,
    (item.note.map JsonField.string).getD .null, .boolean item.isCompleted, .boolean item.isCollapsed⟩

namespace RawImport

variable {Uuid : Type} [DecidableEq Uuid]

structure Takes (columns : SqlColumns) (freshRank : JsString) (item : ExportedItem) : Prop where
  values : columns.values item.raw = some item.toItemValues.stored
  rank : newRank columns freshRank item.raw = some (if item.rank = [] then freshRank else item.rank)

/-- The table of all documents has exactly these rows of the document, and no drawn id for another document.
-/
structure Mirrors (documentId : Uuid) (uuids : List Uuid) (items : Items Uuid)
    (db : ImportDb Uuid) : Prop where
  rows : ∀ u row, items.get u = some row → db.items.get u = some (row.stored documentId)
  own : ∀ u row, db.items.get u = some row → row.documentId = documentId → ∃ old, items.get u = some old ∧
    row = old.stored documentId
  drawn : ∀ u ∈ documentId :: uuids, ∀ row, db.items.get u = some row → row.documentId = documentId

section Ids

variable {documentId : Uuid} {uuids : List Uuid} {data : ExportedDocument}

theorem raw_parentId (item : ExportedItem) : item.raw.parentId = .null ↔ item.parentId = none := by
  cases h : item.parentId <;> simp [ExportedItem.raw, h]

theorem raw_roots : roots (data.items.map ExportedItem.raw) =
    (OpenOutliner.roots data).map ExportedItem.raw := by
  rw [roots, List.filter_map, OpenOutliner.roots]
  congr 1
  exact List.filter_congr fun item _ => by simp [raw_parentId]

theorem raw_nonRoots : nonRoots (data.items.map ExportedItem.raw) =
    (OpenOutliner.nonRoots data).map ExportedItem.raw := by
  rw [nonRoots, List.filter_map, OpenOutliner.nonRoots]
  congr 1
  exact List.filter_congr fun item _ => by simp [raw_parentId]

section

omit [DecidableEq Uuid]

theorem get_foldl_string {α : Type} (key : α → JsString) (value : α → Uuid) (l : List α)
    {m : OrderedMap JsonField Uuid}
    {m' : OrderedMap JsString Uuid} (h : ∀ s, m.get (.string s) = m'.get s) (s : JsString) :
    (l.foldl (fun m a => m.set (.string (key a)) (value a)) m).get (.string s) =
      (l.foldl (fun m a => m.set (key a) (value a)) m').get s := by
  induction l generalizing m m' with
  | nil => exact h s
  | cons a l ih =>
    refine ih fun t => ?_
    rw [OrderedMap.get_set, OrderedMap.get_set, h t]
    by_cases ht : t = key a <;> simp [ht]

theorem raw_idMap (s : JsString) :
    (idMap documentId uuids (data.items.map ExportedItem.raw)).get (.string s) =
    (OpenOutliner.idMap documentId uuids data).get s := by
  rw [idMap, raw_roots, raw_nonRoots, List.zip_map_left, List.foldl_map, List.foldl_map, OpenOutliner.idMap]
  refine get_foldl_string (fun e : ExportedItem × Uuid => e.1.id) Prod.snd _ (fun t => ?_) s
  exact get_foldl_string ExportedItem.id (fun _ => documentId) _ (fun _ => rfl) t

theorem raw_newParentId (item : ExportedItem) :
    newParentId (idMap documentId uuids (data.items.map ExportedItem.raw)) item.raw =
      importedParent (OpenOutliner.idMap documentId uuids data) item := by
  rw [newParentId, importedParent]
  cases hparent : item.parentId with
  | none =>
    have hnull : item.raw.parentId = .null := (raw_parentId item).mpr hparent
    rw [hnull, if_neg (by simp [JsonField.truthy])]
    rfl
  | some p =>
    have hstring : item.raw.parentId = .string p := by simp [ExportedItem.raw, hparent]
    rw [hstring, raw_idMap, Option.bind_some]
    by_cases hp : p = [] <;> simp [JsonField.truthy, hp]

end

end Ids

section Statements

variable {columns : SqlColumns} {freshRank : JsString} {documentId : Uuid} {uuids : List Uuid}
  {data : ExportedDocument} {items : Items Uuid} {db : ImportDb Uuid}

theorem Mirrors.has (h : Mirrors documentId uuids items db) {u : Uuid} (hu : u ∈ documentId :: uuids) :
    db.items.has u = items.has u := by
  rw [Bool.eq_iff_iff, OrderedMap.has_iff, OrderedMap.has_iff]
  constructor
  · rintro ⟨row, hrow⟩
    obtain ⟨old, hold, -⟩ := h.own u row hrow (h.drawn u hu row hrow)
    exact ⟨old, hold⟩
  · rintro ⟨row, hrow⟩
    exact ⟨_, h.rows u row hrow⟩

theorem Mirrors.member (h : Mirrors documentId uuids items db) {u : Uuid} :
    (∃ row, db.items.get u = some row ∧ row.documentId = documentId) ↔ items.has u = true := by
  rw [OrderedMap.has_iff]
  constructor
  · rintro ⟨row, hrow, hd⟩
    obtain ⟨old, hold, -⟩ := h.own u row hrow hd
    exact ⟨old, hold⟩
  · rintro ⟨row, hrow⟩
    exact ⟨_, h.rows u row hrow, rfl⟩

theorem Mirrors.hasRoot (h : Mirrors documentId uuids items db) :
    RawImport.hasRoot db documentId = true ↔ ∃ old ∈ items.values, old.parentId = none ∧
    old.deletedAt = none := by
  rw [hasRoot_iff]
  constructor
  · rintro ⟨u, row, hrow, hd, hparent, hlive⟩
    obtain ⟨old, hold, rfl⟩ := h.own u row hrow hd
    exact ⟨old, (OrderedMap.mem_values_iff _ _).mpr ⟨u, hold⟩, hparent, hlive⟩
  · rintro ⟨old, hin, hparent, hlive⟩
    obtain ⟨u, hold⟩ := (OrderedMap.mem_values_iff _ _).mp hin
    exact ⟨u, _, h.rows u old hold, rfl, hparent, hlive⟩

theorem Mirrors.set (h : Mirrors documentId uuids items db) (u : Uuid) (row : ItemRow Uuid) :
    Mirrors documentId uuids (items.set u row)
      { db with items := db.items.set u (row.stored documentId) } where
  rows := by
    intro v old hold
    rw [OrderedMap.get_set] at hold ⊢
    split at hold
    · next heq => rw [if_pos heq, Option.some.inj hold]
    · next hne => rw [if_neg hne, h.rows v old hold]
  own := by
    intro v stored hstored hd
    dsimp only at hstored
    rw [OrderedMap.get_set] at hstored ⊢
    split at hstored
    · next heq => exact ⟨row, by rw [if_pos heq], (Option.some.inj hstored).symm⟩
    · next hne =>
      rw [if_neg hne]
      exact h.own v stored hstored hd
  drawn := by
    intro v hv stored hstored
    dsimp only at hstored
    rw [OrderedMap.get_set] at hstored
    split at hstored
    · rw [← Option.some.inj hstored]
      rfl
    · exact h.drawn v hv stored hstored

theorem insert_mirrors (h : Mirrors documentId uuids items db) {item : ExportedItem}
    (htakes : Takes columns freshRank item)
    (hdrawn : ∀ u, (OpenOutliner.idMap documentId uuids data).get item.id = some u →
      u ∈ documentId :: uuids) :
    Option.Rel (Mirrors documentId uuids)
      (importItem (OpenOutliner.idMap documentId uuids data) freshRank items item)
      (insertItem columns freshRank documentId
        (idMap documentId uuids (data.items.map ExportedItem.raw)) item.raw db) := by
  have hid : (idMap documentId uuids (data.items.map ExportedItem.raw)).get item.raw.id =
      (OpenOutliner.idMap documentId uuids data).get item.id := raw_idMap item.id
  rw [importItem, insertItem, hid, htakes.values, htakes.rank, raw_newParentId]
  cases hnew : (OpenOutliner.idMap documentId uuids data).get item.id with
  | none => exact .none
  | some u =>
    simp only [Option.bind_eq_bind, Option.bind_some, insertRow, h.has (hdrawn u hnew)]
    split
    · exact .some h
    · cases hparent : importedParent (OpenOutliner.idMap documentId uuids data) item with
      | none =>
        simp only [insertedRow, h.hasRoot]
        split
        · exact .none
        · exact .some (h.set u _)
      | some parent =>
        have hany : ∀ rank values,
            (((db.items.set u ⟨documentId, some parent, rank, values, none⟩).get parent).any
            fun row => decide (row.documentId = documentId)) = true ↔
            parent = u ∨ items.has parent = true := by
          intro rank values
          rw [OrderedMap.get_set, ← h.member]
          by_cases hp : parent = u <;> simp [hp, Option.any_eq_true]
        simp only [insertedRow, hany]
        split
        · exact .some (h.set u _)
        · exact .none

theorem update_mirrors (h : Mirrors documentId uuids items db) {root : ExportedItem}
    (hvalues : columns.values root.raw = some root.toItemValues.stored) :
    ∃ after, updateRoot columns documentId root.raw db = some after ∧
      Mirrors documentId uuids (match items.get documentId with
        | some row => items.set documentId
            { row with
              type := root.type
              content := root.content
              note := root.note
              isCompleted := root.isCompleted
              isCollapsed := root.isCollapsed }
        | none => items) after := by
  rw [updateRoot, hvalues]
  cases hroot : items.get documentId with
  | some row =>
    refine ⟨_, ?_, h.set documentId _⟩
    rw [h.rows _ _ hroot]
    exact if_pos rfl
  | none =>
    refine ⟨db, ?_, h⟩
    have hnone : db.items.get documentId = none := by
      rw [Option.eq_none_iff_forall_ne_some]
      intro row hrow
      obtain ⟨old, hold, -⟩ := h.own documentId row hrow (h.drawn documentId (List.mem_cons_self ..) row hrow)
      rw [hroot] at hold
      cases hold
    rw [hnone]
    rfl

theorem create_mirrors (hfresh : Fresh db documentId uuids) (workspaceId : Uuid) (text rank : JsString) :
    Mirrors documentId uuids (createdItems documentId rank)
      (created db workspaceId documentId text rank) where
  rows := by
    intro u row hrow
    rw [createdItems, OrderedMap.get_set] at hrow
    split at hrow
    · next heq =>
      rw [created, ← Option.some.inj hrow, heq]
      exact OrderedMap.get_set_self _ _ _
    · cases hrow
  own := by
    intro u row hrow hd
    obtain rfl : u = documentId := (hfresh.base workspaceId text rank).other u row hrow hd
    rw [created, OrderedMap.get_set_self] at hrow
    exact ⟨_, OrderedMap.get_set_self _ _ _, (Option.some.inj hrow).symm⟩
  drawn := by
    intro u hu row hrow
    rw [created, OrderedMap.get_set] at hrow
    split at hrow
    · rw [← Option.some.inj hrow]
    · next hne =>
      obtain hroot | hin := List.mem_cons.mp hu
      · exact absurd hroot hne
      · exact absurd hin (hfresh.items u row hrow).2.1

theorem inserts_mirror (l : List ExportedItem) (htakes : ∀ item ∈ l, Takes columns freshRank item)
    (hdrawn : ∀ s u, (OpenOutliner.idMap documentId uuids data).get s = some u → u ∈ documentId :: uuids)
    (rest : List (Statement (ImportDb Uuid))) (h : Mirrors documentId uuids items db) :
    match l.foldlM (importItem (OpenOutliner.idMap documentId uuids data) freshRank) items with
    | none => (runStatements none ((l.map ExportedItem.raw).map (insertItem columns freshRank documentId
        (idMap documentId uuids (data.items.map ExportedItem.raw))) ++ rest) db).2 = false
    | some final => ∃ after, Mirrors documentId uuids final after ∧
        runStatements none ((l.map ExportedItem.raw).map (insertItem columns freshRank documentId
          (idMap documentId uuids (data.items.map ExportedItem.raw))) ++ rest) db =
          runStatements none rest after := by
  induction l generalizing items db with
  | nil => exact ⟨db, h, rfl⟩
  | cons item l ih =>
    obtain ⟨htake, htakes⟩ := List.forall_mem_cons.mp htakes
    have hstep := insert_mirrors h htake (hdrawn item.id)
    rw [List.foldlM_cons]
    cases himport : importItem (OpenOutliner.idMap documentId uuids data) freshRank items item with
    | none =>
      rw [himport] at hstep
      cases hinsert : insertItem columns freshRank documentId
        (idMap documentId uuids (data.items.map ExportedItem.raw)) item.raw db with
      | none =>
        simp only [Option.bind_eq_bind, Option.bind_none, List.map_cons, List.cons_append,
          runStatements, hinsert]
      | some after =>
        rw [hinsert] at hstep
        cases hstep
    | some next =>
      rw [himport] at hstep
      cases hinsert : insertItem columns freshRank documentId
        (idMap documentId uuids (data.items.map ExportedItem.raw)) item.raw db with
      | none =>
        rw [hinsert] at hstep
        cases hstep
      | some after =>
        rw [hinsert] at hstep
        cases hstep with
        | some hnext =>
          simp only [Option.bind_eq_bind, Option.bind_some, List.map_cons, List.cons_append,
            runStatements, hinsert]
          exact ih htakes hnext

omit [DecidableEq Uuid] in
theorem idMap_drawn (hlength : uuids.length = (OpenOutliner.nonRoots data).length) {s : JsString} {u : Uuid}
    (hget : (OpenOutliner.idMap documentId uuids data).get s = some u) : u ∈ documentId :: uuids := by
  have hraw : uuids.length = (nonRoots (data.items.map ExportedItem.raw)).length := by
    rw [raw_nonRoots, List.length_map, hlength]
  rw [← raw_idMap] at hget
  by_cases hs : JsonField.string s ∈ (nonRoots (data.items.map ExportedItem.raw)).map RawItem.id
  · obtain ⟨v, hv, hv'⟩ : ∃ v ∈ uuids,
        (idMap documentId uuids (data.items.map ExportedItem.raw)).get (.string s) = some v :=
      idMap_child hraw hs
    rw [Option.some.inj (hget.symm.trans hv')]
    exact List.mem_cons_of_mem _ hv
  · rw [((idMap_root_iff hraw hs).mp hget).1]
    exact List.mem_cons_self ..

end Statements

/-- The import of a well-typed export whose values the columns take: both models refuse it, or both leave
the same rows of the document. -/
theorem importDocument_mirrors {columns : SqlColumns} {lib : FractionalIndexing}
    {workspaceId documentId : Uuid} {uuids : List Uuid} {title : JsonField} {text : JsString}
    {data : ExportedDocument} {db : ImportDb Uuid} (hfresh : Fresh db documentId uuids)
    (hlength : uuids.length = (OpenOutliner.nonRoots data).length)
    (htitle : SqlColumns.notNull columns.text title = some text)
    (htakes : ∀ freshRank, rankBetween lib none none [] = .ok freshRank →
      columns.rank (.string freshRank) = some freshRank ∧ ∀ item ∈ data.items, Takes columns freshRank item) :
    match OpenOutliner.importDocument lib documentId uuids data with
    | none =>
    (importDocument columns lib workspaceId documentId uuids title
      (data.items.map fun item => some item.raw) none db).2 = false
    | some items => ∃ after, Mirrors documentId uuids items after ∧
        importDocument columns lib workspaceId documentId uuids title
          (data.items.map fun item => some item.raw) none db = (after, true) := by
  have hraw : data.items.map (fun item => some item.raw) = (data.items.map ExportedItem.raw).map some := by
    rw [List.map_map]
    rfl
  have hnull : none ∉ data.items.map fun item => some item.raw := by simp
  have hobjects : (data.items.map fun item => some item.raw).reduceOption =
      data.items.map ExportedItem.raw := by
    apply List.map_injective_iff.mpr (Option.some_injective RawItem)
    rw [reduceOption_map_some hnull, hraw]
  rw [OpenOutliner.importDocument, importDocument]
  cases hrank : rankBetween lib none none [] with
  | error fault => rfl
  | ok freshRank =>
    obtain ⟨hkey, htake⟩ := htakes freshRank hrank
    have hcreate : createDocumentWithRoot columns freshRank workspaceId documentId title db =
      some (created db workspaceId documentId text freshRank) :=
    (create_iff hfresh).mpr ⟨text, freshRank, htitle, hkey, rfl⟩
    dsimp only
    rw [if_neg hnull, hobjects, itemStatements, raw_nonRoots, raw_roots]
    simp only [runStatements, hcreate]
    have hmirror :=
      inserts_mirror (OpenOutliner.nonRoots data) (fun item hin => htake item (List.mem_filter.mp hin).1)
      (fun s u hget => idMap_drawn hlength hget)
      (rootStatements columns documentId ((OpenOutliner.roots data).map ExportedItem.raw))
        (create_mirrors hfresh workspaceId text freshRank)
    cases hfold : (OpenOutliner.nonRoots data).foldlM
      (importItem (OpenOutliner.idMap documentId uuids data) freshRank)
        (createdItems documentId freshRank) with
    | none =>
      rw [hfold] at hmirror
      exact hmirror
    | some items =>
      rw [hfold] at hmirror
      obtain ⟨after, hafter, hrun⟩ := hmirror
      rw [hrun, Option.map_some]
      rcases hroots : OpenOutliner.roots data with _ | ⟨root, _ | ⟨second, others⟩⟩
      · exact ⟨after, hafter, rfl⟩
      · have hin : root ∈ data.items :=
          (List.mem_filter.mp
            (show root ∈ OpenOutliner.roots data by rw [hroots]; exact List.mem_singleton_self _)).1
        obtain ⟨updated, hupdate, hmirrors⟩ := update_mirrors hafter (htake root hin).values
        refine ⟨updated, hmirrors, ?_⟩
        simp only [List.map_cons, List.map_nil, rootStatements, runStatements, hupdate]
      · exact ⟨after, hafter, rfl⟩

end RawImport

end OpenOutliner
