import OpenOutliner.Foundations.Upsert
import OpenOutliner.Server.Materialize

/-!
One document's rows of the `items` table and the batch upsert of the projector. Ids are UUIDs
there; `now` is the transaction's clock.
-/

namespace OpenOutliner

open Foundations

/-- Casting a text to `uuid` and printing it back. Several texts can name one UUID. -/
structure UuidText (Uuid : Type) where
  parse : JsString → Option Uuid
  text : Uuid → JsString
  parse_text : ∀ u, parse (text u) = some u

structure ItemRow (Uuid : Type) where
  parentId : Option Uuid
  rank : JsString
  type : ItemType
  content : JsString
  note : Option JsString
  isCompleted : Bool
  isCollapsed : Bool
  deletedAt : Option ℤ
  version : ℕ
deriving DecidableEq

abbrev Items (Uuid : Type) [DecidableEq Uuid] := OrderedMap Uuid (ItemRow Uuid)

section Repo

variable {Uuid : Type} [DecidableEq Uuid]

def itemRow (parentId : Option Uuid) (item : ProjectedItem) (deletedAt : Option ℤ) (version : ℕ) :
    ItemRow Uuid :=
  ⟨parentId, item.rank, item.type, item.content, item.note, item.isCompleted, item.isCollapsed,
    deletedAt, version⟩

def upsertRow (now : ℤ) (parentId : Option Uuid) (item : ProjectedItem) : Option (ItemRow Uuid) → ItemRow Uuid
  | none => itemRow parentId item (if item.deleted then some now else none) 1
  | some old =>
    let deletedAt := if item.deleted then old.deletedAt.or (some now) else none
    if itemRow parentId item deletedAt old.version = old then old
    else itemRow parentId item deletedAt (old.version + 1)

def castParent (uuids : UuidText Uuid) : Option JsString → Option (Option Uuid)
  | none => some none
  | some p => (uuids.parse p).map some

def castItem (uuids : UuidText Uuid) (item : ProjectedItem) : Option (Uuid × Option Uuid × ProjectedItem) :=
  match uuids.parse item.id, castParent uuids item.parentId with
  | some u, some parent => some (u, parent, item)
  | _, _ => none

/-- The `INSERT ... ON CONFLICT (id) DO UPDATE ... WHERE`. The parents of the rows that it writes are
checked at its end. -/
def upsertStatement (now : ℤ) (items : Items Uuid) (rows : List (Uuid × Option Uuid × ProjectedItem)) :
    Option (Items Uuid) :=
  (insertOrUpdate items (rows.map fun row => (row.1, upsertRow now row.2.1 row.2.2))).bind fun run =>
    if ∃ u ∈ run.written, ∃ row ∈ run.table.get u, ∃ parent ∈ row.parentId,
      run.table.has parent = false then none
    else some run.table

/-- None if a statement fails; an id may be no UUID, or another document's. -/
def upsertProjectedItemsBatch (uuids : UuidText Uuid) (foreign : Uuid → Bool) (now : ℤ) (items : Items Uuid)
    (batch : List ProjectedItem) : Option (Items Uuid) :=
  if (∃ item ∈ batch, castItem uuids item = none) ∨
    ∃ row ∈ batch.filterMap (castItem uuids), foreign row.1 = true then none
  else upsertStatement now items (batch.filterMap (castItem uuids))

/-- Rows whose id is not `present` are marked deleted. -/
def markMissing (uuids : UuidText Uuid) (now : ℤ) (present : List JsString) (items : Items Uuid) :
    Items Uuid :=
  items.mapEntries fun id row =>
    if uuids.text id ∈ present ∨ row.deletedAt.isSome = true then row
    else { row with deletedAt := some now, version := row.version + 1 }

omit [DecidableEq Uuid] in
theorem castItem_some {uuids : UuidText Uuid} {item item' : ProjectedItem} {u : Uuid} {parent : Option Uuid}
    (h : castItem uuids item = some (u, parent, item')) :
    item' = item ∧ uuids.parse item.id = some u ∧ castParent uuids item.parentId = some parent := by
  unfold castItem at h
  split at h
  · rename_i hu hp
    cases h
    exact ⟨rfl, hu, hp⟩
  · cases h

/-- No two items of the batch name one UUID. -/
def DistinctUuids (uuids : UuidText Uuid) (batch : List ProjectedItem) : Prop :=
  ∀ item ∈ batch, ∀ item' ∈ batch, ∀ u, uuids.parse item.id = some u → uuids.parse item'.id = some u →
    item = item'

def Makes (uuids : UuidText Uuid) (now : ℤ) (u : Uuid) (item : ProjectedItem)
    (old row : Option (ItemRow Uuid)) : Prop :=
  uuids.parse item.id = some u ∧ ∃ parent, castParent uuids item.parentId = some parent ∧
    row = some (upsertRow now parent item old)

/-- What a batch does that does not fail. Where several items name one row, all but one of them find it as
they would make it. -/
structure Upserted (uuids : UuidText Uuid) (now : ℤ) (items : Items Uuid) (batch : List ProjectedItem)
    (items' : Items Uuid) : Prop where
  cast : ∀ item ∈ batch, castItem uuids item ≠ none
  row : ∀ u, (∃ item ∈ batch, uuids.parse item.id = some u) → ∃ item ∈ batch,
    Makes uuids now u item (items.get u) (items'.get u) ∧
    ∀ item' ∈ batch, uuids.parse item'.id = some u → item' = item ∨
    Makes uuids now u item' (items.get u) (items.get u)
  kept : ∀ u, (∀ item ∈ batch, uuids.parse item.id ≠ some u) → items'.get u = items.get u

section Upserted

variable {uuids : UuidText Uuid} {foreign : Uuid → Bool} {now : ℤ} {items items' : Items Uuid}
  {batch : List ProjectedItem} {u : Uuid} {item : ProjectedItem}

theorem Upserted.parse (h : Upserted uuids now items batch items') (hitem : item ∈ batch) :
    ∃ u, uuids.parse item.id = some u := by
  obtain ⟨⟨u, parent, item'⟩, hrow⟩ := Option.ne_none_iff_exists'.mp (h.cast item hitem)
  exact ⟨u, (castItem_some hrow).2.1⟩

theorem Upserted.get_some (h : Upserted uuids now items batch items') (hitem : item ∈ batch)
    (hu : uuids.parse item.id = some u) : ∃ row, items'.get u = some row := by
  obtain ⟨winner, -, ⟨-, parent, -, hget⟩, -⟩ := h.row u ⟨item, hitem, hu⟩
  exact ⟨_, hget⟩

theorem Upserted.get_none (h : Upserted uuids now items batch items') (hnone : items'.get u = none) :
    items.get u = none := by
  by_cases hu : ∀ item ∈ batch, uuids.parse item.id ≠ some u
  · rw [← h.kept u hu, hnone]
  · simp only [not_forall, not_not] at hu
    obtain ⟨item, hitem, hparse⟩ := hu
    obtain ⟨row, hrow⟩ := h.get_some hitem hparse
    rw [hnone] at hrow
    cases hrow

theorem Upserted.written (h : Upserted uuids now items batch items') (hdistinct : DistinctUuids uuids batch)
    (hitem : item ∈ batch) (hu : uuids.parse item.id = some u) :
    Makes uuids now u item (items.get u) (items'.get u) := by
  obtain ⟨winner, hwinner, hmakes, -⟩ := h.row u ⟨item, hitem, hu⟩
  rwa [hdistinct item hitem winner hwinner u hu hmakes.1]

omit [DecidableEq Uuid] in
theorem mem_castRows {parent : Option Uuid} {item : ProjectedItem} :
    (u, parent, item) ∈ batch.filterMap (castItem uuids) ↔
      item ∈ batch ∧ uuids.parse item.id = some u ∧ castParent uuids item.parentId = some parent := by
  rw [List.mem_filterMap]
  constructor
  · rintro ⟨item', hitem, hcast⟩
    obtain ⟨rfl, hu, hp⟩ := castItem_some hcast
    exact ⟨hitem, hu, hp⟩
  · rintro ⟨hitem, hu, hp⟩
    exact ⟨item, hitem, by simp [castItem, hu, hp]⟩

omit [DecidableEq Uuid] in
theorem exists_castRow (hcast : ∀ item ∈ batch, castItem uuids item ≠ none) (hitem : item ∈ batch) :
    ∃ u parent, (u, parent, item) ∈ batch.filterMap (castItem uuids) := by
  obtain ⟨⟨u, parent, item'⟩, hrow⟩ := Option.ne_none_iff_exists'.mp (hcast item hitem)
  obtain ⟨rfl, hu, hp⟩ := castItem_some hrow
  exact ⟨u, parent, mem_castRows.mpr ⟨hitem, hu, hp⟩⟩

theorem upsertStatement_spec {rows : List (Uuid × Option Uuid × ProjectedItem)}
    (h : upsertStatement now items rows = some items') : ∃ run, run.table = items' ∧
      InsertedOrUpdated items (rows.map fun row => (row.1, upsertRow now row.2.1 row.2.2)) run := by
  obtain ⟨run, hrun, hcheck⟩ := Option.bind_eq_some_iff.mp h
  split at hcheck
  · cases hcheck
  · exact ⟨run, Option.some.inj hcheck, insertOrUpdate_spec hrun⟩

theorem upsertStatement_get {rows : List (Uuid × Option Uuid × ProjectedItem)}
    {row : Uuid × Option Uuid × ProjectedItem}
    (h : upsertStatement now items rows = some items') (hrow : row ∈ rows) :
    ∃ r, items'.get row.1 = some r := by
  obtain ⟨run, rfl, hspec⟩ := upsertStatement_spec h
  obtain ⟨front, make, back, -, hget, -⟩ := hspec.row row.1 ⟨_, List.mem_map_of_mem hrow, rfl⟩
  exact ⟨_, hget⟩

theorem upsertStatement_upserted (hcast : ∀ item ∈ batch, castItem uuids item ≠ none)
    (h : upsertStatement now items (batch.filterMap (castItem uuids)) = some items') :
    Upserted uuids now items batch items' := by
  obtain ⟨run, rfl, hspec⟩ := upsertStatement_spec h
  refine ⟨hcast, ?_, ?_⟩
  · rintro u ⟨item, hitem, hu⟩
    obtain ⟨u', parent, hrow⟩ := exists_castRow hcast hitem
    obtain rfl := Option.some.inj (hu.symm.trans (mem_castRows.mp hrow).2.1)
    obtain ⟨front, make, back, hsplit, hget, hback, hfront⟩ := hspec.row u ⟨_, List.mem_map_of_mem hrow, rfl⟩
    -- the same cut of the rows as of their proposals
    obtain ⟨before, rest, hrows, rfl, hrest⟩ := List.map_eq_append_iff.mp hsplit
    obtain ⟨⟨u', wparent, winner⟩, after, rfl, hmake, rfl⟩ := List.map_eq_cons_iff.mp hrest
    obtain ⟨rfl, rfl⟩ := Prod.mk.inj hmake
    obtain ⟨hwinner, hwu, hwp⟩ := mem_castRows.mp (hrows ▸ List.mem_append_right before List.mem_cons_self)
    refine ⟨winner, hwinner, ⟨hwu, wparent, hwp, hget⟩, ?_⟩
    intro item' hitem' hu'
    obtain ⟨u'', parent', hrow'⟩ := exists_castRow hcast hitem'
    obtain ⟨-, hu'', hp'⟩ := mem_castRows.mp hrow'
    obtain rfl := Option.some.inj (hu'.symm.trans hu'')
    rw [hrows, List.mem_append, List.mem_cons] at hrow'
    obtain hmem | heq | hmem := hrow'
    · exact Or.inr ⟨hu', parent', hp', hfront _ (List.mem_map_of_mem hmem) rfl⟩
    · exact Or.inl (congrArg (fun row => row.2.2) heq)
    · exact absurd rfl (hback _ (List.mem_map_of_mem hmem))
  · intro u hu
    apply hspec.kept
    intro e he heq
    obtain ⟨⟨u', parent, item⟩, hrow, rfl⟩ := List.mem_map.mp he
    obtain ⟨hitem, hparse, -⟩ := mem_castRows.mp hrow
    exact hu item hitem (heq ▸ hparse)

theorem upsertProjectedItemsBatch_spec
    (h : upsertProjectedItemsBatch uuids foreign now items batch = some items') :
    Upserted uuids now items batch items' := by
  unfold upsertProjectedItemsBatch at h
  split at h
  · cases h
  · rename_i hok
    rw [not_or] at hok
    exact upsertStatement_upserted (fun item hitem hnone => hok.1 ⟨item, hitem, hnone⟩) h

end Upserted

theorem markMissing_get (uuids : UuidText Uuid) (now : ℤ) (present : List JsString) (items : Items Uuid)
    (u : Uuid) : (markMissing uuids now present items).get u = (items.get u).map fun row =>
      if uuids.text u ∈ present ∨ row.deletedAt.isSome = true then row
      else { row with deletedAt := some now, version := row.version + 1 } :=
  items.get_mapEntries _ u

theorem upsertRow_eq (now : ℤ) (parentId : Option Uuid) (item : ProjectedItem) (old : Option (ItemRow Uuid)) :
    ∃ deletedAt version, upsertRow now parentId item old = itemRow parentId item deletedAt version ∧
      (deletedAt = none ↔ item.deleted = false) := by
  cases old with
  | none =>
    refine ⟨_, 1, rfl, ?_⟩
    cases item.deleted <;> simp
  | some old =>
    have hdel : (if item.deleted = true then old.deletedAt.or (some now) else none) = none ↔
        item.deleted = false := by
      cases item.deleted <;> simp
    unfold upsertRow
    dsimp only
    generalize (if item.deleted = true then old.deletedAt.or (some now) else none) = deletedAt at hdel ⊢
    split
    · rename_i he
      exact ⟨deletedAt, old.version, he.symm, hdel⟩
    · exact ⟨deletedAt, old.version + 1, rfl, hdel⟩

theorem upsertRow_deletedAt (now : ℤ) (parentId : Option Uuid) (item : ProjectedItem)
    (old : Option (ItemRow Uuid)) :
    (upsertRow now parentId item old).deletedAt =
      if item.deleted then (old.bind ItemRow.deletedAt).or (some now) else none := by
  cases old with
  | none => rfl
  | some old =>
    rw [upsertRow, Option.bind_some]
    generalize (if item.deleted = true then old.deletedAt.or (some now) else none) = deletedAt
    split
    · rename_i he
      exact (congrArg ItemRow.deletedAt he).symm
    · rfl

theorem upsertRow_live {now : ℤ} {parentId : Option Uuid} {item : ProjectedItem}
    {old : Option (ItemRow Uuid)} :
    (upsertRow now parentId item old).deletedAt = none ↔ item.deleted = false := by
  obtain ⟨deletedAt, version, heq, hnone⟩ := upsertRow_eq now parentId item old
  rw [heq]
  exact hnone

end Repo

end OpenOutliner
