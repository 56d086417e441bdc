import OpenOutliner.Server.ItemsRepo
import OpenOutliner.Server.ViewAgreement

namespace OpenOutliner

open Foundations

def emitRow (row : ProjectedItem) (out : List ProjectedItem) : List ProjectedItem :=
  if row.id ∈ out.map ProjectedItem.id then out else out ++ [row]

/-- `visit`: the row after its ancestors. The guard grows with each call, so one call for each row
and one more are enough. -/
def visitRow (byId : OrderedMap JsString ProjectedItem) :
    ℕ → List JsString → ProjectedItem → List ProjectedItem → List ProjectedItem
  | 0, _, _, out => out
  | fuel + 1, guard, row, out =>
    if row.id ∈ out.map ProjectedItem.id ∨ row.id ∈ guard then out
    else
      match row.parentId.bind byId.get with
      | some parent => emitRow row (visitRow byId fuel (row.id :: guard) parent out)
      | none => emitRow row out

def topologicalOrder (rows : List ProjectedItem) : List ProjectedItem :=
  rows.foldl
    (fun out row => visitRow (.ofList (rows.map fun r => (r.id, r))) (rows.length + 1) [] row out) []

def projectable (rows : List ProjectedItem) : List ProjectedItem :=
  (topologicalOrder rows).filter fun row => row.parentId.all fun p => decide (p ∈ rows.map ProjectedItem.id)

def Doc.canonicalRoot (doc : Doc) : Option JsString := if doc.schemaVersion = some 2 then doc.rootId else none

def Doc.projectedRows (doc : Doc) : List ProjectedItem :=
  doc.readAllSnapshots.map (projectRow (projectionTree doc.readAllSnapshots doc.canonicalRoot)
    (effectiveDeletedOf doc.readAllSnapshots (projectionTree doc.readAllSnapshots doc.canonicalRoot))
    doc.canonicalRoot)

def Doc.Live (doc : Doc) (x : JsString) : Prop := ∃ row ∈ doc.projectedRows, row.id = x ∧ row.deleted = false

/-- The parent of every live row is a row. -/
def Doc.ParentClosed (doc : Doc) : Prop :=
  ∀ row ∈ doc.projectedRows, row.deleted = false →
    ∀ p ∈ row.parentId, p ∈ doc.projectedRows.map ProjectedItem.id

section Tx

variable {Uuid : Type} [DecidableEq Uuid]

def SparesLive (uuids : UuidText Uuid) (batch : List ProjectedItem) (items : Items Uuid) : Prop :=
  ∀ item ∈ batch, item.deleted = false → ∀ other ∈ batch, other.deleted = true →
    ∀ u, uuids.parse item.id = some u →
    uuids.parse other.id = some u → ∀ row, items.get u = some row → row.deletedAt ≠ none

/-- The statements under the lock: the items and `projected_rev` afterwards, none if one fails. -/
def projectTx (lib : FractionalIndexing) (uuids : UuidText Uuid) (replicaId : JsString)
    (foreign : Uuid → Bool)
    (now : ℤ) (doc : Doc) (revision sourceRev : ℕ) (items : Items Uuid) (projectedRev : ℕ) :
    Option (Items Uuid × ℕ) :=
  if sourceRev ≤ projectedRev ∨ revision ≤ projectedRev then some (items, projectedRev)
  else
    match projectSnapshots lib doc.readAllSnapshots now replicaId doc.canonicalRoot with
    | .error _ => none
    | .ok ⟨rows, _⟩ =>
      (upsertProjectedItemsBatch uuids foreign now items (projectable rows)).map fun items' =>
        (markMissing uuids now (rows.map ProjectedItem.id) items', revision)

end Tx

section Order

variable {byId : OrderedMap JsString ProjectedItem} {rows out : List ProjectedItem} {row : ProjectedItem}

theorem mem_emitRow {r : ProjectedItem} (h : r ∈ emitRow row out) : r ∈ out ∨ r = row := by
  unfold emitRow at h
  split at h
  · exact Or.inl h
  · exact (List.mem_append.mp h).imp_right List.mem_singleton.mp

theorem subset_emitRow {r : ProjectedItem} (h : r ∈ out) : r ∈ emitRow row out := by
  unfold emitRow
  split
  · exact h
  · exact List.mem_append_left _ h

theorem emitRow_emits (row : ProjectedItem) (out : List ProjectedItem) :
    row.id ∈ (emitRow row out).map ProjectedItem.id := by
  unfold emitRow
  split
  · assumption
  · simp

theorem subset_visitRow (fuel : ℕ) (guard : List JsString) (row : ProjectedItem) {r : ProjectedItem}
    (hr : r ∈ out) : r ∈ visitRow byId fuel guard row out := by
  induction fuel generalizing guard row with
  | zero => exact hr
  | succ fuel ih =>
    unfold visitRow
    split
    · exact hr
    · split
      · exact subset_emitRow (ih _ _)
      · exact subset_emitRow hr

theorem mem_visitRow (hby : ∀ k v, byId.get k = some v → v ∈ rows) (fuel : ℕ) (guard : List JsString)
    (hrow : row ∈ rows) (hout : ∀ r ∈ out, r ∈ rows) : ∀ r ∈ visitRow byId fuel guard row out, r ∈ rows := by
  induction fuel generalizing guard row with
  | zero => exact hout
  | succ fuel ih =>
    intro r hr
    unfold visitRow at hr
    split at hr
    · exact hout r hr
    · split at hr
      · rename_i parent hparent
        obtain ⟨p, -, hget⟩ := Option.bind_eq_some_iff.mp hparent
        cases mem_emitRow hr with
        | inl hr => exact ih _ (hby p parent hget) r hr
        | inr hr => rwa [hr]
      · cases mem_emitRow hr with
        | inl hr => exact hout r hr
        | inr hr => rwa [hr]

theorem visitRow_emits (byId : OrderedMap JsString ProjectedItem) (fuel : ℕ) (row : ProjectedItem)
    (out : List ProjectedItem) :
    row.id ∈ (visitRow byId (fuel + 1) [] row out).map ProjectedItem.id := by
  unfold visitRow
  split
  · rename_i h
    exact h.resolve_right List.not_mem_nil
  · split <;> exact emitRow_emits _ _

theorem mem_topologicalOrder (hnd : (rows.map ProjectedItem.id).Nodup) {r : ProjectedItem} :
    r ∈ topologicalOrder rows ↔ r ∈ rows := by
  have hby : ∀ k v, (OrderedMap.ofList (rows.map fun r => (r.id, r))).get k = some v → v ∈ rows :=
    fun k v hget => ((OrderedMap.get_keyed_iff hnd).mp hget).1
  -- what the loop over `todo` leaves
  have hloop : ∀ (todo out : List ProjectedItem), (∀ r ∈ todo, r ∈ rows) → (∀ r ∈ out, r ∈ rows) →
      let final := todo.foldl
        (fun out row => visitRow (.ofList (rows.map fun r => (r.id, r))) (rows.length + 1) [] row out) out
      (∀ r ∈ final, r ∈ rows) ∧ (∀ r ∈ out, r ∈ final) ∧ ∀ r ∈ todo, r.id ∈ final.map ProjectedItem.id := by
    intro todo
    induction todo with
    | nil => exact fun out _ hout => ⟨hout, fun _ h => h, by simp⟩
    | cons row todo ih =>
      intro out htodo hout
      obtain ⟨hrow, htodo⟩ := List.forall_mem_cons.mp htodo
      obtain ⟨hin, hkeep, hids⟩ := ih _ htodo (mem_visitRow hby (rows.length + 1) [] hrow hout)
      refine ⟨hin, fun r hr => hkeep r (subset_visitRow _ _ _ hr), ?_⟩
      intro r hr
      cases hr with
      | head =>
        obtain ⟨r', hr', he⟩ := List.mem_map.mp
          (visitRow_emits (.ofList (rows.map fun r => (r.id, r))) rows.length row out)
        exact List.mem_map.mpr ⟨r', hkeep r' hr', he⟩
      | tail _ hr => exact hids r hr
  obtain ⟨hin, -, hids⟩ := hloop rows [] (fun _ h => h) (by simp)
  constructor
  · exact fun hr => hin r hr
  · intro hr
    obtain ⟨r', hr', he⟩ := List.mem_map.mp (hids r hr)
    rwa [← List.inj_on_of_nodup_map hnd (hin r' hr') hr he]

theorem mem_projectable (hnd : (rows.map ProjectedItem.id).Nodup) {r : ProjectedItem} :
    r ∈ projectable rows ↔ r ∈ rows ∧ ∀ p ∈ r.parentId, p ∈ rows.map ProjectedItem.id := by
  rw [projectable, List.mem_filter, mem_topologicalOrder hnd]
  cases r.parentId <;> simp

end Order

section Spec

variable {Uuid : Type} [DecidableEq Uuid] {lib : FractionalIndexing} {uuids : UuidText Uuid}
  {replicaId : JsString} {foreign : Uuid → Bool} {now : ℤ} {doc : Doc} {revision sourceRev projectedRev r : ℕ}
  {items items' : Items Uuid}

def rowOf (snapshots : List ItemNodeSnapshot) (rootId : Option JsString) (s : ItemNodeSnapshot) :
    ProjectedItem :=
  projectRow (projectionTree snapshots rootId)
    (effectiveDeletedOf snapshots (projectionTree snapshots rootId)) rootId s

theorem projectSnapshots_rowOf {snapshots : List ItemNodeSnapshot} {rootId : Option JsString}
    {result : ProjectionResult} (h : projectSnapshots lib snapshots now replicaId rootId = .ok result) :
    result.rows = snapshots.map (rowOf snapshots rootId) := by
  have hrow : rowOf snapshots rootId = projectRow (projectionTree snapshots rootId)
      (effectiveDeletedOf snapshots (projectionTree snapshots rootId)) rootId := rfl
  rw [hrow]
  unfold projectSnapshots at h
  cases htree : projectionTree snapshots rootId with
  | some tree =>
    simp only [htree] at h
    cases h
    rfl
  | none =>
    simp only [htree] at h
    generalize computeCycleRepairs lib _ _ = repairs at h
    cases repairs with
    | error e => cases h
    | ok repairs =>
      cases h
      rfl

theorem projectSnapshots_rows {result : ProjectionResult}
    (h : projectSnapshots lib doc.readAllSnapshots now replicaId doc.canonicalRoot = .ok result) :
    result.rows = doc.projectedRows :=
  projectSnapshots_rowOf h

theorem projectedRows_nodup : (doc.projectedRows.map ProjectedItem.id).Nodup := by
  have hids : doc.projectedRows.map ProjectedItem.id = doc.readAllSnapshots.map ItemNodeSnapshot.id := by
    rw [Doc.projectedRows, List.map_map]
    rfl
  rw [hids]
  exact snapshots_nodup

theorem projectedRows_key {item : ProjectedItem} (h : item ∈ doc.projectedRows) :
    item.id ∈ doc.items.keys := by
  obtain ⟨s, hs, rfl⟩ := List.mem_map.mp h
  obtain ⟨e, he, hread⟩ := List.mem_filterMap.mp hs
  obtain ⟨move, -, rfl⟩ := Option.map_eq_some_iff.mp hread
  exact List.mem_map_of_mem he

theorem projectTx_refused (h : projectTx lib uuids replicaId foreign now doc revision sourceRev items
    projectedRev = some (items', r)) (hguard : sourceRev ≤ projectedRev ∨ revision ≤ projectedRev) :
    items' = items ∧ r = projectedRev := by
  unfold projectTx at h
  rw [if_pos hguard] at h
  cases h
  exact ⟨rfl, rfl⟩

theorem projectTx_applied (h : projectTx lib uuids replicaId foreign now doc revision sourceRev items
    projectedRev = some (items', r)) (hguard : ¬ (sourceRev ≤ projectedRev ∨ revision ≤ projectedRev)) :
    r = revision ∧ ∃ after, Upserted uuids now items (projectable doc.projectedRows) after ∧
      items' = markMissing uuids now (doc.projectedRows.map ProjectedItem.id) after := by
  unfold projectTx at h
  rw [if_neg hguard] at h
  split at h
  · cases h
  · rename_i rows repairs hrows
    have hrows' : rows = doc.projectedRows := projectSnapshots_rows hrows
    rw [hrows'] at h
    obtain ⟨after, hafter, h⟩ := Option.map_eq_some_iff.mp h
    cases h
    exact ⟨rfl, after, upsertProjectedItemsBatch_spec hafter, rfl⟩

section Applied

variable {after : Items Uuid} (h : Upserted uuids now items (projectable doc.projectedRows) after)

include h

theorem applied_live (hspares : SparesLive uuids (projectable doc.projectedRows) items)
    {item : ProjectedItem} {u : Uuid} (hitem : item ∈ projectable doc.projectedRows)
    (hlive : item.deleted = false) (hu : uuids.parse item.id = some u) :
    ∃ winner ∈ projectable doc.projectedRows, winner.deleted = false ∧
      Makes uuids now u winner (items.get u) (after.get u) := by
  obtain ⟨winner, hwinner, hmakes, hothers⟩ := h.row u ⟨item, hitem, hu⟩
  refine ⟨winner, hwinner, ?_, hmakes⟩
  obtain rfl | ⟨-, parent, -, hsame⟩ := hothers item hitem hu
  · exact hlive
  · -- the row was live before
    rw [Bool.eq_false_iff]
    intro hdeleted
    apply hspares item hitem hlive winner hwinner hdeleted u hu hmakes.1 _ hsame
    exact upsertRow_live.mpr hlive

theorem applied_deleted (hclosed : doc.ParentClosed)
    (hspares : SparesLive uuids (projectable doc.projectedRows) items) {u : Uuid} {row : ItemRow Uuid}
    (hget : (markMissing uuids now (doc.projectedRows.map ProjectedItem.id) after).get u = some row)
    (hdel : row.deletedAt ≠ none) : ¬ doc.Live (uuids.text u) := by
  rintro ⟨item, hitem, hid, hlive⟩
  have hproj : item ∈ projectable doc.projectedRows :=
    (mem_projectable projectedRows_nodup).mpr ⟨hitem, hclosed item hitem hlive⟩
  obtain ⟨winner, -, hwlive, -, parent, -, hafter⟩ :=
    applied_live h hspares hproj hlive (u := u) (by rw [hid, uuids.parse_text])
  have hin : uuids.text u ∈ doc.projectedRows.map ProjectedItem.id := hid ▸ List.mem_map_of_mem hitem
  rw [markMissing_get, hafter, Option.map_some, if_pos (Or.inl hin)] at hget
  obtain rfl := Option.some.inj hget
  exact hdel (upsertRow_live.mpr hwlive)

theorem applied_new {u : Uuid} {row : ItemRow Uuid} (hold : items.get u = none)
    (hget : (markMissing uuids now (doc.projectedRows.map ProjectedItem.id) after).get u = some row) :
    ∃ item ∈ doc.projectedRows, uuids.parse item.id = some u := by
  by_contra hnone
  simp only [not_exists, not_and] at hnone
  have hkept := h.kept u fun item hitem => hnone item ((mem_projectable projectedRows_nodup).mp hitem).1
  rw [markMissing_get, hkept, hold] at hget
  cases hget

end Applied

structure Doc.Rooted (doc : Doc) (root : JsString) : Prop where
  schemaVersion : doc.schemaVersion = some 2
  rootId : doc.rootId = some root
  nonempty : root ≠ []
  notSentinel : root ≠ ROOT_PARENT_SENTINEL
  present : root ∈ doc.readAllSnapshots.map ItemNodeSnapshot.id

def Doc.liveItems (doc : Doc) (root : JsString) : List ProjectedItem :=
  (doc.readAllSnapshots.map (effectiveRow (snapshotTree doc.readAllSnapshots root) root)).filter
    fun item => !item.deleted

theorem Doc.Rooted.projectedRows {root : JsString} (hr : doc.Rooted root) : doc.projectedRows =
    doc.readAllSnapshots.map (effectiveRow (snapshotTree doc.readAllSnapshots root) root) := by
  have hcanon : doc.canonicalRoot = some root := by
    rw [Doc.canonicalRoot, if_pos hr.schemaVersion, hr.rootId]
  have hnd : (doc.readAllSnapshots.map ItemNodeSnapshot.id).Nodup := snapshots_nodup
  have hproj := projectSnapshots_eq sampleKeys hnd hr.nonempty hr.notSentinel 0 []
  rw [← hcanon] at hproj
  exact (projectSnapshots_rows hproj).symm

theorem Doc.Rooted.parent_row {root : JsString} (hr : doc.Rooted root) {item : ProjectedItem}
    (hitem : item ∈ doc.projectedRows) : ∀ p ∈ item.parentId, p ∈ doc.projectedRows.map ProjectedItem.id := by
  rw [hr.projectedRows] at hitem ⊢
  rw [rows_ids]
  obtain ⟨s, hs, rfl⟩ := List.mem_map.mp hitem
  intro p hp
  by_cases hroot : s.id = root
  · simp [effectiveRow, hroot] at hp
  · obtain ⟨q, hq, hcase⟩ := snapshotTree_parent snapshots_nodup hs hroot
    simp only [effectiveRow, if_neg hroot, hq, Option.mem_def, Option.some.injEq] at hp
    subst hp
    cases hcase with
    | inl he => exact he ▸ hr.present
    | inr h => exact h.2

theorem Doc.Rooted.parentClosed {root : JsString} (hr : doc.Rooted root) : doc.ParentClosed :=
  fun _ hitem _ => hr.parent_row hitem

theorem Doc.Rooted.live_iff {root : JsString} (hr : doc.Rooted root) {item : ProjectedItem} :
    item ∈ doc.liveItems root ↔ item ∈ doc.projectedRows ∧ item.deleted = false := by
  rw [hr.projectedRows, Doc.liveItems, List.mem_filter]
  cases item.deleted <;> simp

/-- The live row `row` under `u` carries the item: its parent, rank, type, content, note, completion. -/
def Carries (uuids : UuidText Uuid) (u : Uuid) (row : ItemRow Uuid) (item : ProjectedItem) : Prop :=
  uuids.parse item.id = some u ∧ ∃ parentId version, castParent uuids item.parentId = some parentId ∧
    row = itemRow parentId item none version

/-- The live rows carry exactly these items, one row each. -/
structure Exact (uuids : UuidText Uuid) (items : Items Uuid) (live : List ProjectedItem) : Prop where
  row_item : ∀ u row, items.get u = some row → row.deletedAt = none → ∃ item ∈ live, Carries uuids u row item
  item_row : ∀ item ∈ live, ∃ u row, items.get u = some row ∧ Carries uuids u row item
  once : DistinctUuids uuids live

/-- Each id, if it names a UUID at all, is the text that the database prints for it. -/
def Canonical (uuids : UuidText Uuid) (batch : List ProjectedItem) : Prop :=
  ∀ item ∈ batch, ∀ u, uuids.parse item.id = some u → uuids.text u = item.id

/-- Each live item has a row of its own over `items`: the printed text of its UUID is the id of an item, no
other live item names the UUID, and a deleted item does so only if the row is deleted already. -/
structure OwnRows (uuids : UuidText Uuid) (doc : Doc) (root : JsString) (items : Items Uuid) : Prop where
  present : ∀ item ∈ doc.liveItems root, ∀ u, uuids.parse item.id = some u →
    uuids.text u ∈ doc.projectedRows.map ProjectedItem.id
  once : DistinctUuids uuids (doc.liveItems root)
  spares : SparesLive uuids doc.projectedRows items

omit [DecidableEq Uuid] in
theorem canonical_distinct (hcanon : Canonical uuids doc.projectedRows) :
    DistinctUuids uuids doc.projectedRows := by
  intro item hitem item' hitem' u hu hu'
  apply List.inj_on_of_nodup_map projectedRows_nodup hitem hitem'
  rw [← hcanon item hitem u hu, ← hcanon item' hitem' u hu']

theorem distinct_spares {batch : List ProjectedItem} (hdistinct : DistinctUuids uuids batch) :
    SparesLive uuids batch items := by
  intro item hitem hlive other hother hdeleted u hu hu'
  rw [hdistinct item hitem other hother u hu hu', hdeleted] at hlive
  cases hlive

theorem ownRows_iff {root : JsString} (hr : doc.Rooted root)
    (hdistinct : DistinctUuids uuids doc.projectedRows) :
    OwnRows uuids doc root items ↔ Canonical uuids (doc.liveItems root) := by
  have hsub : ∀ item ∈ doc.liveItems root, item ∈ doc.projectedRows :=
    fun item hitem => (hr.live_iff.mp hitem).1
  constructor
  · intro h item hitem u hu
    obtain ⟨item', hitem', hid⟩ := List.mem_map.mp (h.present item hitem u hu)
    rw [← hid, hdistinct item (hsub item hitem) item' hitem' u hu (by rw [hid, uuids.parse_text])]
  · intro hcanon
    refine ⟨?_, ?_, distinct_spares hdistinct⟩
    · intro item hitem u hu
      rw [hcanon item hitem u hu]
      exact List.mem_map_of_mem (hsub item hitem)
    · exact fun item hitem item' hitem' => hdistinct item (hsub item hitem) item' (hsub item' hitem')

theorem Doc.Rooted.ownRows {root : JsString} (hr : doc.Rooted root)
    (hcanon : Canonical uuids doc.projectedRows) :
    OwnRows uuids doc root items :=
  (ownRows_iff hr (canonical_distinct hcanon)).mpr fun item hitem => hcanon item (hr.live_iff.mp hitem).1

theorem Doc.Rooted.projectable {root : JsString} (hr : doc.Rooted root) {item : ProjectedItem} :
    item ∈ projectable doc.projectedRows ↔ item ∈ doc.projectedRows := by
  rw [mem_projectable projectedRows_nodup]
  exact ⟨And.left, fun hitem => ⟨hitem, hr.parent_row hitem⟩⟩

theorem sweep_live {u : Uuid} {row : ItemRow Uuid} {after : Items Uuid}
    (hget : (markMissing uuids now (doc.projectedRows.map ProjectedItem.id) after).get u = some row)
    (hlive : row.deletedAt = none) :
    uuids.text u ∈ doc.projectedRows.map ProjectedItem.id ∧ after.get u = some row := by
  rw [markMissing_get] at hget
  obtain ⟨old, hold, he⟩ := Option.map_eq_some_iff.mp hget
  split at he
  · rename_i hor
    subst he
    refine ⟨hor.resolve_right ?_, hold⟩
    rw [hlive]
    exact Bool.false_ne_true
  · rw [← he] at hlive
    cases hlive

/-- A pass over a rooted version 2 snapshot leaves exactly the live items as live rows, if and only if each
has a row of its own. -/
theorem applied_exact_iff {root : JsString} (hr : doc.Rooted root) {after : Items Uuid}
    (h : Upserted uuids now items (projectable doc.projectedRows) after) :
    Exact uuids (markMissing uuids now (doc.projectedRows.map ProjectedItem.id) after) (doc.liveItems root) ↔
      OwnRows uuids doc root items := by
  constructor
  · intro hexact
    -- the row of a live item is live at the end
    have hrow : ∀ item ∈ doc.liveItems root, ∀ u, uuids.parse item.id = some u →
        uuids.text u ∈ doc.projectedRows.map ProjectedItem.id ∧ ∃ row, after.get u = some row ∧
        row.deletedAt = none := by
      intro item hitem u hu
      obtain ⟨u', row, hget, hu', parentId, version, -, hcarries⟩ := hexact.item_row item hitem
      obtain rfl := Option.some.inj (hu.symm.trans hu')
      have hlive : row.deletedAt = none := congrArg ItemRow.deletedAt hcarries
      obtain ⟨hpresent, hafter⟩ := sweep_live hget hlive
      exact ⟨hpresent, row, hafter, hlive⟩
    refine ⟨fun item hitem u hu => (hrow item hitem u hu).1, hexact.once, ?_⟩
    intro item hitem hlive other hother hdeleted u hu hu' old hold
    obtain ⟨-, row, hafter, hrowlive⟩ := hrow item (hr.live_iff.mpr ⟨hitem, hlive⟩) u hu
    obtain ⟨winner, -, ⟨-, parent, -, hwinner⟩, hothers⟩ := h.row u ⟨item, hr.projectable.mpr hitem, hu⟩
    obtain rfl := Option.some.inj (hafter.symm.trans hwinner)
    obtain rfl | ⟨-, parent', -, hsame⟩ := hothers other (hr.projectable.mpr hother) hu'
    · rw [upsertRow_live.mp hrowlive] at hdeleted
      cases hdeleted
    · obtain rfl := Option.some.inj (hold.symm.trans hsame)
      intro hoff
      rw [upsertRow_live.mp hoff] at hdeleted
      cases hdeleted
  · intro hown
    refine ⟨?_, ?_, hown.once⟩
    · intro u row hget hlive
      obtain ⟨hin, hafter⟩ := sweep_live hget hlive
      obtain ⟨item, hitem, hid⟩ := List.mem_map.mp hin
      have hu : uuids.parse item.id = some u := by rw [hid, uuids.parse_text]
      obtain ⟨winner, hwinner, ⟨hwu, parent, hwp, hmakes⟩, -⟩ := h.row u ⟨item, hr.projectable.mpr hitem, hu⟩
      obtain rfl := Option.some.inj (hafter.symm.trans hmakes)
      obtain ⟨deletedAt, version, heq, -⟩ := upsertRow_eq now parent winner (items.get u)
      obtain rfl : deletedAt = none := (congrArg ItemRow.deletedAt heq).symm.trans hlive
      exact ⟨winner, hr.live_iff.mpr ⟨hr.projectable.mp hwinner, upsertRow_live.mp hlive⟩, hwu, parent,
        version, hwp, heq⟩
    · intro item hitem
      obtain ⟨hrow, hlive⟩ := hr.live_iff.mp hitem
      obtain ⟨u, hu⟩ := h.parse (hr.projectable.mpr hrow)
      have hspares : SparesLive uuids (projectable doc.projectedRows) items := by
        intro a ha hal b hb
        exact hown.spares a (hr.projectable.mp ha) hal b (hr.projectable.mp hb)
      obtain ⟨winner, hwinner, hwlive, hwu, parent, hwp, hmakes⟩ :=
        applied_live h hspares (hr.projectable.mpr hrow) hlive hu
      obtain rfl := hown.once item hitem winner (hr.live_iff.mpr ⟨hr.projectable.mp hwinner, hwlive⟩) u hu hwu
      obtain ⟨deletedAt, version, heq, hnone⟩ := upsertRow_eq now parent item (items.get u)
      obtain rfl : deletedAt = none := hnone.mpr hlive
      refine ⟨u, _, ?_, hu, parent, version, hwp, heq⟩
      rw [markMissing_get, hmakes, Option.map_some, if_pos (Or.inl (hown.present item hitem u hu))]

end Spec

end OpenOutliner
