import OpenOutliner.Client.Markdown
import OpenOutliner.Server.GcSafety
import OpenOutliner.Server.ExportRoundTrip

namespace OpenOutliner

open Foundations Relation

section Markdown

def HASH : CodeUnit := 0x23

def itemToMarkdown (row : LiveRow) (depth : ℕ) : JsString :=
  let content := if row.content = [] then js ['(', 'e', 'm', 'p', 't', 'y', ')'] else row.content
  match row.type with
  | .heading => List.replicate (min (depth + 1) 6) HASH ++ [SPACE] ++ content
  | .task =>
    indentation depth ++ js ['-', ' ', '[', if row.isCompleted then 'x' else ' ', ']', ' '] ++ content
  | .divider => indentation depth ++ js ['-', '-', '-']
  | _ => indentation depth ++ js ['-', ' '] ++ content

def rowMarkdown (row : LiveRow) (depth : ℕ) : List JsString :=
  itemToMarkdown row depth ::
    match row.note with
    | none => []
    | some note => if note = [] then [] else [indentation (depth + 1) ++ js ['>', ' '] ++ note]

def rowById (rows : List LiveRow) : OrderedMap JsString LiveRow := .ofList (rows.map fun r => (r.id, r))

def renderMarkdownNode (rows : List LiveRow) : ℕ → ℕ → JsString → Option (List JsString)
  | 0, _, _ => none
  | fuel + 1, depth, id =>
    match (rowById rows).get id with
    | none => some []
    | some row =>
      ((bucket rows (some id)).mapM fun child => renderMarkdownNode rows fuel (depth + 1) child.id).map
        fun below =>
        rowMarkdown row depth ++ below.flatten

def serializeMarkdown (rows : List LiveRow) : Option JsString :=
  ((bucket rows none).mapM fun root => renderMarkdownNode rows (rows.length + 1) 0 root.id).map fun out =>
    joinLines out.flatten

variable {rows : List LiveRow}

theorem render_listing (hids : (rows.map LiveRow.id).Nodup) {xs : List LiveRow} {d : ℕ}
    {out : List (LiveRow × ℕ)} (h : Listing (childRows rows) xs d out)
    (hmem : ∀ x ∈ out.map Prod.fst, x ∈ rows) {fuel : ℕ} (hfuel : out.length ≤ fuel) :
    ∃ lines, (xs.mapM fun x => renderMarkdownNode rows fuel d x.id) = some lines ∧
      lines.flatten = out.flatMap fun e => rowMarkdown e.1 e.2 := by
  induction h generalizing fuel with
  | nil d => exact ⟨[], rfl, rfl⟩
  | @cons x xs d sub rest _ _ ihsub ihrest =>
    simp only [List.map_cons, List.map_append, List.mem_cons, List.mem_append] at hmem
    rw [List.length_cons, List.length_append] at hfuel
    obtain ⟨n, rfl⟩ : ∃ n, fuel = n + 1 := ⟨fuel - 1, by omega⟩
    obtain ⟨below, hbelow, hsub⟩ :=
      ihsub (fun y hy => hmem y (Or.inr (Or.inl hy))) (show sub.length ≤ n by omega)
    obtain ⟨after, hafter, hrest⟩ :=
      ihrest (fun y hy => hmem y (Or.inr (Or.inr hy))) (show rest.length ≤ n + 1 by omega)
    have hget : (rowById rows).get x.id = some x :=
      (OrderedMap.get_keyed_iff hids).mpr ⟨hmem x (Or.inl rfl), rfl⟩
    have hnode : renderMarkdownNode rows (n + 1) d x.id = some (rowMarkdown x d ++ below.flatten) := by
      rw [renderMarkdownNode, hget]
      dsimp only
      rw [show bucket rows (some x.id) = childRows rows x from rfl, hbelow, Option.map_some]
    refine ⟨(rowMarkdown x d ++ below.flatten) :: after, ?_, ?_⟩
    · rw [List.mapM_cons, hnode, hafter]
      rfl
    · rw [List.flatten_cons, hsub, hrest, List.flatMap_cons, List.flatMap_append, List.append_assoc]

end Markdown

section Rows

variable {Uuid : Type} [DecidableEq Uuid] {uuids : UuidText Uuid} {items : Items Uuid} {doc : Doc}
  {root : JsString}

def ProjectedItem.liveRow (item : ProjectedItem) : LiveRow :=
  ⟨⟨item.type, item.content, item.note, item.isCompleted, item.isCollapsed⟩, item.id,
    item.parentId, item.rank⟩

def Doc.outlineRow (doc : Doc) (root id : JsString) : Option LiveRow :=
  (doc.snapshotOf id).map fun s => (effectiveRow (snapshotTree doc.readAllSnapshots root) root s).liveRow

def Doc.outlineIds (doc : Doc) (root : JsString) : List (JsString × ℕ) :=
  (root, 0) :: (doc.visibleRows root fun _ => false).map fun r => (r.id, r.depth + 1)

theorem liveItems_nodup : ((doc.liveItems root).map ProjectedItem.id).Nodup := by
  apply List.Nodup.sublist (List.filter_sublist.map _)
  rw [rows_ids]
  exact snapshots_nodup

theorem liveItem_parent (hr : doc.Rooted root) {item : ProjectedItem} (hitem : item ∈ doc.liveItems root)
    {p : JsString} (hp : item.parentId = some p) : ∃ q ∈ doc.liveItems root, q.id = p := by
  obtain ⟨hrow, hlive⟩ := hr.live_iff.mp hitem
  obtain ⟨q, hq, hid⟩ := List.mem_map.mp (hr.parent_row hrow p hp)
  refine ⟨q, hr.live_iff.mpr ⟨hq, ?_⟩, hid⟩
  rw [hr.projectedRows] at hrow hq
  obtain ⟨s, hs, rfl⟩ := List.mem_map.mp hrow
  obtain ⟨t, ht, rfl⟩ := List.mem_map.mp hq
  by_contra hdel
  rw [deleted_below snapshots_nodup hs (hp.trans (congrArg some hid.symm)) (by simpa using hdel)] at hlive
  cases hlive

theorem getLiveItems_nodup : ((getLiveItems uuids items).map LiveRow.id).Nodup := by
  have hkeys : items.entries.Pairwise fun e e' => e.1 ≠ e'.1 := List.pairwise_map.mp items.nodup
  rw [List.Nodup, List.pairwise_map]
  refine hkeys.filterMap (readLive uuids) ?_
  have hid : ∀ e r, readLive uuids e = some r → r.id = uuids.text e.1 := by
    intro e r hread
    unfold readLive at hread
    split_ifs at hread
    cases hread
    rfl
  intro e e' hne r hr r' hr' he
  rw [hid e r hr, hid e' r' hr'] at he
  exact hne (text_injective he)

theorem liveRows_perm (hr : doc.Rooted root) (hcanon : Canonical uuids (doc.liveItems root))
    (h : Exact uuids items (doc.liveItems root)) :
    (getLiveItems uuids items).Perm ((doc.liveItems root).map ProjectedItem.liveRow) := by
  have hparent : ∀ item ∈ doc.liveItems root, ∀ parentId, castParent uuids item.parentId = some parentId →
      parentId.map uuids.text = item.parentId := by
    intro item hitem parentId hcast
    cases hp : item.parentId with
    | none =>
      rw [hp] at hcast
      cases hcast
      rfl
    | some p =>
      obtain ⟨q, hq, rfl⟩ := liveItem_parent hr hitem hp
      rw [hp] at hcast
      obtain ⟨v, hv, rfl⟩ := Option.map_eq_some_iff.mp hcast
      rw [Option.map_some, hcanon q hq v hv]
  have hrow : ∀ item ∈ doc.liveItems root, ∀ u row, Carries uuids u row item →
      readLive uuids (u, row) = some item.liveRow := by
    rintro item hitem u row ⟨hu, parentId, version, hcast, rfl⟩
    simp [readLive, itemRow, ProjectedItem.liveRow, hparent item hitem parentId hcast, hcanon item hitem u hu]
  have hnodup : (getLiveItems uuids items).Nodup := List.Nodup.of_map LiveRow.id getLiveItems_nodup
  have hnodup' : ((doc.liveItems root).map ProjectedItem.liveRow).Nodup := by
    apply List.Nodup.of_map LiveRow.id
    rw [List.map_map]
    exact liveItems_nodup
  rw [List.perm_ext_iff_of_nodup hnodup hnodup']
  intro r
  constructor
  · intro hmem
    obtain ⟨⟨u, row⟩, he, hread⟩ := List.mem_filterMap.mp hmem
    have hlive : row.deletedAt = none := by
      by_contra hdel
      simp [readLive, hdel] at hread
    obtain ⟨item, hitem, hcar⟩ := h.row_item u row ((OrderedMap.mem_entries_iff _ _ _).mp he) hlive
    rw [hrow item hitem u row hcar] at hread
    exact List.mem_map.mpr ⟨item, hitem, Option.some.inj hread⟩
  · intro hmem
    obtain ⟨item, hitem, rfl⟩ := List.mem_map.mp hmem
    obtain ⟨u, row, hget, hcar⟩ := h.item_row item hitem
    exact List.mem_filterMap.mpr ⟨(u, row), (OrderedMap.mem_entries_iff _ _ _).mpr hget,
      hrow item hitem u row hcar⟩

end Rows

section Outline

variable {Uuid : Type} [DecidableEq Uuid] {uuids : UuidText Uuid} {items : Items Uuid} {doc : Doc}
  {root : JsString}

/-- Both exports of the rows show the outline: each of its items once, under its parent and in the order of
the screen, with all that the document says of it. -/
structure ExportsOutline (doc : Doc) (root : JsString) (rows : List LiveRow)
    (out : List (LiveRow × ℕ)) : Prop where
  ids : out.map (fun e => (e.1.id, e.2)) = doc.outlineIds root
  row : ∀ e ∈ out, doc.outlineRow root e.1.id = some e.1
  once : (out.map fun e => e.1.id).Perm ((doc.liveItems root).map ProjectedItem.id)
  json : ∀ exportedAt, serializeJson exportedAt rows = some ⟨1, exportedAt, out.map fun e => e.1.exported⟩
  markdown : serializeMarkdown rows = some (joinLines (out.flatMap fun e => rowMarkdown e.1 e.2))

theorem Doc.Rooted.getRootId (hr : doc.Rooted root) : doc.getRootId = some root := by
  rw [Doc.getRootId, hr.rootId]

theorem outlineRow_live {item : ProjectedItem} (hitem : item ∈ doc.liveItems root) :
    doc.outlineRow root item.id = some item.liveRow := by
  obtain ⟨s, hs, rfl⟩ := List.mem_map.mp (List.mem_filter.mp hitem).1
  rw [Doc.outlineRow, show (effectiveRow (snapshotTree doc.readAllSnapshots root) root s).id = s.id from rfl,
    snapshotOf_mem hs, Option.map_some]

theorem root_live (hr : doc.Rooted root) :
    ∃ item, (doc.liveItems root).filter (fun r => decide (r.parentId = none)) =
    [item] ∧ item.id = root := by
  obtain ⟨item, hroots, hid, hlive⟩ := root_row snapshots_nodup hr.present
  refine ⟨item, ?_, hid⟩
  rw [Doc.liveItems, List.filter_comm, hroots]
  simp [hlive]

theorem mem_visibleRows_iff (hr : doc.Rooted root) {x : JsString} :
    x ∈ (doc.visibleRows root fun _ => false).map VisibleRow.id ↔
      x ∈ (doc.liveItems root).map ProjectedItem.id ∧ x ≠ root := by
  have hspec := Doc.rooted_spec hr.getRootId
  have htree := effectiveTree_rooted hr.getRootId
  rw [(visibleRows_preorder hr.getRootId root fun _ => false).mem]
  have hlive : x ∈ (doc.liveItems root).map ProjectedItem.id ↔
      x ∈ doc.allNodes.map OutlineNode.id ∧ x ∉ doc.effectiveTree.deleted := by
    rw [← snapshots_ids, htree]
    constructor
    · intro hx
      obtain ⟨item, hitem, rfl⟩ := List.mem_map.mp hx
      obtain ⟨hrow, hdel⟩ := List.mem_filter.mp hitem
      obtain ⟨s, hs, rfl⟩ := List.mem_map.mp hrow
      exact ⟨List.mem_map_of_mem hs, by simpa [effectiveRow] using hdel⟩
    · rintro ⟨hx, hdel⟩
      obtain ⟨s, hs, rfl⟩ := List.mem_map.mp hx
      refine List.mem_map.mpr ⟨_, List.mem_filter.mpr ⟨List.mem_map_of_mem hs, ?_⟩, rfl⟩
      simpa [effectiveRow] using hdel
  rw [hlive]
  constructor
  · rintro ⟨⟨hmove, hdel, hbelow⟩, -⟩
    obtain ⟨move, hmove⟩ := Option.isSome_iff_exists.mp hmove
    obtain ⟨n, hn, rfl, -⟩ := Doc.allNodes_of_moveOf hmove
    refine ⟨⟨List.mem_map_of_mem hn, hdel⟩, ?_⟩
    obtain ⟨y, hedge, -⟩ := TransGen.head'_iff.mp hbelow
    exact hedge.1
  · rintro ⟨⟨hx, hdel⟩, hne⟩
    refine ⟨⟨?_, hdel, ?_⟩, fun _ _ _ => rfl⟩
    · obtain ⟨n, hn, rfl⟩ := List.mem_map.mp hx
      rw [Doc.allNodes_moveOf hn]
      rfl
    · refine (reflTransGen_iff_eq_or_transGen.mp (hspec.reaches x ?_)).resolve_left fun he => hne he.symm
      rw [ids, List.map_map]
      exact hx

def Doc.exportedRow (doc : Doc) (root x : JsString) : LiveRow :=
  (doc.outlineRow root x).getD ⟨⟨.bullet, [], none, false, false⟩, x, none, []⟩

theorem exportedRow_live {item : ProjectedItem} (hitem : item ∈ doc.liveItems root) :
    doc.exportedRow root item.id = item.liveRow := by
  rw [Doc.exportedRow, outlineRow_live hitem, Option.getD_some]

theorem outlineIds_fst : (doc.outlineIds root).map Prod.fst =
    root :: (doc.visibleRows root fun _ => false).map VisibleRow.id := by
  rw [Doc.outlineIds, List.map_cons, List.map_map]
  rfl

theorem outlineIds_once (hr : doc.Rooted root) :
    ((doc.outlineIds root).map Prod.fst).Perm ((doc.liveItems root).map ProjectedItem.id) := by
  obtain ⟨top, htop, hid⟩ := root_live hr
  have hlive : top.id ∈ (doc.liveItems root).map ProjectedItem.id :=
    List.mem_map_of_mem (List.mem_of_mem_filter (htop ▸ List.mem_singleton_self top))
  rw [hid] at hlive
  rw [outlineIds_fst, List.perm_ext_iff_of_nodup _ liveItems_nodup]
  · intro x
    rw [List.mem_cons, mem_visibleRows_iff hr]
    constructor
    · rintro (rfl | ⟨hx, -⟩)
      · exact hlive
      · exact hx
    · intro hx
      exact (em (x = root)).imp_right fun hne => ⟨hx, hne⟩
  · rw [List.nodup_cons, mem_visibleRows_iff hr]
    exact ⟨fun h => h.2 rfl, (visibleRows_preorder hr.getRootId root fun _ => false).once⟩

theorem live_childIds (hr : doc.Rooted root) (p : JsString) :
    (sortSiblings ((doc.liveItems root).filter fun r => decide (r.parentId = some p))).map ProjectedItem.id =
      doc.childIds p := by
  rw [← rowChildren_rooted hr.getRootId, rowChildren, Doc.liveItems, List.filter_filter]
  congr 2
  apply List.filter_congr
  intro r _
  rw [Bool.and_comm]

section Exact

variable (hr : doc.Rooted root) (hcanon : Canonical uuids (doc.liveItems root))
  (hexact : Exact uuids items (doc.liveItems root))

include hr hcanon hexact

theorem bucket_live (p : Option JsString) : bucket (getLiveItems uuids items) p =
    (sortSiblings ((doc.liveItems root).filter fun r =>
      decide (r.parentId = p))).map ProjectedItem.liveRow := by
  have hperm := (liveRows_perm hr hcanon hexact).filter fun row => decide (row.parentId = p)
  rw [List.filter_map] at hperm
  have hids :
      (((getLiveItems uuids items).filter fun row => decide (row.parentId = p)).map LiveRow.id).Nodup :=
    getLiveItems_nodup.sublist (List.filter_sublist.map _)
  rw [bucket, sortSiblings_eq_of_perm hperm hids]
  exact sortSiblings_map ProjectedItem.liveRow (fun _ => rfl) (fun _ => rfl) _

theorem bucket_none : bucket (getLiveItems uuids items) none = [doc.exportedRow root root] := by
  obtain ⟨top, htop, hid⟩ := root_live hr
  have hlive : top ∈ doc.liveItems root := List.mem_of_mem_filter (htop ▸ List.mem_singleton_self top)
  have hrow := exportedRow_live hlive
  rw [hid] at hrow
  rw [bucket_live hr hcanon hexact, htop, hrow]
  rfl

theorem childRows_exported {item : ProjectedItem} (hitem : item ∈ doc.liveItems root) :
    childRows (getLiveItems uuids items) (doc.exportedRow root item.id) =
      (doc.childIds item.id).map (doc.exportedRow root) := by
  rw [exportedRow_live hitem, childRows, bucket_live hr hcanon hexact, ← live_childIds hr, List.map_map]
  apply List.map_congr_left
  intro child hchild
  exact (exportedRow_live (List.mem_of_mem_filter (mem_sortSiblings.mp hchild))).symm

theorem outline_listing : Listing (childRows (getLiveItems uuids items)) [doc.exportedRow root root] 0
    ((doc.outlineIds root).map fun e => (doc.exportedRow root e.1, e.2)) := by
  have hkids : ∀ x ∈ (doc.outlineIds root).map Prod.fst,
      childRows (getLiveItems uuids items) (doc.exportedRow root x) =
      (doc.childIds x).map (doc.exportedRow root) := by
    intro x hx
    obtain ⟨item, hitem, rfl⟩ := List.mem_map.mp ((outlineIds_once hr).mem_iff.mp hx)
    exact childRows_exported hr hcanon hexact hitem
  have hvis : Listing doc.childIds [root] 0 (doc.outlineIds root) := by
    have hbelow : Listing doc.childIds (doc.childIds root) 0 _ :=
      (doc.visibleRows_listing (fun _ => false) hr.getRootId root).1
    have hone := Listing.cons (hbelow.shift 1) (.nil 0)
    rwa [List.append_nil, List.map_map] at hone
  exact hvis.map_on (doc.exportedRow root) hkids

theorem exportsOutline : ExportsOutline doc root (getLiveItems uuids items)
    ((doc.outlineIds root).map fun e => (doc.exportedRow root e.1, e.2)) := by
  have hrow : ∀ e ∈ doc.outlineIds root, (doc.exportedRow root e.1).id = e.1 ∧
      doc.outlineRow root e.1 = some (doc.exportedRow root e.1) := by
    intro e he
    obtain ⟨item, hitem, hid⟩ := List.mem_map.mp ((outlineIds_once hr).mem_iff.mp (List.mem_map_of_mem he))
    rw [← hid, exportedRow_live hitem]
    exact ⟨rfl, outlineRow_live hitem⟩
  have hlisting := outline_listing hr hcanon hexact
  have hids : (doc.outlineIds root).map (fun e => (doc.exportedRow root e.1).id) =
      (doc.outlineIds root).map Prod.fst :=
    List.map_congr_left fun e he => (hrow e he).1
  have hperm := liveRows_perm hr hcanon hexact
  have hlength : (doc.outlineIds root).length = (getLiveItems uuids items).length := by
    have hsame := (outlineIds_once hr).length_eq
    have hlive := hperm.length_eq
    rw [List.length_map] at hlive
    rw [List.length_map, List.length_map] at hsame
    rw [hsame, hlive]
  constructor
  case ids =>
    rw [List.map_map]
    refine (List.map_congr_left fun e he => ?_).trans (List.map_id _)
    exact Prod.ext (hrow e he).1 rfl
  case row =>
    intro e' he'
    obtain ⟨e, he, rfl⟩ := List.mem_map.mp he'
    dsimp only
    rw [(hrow e he).1]
    exact (hrow e he).2
  case once =>
    rw [List.map_map]
    change ((doc.outlineIds root).map fun e => (doc.exportedRow root e.1).id).Perm _
    rw [hids]
    exact outlineIds_once hr
  case json =>
    intro exportedAt
    have hpre :=
      preorder_eq hlisting (show _ < (getLiveItems uuids items).length + 1 by rw [List.length_map]; omega)
    rw [serializeJson, bucket_none hr hcanon hexact, hpre, Option.map_some]
  case markdown =>
    have hmem : ∀ r ∈ ((doc.outlineIds root).map fun e => (doc.exportedRow root e.1, e.2)).map Prod.fst,
        r ∈ getLiveItems uuids items := by
      intro r hr'
      rw [List.map_map] at hr'
      obtain ⟨e, he, rfl⟩ := List.mem_map.mp hr'
      obtain ⟨item, hitem, hid⟩ := List.mem_map.mp ((outlineIds_once hr).mem_iff.mp (List.mem_map_of_mem he))
      change doc.exportedRow root e.1 ∈ _
      rw [← hid, exportedRow_live hitem]
      exact hperm.mem_iff.mpr (List.mem_map_of_mem hitem)
    obtain ⟨lines, hlines, hflat⟩ := render_listing getLiveItems_nodup hlisting hmem
      (show _ ≤ (getLiveItems uuids items).length + 1 by rw [List.length_map]; omega)
    rw [serializeMarkdown, bucket_none hr hcanon hexact, hlines, Option.map_some, hflat]

end Exact

end Outline

def GcTx.taken {S P Uuid T : Type} : GcTx S P Uuid T → List Uuid
  | .eligible ids => ids
  | .removing ids _ _ _ => ids
  | .removed ids _ _ => ids
  | _ => []

namespace Server

variable {T S P Uuid : Type} [DecidableEq T] [SemilatticeSup S] [OrderBot S] [DecidableEq P]
  [DecidableEq Uuid] {docs : YjsDocs S P} {lib : FractionalIndexing} {uuids : UuidText Uuid}
  {replicaId : JsString} {threshold batchSize : ℕ} {σ τ : Server T S P Uuid} {a : ServerAction T S P Uuid}

def Marked (items : Items Uuid) (u : Uuid) : Prop := ∃ row, items.get u = some row ∧ row.deletedAt ≠ none

omit [SemilatticeSup S] [OrderBot S] [DecidableEq P] in
theorem taken_update {t t' : T} {tx : GcTx S P Uuid T} {u : Uuid} (hgc : τ.gc = Function.update σ.gc t tx)
    (htx : ∀ v ∈ tx.taken, v ∈ (σ.gc t).taken ∨ Marked σ.items v) (hu : u ∈ (τ.gc t').taken) :
    u ∈ (σ.gc t').taken ∨ Marked σ.items u := by
  rw [hgc] at hu
  by_cases ht : t' = t
  · subst ht
    rw [Function.update_self] at hu
    exact htx u hu
  · rw [Function.update_of_ne ht] at hu
    exact Or.inl hu

theorem step_taken (hstep : σ.step docs lib uuids replicaId threshold batchSize a = some τ) {t : T} {u : Uuid}
    (hu : u ∈ (τ.gc t).taken) : u ∈ (σ.gc t).taken ∨ Marked σ.items u := by
  cases a with
  | log b =>
    simp only [step] at hstep
    split at hstep
    · cases hstep
    · obtain ⟨log, -, rfl⟩ := Option.map_eq_some_iff.mp hstep
      exact Or.inl hu
    · cases hstep
  | load p =>
    obtain ⟨snapshot, -, rfl⟩ := Option.map_eq_some_iff.mp hstep
    exact Or.inl hu
  | project p now foreign =>
    obtain ⟨s, r, items, projectedRev, -, -, -, rfl⟩ := project_cases hstep
    exact Or.inl hu
  | giveUp p | room s | ledger rows | connections unsynced =>
    cases hstep
    exact Or.inl hu
  | gcPrepare s cutoff =>
    simp only [step] at hstep
    split at hstep
    · split at hstep
      · cases hstep
      · cases hstep
        exact taken_update rfl (fun v hv => by cases hv) hu
    · cases hstep
  | gcLock s =>
    simp only [step] at hstep
    split at hstep
    · obtain ⟨log, -, rfl⟩ := Option.map_eq_some_iff.mp hstep
      exact taken_update rfl (fun v hv => by cases hv) hu
    · cases hstep
  | gcCheck s =>
    simp only [step] at hstep
    split at hstep
    · split at hstep
      · cases hstep
        exact taken_update rfl (fun v hv => by cases hv) hu
      · cases hstep
        refine taken_update rfl (fun v hv => Or.inr ?_) hu
        exact eligible_deleted hv
    · cases hstep
  | gcRemove s w id =>
    simp only [step] at hstep
    split at hstep
    · rename_i ids hg
      split at hstep
      · cases hstep
        exact taken_update rfl (fun v hv => by cases hv) hu
      · obtain ⟨log, -, rfl⟩ := Option.map_eq_some_iff.mp hstep
        exact taken_update rfl (fun v hv => Or.inl (by rw [hg]; exact hv)) hu
    · cases hstep
  | gcStored s =>
    simp only [step] at hstep
    split at hstep
    · rename_i ids room w row hg
      split at hstep
      · split at hstep
        · obtain ⟨log, -, rfl⟩ := Option.map_eq_some_iff.mp hstep
          exact taken_update rfl (fun v hv => Or.inl (by rw [hg]; exact hv)) hu
        · cases hstep
      · cases hstep
    · cases hstep
  | gcDelete s =>
    obtain ⟨ids, room, rev, -, rfl⟩ := gcDelete_cases hstep
    exact taken_update rfl (fun v hv => by cases hv) hu
  | gcAbort s =>
    cases hstep
    exact taken_update rfl (fun v hv => by cases hv) hu

omit [DecidableEq T] [DecidableEq P] in
theorem taken_lock (h : σ.Inv docs uuids) {t : T} {u : Uuid} (hu : u ∈ (σ.gc t).taken) :
    σ.log.documentLock = some t := by
  have hgc := h.gc t
  have hhold : σ.log.txs t = .holding := by
    cases hg : σ.gc t with
    | idle | prepared cutoff | locked cutoff =>
      rw [hg] at hu
      cases hu
    | eligible ids =>
      rw [hg] at hgc
      exact hgc
    | removing ids room w row | removed ids room rev =>
      rw [hg] at hgc
      exact hgc.1
  have htx := h.log.tx t
  rwa [hhold] at htx

/-- Where a pass has been committed and the document's ids are spelled as the database spells them, the live
rows are the live items of the projected revision; garbage collection takes only rows that are marked
deleted. -/
structure Mirrored (docs : YjsDocs S P) (uuids : UuidText Uuid) (σ : Server T S P Uuid) :
    Prop extends Inv docs uuids σ where
  exact : 0 < σ.projectedRev → ∀ root, (σ.docUpTo docs σ.projectedRev).Rooted root →
    Canonical uuids (σ.docUpTo docs σ.projectedRev).projectedRows →
      Exact uuids σ.items ((σ.docUpTo docs σ.projectedRev).liveItems root)
  taken : ∀ t, ∀ u ∈ (σ.gc t).taken, Marked σ.items u

theorem exact_delete {items : Items Uuid} {live : List ProjectedItem} {gone : List Uuid}
    (h : Exact uuids items live)
    (hgone : ∀ u ∈ gone, Marked items u) : Exact uuids (gone.foldl OrderedMap.delete items) live := by
  refine ⟨?_, ?_, h.once⟩
  · intro u row hget hlive
    rw [OrderedMap.get_foldl_delete] at hget
    split at hget
    · cases hget
    · exact h.row_item u row hget hlive
  · intro item hitem
    obtain ⟨u, row, hget, hcar⟩ := h.item_row item hitem
    refine ⟨u, row, ?_, hcar⟩
    rw [OrderedMap.get_foldl_delete, if_neg, hget]
    intro hu
    obtain ⟨row', hget', hdel⟩ := hgone u hu
    obtain ⟨-, parentId, version, -, rfl⟩ := hcar
    rw [hget] at hget'
    obtain rfl := Option.some.inj hget'
    exact hdel rfl

theorem Mirrored.gcDelete (h : σ.Mirrored docs uuids) {t : T}
    (hstep : σ.step docs lib uuids replicaId threshold batchSize (.gcDelete t) = some τ) :
    τ.Mirrored docs uuids := by
  have hinv := inv_step h.toInv hstep
  obtain ⟨ids, room, rev, hg, rfl⟩ := gcDelete_cases hstep
  refine ⟨hinv, ?_, ?_⟩
  · intro hrev root hroot hcanon
    refine exact_delete (h.exact hrev root hroot hcanon) fun u hu => h.taken t u ?_
    rw [hg]
    exact hu
  · intro t' u hu
    by_cases ht : t' = t
    · subst ht
      simp [gcEnd, setGc, GcTx.taken] at hu
    · have hold : u ∈ (σ.gc t').taken := by
        simpa only [gcEnd, setGc, Function.update_of_ne ht] using hu
      have hlock := taken_lock h.toInv hold
      rw [removed_lock h.toInv hg] at hlock
      exact absurd (Option.some.inj hlock).symm ht

omit [DecidableEq P] in
theorem Mirrored.project (h : σ.Mirrored docs uuids) {p : T} {now : ℤ} {foreign : Uuid → Bool}
    (hstep : σ.projectStep docs lib uuids replicaId p now foreign = some τ) : τ.Mirrored docs uuids := by
  have hinv := inv_project h.toInv hstep
  have happ := project_applies h.toInv hstep
  obtain ⟨s, r, items, projectedRev, -, hfree, -, rfl⟩ := project_cases hstep
  refine ⟨hinv, ?_, ?_⟩
  · intro hrev root hroot hcanon
    obtain ⟨hsame, hitems⟩ | ⟨-, -, after, hafter, hitems⟩ := happ
    · dsimp only at hsame hitems hrev
      subst hsame hitems
      exact h.exact hrev root hroot hcanon
    · dsimp only at hitems
      rw [hitems]
      exact (applied_exact_iff hroot hafter).mpr (hroot.ownRows hcanon)
  · intro t u hu
    rw [taken_lock h.toInv hu] at hfree
    cases hfree

theorem Mirrored.step (h : σ.Mirrored docs uuids)
    (hstep : σ.step docs lib uuids replicaId threshold batchSize a = some τ) : τ.Mirrored docs uuids := by
  obtain hquiet | ⟨t, rfl⟩ | ⟨p, now, foreign, rfl⟩ := step_cases hstep
  · refine ⟨inv_step h.toInv hstep, ?_, ?_⟩
    · rw [hquiet.projectedRev, hquiet.items, docUpTo_eq (quiet_extends h.toInv hquiet) h.projected]
      exact h.exact
    · intro t u hu
      rw [hquiet.items]
      exact (step_taken hstep hu).elim (h.taken t u) id
  · exact h.gcDelete hstep
  · exact h.project hstep

omit [DecidableEq T] [DecidableEq P] in
theorem mirrored_initial (docs : YjsDocs S P) (uuids : UuidText Uuid) (seed : Option ℕ) (items : Items Uuid) :
    (initial seed items : Server T S P Uuid).Mirrored docs uuids where
  toInv := inv_initial docs uuids seed items
  exact hrev := absurd hrev (Nat.lt_irrefl 0)
  taken t u hu := by cases hu

end Server

/-- In every interleaving of writers, compaction, projection and garbage collection, from the first
committed pass on: both exports show the outline of the projected revision. -/
theorem export_shows_outline {T S P Uuid : Type} [DecidableEq T] [SemilatticeSup S] [OrderBot S]
    [DecidableEq P] [DecidableEq Uuid] {docs : YjsDocs S P} {lib : FractionalIndexing}
    {uuids : UuidText Uuid} {replicaId : JsString} {threshold batchSize : ℕ} {seed : Option ℕ}
    {items : Items Uuid} {σ : Server T S P Uuid}
    (h : Runs (Server.step docs lib uuids replicaId threshold batchSize) (fun _ _ => True)
      (Server.initial seed items) σ)
    (hpass : 0 < σ.projectedRev) {root : JsString} (hroot : (σ.docUpTo docs σ.projectedRev).Rooted root)
    (hcanon : Canonical uuids (σ.docUpTo docs σ.projectedRev).projectedRows) :
    ∃ out, ExportsOutline (σ.docUpTo docs σ.projectedRev) root (getLiveItems uuids σ.items) out := by
  have hinv : σ.Mirrored docs uuids := h.invariant (fun hi _ hstep => hi.step hstep)
    (Server.mirrored_initial docs uuids seed items)
  have hlive : Canonical uuids ((σ.docUpTo docs σ.projectedRev).liveItems root) :=
    fun item hitem => hcanon item (hroot.live_iff.mp hitem).1
  exact ⟨_, exportsOutline hroot hlive (hinv.exact hpass root hroot hcanon)⟩

def bothProjected : List (ServerAction ℕ (Finset ℕ) (Option (Finset ℕ)) (Fin 16)) :=
  appendUpdate 1 1 {1} ++ appendUpdate 2 2 {2} ++ [.load 7, .project 7 0 fun _ => false]

theorem export_shows_outline_child :
    ∃ σ, execute (Server.step (growingDocs (js ['a'])) sampleKeys hexDigits [] 0 10)
      (Server.initial none .empty)
        bothProjected = some σ ∧
      ∃ out, ExportsOutline (placedDoc (js ['a']) [(js ['a'], ROOT_PARENT_SENTINEL), (js ['b'], js ['a'])])
        (js ['a'])
          (getLiveItems hexDigits σ.items) out ∧
        out.map (fun e => (e.1.id, e.2)) = [(js ['a'], 0), (js ['b'], 1)] := by
  have hrun : ∃ σ, execute (Server.step (growingDocs (js ['a'])) sampleKeys hexDigits [] 0 10)
        (Server.initial none .empty) bothProjected = some σ ∧ σ.projectedRev = 2 ∧
      σ.docUpTo (growingDocs (js ['a'])) 2 =
        placedDoc (js ['a']) [(js ['a'], ROOT_PARENT_SENTINEL), (js ['b'], js ['a'])] := ⟨_, rfl, rfl, rfl⟩
  obtain ⟨σ, hσ, hrev, hdoc⟩ := hrun
  have hrooted : (σ.docUpTo (growingDocs (js ['a'])) σ.projectedRev).Rooted (js ['a']) := by
    rw [hrev, hdoc]
    exact ⟨rfl, rfl, by decide, by decide, by decide⟩
  have hcanon : Canonical hexDigits (σ.docUpTo (growingDocs (js ['a'])) σ.projectedRev).projectedRows := by
    rw [hrev, hdoc]
    unfold Canonical
    decide
  obtain ⟨out, hout⟩ := export_shows_outline (execute_runs hσ) (by omega) hrooted hcanon
  rw [hrev, hdoc] at hout
  refine ⟨σ, hσ, out, hout, ?_⟩
  rw [hout.ids]
  decide

end OpenOutliner
