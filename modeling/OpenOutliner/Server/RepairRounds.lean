import OpenOutliner.Server.EffectiveDeletion
import OpenOutliner.Server.Projector
import OpenOutliner.Shared.CycleRepairs

namespace OpenOutliner

open Foundations Relation

section Pass

variable (lib : FractionalIndexing) (replicaId : JsString) (now : ℕ → ℤ) (reload : ℕ → Doc → Doc)

/-- A repair is written into the node as it stands; other fields stay. -/
def Doc.applyRepair (doc : Doc) (repair : CycleRepair) : Doc :=
  doc.updateNode repair.itemId fun node =>
    { node with move := some ⟨repair.newParentId, repair.newRank, repair.newHlc⟩ }

def Doc.applyRepairs (doc : Doc) (repairs : List CycleRepair) : Doc := repairs.foldl Doc.applyRepair doc

/-- `projectDocument` up to its locked transaction, which then reads these rows. `reload` is the document
that the log gives after a repaired one has been stored, with whatever others have written meanwhile. None
if more than `fuel` passes are needed. -/
def settleWithin : ℕ → ℕ → Doc → Option (Except JsError (Doc × List ProjectedItem))
  | 0, _, _ => none
  | fuel + 1, round, doc =>
    match projectSnapshots lib doc.readAllSnapshots (now round) replicaId doc.canonicalRoot with
    | .error e => some (.error e)
    | .ok ⟨rows, []⟩ => some (.ok (doc, rows))
    | .ok ⟨_, repair :: repairs⟩ =>
      settleWithin fuel (round + 1) (reload round (doc.applyRepairs (repair :: repairs)))

def Doc.Legacy (doc : Doc) : Prop := doc.canonicalRoot.filter (· ≠ []) = none

def liveSnapshots (snapshots : List ItemNodeSnapshot) : List ItemNodeSnapshot :=
  snapshots.filter fun s => !((computeEffectiveDeleted snapshots).get s.id).getD false

def Doc.liveNodes (doc : Doc) : List CycleNode :=
  (liveSnapshots doc.readAllSnapshots).map ItemNodeSnapshot.toCycleNode

end Pass

section Snapshots

variable {doc : Doc} {snapshots : List ItemNodeSnapshot} {repairs : List CycleRepair} {s : ItemNodeSnapshot}
  {x y : JsString}

def moveSnapshot (s : ItemNodeSnapshot) (r : CycleRepair) : ItemNodeSnapshot :=
  if s.id = r.itemId then { s with move := ⟨r.newParentId, r.newRank, r.newHlc⟩ } else s

theorem moveSnapshot_node (s : ItemNodeSnapshot) (r : CycleRepair) :
    (moveSnapshot s r).toCycleNode = writeMove s.toCycleNode r := by
  unfold moveSnapshot writeMove
  change (if s.id = r.itemId then _ else s).toCycleNode = if s.id = r.itemId then _ else _
  split <;> rfl

theorem moveSnapshots_node (s : ItemNodeSnapshot) (repairs : List CycleRepair) :
    (repairs.foldl moveSnapshot s).toCycleNode = repairs.foldl writeMove s.toCycleNode := by
  induction repairs generalizing s with
  | nil => rfl
  | cons r repairs ih => rw [List.foldl_cons, ih, moveSnapshot_node, List.foldl_cons]

theorem moveSnapshots_rest (s : ItemNodeSnapshot) (repairs : List CycleRepair) :
    repairs.foldl moveSnapshot s = { s with move := (repairs.foldl moveSnapshot s).move } := by
  induction repairs generalizing s with
  | nil => rfl
  | cons r repairs ih =>
    rw [List.foldl_cons, ih]
    unfold moveSnapshot
    split <;> rfl

theorem moveSnapshots_none {repairs : List CycleRepair} (h : s.id ∉ repairs.map CycleRepair.itemId) :
    repairs.foldl moveSnapshot s = s := by
  induction repairs with
  | nil => rfl
  | cons r repairs ih =>
    rw [List.map_cons, List.mem_cons, not_or] at h
    rw [List.foldl_cons, moveSnapshot, if_neg h.1]
    exact ih h.2

theorem moveSnapshots_id (s : ItemNodeSnapshot) (repairs : List CycleRepair) :
    (repairs.foldl moveSnapshot s).id = s.id := by
  rw [moveSnapshots_rest]

theorem snapshotIds_moved (snapshots : List ItemNodeSnapshot) (repairs : List CycleRepair) :
    snapshotIds (snapshots.map fun s => repairs.foldl moveSnapshot s) = snapshotIds snapshots := by
  rw [snapshotIds, List.map_map]
  exact List.map_congr_left fun s _ => moveSnapshots_id s repairs

theorem snapshots_applyRepair {r : CycleRepair} (hr : r.itemId ∈ snapshotIds doc.readAllSnapshots) :
    (doc.applyRepair r).readAllSnapshots = doc.readAllSnapshots.map fun s => moveSnapshot s r := by
  obtain ⟨s, hs, hid⟩ := List.mem_map.mp hr
  obtain ⟨⟨k, node⟩, he, hread⟩ := List.mem_filterMap.mp hs
  obtain ⟨move, hmove, rfl⟩ := Option.map_eq_some_iff.mp hread
  obtain rfl : k = r.itemId := hid
  replace hmove : node.move = some move := hmove
  have hget : doc.items.get r.itemId = some node := (OrderedMap.mem_entries_iff _ _ _).mp he
  have hkey : r.itemId ∈ doc.items.keys := (OrderedMap.mem_keys_iff _ _).mpr ⟨node, hget⟩
  rw [Doc.applyRepair, Doc.updateNode, hget]
  dsimp only
  rw [Doc.readAllSnapshots, Doc.readAllSnapshots, List.map_filterMap]
  change (doc.items.set r.itemId _).entries.filterMap
    (fun e => readNodeSnapshot doc.schemaVersion e.1 e.2) = _
  rw [OrderedMap.entries_set_of_mem _ hkey, List.filterMap_map]
  apply List.filterMap_congr
  rintro ⟨k, node'⟩ he'
  by_cases hk : k = r.itemId
  · subst hk
    obtain rfl : node' = node := Option.some.inj (((OrderedMap.mem_entries_iff _ _ _).mp he').symm.trans hget)
    simp [readNodeSnapshot, hmove, moveSnapshot, readDeleted, readType, Node.hasActiveDelete]
  · rw [Function.comp_apply, if_neg hk]
    unfold readNodeSnapshot
    cases node'.move with
    | none => rfl
    | some move' => simp [moveSnapshot, hk]

theorem snapshots_applyRepairs (hr : ∀ r ∈ repairs, r.itemId ∈ snapshotIds doc.readAllSnapshots) :
    (doc.applyRepairs repairs).readAllSnapshots =
    doc.readAllSnapshots.map fun s => repairs.foldl moveSnapshot s := by
  induction repairs generalizing doc with
  | nil => simp [Doc.applyRepairs]
  | cons r repairs ih =>
    have hfirst := snapshots_applyRepair (hr r List.mem_cons_self)
    have hids : snapshotIds (doc.applyRepair r).readAllSnapshots = snapshotIds doc.readAllSnapshots := by
      rw [hfirst]
      exact snapshotIds_moved doc.readAllSnapshots [r]
    have hrest := @ih (doc.applyRepair r) fun q hq => by rw [hids]; exact hr q (List.mem_cons_of_mem _ hq)
    rw [hfirst, List.map_map] at hrest
    exact hrest

end Snapshots

section Live

variable {snapshots : List ItemNodeSnapshot} {s : ItemNodeSnapshot} {x y : JsString}

theorem mem_liveSnapshots (hnd : (snapshotIds snapshots).Nodup) :
    s ∈ liveSnapshots snapshots ↔ s ∈ snapshots ∧ ¬ EffectivelyDeleted snapshots s.id := by
  rw [liveSnapshots, List.mem_filter]
  refine and_congr_right fun hs => ?_
  have hget := (computeEffectiveDeleted_spec hnd).2 s.id
  have hlisted : s.id ∈ snapshotIds snapshots := List.mem_map_of_mem hs
  by_cases hdel : EffectivelyDeleted snapshots s.id
  · simp [(hget true).mpr ⟨hlisted, by simp [hdel]⟩, hdel]
  · simp [(hget false).mpr ⟨hlisted, by simp [hdel]⟩, hdel]

theorem deleted_below_parent (hstep : ListedParent snapshots x y) (h : EffectivelyDeleted snapshots y) :
    EffectivelyDeleted snapshots x := by
  obtain ⟨z, hz, hflag⟩ := h
  exact ⟨z, .head hstep hz, hflag⟩

end Live

section Repaired

variable {lib : FractionalIndexing} {snapshots : List ItemNodeSnapshot} {root : CycleNode}
  {repairs : List CycleRepair} {s : ItemNodeSnapshot} {x y : JsString}

abbrev nodesOf (snapshots : List ItemNodeSnapshot) : List CycleNode :=
  (liveSnapshots snapshots).map ItemNodeSnapshot.toCycleNode

abbrev movedAll (snapshots : List ItemNodeSnapshot) (repairs : List CycleRepair) : List ItemNodeSnapshot :=
  snapshots.map fun s => repairs.foldl moveSnapshot s

variable (hnd : (snapshotIds snapshots).Nodup) (hroot : IsRoot (nodesOf snapshots) root)
  (h : Repaired lib (nodesOf snapshots) root repairs)

theorem flagged_moved : Flagged (movedAll snapshots repairs) x ↔ Flagged snapshots x := by
  constructor
  · rintro ⟨s', hs', hid, hflag⟩
    obtain ⟨s, hs, rfl⟩ := List.mem_map.mp hs'
    rw [moveSnapshots_rest] at hid hflag
    exact ⟨s, hs, hid, hflag⟩
  · rintro ⟨s, hs, hid, hflag⟩
    refine ⟨_, List.mem_map_of_mem hs, ?_, ?_⟩
    · rwa [moveSnapshots_id]
    · rwa [moveSnapshots_rest]

theorem listedParent_kept (hx : x ∉ repairs.map CycleRepair.itemId) :
    ListedParent (movedAll snapshots repairs) x y ↔ ListedParent snapshots x y := by
  have hsame : ∀ s : ItemNodeSnapshot, s.id = x → repairs.foldl moveSnapshot s = s := fun s hs =>
    moveSnapshots_none (hs ▸ hx)
  unfold ListedParent
  rw [snapshotIds_moved]
  constructor
  · rintro ⟨s', hs', hid, hrest⟩
    obtain ⟨s, hs, rfl⟩ := List.mem_map.mp hs'
    rw [moveSnapshots_id] at hid
    rw [hsame s hid] at hrest
    exact ⟨s, hs, hid, hrest⟩
  · rintro ⟨s, hs, hid, hrest⟩
    refine ⟨_, List.mem_map_of_mem hs, ?_, ?_⟩
    · rwa [moveSnapshots_id]
    · rwa [hsame s hid]

include hnd

theorem nodesOf_nodup : (nodeIds (nodesOf snapshots)).Nodup := by
  rw [nodeIds, List.map_map]
  exact hnd.sublist (List.filter_sublist.map _)

include h

theorem freed_live (hx : x ∈ repairs.map CycleRepair.itemId) :
    x ∈ snapshotIds snapshots ∧ ¬ EffectivelyDeleted snapshots x := by
  obtain ⟨r, hr, rfl⟩ := List.mem_map.mp hx
  obtain ⟨c, -, hcr⟩ := h.only r hr
  obtain ⟨m, hm, hid, -⟩ := hcr.freed
  obtain ⟨s, hs, rfl⟩ := List.mem_map.mp hm.mem
  obtain ⟨hlisted, hlive⟩ := (mem_liveSnapshots hnd).mp hs
  rw [hid]
  exact ⟨List.mem_map_of_mem hlisted, hlive⟩

theorem listedParent_freed (hx : x ∈ repairs.map CycleRepair.itemId)
    (hstep : ListedParent (movedAll snapshots repairs) x y) :
    y = root.id := by
  obtain ⟨s', hs', hid, rfl, -⟩ := hstep
  obtain ⟨s, hs, rfl⟩ := List.mem_map.mp hs'
  obtain ⟨r, hr, hitem⟩ := List.mem_map.mp hx
  rw [moveSnapshots_id] at hid
  have hmoved := h.moved (nodesOf_nodup hnd) (n := s.toCycleNode) hr (hid.trans hitem.symm)
  rw [← moveSnapshots_node] at hmoved
  exact congrArg CycleNode.parentId hmoved

include hroot

theorem root_live' : ¬ EffectivelyDeleted snapshots root.id := by
  obtain ⟨s, hs, rfl⟩ := List.mem_map.mp hroot.mem
  exact ((mem_liveSnapshots hnd).mp hs).2

theorem effectivelyDeleted_moved : EffectivelyDeleted (movedAll snapshots repairs) x ↔
    EffectivelyDeleted snapshots x := by
  constructor
  · rintro ⟨y, hpath, hflag⟩
    induction hpath using ReflTransGen.head_induction_on with
    | refl => exact ⟨y, .refl, flagged_moved.mp hflag⟩
    | @head a b hstep _ ih =>
      by_cases ha : a ∈ repairs.map CycleRepair.itemId
      · rw [listedParent_freed hnd h ha hstep] at ih
        exact absurd ih (root_live' hnd hroot h)
      · exact deleted_below_parent ((listedParent_kept ha).mp hstep) ih
  · rintro ⟨y, hpath, hflag⟩
    induction hpath using ReflTransGen.head_induction_on with
    | refl => exact ⟨y, .refl, flagged_moved.mpr hflag⟩
    | @head a b hstep hrest ih =>
      have ha : a ∉ repairs.map CycleRepair.itemId := fun hin =>
        (freed_live hnd h hin).2 ⟨y, .head hstep hrest, hflag⟩
      exact deleted_below_parent ((listedParent_kept ha).mpr hstep) ih

theorem liveSnapshots_moved : liveSnapshots (movedAll snapshots repairs) =
    movedAll (liveSnapshots snapshots) repairs := by
  have hnd' : (snapshotIds (movedAll snapshots repairs)).Nodup := by rwa [snapshotIds_moved]
  have hget : ∀ x, (computeEffectiveDeleted (movedAll snapshots repairs)).get x =
      (computeEffectiveDeleted snapshots).get x := by
    refine get_ext (fun x b => ?_) fun x b => (computeEffectiveDeleted_spec hnd).2 x b
    rw [(computeEffectiveDeleted_spec hnd').2, snapshotIds_moved, effectivelyDeleted_moved hnd hroot h]
  rw [liveSnapshots, liveSnapshots, List.filter_map]
  congr 1
  apply List.filter_congr
  intro s _
  rw [Function.comp_apply, moveSnapshots_id, hget]

theorem nodesOf_moved : nodesOf (movedAll snapshots repairs) = applyRepairs (nodesOf snapshots) repairs := by
  rw [nodesOf, liveSnapshots_moved hnd hroot h, List.map_map, applyRepairs_eq, List.map_map]
  exact List.map_congr_left fun s _ => moveSnapshots_node s repairs

end Repaired

section Documents

variable {lib : FractionalIndexing} {doc : Doc} {repairs : List CycleRepair} {x : JsString}

theorem legacy_tree (hlegacy : doc.Legacy) :
    projectionTree doc.readAllSnapshots doc.canonicalRoot = none := by
  rw [projectionTree, hlegacy, Option.map_none]

theorem legacy_project (hlegacy : doc.Legacy) (nowMs : ℤ) (replicaId : JsString) :
    projectSnapshots lib doc.readAllSnapshots nowMs replicaId doc.canonicalRoot =
      (computeCycleRepairs lib doc.liveNodes ⟨replicaId, nowMs⟩).map fun repairs =>
      ⟨doc.projectedRows, repairs⟩ := by
  rw [projectSnapshots, Doc.projectedRows, legacy_tree hlegacy]
  change Except.bind (computeCycleRepairs lib doc.liveNodes ⟨replicaId, nowMs⟩) _ = _
  cases computeCycleRepairs lib doc.liveNodes ⟨replicaId, nowMs⟩ <;> rfl

theorem legacy_live (hlegacy : doc.Legacy) : doc.Live x ↔
    x ∈ snapshotIds doc.readAllSnapshots ∧ ¬ EffectivelyDeleted doc.readAllSnapshots x := by
  have hnd : (snapshotIds doc.readAllSnapshots).Nodup := snapshots_nodup
  have hrow : ∀ s ∈ doc.readAllSnapshots,
      ((computeEffectiveDeleted doc.readAllSnapshots).get s.id).getD s.deleted.isDeleted =
      false ↔ ¬ EffectivelyDeleted doc.readAllSnapshots s.id := by
    intro s hs
    have hget := (computeEffectiveDeleted_spec hnd).2 s.id
    have hlisted : s.id ∈ snapshotIds doc.readAllSnapshots := List.mem_map_of_mem hs
    by_cases hdel : EffectivelyDeleted doc.readAllSnapshots s.id
    · simp [(hget true).mpr ⟨hlisted, by simp [hdel]⟩, hdel]
    · simp [(hget false).mpr ⟨hlisted, by simp [hdel]⟩, hdel]
  rw [Doc.Live, Doc.projectedRows, legacy_tree hlegacy]
  constructor
  · rintro ⟨row, hmem, rfl, hlive⟩
    obtain ⟨s, hs, rfl⟩ := List.mem_map.mp hmem
    exact ⟨List.mem_map_of_mem hs, (hrow s hs).mp hlive⟩
  · rintro ⟨hlisted, hlive⟩
    obtain ⟨s, hs, rfl⟩ := List.mem_map.mp hlisted
    exact ⟨_, List.mem_map_of_mem hs, rfl, (hrow s hs).mpr hlive⟩

theorem snapshot_node {s : ItemNodeSnapshot} (hs : s ∈ doc.readAllSnapshots) :
    ∃ node, doc.items.get s.id = some node ∧ node.move = some s.move := by
  obtain ⟨⟨k, node⟩, he, hread⟩ := List.mem_filterMap.mp hs
  obtain ⟨move, hmove, rfl⟩ := Option.map_eq_some_iff.mp hread
  exact ⟨node, (OrderedMap.mem_entries_iff _ _ _).mp he, hmove⟩

theorem applyRepairs_meta (doc : Doc) (repairs : List CycleRepair) :
    (doc.applyRepairs repairs).schemaVersion =
    doc.schemaVersion ∧ (doc.applyRepairs repairs).rootId = doc.rootId := by
  induction repairs generalizing doc with
  | nil => exact ⟨rfl, rfl⟩
  | cons r repairs ih =>
    obtain ⟨hversion, hroot⟩ := ih (doc.applyRepair r)
    have hfirst : (doc.applyRepair r).schemaVersion = doc.schemaVersion ∧
        (doc.applyRepair r).rootId = doc.rootId := by
      unfold Doc.applyRepair Doc.updateNode
      split <;> exact ⟨rfl, rfl⟩
    exact ⟨hversion.trans hfirst.1, hroot.trans hfirst.2⟩

theorem applyRepairs_kept (hx : x ∉ repairs.map CycleRepair.itemId) :
    (doc.applyRepairs repairs).items.get x = doc.items.get x := by
  induction repairs generalizing doc with
  | nil => rfl
  | cons r repairs ih =>
    rw [List.map_cons, List.mem_cons, not_or] at hx
    have hrest := @ih (doc.applyRepair r) hx.2
    rw [Doc.applyRepair, Doc.updateNode_get, if_neg hx.1] at hrest
    exact hrest

theorem applyRepairs_moved (hnd : (repairs.map CycleRepair.itemId).Nodup) {r : CycleRepair}
    (hr : r ∈ repairs) :
    (doc.applyRepairs repairs).items.get r.itemId = (doc.items.get r.itemId).map fun node =>
      { node with move := some ⟨r.newParentId, r.newRank, r.newHlc⟩ } := by
  induction repairs generalizing doc with
  | nil => cases hr
  | cons q repairs ih =>
    rw [List.map_cons, List.nodup_cons] at hnd
    change ((doc.applyRepair q).applyRepairs repairs).items.get r.itemId = _
    obtain rfl | hr := List.mem_cons.mp hr
    · rw [applyRepairs_kept hnd.1, Doc.applyRepair, Doc.updateNode_get, if_pos rfl]
    · have hne : r.itemId ≠ q.itemId := fun he => hnd.1 (he ▸ List.mem_map_of_mem hr)
      rw [ih hnd.2 hr, Doc.applyRepair, Doc.updateNode_get, if_neg hne]

end Documents

section Settled

/-- `doc'` is `doc` with the loops among its live items taken apart: one item of each has gone to the end of
the root's children, with a stamp above the loop's; nothing else has changed, and the same items are live.
-/
structure Settled (doc doc' : Doc) (root : CycleNode) : Prop where
  heading : doc'.schemaVersion = doc.schemaVersion ∧ doc'.rootId = doc.rootId
  live : ∀ x, doc'.Live x ↔ doc.Live x
  acyclic : ∀ x, ¬ TransGen (ParentEdge doc'.liveNodes) x x
  one : ∀ c, IsCycle doc.liveNodes c → ∃! x, x ∈ c ∧ doc'.items.get x ≠ doc.items.get x
  moved : ∀ x, doc'.items.get x ≠ doc.items.get x → TransGen (ParentEdge doc.liveNodes) x x ∧ ∃ node move,
    doc.items.get x = some node ∧ doc'.items.get x = some { node with move := some move } ∧
    move.parentId = root.id ∧
      (∀ s ∈ doc.liveNodes, s.parentId = root.id → s.rank < move.rank) ∧
      ∀ n ∈ doc.liveNodes, TransGen (ParentEdge doc.liveNodes) x n.id → n.hlc < move.hlc

variable {lib : FractionalIndexing} {doc : Doc} {root : CycleNode} {repairs : List CycleRepair} {x : JsString}
  (hroot : IsRoot doc.liveNodes root) (h : Repaired lib doc.liveNodes root repairs)

include hroot h

theorem changed_iff : (doc.applyRepairs repairs).items.get x ≠ doc.items.get x ↔
    x ∈ repairs.map CycleRepair.itemId := by
  have hnd : (nodeIds doc.liveNodes).Nodup := nodesOf_nodup snapshots_nodup
  constructor
  · intro hne
    by_contra hx
    exact hne (applyRepairs_kept hx)
  · intro hx heq
    obtain ⟨r, hr, rfl⟩ := List.mem_map.mp hx
    obtain ⟨c, -, hcr⟩ := h.only r hr
    obtain ⟨m, hm, hid, -⟩ := hcr.freed
    obtain ⟨s, hs, rfl⟩ := List.mem_map.mp hm.mem
    obtain ⟨node, hget, hmove⟩ := snapshot_node (List.mem_of_mem_filter hs)
    rw [applyRepairs_moved (h.distinct hnd) hr, hid, show s.toCycleNode.id = s.id from rfl, hget,
      Option.map_some] at heq
    have hsame := congrArg Node.move (Option.some.inj heq)
    rw [hmove] at hsame
    apply h.away hnd hroot hr hm.mem hid.symm
    rw [← hcr.parent]
    exact (congrArg MoveRegister.parentId (Option.some.inj hsame)).symm

theorem applyRepairs_nodes : (doc.applyRepairs repairs).liveNodes = applyRepairs doc.liveNodes repairs := by
  have hids : ∀ r ∈ repairs, r.itemId ∈ snapshotIds doc.readAllSnapshots := fun r hr =>
    (freed_live snapshots_nodup h (List.mem_map_of_mem hr)).1
  rw [Doc.liveNodes, snapshots_applyRepairs hids]
  exact nodesOf_moved snapshots_nodup hroot h

theorem applyRepairs_live (hlegacy : doc.Legacy) (hlegacy' : (doc.applyRepairs repairs).Legacy) :
    (doc.applyRepairs repairs).Live x ↔ doc.Live x := by
  have hids : ∀ r ∈ repairs, r.itemId ∈ snapshotIds doc.readAllSnapshots := fun r hr =>
    (freed_live snapshots_nodup h (List.mem_map_of_mem hr)).1
  rw [legacy_live hlegacy, legacy_live hlegacy', snapshots_applyRepairs hids, snapshotIds_moved,
    effectivelyDeleted_moved snapshots_nodup hroot h]

theorem settled_of (hlegacy : doc.Legacy) (hlegacy' : (doc.applyRepairs repairs).Legacy)
    (hlast : ∀ id k, rankAfter lib (lastRank (childRanks doc.liveNodes root)) id = .ok k →
      ∀ s ∈ doc.liveNodes, s.parentId = root.id →
      s.rank < k) : Settled doc (doc.applyRepairs repairs) root := by
  have hnd : (nodeIds doc.liveNodes).Nodup := nodesOf_nodup snapshots_nodup
  constructor
  case heading => exact applyRepairs_meta doc repairs
  case live => exact fun x => applyRepairs_live hroot h hlegacy hlegacy'
  case acyclic =>
    intro x
    rw [applyRepairs_nodes hroot h]
    exact h.acyclic hnd hroot
  case one =>
    intro c hc
    obtain ⟨x, hx⟩ := List.exists_mem_of_ne_nil c hc.ne_nil
    obtain ⟨r, hr, hpath⟩ := h.freed hnd (hc.connected hx hx)
    have hrc := hc.closed hnd hx hpath
    refine ⟨r.itemId, ⟨hrc, (changed_iff hroot h).mpr (List.mem_map_of_mem hr)⟩, ?_⟩
    rintro y ⟨hyc, hy⟩
    obtain ⟨q, hq, rfl⟩ := List.mem_map.mp ((changed_iff hroot h).mp hy)
    rw [h.freed_unique hr hq hc hrc hyc]
  case moved =>
    intro x hx
    obtain ⟨r, hr, rfl⟩ := List.mem_map.mp ((changed_iff hroot h).mp hx)
    obtain ⟨c, hc, hcr⟩ := h.only r hr
    have hcycle := (detectCycles_spec hnd).1 c hc
    obtain ⟨m, hm, hid, hlt⟩ := hcr.freed
    obtain ⟨s, hs, rfl⟩ := List.mem_map.mp hm.mem
    obtain ⟨node, hget, -⟩ := snapshot_node (List.mem_of_mem_filter hs)
    rw [show s.id = r.itemId from hid.symm] at hget
    refine ⟨h.item_cycle hnd hr, node, ⟨r.newParentId, r.newRank, r.newHlc⟩, hget, ?_, hcr.parent, ?_, ?_⟩
    · rw [applyRepairs_moved (h.distinct hnd) hr, hget, Option.map_some]
    · exact hlast r.itemId r.newRank hcr.rank
    · intro n hn hpath
      exact (hm.greatest n hn (hcycle.closed hnd hcr.item_mem hpath)).trans_lt hlt

end Settled

/-- The pass stores repairs once and finds nothing to repair in the document it has stored; it goes on only
where another writer has been there meanwhile. -/
theorem projectDocument_settles {lib : FractionalIndexing} {Key : JsString → Prop} (hlib : lib.Lawful Key)
    {doc : Doc} (hlegacy : doc.Legacy) {root : CycleNode} (hroot : IsRoot doc.liveNodes root)
    (hranks : ∀ n ∈ doc.liveNodes, Key n.rank) (replicaId : JsString) (now : ℕ → ℤ) (round : ℕ) :
    ∃ doc', Settled doc doc' root ∧
      (∀ reload : ℕ → Doc → Doc, reload round doc' = doc' →
        settleWithin lib replicaId now reload 2 round doc = some (.ok (doc', doc'.projectedRows))) ∧
      ((∀ x, ¬ TransGen (ParentEdge doc.liveNodes) x x) → doc' = doc) := by
  have hnd : (nodeIds doc.liveNodes).Nodup := nodesOf_nodup snapshots_nodup
  have hrank : ∀ id, ∃ k, rankAfter lib (lastRank (childRanks doc.liveNodes root)) id = .ok k ∧ Key k ∧
      Between (lastRank (childRanks doc.liveNodes root)) k none :=
    fun id => rankAfter_ok hlib (fun k hk => childRanks_key hranks hk) id
  obtain ⟨repairs, hrun, hall⟩ : ∃ repairs, computeCycleRepairs lib doc.liveNodes ⟨replicaId, now round⟩ =
      .ok repairs ∧ _ :=
    computeCycleRepairs_ok hnd hroot fun id => (hrank id).imp fun _ hk => hk.1
  have h := repaired_of hnd hall
  have hlast : ∀ id k, rankAfter lib (lastRank (childRanks doc.liveNodes root)) id = .ok k →
      ∀ s ∈ doc.liveNodes, s.parentId = root.id → s.rank < k := by
    intro id k hk s hs hsr
    obtain ⟨k', hk', -, hbetween⟩ := hrank id
    obtain rfl := Except.ok.inj (hk.symm.trans hk')
    obtain ⟨l, hl, hle⟩ := childRanks_le hs hsr
    exact hle.trans_lt (hbetween.1 l hl)
  have hlegacy' : (doc.applyRepairs repairs).Legacy := by
    obtain ⟨hversion, hid⟩ := applyRepairs_meta doc repairs
    rwa [Doc.Legacy, Doc.canonicalRoot, hversion, hid]
  have hfirst := @legacy_project lib doc hlegacy (now round) replicaId
  rw [hrun] at hfirst
  refine ⟨doc.applyRepairs repairs, settled_of hroot h hlegacy hlegacy' hlast, ?_, ?_⟩
  · intro reload hquiet
    rw [settleWithin, hfirst]
    cases repairs with
    | nil => rfl
    | cons r rest =>
      have hnil : computeCycleRepairs lib (doc.applyRepairs (r :: rest)).liveNodes
          ⟨replicaId, now (round + 1)⟩ = .ok [] :=
        computeCycleRepairs_nil (nodesOf_nodup snapshots_nodup)
          (settled_of hroot h hlegacy hlegacy' hlast).acyclic
      have hsecond := @legacy_project lib _ hlegacy' (now (round + 1)) replicaId
      rw [hnil] at hsecond
      change settleWithin lib replicaId now reload 1 (round + 1)
        (reload round (doc.applyRepairs (r :: rest))) = _
      rw [hquiet, settleWithin, hsecond]
      rfl
  · intro hno
    rw [detectCycles_nil hnd hno, List.forall₂_nil_left_iff] at hall
    rw [hall]
    rfl

section Example

def placedNode (n : CycleNode) (isDeleted : Bool) : JsString × Node :=
  (n.id, { freshNode with move := some ⟨n.parentId, n.rank, n.hlc⟩, deleted := some ⟨isDeleted, n.hlc⟩ })

def loopedDoc : Doc :=
  ⟨none, none, .ofList [placedNode (cycleNode (js ['t']) (js ['x']) 9) false, placedNode outlineRoot false,
    placedNode (cycleNode (js ['x']) (js ['y']) 5) false,
    placedNode (cycleNode (js ['y']) (js ['x']) 7) false,
    placedNode (cycleNode (js ['d']) (js ['e']) 1) true,
    placedNode (cycleNode (js ['e']) (js ['d']) 2) false]⟩

theorem projectDocument_settles_looped : ∃ doc', Settled loopedDoc doc' outlineRoot ∧ doc' ≠ loopedDoc ∧
    settleWithin sampleKeys (js ['s']) (fun _ => 3) (fun _ stored => stored) 2 0 loopedDoc =
      some (.ok (doc', doc'.projectedRows)) := by
  have hkey : ∀ n ∈ loopedDoc.liveNodes, SampleKey n.rank := by
    intro n hn
    have hrank : n.rank = js ['a'] ++ js ['0'] := by
      revert n
      decide
    exact ⟨js ['a'], _, hrank, by decide⟩
  have hroot : IsRoot loopedDoc.liveNodes outlineRoot := ⟨by decide, by decide, by decide⟩
  obtain ⟨doc', hsettled, hruns, -⟩ :=
    projectDocument_settles sampleKeys_lawful (show loopedDoc.Legacy from rfl) hroot hkey (js ['s'])
    (fun _ => 3) 0
  refine ⟨doc', hsettled, ?_, hruns _ rfl⟩
  rintro rfl
  have hxy : ParentEdge loopedDoc.liveNodes (js ['x']) (js ['y']) :=
    ⟨cycleNode (js ['x']) (js ['y']) 5, by decide, rfl, rfl, rfl, by decide⟩
  have hyx : ParentEdge loopedDoc.liveNodes (js ['y']) (js ['x']) :=
    ⟨cycleNode (js ['y']) (js ['x']) 7, by decide, rfl, rfl, rfl, by decide⟩
  exact hsettled.acyclic _ (.tail (.single hxy) hyx)

end Example

end OpenOutliner
