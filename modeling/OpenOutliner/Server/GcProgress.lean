import OpenOutliner.Server.LedgerJoin
import OpenOutliner.Server.TenancyInvariants

namespace OpenOutliner

open Foundations

structure GcConfig (D : Type) where
  retentionMs : ℤ
  batchSize : ℕ
  batchSize_pos : 0 < batchSize
  liveConnections : List (D × Bool)
  replicaStaleTtlMs : ℤ
  neverAckedCap : ℕ

structure GcDb (D Uuid : Type) where
  items : OrderedMap Uuid (TenantRow D Uuid)
  replicas : ReplicaTable D

namespace GcDb

variable {D Uuid : Type} [LinearOrder D] [LinearOrder Uuid]

def isStale (cutoff : ℤ) (r : TenantRow D Uuid) : Bool := r.row.deletedAt.any fun t => decide (t < cutoff)

def staleDocuments (items : OrderedMap Uuid (TenantRow D Uuid)) (cutoff : ℤ) : List D :=
  ((items.values.filter (isStale cutoff)).map TenantRow.documentId).dedup

def minDeletedAt (items : OrderedMap Uuid (TenantRow D Uuid)) (cutoff : ℤ) (d : D) : ℤ :=
  ((items.values.filter fun r => isStale cutoff r && decide (r.documentId = d)).filterMap fun r =>
    r.row.deletedAt).min?.getD 0

/-- The order of `D` is the one in which the database happens to leave ties. -/
def staleKey (items : OrderedMap Uuid (TenantRow D Uuid)) (cutoff : ℤ) (d : D) : ℤ ×ₗ D :=
  toLex (minDeletedAt items cutoff d, d)

def staleLimit : ℕ := 200

def getStaleDocuments (items : OrderedMap Uuid (TenantRow D Uuid)) (cutoff : ℤ) : List D :=
  ((staleDocuments items cutoff).insertionSort fun a b => staleKey items cutoff a ≤
    staleKey items cutoff b).take staleLimit

def ledger (replicas : ReplicaTable D) (d : D) : List (Option ℤ) :=
  (replicas.entries.filter fun e => e.1.1 = d).map fun e => e.2.lastSyncedAt

def hasUnsyncedConnection (config : GcConfig D) (d : D) : Bool :=
  config.liveConnections.any fun entry => decide (entry.1 = d) && !entry.2

/-- The items left and the number deleted, where no step fails and nothing else runs. The query is made
once before the lock and once under it. -/
def gcDocument (config : GcConfig D) (cutoff : ℤ) (db : GcDb D Uuid) (d : D) : GcDb D Uuid × ℕ :=
  if hasUnsyncedConnection config d then (db, 0)
  else if eligibleItemIds (ownRows d db.items) (ledger db.replicas d) cutoff 1 = [] then (db, 0)
  else
    let itemIds := eligibleItemIds (ownRows d db.items) (ledger db.replicas d) cutoff config.batchSize
    ({ db with items := itemIds.foldl (fun items id => items.delete id) db.items }, itemIds.length)

def prune (config : GcConfig D) (now : ℤ) (replicas : ReplicaTable D) : ReplicaTable D :=
  (replicas.pruneStaleReplicas (now - config.replicaStaleTtlMs)).pruneNeverAckedOverflow config.neverAckedCap

def gcDocuments (config : GcConfig D) (cutoff : ℤ) (db : GcDb D Uuid) (docs : List D) : GcDb D Uuid × ℕ :=
  docs.foldl (fun acc d => let next := gcDocument config cutoff acc.1 d; (next.1, acc.2 + next.2)) (db, 0)

/-- `pruned` and `now` are the worker's clock at the prune and after it. -/
def runPass (config : GcConfig D) (pruned now : ℤ) (db : GcDb D Uuid) : GcDb D Uuid × ℕ :=
  let db := { db with replicas := prune config pruned db.replicas }
  let cutoff := now - config.retentionMs
  gcDocuments config cutoff db (getStaleDocuments db.items cutoff)

/-- The document has an old tombstone without a child row that no replica blocks, and no live connection of it
is unsynced. -/
def Ready (config : GcConfig D) (cutoff : ℤ) (db : GcDb D Uuid) (d : D) : Prop :=
  hasUnsyncedConnection config d = false ∧ ∃ u row t, db.items.get u = some ⟨d, row⟩ ∧
    row.deletedAt = some t ∧ t < cutoff ∧
    (∀ c child, db.items.get c = some ⟨d, child⟩ → child.parentId ≠ some u) ∧
    ∀ replica stamp, db.replicas.get (d, replica) = some stamp → ∃ s, stamp.lastSyncedAt = some s ∧ t < s

def listedBefore (items : OrderedMap Uuid (TenantRow D Uuid)) (cutoff : ℤ) (d : D) : List D :=
  (staleDocuments items cutoff).filter fun e => staleKey items cutoff e < staleKey items cutoff d

variable {config : GcConfig D} {cutoff : ℤ} {db db' : GcDb D Uuid} {d : D} {u : Uuid} {limit : ℕ}

theorem mem_ledger {replicas : ReplicaTable D} {synced : Option ℤ} :
    synced ∈ ledger replicas d ↔ ∃ replica stamp, replicas.get (d, replica) = some stamp ∧
    stamp.lastSyncedAt = synced := by
  rw [ledger, List.mem_map]
  constructor
  · rintro ⟨⟨⟨d', replica⟩, stamp⟩, he, rfl⟩
    obtain ⟨hin, hd⟩ := List.mem_filter.mp he
    obtain rfl : d' = d := by simpa using hd
    exact ⟨replica, stamp, (OrderedMap.mem_entries_iff _ _ _).mp hin, rfl⟩
  · rintro ⟨replica, stamp, hget, rfl⟩
    exact ⟨((d, replica), stamp),
      List.mem_filter.mpr ⟨(OrderedMap.mem_entries_iff _ _ _).mpr hget, by simp⟩, rfl⟩

theorem isEligible_iff {items : Items Uuid} {stamps : List (Option ℤ)} {row : ItemRow Uuid} :
    isEligible items stamps cutoff u row = true ↔ ∃ t, row.deletedAt = some t ∧ t < cutoff ∧
      (∀ c child, items.get c = some child → child.parentId ≠ some u) ∧
      ∀ synced ∈ stamps, ∃ s, synced = some s ∧ t < s := by
  have hsynced : ∀ (synced : Option ℤ) t, (synced.any fun at_ => decide (t < at_)) = true ↔
      ∃ s, synced = some s ∧ t < s := by
    intro synced t
    cases synced <;> simp
  unfold isEligible
  cases row.deletedAt with
  | none => simp
  | some t =>
    simp only [Bool.and_eq_true, decide_eq_true_eq, Bool.not_eq_true', List.any_eq_false,
      List.all_eq_true, hsynced,
      Option.some.injEq, exists_eq_left', and_assoc, OrderedMap.mem_values_iff]
    refine and_congr_right fun _ => and_congr_left fun _ => ?_
    constructor
    · exact fun h c child hget => h child ⟨c, hget⟩
    · rintro h child ⟨c, hget⟩
      exact h c child hget

theorem eligible_ne_nil {items : Items Uuid} {stamps : List (Option ℤ)} (hlimit : 0 < limit) :
    eligibleItemIds items stamps cutoff limit ≠ [] ↔
      ∃ u row, items.get u = some row ∧ isEligible items stamps cutoff u row = true := by
  constructor
  · intro hne
    obtain ⟨u, hu⟩ := List.exists_mem_of_ne_nil _ hne
    exact ⟨u, mem_eligible hu⟩
  · rintro ⟨u, row, hget, helig⟩
    have hmem :
        (u, row) ∈ (items.entries.filter fun e => isEligible items stamps cutoff e.1 e.2).insertionSort
        fun a b => a.2.deletedAt.getD 0 ≤ b.2.deletedAt.getD 0 :=
      (List.mem_insertionSort _).mpr
        (List.mem_filter.mpr ⟨(OrderedMap.mem_entries_iff _ _ _).mpr hget, helig⟩)
    rw [eligibleItemIds, ne_eq, List.map_eq_nil_iff, List.take_eq_nil_iff, not_or]
    exact ⟨by omega, List.ne_nil_of_mem hmem⟩

theorem ready_iff (hlimit : 0 < limit) (db : GcDb D Uuid) : Ready config cutoff db d ↔
    hasUnsyncedConnection config d = false ∧
    eligibleItemIds (ownRows d db.items) (ledger db.replicas d) cutoff limit ≠ [] := by
  rw [Ready, eligible_ne_nil hlimit]
  apply and_congr_right
  intro _
  constructor
  · rintro ⟨u, row, t, hrow, hdel, hold, hleaf, hsynced⟩
    refine ⟨u, row, Tenancy.get_ownRows.mpr hrow, isEligible_iff.mpr ⟨t, hdel, hold, ?_, ?_⟩⟩
    · exact fun c child hget => hleaf c child (Tenancy.get_ownRows.mp hget)
    · intro synced hin
      obtain ⟨replica, stamp, hget, rfl⟩ := mem_ledger.mp hin
      exact hsynced replica stamp hget
  · rintro ⟨u, row, hget, helig⟩
    obtain ⟨t, hdel, hold, hleaf, hsynced⟩ := isEligible_iff.mp helig
    refine ⟨u, row, t, Tenancy.get_ownRows.mp hget, hdel, hold, ?_, ?_⟩
    · exact fun c child hchild => hleaf c child (Tenancy.get_ownRows.mpr hchild)
    · exact fun replica stamp hstamp => hsynced stamp.lastSyncedAt
        (mem_ledger.mpr ⟨replica, stamp, hstamp, rfl⟩)

def HardDeletes (db db' : GcDb D Uuid) : Prop := ∃ u r, db.items.get u = some r ∧ db'.items.get u = none

theorem gcDocument_skips (h : ¬ Ready config cutoff db d) : gcDocument config cutoff db d = (db, 0) := by
  rw [ready_iff Nat.one_pos, not_and] at h
  unfold gcDocument
  cases hlive : hasUnsyncedConnection config d with
  | true => rfl
  | false => rw [if_neg Bool.false_ne_true, if_pos (not_not.mp (h hlive))]

theorem gcDocument_none (h : db.items.get u = none) :
    (gcDocument config cutoff db d).1.items.get u = none := by
  unfold gcDocument
  split
  · exact h
  · split
    · exact h
    · rw [OrderedMap.get_foldl_delete]
      split
      · rfl
      · exact h

theorem gcDocument_deletes (h : Ready config cutoff db d) :
    HardDeletes db (gcDocument config cutoff db d).1 := by
  obtain ⟨hlive, hone⟩ := (ready_iff Nat.one_pos db).mp h
  obtain ⟨-, hbatch⟩ := (ready_iff config.batchSize_pos db).mp h
  obtain ⟨u, hu⟩ := List.exists_mem_of_ne_nil _ hbatch
  obtain ⟨row, hrow, -⟩ := mem_eligible hu
  refine ⟨u, ⟨d, row⟩, Tenancy.get_ownRows.mp hrow, ?_⟩
  unfold gcDocument
  rw [hlive, if_neg Bool.false_ne_true, if_neg hone]
  dsimp only
  rw [OrderedMap.get_foldl_delete, if_pos hu]

theorem gcDocuments_cons (config : GcConfig D) (cutoff : ℤ) (db : GcDb D Uuid) (d : D) (docs : List D) :
    (gcDocuments config cutoff db (d :: docs)).1 =
    (gcDocuments config cutoff (gcDocument config cutoff db d).1 docs).1 := by
  have hcount : ∀ (docs : List D) (acc : GcDb D Uuid × ℕ) (m : ℕ),
      (docs.foldl (fun acc d => let next := gcDocument config cutoff acc.1 d; (next.1, acc.2 + next.2))
        (acc.1, m)).1 =
        (docs.foldl
          (fun acc d => let next := gcDocument config cutoff acc.1 d; (next.1, acc.2 + next.2)) acc).1 := by
    intro docs
    induction docs with
    | nil => exact fun acc m => rfl
    | cons d docs ih =>
      intro acc m
      rw [List.foldl_cons, List.foldl_cons]
      exact (ih (_, _) _).trans (ih (_, _) _).symm
  unfold gcDocuments
  rw [List.foldl_cons]
  exact hcount docs (_, 0) _

theorem gcDocuments_none (docs : List D) (h : db.items.get u = none) :
    (gcDocuments config cutoff db docs).1.items.get u = none := by
  induction docs generalizing db with
  | nil => exact h
  | cons d docs ih =>
    rw [gcDocuments_cons]
    exact ih (gcDocument_none h)

theorem gcDocuments_deletes_iff (docs : List D) :
    HardDeletes db (gcDocuments config cutoff db docs).1 ↔ ∃ d ∈ docs, Ready config cutoff db d := by
  induction docs with
  | nil =>
    constructor
    · rintro ⟨u, r, hrow, hnone⟩
      exact absurd (hrow.symm.trans hnone) (by simp)
    · rintro ⟨d, hd, -⟩
      cases hd
  | cons d docs ih =>
    rw [gcDocuments_cons]
    by_cases hd : Ready config cutoff db d
    · obtain ⟨u, r, hrow, hnone⟩ := gcDocument_deletes hd
      exact iff_of_true ⟨u, r, hrow, gcDocuments_none docs hnone⟩ ⟨d, List.mem_cons_self .., hd⟩
    · rw [gcDocument_skips hd, ih]
      simp [hd]

end GcDb

section Take

variable {α κ : Type} [LinearOrder κ] {key : α → κ} {l : List α} {a : α} {n : ℕ}

theorem mem_take_iff (hl : l.Pairwise fun a b => key a < key b) (ha : a ∈ l) :
    a ∈ l.take n ↔ (l.filter fun b => key b < key a).length < n := by
  obtain ⟨pre, post, rfl⟩ := List.append_of_mem ha
  rw [List.pairwise_append, List.pairwise_cons] at hl
  obtain ⟨-, ⟨hpost, -⟩, hpre⟩ := hl
  have hpre' : pre.filter (fun b => decide (key b < key a)) = pre :=
    List.filter_eq_self.mpr fun b hb => by simpa using hpre b hb a (List.mem_cons_self ..)
  have hpost' : post.filter (fun b => decide (key b < key a)) = [] :=
    List.filter_eq_nil_iff.mpr fun b hb => by simpa using (hpost b hb).le
  have hbefore : (pre ++ a :: post).filter (fun b => decide (key b < key a)) = pre := by
    rw [List.filter_append, List.filter_cons_of_neg (by simp), hpre', hpost', List.append_nil]
  rw [hbefore]
  constructor
  · intro hin
    by_contra hle
    rw [List.take_append_of_le_length (by omega)] at hin
    exact lt_irrefl (key a) (hpre a (List.mem_of_mem_take hin) a (List.mem_cons_self ..))
  · intro hlt
    rw [List.take_append, List.take_of_length_le hlt.le]
    obtain ⟨k, hk⟩ : ∃ k, n - pre.length = k + 1 := ⟨n - pre.length - 1, by omega⟩
    rw [hk, List.take_succ_cons]
    exact List.mem_append_right _ (List.mem_cons_self ..)

end Take

namespace GcDb

variable {D Uuid : Type} [LinearOrder D] [LinearOrder Uuid] {config : GcConfig D} {cutoff : ℤ}
  {db : GcDb D Uuid} {d : D}

omit [LinearOrder D] [LinearOrder Uuid] in
theorem isStale_iff {r : TenantRow D Uuid} : isStale cutoff r = true ↔
    ∃ t, r.row.deletedAt = some t ∧ t < cutoff := by
  cases h : r.row.deletedAt <;> simp [isStale, h]

theorem mem_staleDocuments {items : OrderedMap Uuid (TenantRow D Uuid)} : d ∈ staleDocuments items cutoff ↔
    ∃ u row t, items.get u = some ⟨d, row⟩ ∧ row.deletedAt = some t ∧ t < cutoff := by
  rw [staleDocuments, List.mem_dedup, List.mem_map]
  constructor
  · rintro ⟨⟨d, row⟩, hin, rfl⟩
    obtain ⟨hin, hstale⟩ := List.mem_filter.mp hin
    obtain ⟨u, hu⟩ := (OrderedMap.mem_values_iff _ _).mp hin
    obtain ⟨t, hdel, hold⟩ := isStale_iff.mp hstale
    exact ⟨u, row, t, hu, hdel, hold⟩
  · rintro ⟨u, row, t, hu, hdel, hold⟩
    exact ⟨⟨d, row⟩, List.mem_filter.mpr ⟨(OrderedMap.mem_values_iff _ _).mpr ⟨u, hu⟩,
      isStale_iff.mpr ⟨t, hdel, hold⟩⟩, rfl⟩

theorem Ready.stale (h : Ready config cutoff db d) : d ∈ staleDocuments db.items cutoff := by
  obtain ⟨-, u, row, t, hrow, hdel, hold, -⟩ := h
  exact mem_staleDocuments.mpr ⟨u, row, t, hrow, hdel, hold⟩

omit [LinearOrder Uuid] in
theorem mem_getStaleDocuments (hd : d ∈ staleDocuments db.items cutoff) :
    d ∈ getStaleDocuments db.items cutoff ↔ (listedBefore db.items cutoff d).length < staleLimit := by
  have hperm := List.perm_insertionSort (fun a b => staleKey db.items cutoff a ≤ staleKey db.items cutoff b)
    (staleDocuments db.items cutoff)
  have htotal : Std.Total fun a b => staleKey db.items cutoff a ≤ staleKey db.items cutoff b :=
    ⟨fun a b => le_total _ _⟩
  have htrans : IsTrans D fun a b => staleKey db.items cutoff a ≤ staleKey db.items cutoff b :=
    ⟨fun a b c => le_trans⟩
  have hsorted :=
    List.pairwise_insertionSort (fun a b => staleKey db.items cutoff a ≤ staleKey db.items cutoff b)
    (staleDocuments db.items cutoff)
  have hnd := hperm.nodup_iff.mpr (List.nodup_dedup _)
  have hstrict := (hsorted.and hnd).imp fun {a b} (h : _ ∧ a ≠ b) =>
    h.1.lt_of_ne fun heq => h.2 (Prod.mk.inj (toLex.injective heq)).2
  rw [getStaleDocuments, mem_take_iff hstrict (hperm.mem_iff.mpr hd), listedBefore,
    (hperm.filter _).length_eq]

end GcDb

namespace GcDb

variable {D Uuid : Type} [LinearOrder D] [LinearOrder Uuid] {config : GcConfig D} {cutoff : ℤ}
  {db : GcDb D Uuid} {d : D}

theorem Ready.prune (now : ℤ) (h : Ready config cutoff db d) :
    Ready config cutoff { db with replicas := prune config now db.replicas } d := by
  obtain ⟨hlive, u, row, t, hrow, hdel, hold, hleaf, hsynced⟩ := h
  refine ⟨hlive, u, row, t, hrow, hdel, hold, hleaf, fun replica stamp hstamp => ?_⟩
  obtain ⟨hkept, -⟩ := ReplicaTable.get_pruneNeverAckedOverflow.mp hstamp
  obtain ⟨hstamp, -⟩ := ReplicaTable.get_pruneStaleReplicas.mp hkept
  exact hsynced replica stamp hstamp

theorem runPass_deletes_iff (config : GcConfig D) (pruned now : ℤ) (db : GcDb D Uuid) :
    HardDeletes db (runPass config pruned now db).1 ↔
    ∃ d ∈ getStaleDocuments db.items (now - config.retentionMs),
      Ready config (now - config.retentionMs)
        { db with replicas := GcDb.prune config pruned db.replicas } d :=
  @gcDocuments_deletes_iff D Uuid _ _ config (now - config.retentionMs)
    { db with replicas := GcDb.prune config pruned db.replicas } _

end GcDb

open GcDb in
/-- A pass deletes something if and only if, after the prunes, fewer than 200 documents are listed before some
document that is ready. A document that is ready before the prunes is ready after them. -/
theorem gc_progress_iff {D Uuid : Type} [LinearOrder D] [LinearOrder Uuid] (config : GcConfig D)
    (pruned now : ℤ) (db : GcDb D Uuid) :
    (∀ d, Ready config (now - config.retentionMs) db d →
      Ready config (now - config.retentionMs) { db with replicas := prune config pruned db.replicas } d) ∧
    (HardDeletes db (runPass config pruned now db).1 ↔
      ∃ d, Ready config (now - config.retentionMs) { db with replicas := prune config pruned db.replicas } d ∧
        (listedBefore db.items (now - config.retentionMs) d).length < staleLimit) := by
  refine ⟨fun d => Ready.prune pruned, ?_⟩
  rw [runPass_deletes_iff]
  constructor
  · rintro ⟨d, hd, hready⟩
    exact ⟨d, hready, (mem_getStaleDocuments hready.stale).mp hd⟩
  · rintro ⟨d, hready, hfew⟩
    exact ⟨d, (mem_getStaleDocuments hready.stale).mpr hfew, hready⟩

namespace GcDb

section Group

variable {D Uuid : Type} [LinearOrder D] [LinearOrder Uuid] {items : OrderedMap Uuid (TenantRow D Uuid)}
  {cutoff : ℤ} {d : D}

theorem minDeletedAt_eq {t : ℤ} (hd : d ∈ staleDocuments items cutoff)
    (hall : ∀ u row s, items.get u = some ⟨d, row⟩ → row.deletedAt = some s → s = t) :
    minDeletedAt items cutoff d = t := by
  have hmem :
      ∀ {s}, s ∈ (items.values.filter fun r => isStale cutoff r && decide (r.documentId = d)).filterMap
      (fun r => r.row.deletedAt) ↔
      ∃ u row, items.get u = some ⟨d, row⟩ ∧ row.deletedAt = some s ∧ s < cutoff := by
    intro s
    rw [List.mem_filterMap]
    constructor
    · rintro ⟨⟨d', row⟩, hin, hdel⟩
      obtain ⟨hvalue, hcond⟩ := List.mem_filter.mp hin
      obtain ⟨hstale, hd'⟩ := Bool.and_eq_true_iff.mp hcond
      obtain rfl : d' = d := of_decide_eq_true hd'
      obtain ⟨u, hu⟩ := (OrderedMap.mem_values_iff _ _).mp hvalue
      obtain ⟨s', hs', hold⟩ := isStale_iff.mp hstale
      obtain rfl : s' = s := Option.some.inj (hs'.symm.trans hdel)
      exact ⟨u, row, hu, hdel, hold⟩
    · rintro ⟨u, row, hu, hdel, hold⟩
      exact ⟨⟨d, row⟩, List.mem_filter.mpr ⟨(OrderedMap.mem_values_iff _ _).mpr ⟨u, hu⟩,
        by simp [isStale, hdel, hold]⟩, hdel⟩
  obtain ⟨u, row, s, hu, hdel, hold⟩ := mem_staleDocuments.mp hd
  obtain rfl := hall u row s hu hdel
  have hmin : ((items.values.filter fun r => isStale cutoff r && decide (r.documentId = d)).filterMap
      fun r => r.row.deletedAt).min? = some s := by
    rw [List.min?_eq_some_iff]
    refine ⟨hmem.mpr ⟨u, row, hu, hdel, hold⟩, fun s' hs' => ?_⟩
    obtain ⟨u', row', hu', hdel', -⟩ := hmem.mp hs'
    exact (hall u' row' s' hu' hdel').ge
  rw [minDeletedAt, hmin, Option.getD_some]

end Group

def fleetRow (k : ℕ) : TenantRow ℕ ℕ :=
  ⟨k / 2, ⟨if k % 2 = 0 then none else some (k - 1), js ['a', '0'], .bullet, [], none, false, false,
    if k % 2 = 0 then none else some (k / 2 : ℕ), 1⟩⟩

def fleetItems : OrderedMap ℕ (TenantRow ℕ ℕ) :=
  ⟨(List.range 402).map fun k => (k, fleetRow k), by
    rw [List.map_map]
    exact (List.map_id _).symm ▸ List.nodup_range⟩

def fleetReplicas : ReplicaTable ℕ :=
  ⟨(List.range 200).map fun d => ((d, js ['r']), ⟨none, 1000⟩), by
    rw [List.map_map]
    exact List.nodup_range.map fun a b h => (Prod.mk.inj h).1⟩

def blockedFleet : GcDb ℕ ℕ := ⟨fleetItems, fleetReplicas⟩

def defaultGc : GcConfig ℕ := ⟨604800000, 500, by decide, [], 1209600000, 64⟩

theorem get_fleetItems {u : ℕ} {r : TenantRow ℕ ℕ} : fleetItems.get u = some r ↔
    u < 402 ∧ r = fleetRow u := by
  rw [← OrderedMap.mem_entries_iff, fleetItems, List.mem_map]
  constructor
  · rintro ⟨k, hk, heq⟩
    obtain ⟨rfl, rfl⟩ := Prod.mk.inj heq
    exact ⟨List.mem_range.mp hk, rfl⟩
  · rintro ⟨hu, rfl⟩
    exact ⟨u, List.mem_range.mpr hu, rfl⟩

theorem fleet_tombstone {d : ℕ} (hd : d ≤ 200) : ∃ row, fleetItems.get (2 * d + 1) = some ⟨d, row⟩ ∧
    row.deletedAt = some (d : ℤ) := by
  refine ⟨(fleetRow (2 * d + 1)).row, get_fleetItems.mpr ⟨by omega, ?_⟩, ?_⟩
  · have hhalf : (2 * d + 1) / 2 = d := by omega
    simp [fleetRow, hhalf]
  · have hhalf : (2 * d + 1) / 2 = d := by omega
    simp [fleetRow, hhalf, Nat.add_mod]

theorem fleet_deletedAt {u d : ℕ} {row : ItemRow ℕ} {t : ℤ} (hrow : fleetItems.get u = some ⟨d, row⟩)
    (hdel : row.deletedAt = some t) :
    d ≤ 200 ∧ t = d := by
  obtain ⟨hu, heq⟩ := get_fleetItems.mp hrow
  obtain ⟨rfl, rfl⟩ := TenantRow.mk.inj heq
  dsimp only at hdel
  split at hdel
  · cases hdel
  · exact ⟨by omega, (Option.some.inj hdel).symm⟩

theorem fleet_listed {cutoff : ℤ} (hcutoff : 200 < cutoff) :
    ¬ (listedBefore fleetItems cutoff 200).length < staleLimit := by
  have hstale : ∀ {d : ℕ}, d ≤ 200 → d ∈ staleDocuments fleetItems cutoff := by
    intro d hd
    obtain ⟨row, hrow, hdel⟩ := fleet_tombstone hd
    exact mem_staleDocuments.mpr ⟨_, row, d, hrow, hdel, by omega⟩
  have hmin : ∀ {d : ℕ}, d ≤ 200 → minDeletedAt fleetItems cutoff d = d := fun hd =>
    minDeletedAt_eq (hstale hd) fun u row s hrow hdel => (fleet_deletedAt hrow hdel).2
  have hsubset : List.range 200 ⊆ listedBefore fleetItems cutoff 200 := by
    intro d hd
    have hd : d < 200 := List.mem_range.mp hd
    refine List.mem_filter.mpr ⟨hstale hd.le, decide_eq_true ?_⟩
    rw [staleKey, staleKey, hmin hd.le, hmin le_rfl]
    exact Prod.Lex.toLex_lt_toLex.mpr (.inl (Int.ofNat_lt.mpr hd))
  have hlength := (List.subperm_of_subset List.nodup_range hsubset).length_le
  rw [List.length_range] at hlength
  exact Nat.not_lt.mpr hlength

theorem get_fleetReplicas {k : ℕ × JsString} {stamp : ReplicaSync} :
    fleetReplicas.get k = some stamp ↔ ∃ d < 200, k = (d, js ['r']) ∧ stamp = ⟨none, 1000⟩ := by
  rw [← OrderedMap.mem_entries_iff, fleetReplicas, List.mem_map]
  constructor
  · rintro ⟨d, hd, heq⟩
    obtain ⟨rfl, rfl⟩ := Prod.mk.inj heq
    exact ⟨d, List.mem_range.mp hd, rfl, rfl⟩
  · rintro ⟨d, hd, rfl, rfl⟩
    exact ⟨d, List.mem_range.mpr hd, rfl⟩

theorem fleet_pruned {now : ℤ} {d : ℕ} (hnow : now ≤ 1209601000) (hd : d < 200) :
    (prune defaultGc now fleetReplicas).get (d, js ['r']) = some ⟨none, 1000⟩ := by
  have hseen : (ReplicaTable.pruneStaleReplicas fleetReplicas (now - 1209600000)).get (d, js ['r']) =
      some ⟨none, 1000⟩ :=
    ReplicaTable.get_pruneStaleReplicas.mpr ⟨get_fleetReplicas.mpr ⟨d, hd, rfl, rfl⟩,
      not_lt.mpr (show now - 1209600000 ≤ 1000 by omega)⟩
  have hfirst : ReplicaTable.rowNumber (ReplicaTable.pruneStaleReplicas fleetReplicas (now - 1209600000))
      (d, js ['r']) ⟨none, 1000⟩ = 1 := by
    rw [ReplicaTable.rowNumber, List.filter_eq_nil_iff.mpr, List.length_nil]
    rintro ⟨⟨d', replica⟩, stamp⟩ he hcond
    obtain ⟨hget, -⟩ := ReplicaTable.get_pruneStaleReplicas.mp ((OrderedMap.mem_entries_iff _ _ _).mp he)
    obtain ⟨k, -, hkey, rfl⟩ := get_fleetReplicas.mp hget
    obtain ⟨rfl, rfl⟩ := Prod.mk.inj hkey
    simp at hcond
  refine ReplicaTable.get_pruneNeverAckedOverflow.mpr ⟨hseen, fun h => ?_⟩
  change _ ∧ 64 < ReplicaTable.rowNumber
    (ReplicaTable.pruneStaleReplicas fleetReplicas (now - 1209600000)) _ _ at h
  rw [hfirst] at h
  omega

/-- The last document is ready, and a pass deletes nothing. -/
theorem blockedFleet_stalls : Ready defaultGc 1000 blockedFleet 200 ∧
    ¬ HardDeletes blockedFleet (runPass defaultGc 604801000 604801000 blockedFleet).1 := by
  constructor
  · obtain ⟨row, hrow, hdel⟩ := fleet_tombstone le_rfl
    refine ⟨rfl, _, row, _, hrow, hdel, by decide, ?_, ?_⟩
    · intro c child hchild hparent
      obtain ⟨hc, heq⟩ := get_fleetItems.mp hchild
      obtain ⟨-, rfl⟩ := TenantRow.mk.inj heq
      dsimp only at hparent
      split at hparent
      · cases hparent
      · have := Option.some.inj hparent
        omega
    · intro replica stamp hstamp
      obtain ⟨d, hd, hkey, -⟩ := get_fleetReplicas.mp hstamp
      obtain ⟨hd200, -⟩ := Prod.mk.inj hkey
      omega
  · rw [runPass_deletes_iff]
    rintro ⟨d, hd, hready⟩
    obtain ⟨hlive, u, row, t, hrow, hdel, hold, hleaf, hsynced⟩ := id hready
    obtain ⟨hle, -⟩ := fleet_deletedAt hrow hdel
    obtain hlt | rfl := hle.lt_or_eq
    · obtain ⟨s, hs, -⟩ := hsynced (js ['r']) _ (fleet_pruned (by decide) hlt)
      cases hs
    · exact fleet_listed (by decide) ((mem_getStaleDocuments hready.stale).mp hd)

end GcDb

end OpenOutliner
