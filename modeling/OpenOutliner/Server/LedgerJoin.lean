import OpenOutliner.Foundations.Machine
import OpenOutliner.Server.ReplicaSync
import Mathlib.Order.Bounds.Basic

namespace OpenOutliner

open Foundations

structure DocumentTouch (D : Type) where
  documentId : D
  replicaId : JsString
  synced : Bool
deriving DecidableEq

abbrev ReplicaTable (D : Type) := OrderedMap (D × JsString) ReplicaSync

inductive LedgerCall (D : Type)
  | touchReplica (touch : DocumentTouch D) (at_ : ℤ)
  | touchReplicasBatch (touches : List (DocumentTouch D)) (at_ : ℤ)

inductive LedgerStatement (D : Type)
  | call (c : LedgerCall D)
  | pruneStaleReplicas (olderThan : ℤ)
  | pruneNeverAckedOverflow (maxPerDocument : ℕ)

namespace ReplicaTable

variable {D : Type} [DecidableEq D]

def key (touch : DocumentTouch D) : D × JsString := (touch.documentId, touch.replicaId)

def touchReplica (table : ReplicaTable D) (touch : DocumentTouch D) (at_ : ℤ) : ReplicaTable D :=
  table.set (key touch)
    (match table.get (key touch) with
    | none => ⟨if touch.synced then some at_ else none, at_⟩
    | some row =>
      ⟨greatestStamp row.lastSyncedAt (if touch.synced then some at_ else none), max row.lastSeenAt at_⟩)

/-- The groups of the statement: one touch for each key, synced if one of its touches is. -/
def groupTouches (touches : List (DocumentTouch D)) : List (DocumentTouch D) :=
  (touches.map key).dedup.map fun k => ⟨k.1, k.2, touches.any fun touch => key touch = k && touch.synced⟩

def touchReplicasBatch (table : ReplicaTable D) (touches : List (DocumentTouch D)) (at_ : ℤ) :
    ReplicaTable D :=
  (groupTouches touches).foldl (fun table touch => touchReplica table touch at_) table

def pruneStaleReplicas (table : ReplicaTable D) (olderThan : ℤ) : ReplicaTable D :=
  table.filterMapEntries fun _ row => if row.lastSeenAt < olderThan then none else some row

/-- `row_number()` of a row that was never acknowledged, within its document: by `last_seen_at` from the
latest on, then by replica. -/
def rowNumber (table : ReplicaTable D) (k : D × JsString) (row : ReplicaSync) : ℕ :=
  (table.entries.filter fun e => e.1.1 = k.1 ∧ e.2.lastSyncedAt = none ∧
    (row.lastSeenAt < e.2.lastSeenAt ∨ row.lastSeenAt = e.2.lastSeenAt ∧ e.1.2 < k.2)).length + 1

def pruneNeverAckedOverflow (table : ReplicaTable D) (maxPerDocument : ℕ) : ReplicaTable D :=
  table.filterMapEntries fun k row =>
    if row.lastSyncedAt = none ∧ maxPerDocument < rowNumber table k row then none else some row

def apply (table : ReplicaTable D) : LedgerCall D → ReplicaTable D
  | .touchReplica touch at_ => touchReplica table touch at_
  | .touchReplicasBatch touches at_ => touchReplicasBatch table touches at_

def applyAll (table : ReplicaTable D) (calls : List (LedgerCall D)) : ReplicaTable D :=
  calls.foldl apply table

def step (table : ReplicaTable D) : LedgerStatement D → Option (ReplicaTable D)
  | .call c => some (table.apply c)
  | .pruneStaleReplicas olderThan => some (table.pruneStaleReplicas olderThan)
  | .pruneNeverAckedOverflow maxPerDocument => some (table.pruneNeverAckedOverflow maxPerDocument)

end ReplicaTable

def LedgerCall.touches {D : Type} : LedgerCall D → List (DocumentTouch D × ℤ)
  | .touchReplica touch at_ => [(touch, at_)]
  | .touchReplicasBatch touches at_ => touches.map fun touch => (touch, at_)

def IsLatest (times : Set ℤ) : Option ℤ → Prop
  | none => times = ∅
  | some t => IsGreatest times t

section Times

variable {D : Type} [DecidableEq D] (table : ReplicaTable D) (applied : List (DocumentTouch D × ℤ))
  (k : D × JsString)

/-- What `last_seen_at` is to be the maximum of: the row's own and the times of the key's touches. -/
def seenTimes : Set ℤ :=
  {t | (table.get k).map ReplicaSync.lastSeenAt = some t ∨ ∃ e ∈ applied, ReplicaTable.key e.1 = k ∧ e.2 = t}

def syncedTimes : Set ℤ :=
  {t | (table.get k).bind ReplicaSync.lastSyncedAt = some t ∨
    ∃ e ∈ applied, ReplicaTable.key e.1 = k ∧ e.1.synced = true ∧ e.2 = t}

end Times

section Latest

variable {times : Set ℤ} {a b : Option ℤ} {t : ℤ}

theorem IsLatest.unique (ha : IsLatest times a) (hb : IsLatest times b) : a = b := by
  cases a with
  | none =>
    cases b with
    | none => rfl
    | some t => exact absurd hb.1 (by rw [show times = ∅ from ha]; exact Set.notMem_empty t)
  | some s =>
    cases b with
    | none => exact absurd ha.1 (by rw [show times = ∅ from hb]; exact Set.notMem_empty s)
    | some t => rw [ha.unique hb]

theorem IsLatest.insert (ha : IsLatest times a) (t : ℤ) :
    IsLatest (insert t times) (greatestStamp a (some t)) := by
  cases a with
  | none =>
    rw [show times = ∅ from ha]
    simp [greatestStamp, IsLatest, isGreatest_singleton]
  | some s =>
    change IsGreatest _ (max s t)
    rw [max_comm]
    exact IsGreatest.insert t ha

theorem isLatest_own (a : Option ℤ) : IsLatest {t | a = some t} a := by
  cases a with
  | none => simp [IsLatest]
  | some s =>
    have hsingle : {t | some s = some t} = ({s} : Set ℤ) := by
      ext t
      simp [eq_comm]
    rw [hsingle]
    exact isGreatest_singleton

end Latest

namespace ReplicaTable

variable {D : Type} [DecidableEq D] {table mid table' : ReplicaTable D}
  {applied applied' : List (DocumentTouch D × ℤ)}
  {k : D × JsString} {touch : DocumentTouch D} {touches : List (DocumentTouch D)} {at_ t : ℤ}

/-- The rows of `table'` are those of `table` joined with the touches. -/
def Joined (table : ReplicaTable D) (applied : List (DocumentTouch D × ℤ)) (table' : ReplicaTable D) : Prop :=
  ∀ k, IsLatest (seenTimes table applied k) ((table'.get k).map ReplicaSync.lastSeenAt) ∧
    IsLatest (syncedTimes table applied k) ((table'.get k).bind ReplicaSync.lastSyncedAt)

theorem joined_nil (table : ReplicaTable D) : Joined table [] table := by
  intro k
  have hseen : seenTimes table [] k = {t | (table.get k).map ReplicaSync.lastSeenAt = some t} := by
    ext t
    simp [seenTimes]
  have hsynced : syncedTimes table [] k = {t | (table.get k).bind ReplicaSync.lastSyncedAt = some t} := by
    ext t
    simp [syncedTimes]
  rw [hseen, hsynced]
  exact ⟨isLatest_own _, isLatest_own _⟩

theorem Joined.congr (h : Joined table applied table')
    (hkeys : ∀ k t, (∃ e ∈ applied, key e.1 = k ∧ e.2 = t) ↔ ∃ e ∈ applied', key e.1 = k ∧ e.2 = t)
    (hsynced : ∀ k t, (∃ e ∈ applied, key e.1 = k ∧ e.1.synced = true ∧ e.2 = t) ↔
      ∃ e ∈ applied', key e.1 = k ∧ e.1.synced = true ∧ e.2 = t) : Joined table applied' table' := by
  intro k
  have heq : seenTimes table applied' k = seenTimes table applied k := by
    ext t
    exact or_congr_right (hkeys k t).symm
  have heq' : syncedTimes table applied' k = syncedTimes table applied k := by
    ext t
    exact or_congr_right (hsynced k t).symm
  rw [heq, heq']
  exact h k

theorem Joined.unique (h : Joined table applied mid) (h' : Joined table applied table') (k : D × JsString) :
    mid.get k = table'.get k := by
  obtain ⟨hseen, hsynced⟩ := h k
  obtain ⟨hseen', hsynced'⟩ := h' k
  have heq := hseen.unique hseen'
  have heq' := hsynced.unique hsynced'
  cases hrow : mid.get k with
  | none =>
    rw [hrow, Option.map_none] at heq
    rw [Option.map_eq_none_iff.mp heq.symm]
  | some row =>
    rw [hrow, Option.map_some] at heq
    obtain ⟨row', hrow', hsame⟩ := Option.map_eq_some_iff.mp heq.symm
    rw [hrow, hrow', Option.bind_some, Option.bind_some] at heq'
    obtain ⟨synced, seen⟩ := row
    obtain ⟨synced', seen'⟩ := row'
    rw [hrow']
    change seen' = seen at hsame
    change synced = synced' at heq'
    rw [hsame, heq']

theorem touchReplica_get (k : D × JsString) : (touchReplica table touch at_).get k = if k = key touch then
    some ⟨greatestStamp ((table.get k).bind ReplicaSync.lastSyncedAt)
      (if touch.synced then some at_ else none),
      ((table.get k).map ReplicaSync.lastSeenAt).elim at_ fun seen => max seen at_⟩ else table.get k := by
  rw [touchReplica, OrderedMap.get_set]
  by_cases hk : k = key touch
  · rw [if_pos hk, if_pos hk, ← hk]
    cases table.get k with
    | none => cases touch.synced <;> rfl
    | some row => rfl
  · rw [if_neg hk, if_neg hk]

theorem seenTimes_snoc (table : ReplicaTable D) (applied : List (DocumentTouch D × ℤ))
    (e : DocumentTouch D × ℤ) :
    seenTimes table (applied ++ [e]) (key e.1) = insert e.2 (seenTimes table applied (key e.1)) := by
  ext t
  constructor
  · rintro (hown | ⟨d, hd, hkey, rfl⟩)
    · exact Or.inr (Or.inl hown)
    · rcases List.mem_append.mp hd with hd | hd
      · exact Or.inr (Or.inr ⟨d, hd, hkey, rfl⟩)
      · rw [List.mem_singleton.mp hd]
        exact Or.inl rfl
  · rintro (rfl | hown | ⟨d, hd, hkey, rfl⟩)
    · exact Or.inr ⟨e, List.mem_append_right _ (List.mem_singleton_self e), rfl, rfl⟩
    · exact Or.inl hown
    · exact Or.inr ⟨d, List.mem_append_left _ hd, hkey, rfl⟩

theorem syncedTimes_snoc (table : ReplicaTable D) (applied : List (DocumentTouch D × ℤ))
    (e : DocumentTouch D × ℤ) :
    syncedTimes table (applied ++ [e]) (key e.1) =
      if e.1.synced then insert e.2 (syncedTimes table applied (key e.1))
      else syncedTimes table applied (key e.1) := by
  have hmem : ∀ {t}, t ∈ syncedTimes table (applied ++ [e]) (key e.1) ↔
      t ∈ syncedTimes table applied (key e.1) ∨ e.1.synced = true ∧ e.2 = t := by
    intro t
    constructor
    · rintro (hown | ⟨d, hd, hkey, hsynced, rfl⟩)
      · exact Or.inl (Or.inl hown)
      · rcases List.mem_append.mp hd with hd | hd
        · exact Or.inl (Or.inr ⟨d, hd, hkey, hsynced, rfl⟩)
        · rw [List.mem_singleton.mp hd] at hsynced ⊢
          exact Or.inr ⟨hsynced, rfl⟩
    · rintro ((hown | ⟨d, hd, hkey, hsynced, rfl⟩) | ⟨hsynced, rfl⟩)
      · exact Or.inl hown
      · exact Or.inr ⟨d, List.mem_append_left _ hd, hkey, hsynced, rfl⟩
      · exact Or.inr ⟨e, List.mem_append_right _ (List.mem_singleton_self e), rfl, hsynced, rfl⟩
  ext t
  rw [hmem]
  cases e.1.synced with
  | false => simp
  | true =>
    rw [if_pos rfl, Set.mem_insert_iff]
    constructor
    · rintro (h | ⟨-, h⟩)
      · exact Or.inr h
      · exact Or.inl h.symm
    · rintro (h | h)
      · exact Or.inr ⟨rfl, h.symm⟩
      · exact Or.inl h

theorem times_snoc_of_ne {e : DocumentTouch D × ℤ} (hk : k ≠ key e.1) :
    seenTimes table (applied ++ [e]) k = seenTimes table applied k ∧
      syncedTimes table (applied ++ [e]) k = syncedTimes table applied k := by
  have hother : ∀ {P : DocumentTouch D × ℤ → Prop},
      (∃ d ∈ applied ++ [e], key d.1 = k ∧ P d) ↔ ∃ d ∈ applied, key d.1 = k ∧ P d := by
    intro P
    constructor
    · rintro ⟨d, hd, hkey, hP⟩
      rcases List.mem_append.mp hd with hd | hd
      · exact ⟨d, hd, hkey, hP⟩
      · rw [List.mem_singleton.mp hd] at hkey
        exact absurd hkey.symm hk
    · rintro ⟨d, hd, hkey, hP⟩
      exact ⟨d, List.mem_append_left _ hd, hkey, hP⟩
  constructor
  · ext t
    exact or_congr_right hother
  · ext t
    exact or_congr_right hother

theorem Joined.snoc (h : Joined table applied mid) (touch : DocumentTouch D) (at_ : ℤ) :
    Joined table (applied ++ [(touch, at_)]) (touchReplica mid touch at_) := by
  intro k
  obtain ⟨hseen, hsynced⟩ := h k
  rw [touchReplica_get]
  by_cases hk : k = key touch
  · subst hk
    rw [if_pos rfl, seenTimes_snoc, syncedTimes_snoc]
    constructor
    · have hnext := hseen.insert at_
      cases hrow : mid.get (key touch) with
      | none => rwa [hrow] at hnext
      | some row => rwa [hrow] at hnext
    · rw [Option.bind_some]
      dsimp only
      cases htouch : touch.synced with
      | true =>
        rw [if_pos rfl, if_pos rfl]
        exact hsynced.insert at_
      | false =>
        rw [if_neg Bool.false_ne_true, if_neg Bool.false_ne_true]
        have hkeep : ∀ a, greatestStamp a none = a := by
          intro a
          cases a <;> rfl
        rwa [hkeep]
  · obtain ⟨hseen', hsynced'⟩ : seenTimes table (applied ++ [(touch, at_)]) k = seenTimes table applied k ∧
        syncedTimes table (applied ++ [(touch, at_)]) k = syncedTimes table applied k := times_snoc_of_ne hk
    rw [if_neg hk, hseen', hsynced']
    exact ⟨hseen, hsynced⟩

theorem Joined.each (h : Joined table applied mid) (touches : List (DocumentTouch D)) (at_ : ℤ) :
    Joined table (applied ++ touches.map fun touch => (touch, at_))
      (touches.foldl (fun m touch => touchReplica m touch at_) mid) := by
  induction touches generalizing applied mid with
  | nil => rwa [List.map_nil, List.append_nil]
  | cons touch touches ih =>
    rw [List.map_cons, List.append_cons]
    exact ih (h.snoc touch at_)

theorem mem_groupTouches {group : DocumentTouch D} : group ∈ groupTouches touches ↔
    (∃ touch ∈ touches, key touch = key group) ∧
      (group.synced = true ↔ ∃ touch ∈ touches, key touch = key group ∧ touch.synced = true) := by
  rw [groupTouches, List.mem_map]
  constructor
  · rintro ⟨k, hk, rfl⟩
    obtain ⟨touch, htouch, rfl⟩ := List.mem_map.mp (List.mem_dedup.mp hk)
    exact ⟨⟨touch, htouch, rfl⟩, by simp [key]⟩
  · rintro ⟨⟨touch, htouch, hkey⟩, hsynced⟩
    refine ⟨key group, List.mem_dedup.mpr (hkey ▸ List.mem_map_of_mem htouch), ?_⟩
    obtain ⟨documentId, replicaId, synced⟩ := group
    have hany : (touches.any fun touch => decide (key touch = (documentId, replicaId)) && touch.synced) =
        synced := by
      rw [Bool.eq_iff_iff, hsynced]
      simp [key]
    exact congrArg (DocumentTouch.mk documentId replicaId) hany

omit [DecidableEq D] in
theorem exists_append_map {P : DocumentTouch D × ℤ → Prop} :
    (∃ e ∈ applied ++ touches.map fun touch => (touch, at_), P e) ↔
      (∃ e ∈ applied, P e) ∨ ∃ touch ∈ touches, P (touch, at_) := by
  simp only [List.mem_append, or_and_right, exists_or, List.mem_map]
  simp

theorem Joined.batch (h : Joined table applied mid) (touches : List (DocumentTouch D)) (at_ : ℤ) :
    Joined table (applied ++ touches.map fun touch => (touch, at_)) (touchReplicasBatch mid touches at_) := by
  refine (h.each (groupTouches touches) at_).congr ?_ ?_
  · intro k t
    rw [exists_append_map, exists_append_map]
    apply or_congr_right
    constructor
    · rintro ⟨group, hgroup, rfl, ht⟩
      obtain ⟨⟨touch, htouch, hkey⟩, -⟩ := mem_groupTouches.mp hgroup
      exact ⟨touch, htouch, hkey, ht⟩
    · rintro ⟨touch, htouch, rfl, ht⟩
      refine ⟨⟨touch.documentId, touch.replicaId,
        decide (∃ d ∈ touches, key d = key touch ∧ d.synced = true)⟩,
        mem_groupTouches.mpr ⟨⟨touch, htouch, rfl⟩, ?_⟩, rfl, ht⟩
      exact decide_eq_true_iff
  · intro k t
    rw [exists_append_map, exists_append_map]
    apply or_congr_right
    constructor
    · rintro ⟨group, hgroup, rfl, hsynced, ht⟩
      obtain ⟨touch, htouch, hkey, htrue⟩ := (mem_groupTouches.mp hgroup).2.mp hsynced
      exact ⟨touch, htouch, hkey, htrue, ht⟩
    · rintro ⟨touch, htouch, rfl, htrue, ht⟩
      refine ⟨⟨touch.documentId, touch.replicaId, true⟩, mem_groupTouches.mpr ⟨⟨touch, htouch, rfl⟩, ?_⟩,
        rfl, rfl, ht⟩
      exact iff_of_true rfl ⟨touch, htouch, rfl, htrue⟩

theorem Joined.call (h : Joined table applied mid) (c : LedgerCall D) :
    Joined table (applied ++ c.touches) (apply mid c) := by
  cases c with
  | touchReplica touch at_ => exact h.snoc touch at_
  | touchReplicasBatch touches at_ => exact h.batch touches at_

theorem joined_applyAll (table : ReplicaTable D) (calls : List (LedgerCall D)) :
    Joined table (calls.flatMap LedgerCall.touches) (applyAll table calls) := by
  have hfrom : ∀ (calls : List (LedgerCall D)) {applied mid}, Joined table applied mid →
      Joined table (applied ++ calls.flatMap LedgerCall.touches) (applyAll mid calls) := by
    intro calls
    induction calls with
    | nil => exact fun h => by rwa [List.flatMap_nil, List.append_nil]
    | cons c calls ih =>
      intro applied mid h
      rw [List.flatMap_cons, ← List.append_assoc]
      exact ih (h.call c)
  exact hfrom calls (joined_nil table)

def NotBefore (b a : Option ℤ) : Prop := ∀ s ∈ a, ∃ t ∈ b, s ≤ t

theorem apply_notBefore (table : ReplicaTable D) (c : LedgerCall D) (k : D × JsString) :
    NotBefore (((apply table c).get k).bind ReplicaSync.lastSyncedAt)
      ((table.get k).bind ReplicaSync.lastSyncedAt) := by
  intro s hs
  have hjoined := ((joined_nil table).call c k).2
  have hin : s ∈ syncedTimes table ([] ++ c.touches) k := Or.inl hs
  cases hnow : ((apply table c).get k).bind ReplicaSync.lastSyncedAt with
  | none =>
    rw [hnow] at hjoined
    rw [show syncedTimes table ([] ++ c.touches) k = ∅ from hjoined] at hin
    exact absurd hin (Set.notMem_empty s)
  | some t =>
    rw [hnow] at hjoined
    exact ⟨t, rfl, hjoined.2 hin⟩

theorem get_pruneStaleReplicas {olderThan : ℤ} {row : ReplicaSync} :
    (table.pruneStaleReplicas olderThan).get k = some row ↔
    table.get k = some row ∧ ¬ row.lastSeenAt < olderThan :=
  table.get_filterMapEntries_unless fun _ row => row.lastSeenAt < olderThan

theorem get_pruneNeverAckedOverflow {maxPerDocument : ℕ} {row : ReplicaSync} :
    (table.pruneNeverAckedOverflow maxPerDocument).get k = some row ↔
      table.get k = some row ∧ ¬ (row.lastSyncedAt = none ∧ maxPerDocument < rowNumber table k row) :=
  table.get_filterMapEntries_unless fun k row => row.lastSyncedAt = none ∧
    maxPerDocument < rowNumber table k row

theorem step_notBefore {σ : LedgerStatement D} (hstep : step table σ = some table') {row row' : ReplicaSync}
    (hrow : table.get k = some row) (hrow' : table'.get k = some row') :
    NotBefore row'.lastSyncedAt row.lastSyncedAt := by
  have hsame : table.get k = some row' → NotBefore row'.lastSyncedAt row.lastSyncedAt := by
    intro h
    obtain rfl := Option.some.inj (hrow.symm.trans h)
    exact fun s hs => ⟨s, hs, le_rfl⟩
  cases σ with
  | call c =>
    cases hstep
    have h := apply_notBefore table c k
    rwa [hrow, hrow'] at h
  | pruneStaleReplicas olderThan =>
    cases hstep
    exact hsame (get_pruneStaleReplicas.mp hrow').1
  | pruneNeverAckedOverflow maxPerDocument =>
    cases hstep
    exact hsame (get_pruneNeverAckedOverflow.mp hrow').1

end ReplicaTable

open ReplicaTable in
/-- Touches join: the rows hold the greatest time of the key's touches and of its synced ones, whatever the
order, the repetition and the batching; and while a row is there its `last_synced_at` does not go back. -/
theorem replica_touches_join {D : Type} [DecidableEq D] (table : ReplicaTable D) :
    (∀ calls k, IsLatest (seenTimes table (calls.flatMap LedgerCall.touches) k)
        (((applyAll table calls).get k).map ReplicaSync.lastSeenAt) ∧
      IsLatest (syncedTimes table (calls.flatMap LedgerCall.touches) k)
        (((applyAll table calls).get k).bind ReplicaSync.lastSyncedAt)) ∧
    (∀ calls calls', (∀ e, e ∈ calls.flatMap LedgerCall.touches ↔ e ∈ calls'.flatMap LedgerCall.touches) →
      ∀ k, (applyAll table calls).get k = (applyAll table calls').get k) ∧
    ∀ k table' row row', table.get k = some row → table'.get k = some row' →
      Runs step (fun mid s => ∃ next, step mid s = some next ∧ (next.get k).isSome = true) table table' →
      NotBefore row'.lastSyncedAt row.lastSyncedAt := by
  refine ⟨fun calls => joined_applyAll table calls, ?_, ?_⟩
  · intro calls calls' hsame k
    refine (joined_applyAll table calls).unique ((joined_applyAll table calls').congr ?_ ?_) k
    · intro k t
      simp only [hsame]
    · intro k t
      simp only [hsame]
  · intro k table' row row' hrow hrow' hrun
    induction hrun generalizing row' with
    | refl =>
      obtain rfl := Option.some.inj (hrow.symm.trans hrow')
      exact fun s hs => ⟨s, hs, le_rfl⟩
    | @step mid next a hmid _ hstep ih =>
      have hthere : ∃ m, mid.get k = some m := by
        cases hmid with
        | refl => exact ⟨row, hrow⟩
        | step b _ hok hb =>
          obtain ⟨mid', hmid', hsome⟩ := hok
          obtain rfl := Option.some.inj (hb.symm.trans hmid')
          exact Option.isSome_iff_exists.mp hsome
      obtain ⟨m, hm⟩ := hthere
      intro s hs
      obtain ⟨t, ht, hst⟩ := ih m hm s hs
      obtain ⟨u, hu, htu⟩ := step_notBefore hstep hm hrow' t ht
      exact ⟨u, hu, hst.trans htu⟩

section Example

def replicaTouch (synced : Bool) : DocumentTouch Unit := ⟨(), js ['r'], synced⟩

theorem replica_touches_join_reordered :
    (ReplicaTable.applyAll .empty [.touchReplica (replicaTouch true) 5,
      .touchReplicasBatch [replicaTouch false, replicaTouch true] 3,
      .touchReplica (replicaTouch false) 9, .touchReplica (replicaTouch true) 5]).get ((),
      js ['r']) = some ⟨some 5, 9⟩ := by
  rw [(replica_touches_join .empty).2.1 _ [.touchReplica (replicaTouch false) 9,
    .touchReplica (replicaTouch false) 3,
    .touchReplica (replicaTouch true) 3,
    .touchReplica (replicaTouch true) 5] (by simp [LedgerCall.touches]; tauto)]
  decide

end Example

end OpenOutliner
