import OpenOutliner.Server.ExactProjection
import OpenOutliner.Server.TenancyInvariants

namespace OpenOutliner

open Foundations

namespace Tenancy

variable {T K D Uuid : Type} [DecidableEq T] [DecidableEq K] [DecidableEq D] [LinearOrder Uuid]
  {uuids : UuidText Uuid} {docKey : D → K} {itemKey : Uuid → K} {σ τ : Tenancy T K D Uuid} {s t : T}
  {lib : FractionalIndexing} {replicaId : JsString} {batchSize : ℕ} {a : TenantAction T D Uuid} {l : Loaded D}

/-- The whole snapshot is applied, and other rows are marked as deleted. -/
def Applied (uuids : UuidText Uuid) (l : Loaded D) (before after : Items Uuid) : Prop :=
  ∃ mid, Upserted uuids l.now before l.batch mid ∧
    ∀ u, after.get u = (markMissing uuids l.now (l.doc.projectedRows.map ProjectedItem.id) mid).get u

def Progress (uuids : UuidText Uuid) (σ : Tenancy T K D Uuid) (t : T) : Prop :=
  match σ.txs t with
  | .pass .upserted l => Upserted uuids l.now (ownRows l.documentId σ.items.committed) l.batch
      (ownRows l.documentId (σ.items.view t))
  | .pass .swept l | .pass .titled l | .pass .advanced l =>
    Applied uuids l (ownRows l.documentId σ.items.committed) (ownRows l.documentId (σ.items.view t))
  | _ => True

theorem upserted_congr {now : ℤ} {before before' after after' : Items Uuid} {batch : List ProjectedItem}
    (hb : ∀ u, before'.get u = before.get u) (ha : ∀ u, after'.get u = after.get u)
    (h : Upserted uuids now before batch after) : Upserted uuids now before' batch after' where
  cast := h.cast
  row := by
    intro u hu
    rw [ha, hb]
    exact h.row u hu
  kept := by
    intro u hu
    rw [ha, hb, h.kept u hu]

omit [DecidableEq D] in
theorem applied_congr {before before' after after' : Items Uuid} (hb : ∀ u, before'.get u = before.get u)
    (ha : ∀ u, after'.get u = after.get u) (h : Applied uuids l before after) :
    Applied uuids l before' after' := by
  obtain ⟨mid, hup, hmark⟩ := h
  exact ⟨mid, upserted_congr hb (fun _ => rfl) hup, fun u => (ha u).trans (hmark u)⟩

theorem ownRows_congr {d : D} {m m' : OrderedMap Uuid (TenantRow D Uuid)} {u : Uuid}
    (h : m'.get u = m.get u) :
    (ownRows d m').get u = (ownRows d m).get u := by
  rw [ownRows, ownRows, OrderedMap.get_filterMapEntries, OrderedMap.get_filterMapEntries, h]

section

omit [DecidableEq K]

theorem Progress.congr (h : Progress uuids σ t) (htx : τ.txs t = σ.txs t)
    (hc : ∀ d, (σ.txs t).Locks d → ∀ u, (ownRows d τ.items.committed).get u =
      (ownRows d σ.items.committed).get u)
    (hv : ∀ d, (σ.txs t).Locks d → ∀ u, (ownRows d (τ.items.view t)).get u =
      (ownRows d (σ.items.view t)).get u) :
    Progress uuids τ t := by
  unfold Progress at h ⊢
  rw [htx]
  split
  · rename_i l hl
    rw [hl] at h hc hv
    exact upserted_congr (hc _ rfl) (hv _ rfl) h
  · rename_i l hl
    rw [hl] at h hc hv
    exact applied_congr (hc _ rfl) (hv _ rfl) h
  · rename_i l hl
    rw [hl] at h hc hv
    exact applied_congr (hc _ rfl) (hv _ rfl) h
  · rename_i l hl
    rw [hl] at h hc hv
    exact applied_congr (hc _ rfl) (hv _ rfl) h
  · trivial

theorem Progress.leaves (h : Progress uuids σ t) (hs : t ≠ s) (hl : Leaves s σ τ) : Progress uuids τ t :=
  h.congr (hl.txs t hs) (fun _ _ _ => by rw [hl.items.committed]) fun _ _ _ =>
    ownRows_congr (hl.items.view hs)

theorem commit_ownRows (h : TxInv uuids docKey itemKey σ s) {d : D} (hd : ¬ (σ.txs s).Locks d) (u : Uuid) :
    (ownRows d (σ.commitTx s).items.committed).get u = (ownRows d σ.items.committed).get u := by
  by_cases hp : ∃ v, σ.items.pending.get u = some (s, v)
  · obtain ⟨v, hp⟩ := hp
    have hnone : ∀ m : OrderedMap Uuid (TenantRow D Uuid),
        (∀ r, m.get u = some r → (σ.txs s).Locks r.documentId) →
        (ownRows d m).get u = none := by
      intro m hm
      rw [Option.eq_none_iff_forall_ne_some]
      exact fun row hrow => hd (hm _ (get_ownRows.mp hrow))
    rw [hnone _ (h.overwritten u v hp), hnone]
    intro r hr
    change (σ.items.view s).get u = some r at hr
    rw [Table.view_own hp] at hr
    exact h.written u v hp r hr
  · exact ownRows_congr (Table.view_other fun v hv => hp ⟨v, hv⟩)

end

omit [DecidableEq T] [DecidableEq K] in
theorem locks_once (h : TxInv uuids docKey itemKey σ s) (h' : TxInv uuids docKey itemKey σ t) {d : D}
    (hs : (σ.txs s).Locks d) (ht : (σ.txs t).Locks d) : s = t :=
  Option.some.inj ((h.lock d hs).symm.trans (h'.lock d ht))

omit [DecidableEq K] in
theorem Progress.commit_other (h : Progress uuids σ t) (hinv : TxInv uuids docKey itemKey σ t)
    (hinv' : TxInv uuids docKey itemKey σ s) (hs : t ≠ s) : Progress uuids (σ.commitTx s) t := by
  have hother : ∀ d, (σ.txs t).Locks d → ¬ (σ.txs s).Locks d :=
    fun d hd hd' => hs (locks_once hinv hinv' hd hd')
  refine h.congr (Function.update_of_ne hs _ _) (fun d hd => commit_ownRows hinv' (hother d hd)) ?_
  intro d hd u
  by_cases hp : ∃ v, σ.items.pending.get u = some (t, v)
  · obtain ⟨v, hp⟩ := hp
    refine ownRows_congr (Table.view_commit hs fun w hw => ?_).1
    rw [hp] at hw
    cases hw
    exact hs rfl
  · have hafter : ((σ.commitTx s).items.view t).get u = (σ.commitTx s).items.committed.get u :=
      Table.view_other fun v hv => hp ⟨v, (Table.commit_others _ _ hs).mp hv⟩
    have hbefore : (σ.items.view t).get u = σ.items.committed.get u := Table.view_other fun v hv => hp ⟨v, hv⟩
    rw [ownRows_congr hafter, ownRows_congr hbefore]
    exact commit_ownRows hinv' (hother d hd) u

theorem ownRows_get {d : D} {m : OrderedMap Uuid (TenantRow D Uuid)} {u : Uuid} {row : Option (ItemRow Uuid)}
    (h : m.get u = row.map (TenantRow.mk d)) : (ownRows d m).get u = row := by
  rw [ownRows, OrderedMap.get_filterMapEntries, h]
  cases row <;> simp

omit [DecidableEq K] in
theorem upsert_upserted {items : Table T Uuid (TenantRow D Uuid)} {after : Items Uuid}
    (hown : ∀ u ∈ l.ids uuids, isForeign l.documentId (σ.items.view t) u = false)
    (hview : ∀ u, (σ.items.view t).get u = σ.items.committed.get u)
    (hafter : upsertOwn uuids l (σ.items.view t) = some after)
    (hwrote : σ.items.Wrote t (upsertWrites uuids l (σ.items.view t) after) items) :
    Upserted uuids l.now (ownRows l.documentId σ.items.committed) l.batch
      (ownRows l.documentId (items.view t)) := by
  obtain ⟨hcast, hstatement⟩ := upsertOwn_eq hafter
  have hrows : upsertRows uuids l (σ.items.view t) = l.batch.filterMap (castItem uuids) := by
    refine List.filter_eq_self.mpr fun row hrow => ?_
    obtain ⟨item, hitem, hcast⟩ := List.mem_filterMap.mp hrow
    simp [hown row.1 (List.mem_filterMap.mpr ⟨item, hitem, (castItem_some hcast).2.1⟩)]
  have hkeys : (upsertWrites uuids l (σ.items.view t) after).map Prod.fst =
      ((l.batch.filterMap (castItem uuids)).map Prod.fst).dedup := by
    rw [upsertWrites, hrows, List.map_map]
    exact List.map_id _
  rw [hrows] at hstatement
  have hup := upsertStatement_upserted hcast hstatement
  refine upserted_congr (fun u => (ownRows_congr (hview u)).symm) ?_ hup
  intro u
  by_cases hu : u ∈ ((l.batch.filterMap (castItem uuids)).map Prod.fst).dedup
  · apply ownRows_get
    apply hwrote.view_written (hkeys ▸ List.nodup_dedup _)
    rw [upsertWrites, hrows]
    exact List.mem_map_of_mem hu
  · rw [ownRows_congr (hwrote.view_kept (hkeys ▸ hu))]
    symm
    apply hup.kept
    intro item hitem hparse
    obtain ⟨u', parent, hrow⟩ := exists_castRow hcast hitem
    obtain rfl := Option.some.inj (hparse.symm.trans (mem_castRows.mp hrow).2.1)
    exact hu (List.mem_dedup.mpr (List.mem_map_of_mem hrow))

omit [DecidableEq K] in
theorem sweep_applied {items : Table T Uuid (TenantRow D Uuid)} {before : Items Uuid}
    (h : Upserted uuids l.now before l.batch (ownRows l.documentId (σ.items.view t)))
    (hwrote : σ.items.Wrote t (sweepWrites uuids l (σ.items.view t)) items) :
    Applied uuids l before (ownRows l.documentId (items.view t)) := by
  refine ⟨_, h, fun u => ?_⟩
  have hnd : ((sweepWrites uuids l (σ.items.view t)).map Prod.fst).Nodup := OrderedMap.nodup _
  rw [markMissing_get]
  by_cases hu : u ∈ (sweepWrites uuids l (σ.items.view t)).map Prod.fst
  · obtain ⟨⟨u, v⟩, he, rfl⟩ := List.mem_map.mp hu
    have hafter := hwrote.view_written hnd he
    rw [sweepWrites, OrderedMap.mem_entries_iff, OrderedMap.get_filterMapEntries] at he
    obtain ⟨⟨d, old⟩, hold, hcond⟩ := Option.bind_eq_some_iff.mp he
    split at hcond
    · rename_i hmissing
      cases hcond
      obtain ⟨rfl, hpresent, hlive⟩ := hmissing
      change old.deletedAt = none at hlive
      rw [get_ownRows.mpr hafter, get_ownRows.mpr hold, Option.map_some, if_neg]
      rintro (hin | hdel)
      · exact hpresent hin
      · rw [hlive] at hdel
        cases hdel
    · cases hcond
  · rw [ownRows_congr (hwrote.view_kept hu)]
    cases hget : (ownRows l.documentId (σ.items.view t)).get u with
    | none => rfl
    | some row =>
      rw [Option.map_some, if_pos]
      by_contra hnot
      rw [not_or] at hnot
      have hin : (u, some ⟨l.documentId, { row with deletedAt := some l.now, version := row.version + 1 }⟩) ∈
          sweepWrites uuids l (σ.items.view t) := by
        rw [sweepWrites, OrderedMap.mem_entries_iff, OrderedMap.get_filterMapEntries, get_ownRows.mp hget,
          Option.bind_some, if_pos]
        exact ⟨rfl, hnot.1, by simpa using hnot.2⟩
      exact hu (List.mem_map_of_mem hin)

omit [DecidableEq K] [DecidableEq D] [LinearOrder Uuid] in
@[simp] theorem setTx_txs (σ : Tenancy T K D Uuid) (t : T) (tx : TenantTx D Uuid) :
    (σ.setTx t tx).txs t = tx :=
  Function.update_self _ _ _

omit [DecidableEq K] in
theorem Progress.trivially {tx : TenantTx D Uuid} (htx : σ.txs t = tx) (hw : ¬ tx.Writing) :
    Progress uuids σ t := by
  unfold Progress
  rw [htx]
  split
  · exact absurd trivial hw
  · exact absurd trivial hw
  · exact absurd trivial hw
  · exact absurd trivial hw
  · trivial

omit [DecidableEq K] in
theorem Progress.collects {tx : TenantTx D Uuid} (htx : σ.txs t = tx) (hc : tx.Collects) :
    Progress uuids σ t := by
  unfold Progress
  rw [htx]
  split
  · exact hc.elim
  · exact hc.elim
  · exact hc.elim
  · exact hc.elim
  · trivial

section Passes

variable (h : TxInv uuids docKey itemKey σ t) (hp : Progress uuids σ t)

include h

theorem check_progress (hstep : σ.step lib uuids replicaId docKey itemKey batchSize (.check t) = some τ) :
    Progress uuids τ t := by
  simp only [step] at hstep
  split at hstep
  · rename_i l hl
    split at hstep
    · rename_i hempty
      cases hstep
      unfold Progress
      rw [setTx_txs]
      refine ⟨by simp [hempty], by simp [hempty], fun u _ => ownRows_congr (h.view_committed ?_ u)⟩
      simp [hl, TenantTx.Writing]
    · split at hstep
      · cases hstep
        exact .trivially (Function.update_self _ _ _) fun h => h
      · cases hstep
        exact .trivially (Function.update_self _ _ _) fun h => h
  · cases hstep

theorem upsert_progress (hstep : σ.step lib uuids replicaId docKey itemKey batchSize (.upsert t) = some τ) :
    Progress uuids τ t := by
  simp only [step] at hstep
  split at hstep
  · rename_i l hl
    split at hstep
    · cases hstep
      exact .trivially (Function.update_self _ _ _) fun h => h
    · rename_i after hafter
      obtain ⟨items, hwrite, rfl⟩ := Option.map_eq_some_iff.mp hstep
      have hwrote := Table.writeAll_wrote hwrite
      have hview := h.view_committed (by simp [hl, TenantTx.Writing])
      unfold Progress
      rw [setTx_txs]
      change Upserted uuids l.now (ownRows l.documentId items.committed) l.batch _
      rw [hwrote.committed]
      refine upsert_upserted ?_ hview hafter hwrote
      intro u hu
      have hown := h.own (by simp [hl, TenantTx.Rechecked, PassStage.Rechecked]) u
        (by simp [hl, TenantTx.Claims, PassStage.Rechecked, hu])
      rw [hl] at hown
      rw [isForeign, hview, Option.any_eq_false]
      intro r hr
      rw [decide_eq_false_iff_not, not_not]
      exact (Option.some.inj (hown r hr)).symm
  · cases hstep

omit h

include hp

theorem sweep_progress (hstep : σ.step lib uuids replicaId docKey itemKey batchSize (.sweep t) = some τ) :
    Progress uuids τ t := by
  simp only [step] at hstep
  split at hstep
  · rename_i l hl
    obtain ⟨items, hwrite, rfl⟩ := Option.map_eq_some_iff.mp hstep
    have hwrote := Table.writeAll_wrote hwrite
    unfold Progress at hp ⊢
    rw [hl] at hp
    rw [setTx_txs]
    change Applied uuids l (ownRows l.documentId items.committed) _
    rw [hwrote.committed]
    exact sweep_applied hp hwrote
  · cases hstep

theorem title_progress (hstep : σ.step lib uuids replicaId docKey itemKey batchSize (.title t) = some τ) :
    Progress uuids τ t := by
  simp only [step] at hstep
  split at hstep
  · rename_i l hl
    unfold Progress at hp ⊢
    rw [hl] at hp
    split at hstep
    · obtain ⟨documents, -, rfl⟩ := Option.map_eq_some_iff.mp hstep
      rw [setTx_txs]
      exact hp
    · cases hstep
      rw [setTx_txs]
      exact hp
  · cases hstep

theorem advance_progress (hstep : σ.step lib uuids replicaId docKey itemKey batchSize (.advance t) = some τ) :
    Progress uuids τ t := by
  simp only [step] at hstep
  split at hstep
  · rename_i l hl
    obtain ⟨projection, -, rfl⟩ := Option.map_eq_some_iff.mp hstep
    unfold Progress at hp ⊢
    rw [hl] at hp
    rw [setTx_txs]
    exact hp
  · cases hstep

end Passes

section Others

omit [DecidableEq K] in
theorem close_progress : Progress uuids (σ.close t) t := .trivially (Function.update_self _ _ _) fun h => h

theorem load_progress {l : Loaded D}
    (hstep : σ.step lib uuids replicaId docKey itemKey batchSize (.load t l) = some τ) :
    Progress uuids τ t := by
  simp only [step] at hstep
  split at hstep
  · cases hstep
    exact .trivially (Function.update_self _ _ _) fun h => h
  · cases hstep

theorem lock_progress (hstep : σ.step lib uuids replicaId docKey itemKey batchSize (.lock t) = some τ) :
    Progress uuids τ t := by
  simp only [step] at hstep
  split at hstep
  · split at hstep
    · obtain ⟨σ', -, rfl⟩ := Option.map_eq_some_iff.mp hstep
      exact .trivially (Function.update_self _ _ _) fun h => h
    · cases hstep
  · cases hstep

theorem readRevisions_progress
    (hstep : σ.step lib uuids replicaId docKey itemKey batchSize (.readRevisions t) = some τ) :
    Progress uuids τ t := by
  simp only [step] at hstep
  split at hstep
  · obtain ⟨projection, -, rfl⟩ := Option.map_eq_some_iff.mp hstep
    split
    · exact close_progress
    · exact .trivially (Function.update_self _ _ _) fun h => h
  · cases hstep

theorem claim_progress (hstep : σ.step lib uuids replicaId docKey itemKey batchSize (.claim t) = some τ) :
    Progress uuids τ t := by
  simp only [step] at hstep
  split at hstep
  · obtain ⟨σ', -, rfl⟩ := Option.map_eq_some_iff.mp hstep
    exact .trivially (Function.update_self _ _ _) fun h => h
  · cases hstep

theorem recheck_progress (hstep : σ.step lib uuids replicaId docKey itemKey batchSize (.recheck t) = some τ) :
    Progress uuids τ t := by
  simp only [step] at hstep
  split at hstep
  · split at hstep
    · cases hstep
      exact close_progress
    · cases hstep
      exact .trivially (Function.update_self _ _ _) fun h => h
  · cases hstep

theorem gcPrepare_progress {d : D} {cutoff : ℤ}
    (hstep : σ.step lib uuids replicaId docKey itemKey batchSize (.gcPrepare t d cutoff) = some τ) :
    Progress uuids τ t := by
  simp only [step] at hstep
  split at hstep
  · cases hstep
    exact .collects (Function.update_self _ _ _) trivial
  · cases hstep

theorem gcLock_progress (hstep : σ.step lib uuids replicaId docKey itemKey batchSize (.gcLock t) = some τ) :
    Progress uuids τ t := by
  simp only [step] at hstep
  split at hstep
  · obtain ⟨σ', -, rfl⟩ := Option.map_eq_some_iff.mp hstep
    exact .collects (Function.update_self _ _ _) trivial
  · cases hstep

theorem gcCheck_progress {ledger : List (Option ℤ)}
    (hstep : σ.step lib uuids replicaId docKey itemKey batchSize (.gcCheck t ledger) = some τ) :
    Progress uuids τ t := by
  simp only [step] at hstep
  split at hstep
  · split at hstep
    · cases hstep
      exact close_progress
    · cases hstep
      exact .collects (Function.update_self _ _ _) trivial
  · cases hstep

theorem gcDelete_progress
    (hstep : σ.step lib uuids replicaId docKey itemKey batchSize (.gcDelete t) = some τ) :
    Progress uuids τ t := by
  simp only [step] at hstep
  split at hstep
  · split at hstep
    · obtain ⟨items, -, rfl⟩ := Option.map_eq_some_iff.mp hstep
      exact .collects (Function.update_self _ _ _) trivial
    · cases hstep
      exact .collects (Function.update_self _ _ _) trivial
  · cases hstep

theorem commit_progress (hstep : σ.step lib uuids replicaId docKey itemKey batchSize (.commit t) = some τ) :
    Progress uuids τ t := by
  simp only [step] at hstep
  split at hstep
  · cases hstep
    exact .trivially (Function.update_self _ _ _) fun h => h
  · cases hstep
    exact .trivially (Function.update_self _ _ _) fun h => h
  · cases hstep

theorem fail_progress (hstep : σ.step lib uuids replicaId docKey itemKey batchSize (.fail t) = some τ) :
    Progress uuids τ t := by
  simp only [step] at hstep
  split at hstep
  · cases hstep
  · cases hstep
    exact close_progress

end Others

theorem step_progress (h : TxInv uuids docKey itemKey σ t) (hp : Progress uuids σ t) (ha : a.tx = some t)
    (hstep : σ.step lib uuids replicaId docKey itemKey batchSize a = some τ) : Progress uuids τ t := by
  cases a with
  | append d => cases ha
  | load t' l =>
    cases ha
    exact load_progress hstep
  | lock t' =>
    cases ha
    exact lock_progress hstep
  | readRevisions t' =>
    cases ha
    exact readRevisions_progress hstep
  | check t' =>
    cases ha
    exact check_progress h hstep
  | claim t' =>
    cases ha
    exact claim_progress hstep
  | recheck t' =>
    cases ha
    exact recheck_progress hstep
  | upsert t' =>
    cases ha
    exact upsert_progress h hstep
  | sweep t' =>
    cases ha
    exact sweep_progress hp hstep
  | title t' =>
    cases ha
    exact title_progress hp hstep
  | advance t' =>
    cases ha
    exact advance_progress hp hstep
  | gcPrepare t' d cutoff =>
    cases ha
    exact gcPrepare_progress hstep
  | gcLock t' =>
    cases ha
    exact gcLock_progress hstep
  | gcCheck t' ledger =>
    cases ha
    exact gcCheck_progress hstep
  | gcDelete t' =>
    cases ha
    exact gcDelete_progress hstep
  | commit t' =>
    cases ha
    exact commit_progress hstep
  | fail t' =>
    cases ha
    exact fail_progress hstep

theorem runs_progress {ok : Tenancy T K D Uuid → TenantAction T D Uuid → Prop}
    {items : OrderedMap Uuid (TenantRow D Uuid)} {documents : OrderedMap D JsString}
    {projection : OrderedMap D (ℕ × ℕ)}
    (h : Runs (step lib uuids replicaId docKey itemKey batchSize) ok (initial items documents projection) σ) :
    ∀ t, Progress uuids σ t := by
  induction h with
  | refl => exact fun t => .trivially rfl fun h => h
  | step a hrun _ hstep ih =>
    rename_i σ τ
    intro t
    have hinv := runs_inv hrun
    cases ha : a.tx with
    | none =>
      cases a with
      | append d =>
        obtain ⟨-, revs, -, rfl⟩ := append_eq hstep
        exact (ih t).congr rfl (fun _ _ _ => rfl) fun _ _ _ => rfl
      | _ => cases ha
    | some s =>
      by_cases hs : t = s
      · subst hs
        exact step_progress (hinv t) (ih t) ha hstep
      · obtain ⟨hl, -⟩ | ⟨-, rfl⟩ := step_own (hinv s) ha hstep
        · exact (ih t).leaves hs hl
        · exact (ih t).commit_other (hinv t) (hinv s) hs

theorem step_items (h : ∀ t, TxInv uuids docKey itemKey σ t)
    (hstep : σ.step lib uuids replicaId docKey itemKey batchSize a = some τ) {u : Uuid}
    (hne : τ.items.committed.get u ≠ σ.items.committed.get u) :
    ∃ t d, a = .commit t ∧ (σ.txs t).Locks d ∧ (∀ r, σ.items.committed.get u = some r → r.documentId = d) ∧
      ∀ r, τ.items.committed.get u = some r → r.documentId = d := by
  obtain ⟨d, revs, -, -, rfl⟩ | ⟨t, -, hl, -⟩ | ⟨t, rfl, rfl⟩ := step_cases h hstep
  · exact absurd rfl hne
  · exact absurd (by rw [hl.items.committed]) hne
  · by_cases hp : ∃ v, σ.items.pending.get u = some (t, v)
    · obtain ⟨v, hp⟩ := hp
      have hafter : (σ.commitTx t).items.committed.get u = v := Table.view_own hp
      have hold := (h t).overwritten u v hp
      have hnew := (h t).written u v hp
      have hsome : ∃ d, (σ.txs t).Locks d := by
        cases hc : σ.items.committed.get u with
        | some r => exact ⟨_, hold r hc⟩
        | none =>
          cases v with
          | some r => exact ⟨_, hnew r rfl⟩
          | none =>
            rw [hafter, hc] at hne
            exact absurd rfl hne
      obtain ⟨d, hd⟩ := hsome
      refine ⟨t, d, rfl, hd, fun r hr => (hold r hr).eq hd, fun r hr => (hnew r ?_).eq hd⟩
      rw [hafter] at hr
      exact hr
    · exact absurd (Table.view_other fun v hv => hp ⟨v, hv⟩) hne

theorem step_documents (h : ∀ t, TxInv uuids docKey itemKey σ t)
    (hstep : σ.step lib uuids replicaId docKey itemKey batchSize a = some τ) {d : D}
    (hne : τ.documents.committed.get d ≠ σ.documents.committed.get d) :
    ∃ t, a = .commit t ∧ (σ.txs t).Locks d := by
  obtain ⟨d', revs, -, -, rfl⟩ | ⟨t, -, hl, -⟩ | ⟨t, rfl, rfl⟩ := step_cases h hstep
  · exact absurd rfl hne
  · exact absurd (by rw [hl.documents.committed]) hne
  · refine ⟨t, rfl, ?_⟩
    by_contra hd
    exact hne (Table.view_other fun v hp => hd ((h t).documents d v hp))

theorem step_projection (h : ∀ t, TxInv uuids docKey itemKey σ t)
    (hstep : σ.step lib uuids replicaId docKey itemKey batchSize a = some τ) {d : D}
    (hne : (τ.projection.committed.get d).map Prod.snd ≠ (σ.projection.committed.get d).map Prod.snd) :
    ∃ t, a = .commit t ∧ (σ.txs t).Locks d := by
  obtain ⟨d', revs, -, hrevs, rfl⟩ | ⟨t, -, hl, -⟩ | ⟨t, rfl, rfl⟩ := step_cases h hstep
  · refine absurd ?_ hne
    dsimp only
    rw [OrderedMap.get_set]
    split
    · rename_i he
      rw [he, hrevs]
      rfl
    · rfl
  · exact absurd (by rw [hl.projection.committed]) hne
  · refine ⟨t, rfl, ?_⟩
    by_contra hd
    exact hne (congrArg (Option.map Prod.snd) (Table.view_other fun v hp => hd ((h t).projection d v hp)))

theorem isForeign_iff {d : D} {items : OrderedMap Uuid (TenantRow D Uuid)} {u : Uuid} :
    isForeign d items u = true ↔ ∃ r, items.get u = some r ∧ r.documentId ≠ d := by
  unfold isForeign
  cases items.get u <;> simp

omit [DecidableEq T] [DecidableEq K] in
theorem foreign_unchecked (h : TxInv uuids docKey itemKey σ t) {stage : PassStage Uuid}
    (htx : σ.txs t = .pass stage l)
    {u : Uuid} (hu : u ∈ l.ids uuids) (hforeign : isForeign l.documentId σ.items.committed u = true) :
    ¬ stage.Rechecked ∧ ¬ (σ.txs t).Writing := by
  have hre : ¬ stage.Rechecked := by
    intro hre
    obtain ⟨r, hr, hne⟩ := isForeign_iff.mp hforeign
    have hclaim : (σ.txs t).Claims uuids u := by
      rw [htx]
      cases stage with
      | claiming rest => exact hre.elim
      | _ => exact ⟨hre, hu⟩
    have hlock := h.own (by rw [htx]; exact hre) u hclaim r hr
    have hown : (σ.txs t).Locks l.documentId := by
      rw [htx]
      cases stage with
      | loaded => exact hre.elim
      | _ => rfl
    exact hne (hlock.eq hown)
  refine ⟨hre, ?_⟩
  rw [htx]
  intro hw
  cases stage with
  | upserted => exact hre trivial
  | swept => exact hre trivial
  | titled => exact hre trivial
  | advanced => exact hre trivial
  | _ => exact hw

theorem foreign_fails (h : TxInv uuids docKey itemKey σ t) {stage : PassStage Uuid}
    (htx : σ.txs t = .pass stage l)
    {u : Uuid} (hu : u ∈ l.ids uuids) (hforeign : isForeign l.documentId σ.items.committed u = true)
    (ha : a.tx = some t) (hstep : σ.step lib uuids replicaId docKey itemKey batchSize a = some τ) :
    Leaves t σ τ ∧ (a = .check t ∨ a = .recheck t → τ.txs t = .idle) := by
  obtain ⟨hre, hw⟩ := foreign_unchecked h htx hu hforeign
  have hmeets : ∃ u ∈ l.ids uuids, isForeign l.documentId (σ.items.view t) u = true :=
    ⟨u, hu, by rwa [isForeign, h.view_committed hw u]⟩
  constructor
  · obtain ⟨hl, -⟩ | ⟨rfl, -⟩ := step_own h ha hstep
    · exact hl
    · simp only [step, htx] at hstep
      split at hstep
      · rename_i he
        cases he
        exact absurd trivial hre
      · rename_i he
        cases he
      · cases hstep
  · rintro (rfl | rfl)
    · simp only [step, htx] at hstep
      split at hstep
      · rename_i he
        cases he
        split at hstep
        · rename_i hempty
          simp [Loaded.ids, hempty] at hu
        · rw [if_pos (Or.inr hmeets)] at hstep
          cases hstep
          exact Function.update_self _ _ _
      · cases hstep
    · simp only [step, htx] at hstep
      split at hstep
      · rename_i he
        cases he
        rw [if_pos hmeets] at hstep
        cases hstep
        exact Function.update_self _ _ _
      · cases hstep

def HardDeletes (σ : Tenancy T K D Uuid) (a : TenantAction T D Uuid) (u : Uuid) : Prop :=
  ∃ t d cutoff, a = .commit t ∧ σ.txs t = .gc (.deleting []) d cutoff ∧ σ.items.pending.get u = some (t, none)

theorem step_owner (h : ∀ t, TxInv uuids docKey itemKey σ t)
    (hstep : σ.step lib uuids replicaId docKey itemKey batchSize a = some τ) {u : Uuid}
    (hdel : ¬ HardDeletes σ a u) {r : TenantRow D Uuid} (hr : σ.items.committed.get u = some r) :
    ∃ r', τ.items.committed.get u = some r' ∧ r'.documentId = r.documentId := by
  by_cases hne : τ.items.committed.get u = σ.items.committed.get u
  · exact ⟨r, hne.trans hr, rfl⟩
  · obtain ⟨t, d, rfl, hd, hold, hnew⟩ := step_items h hstep hne
    cases hafter : τ.items.committed.get u with
    | some r' => exact ⟨r', rfl, (hnew r' hafter).trans (hold r hr).symm⟩
    | none =>
      exfalso
      apply hdel
      have hτ : τ = σ.commitTx t := by
        simp only [step] at hstep
        split at hstep
        · exact (Option.some.inj hstep).symm
        · exact (Option.some.inj hstep).symm
        · cases hstep
      subst hτ
      have hp : σ.items.pending.get u = some (t, none) := by
        by_contra hp
        apply hne
        refine Table.view_other fun v hv => ?_
        rw [show (σ.commitTx t).items.committed.get u = v from Table.view_own hv] at hafter
        exact hp (hafter ▸ hv)
      have hcollects := (h t).deleted u hp
      simp only [step] at hstep
      split at hstep
      · rename_i he
        rw [he] at hcollects
        exact hcollects.elim
      · rename_i d' cutoff he
        exact ⟨t, d', cutoff, rfl, he, hp⟩
      · cases hstep

theorem runs_owner (h : ∀ t, TxInv uuids docKey itemKey σ t) {u : Uuid}
    (hrun : Runs (step lib uuids replicaId docKey itemKey batchSize) (fun σ a => ¬ HardDeletes σ a u) σ τ)
    {r : TenantRow D Uuid} (hr : σ.items.committed.get u = some r) :
    ∃ r', τ.items.committed.get u = some r' ∧ r'.documentId = r.documentId := by
  have hboth : (∀ t, TxInv uuids docKey itemKey τ t) ∧
      ∃ r', τ.items.committed.get u = some r' ∧ r'.documentId = r.documentId := by
    induction hrun with
    | refl => exact ⟨h, r, hr, rfl⟩
    | step a _ hok hstep ih =>
      obtain ⟨hinv, r', hr', hown⟩ := ih
      obtain ⟨r'', hr'', hown'⟩ := step_owner hinv hstep hok hr'
      exact ⟨step_inv hinv hstep, r'', hr'', hown'.trans hown⟩
  exact hboth.2

theorem commit_applied (hp : Progress uuids σ t) (htx : σ.txs t = .pass .advanced l)
    (hstep : σ.step lib uuids replicaId docKey itemKey batchSize (.commit t) = some τ) :
    Applied uuids l (ownRows l.documentId σ.items.committed) (ownRows l.documentId τ.items.committed) := by
  simp only [step, htx] at hstep
  cases hstep
  unfold Progress at hp
  rw [htx] at hp
  exact hp

omit [DecidableEq D] in
theorem applied_ids {before after : Items Uuid} (h : Applied uuids l before after) :
    ∀ u ∈ l.ids uuids, ∃ row, after.get u = some row := by
  intro u hu
  obtain ⟨mid, hup, hmark⟩ := h
  obtain ⟨item, hitem, hparse⟩ := List.mem_filterMap.mp hu
  obtain ⟨row, hget⟩ := hup.get_some hitem hparse
  exact ⟨_, by rw [hmark, markMissing_get, hget, Option.map_some]⟩

end Tenancy

/-- In every state that passes and collections of any documents reach: a step changes committed rows, titles
and `projected_rev` only as the commit of a transaction on that document; a pass with an id that is another
document's fails without a trace; a pass that commits owns all its ids; and a row's document changes only
after a collection of its document has deleted the row. -/
theorem tenantIsolation {T K D Uuid : Type} [DecidableEq T] [DecidableEq K] [DecidableEq D]
    [LinearOrder Uuid] (lib : FractionalIndexing) (uuids : UuidText Uuid) (replicaId : JsString)
    (docKey : D → K) (itemKey : Uuid → K) (batchSize : ℕ) {items : OrderedMap Uuid (TenantRow D Uuid)}
    {documents : OrderedMap D JsString} {projection : OrderedMap D (ℕ × ℕ)} {σ : Tenancy T K D Uuid}
    (hrun : Runs (Tenancy.step lib uuids replicaId docKey itemKey batchSize) (fun _ _ => True)
      (.initial items documents projection) σ) :
    (∀ a τ, σ.step lib uuids replicaId docKey itemKey batchSize a = some τ →
      (∀ u, τ.items.committed.get u ≠ σ.items.committed.get u → ∃ t d, a = .commit t ∧ (σ.txs t).Locks d ∧
        (∀ r, σ.items.committed.get u = some r → r.documentId = d) ∧
        ∀ r, τ.items.committed.get u = some r → r.documentId = d) ∧
      (∀ d, τ.documents.committed.get d ≠ σ.documents.committed.get d → ∃ t, a = .commit t ∧
        (σ.txs t).Locks d) ∧
      ∀ d, (τ.projection.committed.get d).map Prod.snd ≠ (σ.projection.committed.get d).map Prod.snd →
        ∃ t, a = .commit t ∧ (σ.txs t).Locks d) ∧
    (∀ t stage l, σ.txs t = .pass stage l →
      (∃ u ∈ l.ids uuids, isForeign l.documentId σ.items.committed u = true) →
      ∀ a τ, a.tx = some t → σ.step lib uuids replicaId docKey itemKey batchSize a = some τ →
        τ.items.committed = σ.items.committed ∧ τ.documents.committed = σ.documents.committed ∧
        τ.projection.committed = σ.projection.committed ∧ (a = .check t ∨ a = .recheck t → τ.txs t = .idle)) ∧
    (∀ t l τ, σ.txs t = .pass .advanced l →
      σ.step lib uuids replicaId docKey itemKey batchSize (.commit t) = some τ →
        Tenancy.Applied uuids l (ownRows l.documentId σ.items.committed)
          (ownRows l.documentId τ.items.committed) ∧
        ∀ u ∈ l.ids uuids, ∃ row, τ.items.committed.get u = some ⟨l.documentId, row⟩) ∧
    ∀ τ u r, Runs (Tenancy.step lib uuids replicaId docKey itemKey batchSize)
        (fun σ a => ¬ Tenancy.HardDeletes σ a u) σ τ → σ.items.committed.get u = some r →
      ∃ r', τ.items.committed.get u = some r' ∧ r'.documentId = r.documentId := by
  have hinv := Tenancy.runs_inv hrun
  refine ⟨?_, ?_, ?_, fun τ u r hruns hr => Tenancy.runs_owner hinv hruns hr⟩
  · intro a τ hstep
    exact ⟨fun u => Tenancy.step_items hinv hstep, fun d => Tenancy.step_documents hinv hstep,
      fun d => Tenancy.step_projection hinv hstep⟩
  · rintro t stage l htx ⟨u, hu, hforeign⟩ a τ ha hstep
    obtain ⟨hl, hidle⟩ := Tenancy.foreign_fails (hinv t) htx hu hforeign ha hstep
    exact ⟨hl.items.committed, hl.documents.committed, hl.projection.committed, hidle⟩
  · intro t l τ htx hstep
    have happlied := Tenancy.commit_applied (Tenancy.runs_progress hrun t) htx hstep
    refine ⟨happlied, fun u hu => ?_⟩
    obtain ⟨row, hrow⟩ := Tenancy.applied_ids happlied u hu
    exact ⟨row, Tenancy.get_ownRows.mp hrow⟩

section Example

def plainRow (parentId : Option (Fin 16)) (deletedAt : Option ℤ) : ItemRow (Fin 16) :=
  ⟨parentId, js ['a', '0'], .bullet, [], none, false, false, deletedAt, 1⟩

def twoTenants (deletedAt : Option ℤ) : Tenancy ℕ ℕ ℕ (Fin 16) :=
  .initial (.ofList ([(0, ⟨1, plainRow none none⟩), (1, ⟨2, plainRow none none⟩)] ++
    deletedAt.toList.map fun at_ => (5, ⟨1, plainRow (some 0) (some at_)⟩)))
    (.ofList [(1, []), (2, [])]) (.ofList [(1, (1, 0)), (2, (1, 0))])

def tenantStep : Tenancy ℕ ℕ ℕ (Fin 16) → TenantAction ℕ ℕ (Fin 16) → Option (Tenancy ℕ ℕ ℕ (Fin 16)) :=
  Tenancy.step sampleKeys hexDigits [] (fun d => d) (fun u => 100 + u.val) 10

def claiming5 (d : ℕ) (root : JsString) : Loaded ℕ :=
  ⟨d, placedDoc root [(root, ROOT_PARENT_SENTINEL), (js ['5'], root)], none, 1, 20⟩

/-- Both documents claim the item `5`; the second waits for its lock and finds it taken. -/
def claimRace : List (TenantAction ℕ ℕ (Fin 16)) :=
  [.load 1 (claiming5 1 (js ['0'])), .load 2 (claiming5 2 (js ['1'])), .lock 1, .lock 2, .readRevisions 1,
    .readRevisions 2, .check 1, .check 2, .claim 1, .claim 1, .claim 2, .recheck 1, .upsert 1,
    .sweep 1, .title 1,
    .advance 1, .commit 1, .claim 2]

theorem tenantIsolation_race : ∃ σ τ row, execute tenantStep (twoTenants none) claimRace = some σ ∧
    tenantStep σ (.recheck 2) = some τ ∧ σ.items.committed.get 5 = some ⟨1, row⟩ ∧
    τ.items.committed = σ.items.committed ∧ τ.txs 2 = .idle := by
  have hrun : ∃ σ τ row, execute tenantStep (twoTenants none) claimRace = some σ ∧
      tenantStep σ (.recheck 2) = some τ ∧ σ.items.committed.get 5 = some ⟨1, row⟩ ∧
      σ.txs 2 = .pass (.claiming []) (claiming5 2 (js ['1'])) ∧
      isForeign 2 σ.items.committed 5 = true :=
    ⟨_, _, _, rfl, rfl, rfl, rfl, rfl⟩
  obtain ⟨σ, τ, row, hσ, hstep, hrow, htx, hforeign⟩ := hrun
  have hmeets := (tenantIsolation sampleKeys hexDigits [] (fun d => d) (fun u => 100 + u.val) 10
    (execute_runs hσ)).2.1 2 _ _ htx ⟨5, by decide, hforeign⟩ (.recheck 2) τ rfl hstep
  exact ⟨σ, τ, row, hσ, hstep, hrow, hmeets.1, hmeets.2.2.2 (Or.inr rfl)⟩

/-- The first document's row `5` is collected, and then the second document claims the id. -/
theorem collected_id_reclaimed : ∃ σ row row', execute tenantStep (twoTenants (some 0))
      [.gcPrepare 3 1 10, .gcLock 3, .gcCheck 3 [], .gcDelete 3, .commit 3,
        .load 2 (claiming5 2 (js ['1'])), .lock 2,
        .readRevisions 2, .check 2, .claim 2, .claim 2, .recheck 2, .upsert 2, .sweep 2, .title 2, .advance 2,
        .commit 2] = some σ ∧
    (twoTenants (some 0)).items.committed.get 5 = some ⟨1, row⟩ ∧ σ.items.committed.get 5 = some ⟨2, row'⟩ :=
  ⟨_, _, _, rfl, rfl, rfl⟩

end Example

end OpenOutliner
