import OpenOutliner.Server.Interleaving

namespace OpenOutliner

open Foundations

namespace Log

variable {S P T : Type} [SemilatticeSup S] [OrderBot S] [DecidableEq P] [DecidableEq T] {c : Codec S P}
  {threshold : ℕ} {σ τ : Log T P} {t : T}

theorem step_txs_of_ne {a : LogAction T P} (hstep : step c threshold σ a = some τ) (ht : t ≠ a.tx) :
    τ.txs t = σ.txs t := by
  cases a with
  | rollback t' =>
    cases hstep
    exact Function.update_of_ne ht _ _
  | _ =>
    simp only [step] at hstep
    repeat' split at hstep
    all_goals cases hstep
    all_goals exact Function.update_of_ne ht _ _

theorem step_holding {a : LogAction T P} (hstep : step c threshold σ a = some τ) (hold : σ.txs t = .holding)
    (ha : a ≠ .rollback t) : τ.txs t = .holding := by
  by_cases ht : t = a.tx
  · subst ht
    cases a with
    | rollback t' => exact absurd rfl ha
    | _ =>
      simp only [step, LogAction.tx] at hstep hold
      rw [hold] at hstep
      cases hstep
  · rw [step_txs_of_ne hstep ht, hold]

theorem commit_appended {row : ℕ × P} {rev : ℕ} (htx : σ.txs t = .appended row rev)
    (hstep : step c threshold σ (.commit t) = some τ) :
    τ.rev = rev ∧ τ.committed = insert (rev, row.2) σ.committed ∧ τ.rows = insert row σ.rows := by
  simp only [step] at hstep
  rw [htx] at hstep
  cases hstep
  exact ⟨rfl, rfl, rfl⟩

theorem holdDocument_txs (hstep : step c threshold σ (.holdDocument t) = some τ) : τ.txs t = .holding := by
  simp only [step] at hstep
  split at hstep
  · cases hstep
    exact Function.update_self _ _ _
  · cases hstep

end Log

variable {T S P Uuid : Type} [DecidableEq T] [SemilatticeSup S] [OrderBot S] [DecidableEq P]
  [DecidableEq Uuid]

def GcInv (docs : YjsDocs S P) (uuids : UuidText Uuid) (log : Log T P) (t : T) : GcTx S P Uuid T → Prop
  | .idle | .prepared _ => True
  | .locked _ | .eligible _ => log.txs t = .holding
  | .removing ids room _ row =>
    log.txs t = .holding ∧ row.2 = docs.encode (docs.removal room (ids.map uuids.text))
  | .removed ids room rev =>
    log.txs t = .holding ∧ (rev, docs.encode (docs.removal room (ids.map uuids.text))) ∈ log.committed

def Removes (docs : YjsDocs S P) (uuids : UuidText Uuid) (log : Log T P) (e : Uuid × ℕ) : Prop :=
  ∃ (room : S) (ids : List Uuid), e.1 ∈ ids ∧
    (e.2, docs.encode (docs.removal room (ids.map uuids.text))) ∈ log.committed

section Frame

variable {docs : YjsDocs S P} {uuids : UuidText Uuid} {σ τ : Log T P} {t : T}

omit [DecidableEq T] [SemilatticeSup S] [OrderBot S] [DecidableEq P] [DecidableEq Uuid] in
theorem GcInv.frame {tx : GcTx S P Uuid T} (h : GcInv docs uuids σ t tx)
    (hhold : σ.txs t = .holding → τ.txs t = .holding) (hcom : σ.committed ⊆ τ.committed) :
    GcInv docs uuids τ t tx := by
  cases tx with
  | idle => trivial
  | prepared cutoff => trivial
  | locked cutoff => exact hhold h
  | eligible ids => exact hhold h
  | removing ids room w row => exact ⟨hhold h.1, h.2⟩
  | removed ids room rev => exact ⟨hhold h.1, hcom h.2⟩

omit [DecidableEq T] [SemilatticeSup S] [OrderBot S] [DecidableEq P] [DecidableEq Uuid] in
theorem Removes.mono {e : Uuid × ℕ} (h : Removes docs uuids σ e) (hcom : σ.committed ⊆ τ.committed) :
    Removes docs uuids τ e := by
  obtain ⟨room, ids, hid, hmem⟩ := h
  exact ⟨room, ids, hid, hcom hmem⟩

end Frame

namespace Server

/-- The document of the generations up to `r`. -/
def docUpTo (docs : YjsDocs S P) (σ : Server T S P Uuid) (r : ℕ) : Doc :=
  docs.doc (σ.log.mergeUpTo docs.toCodec r)

structure Inv (docs : YjsDocs S P) (uuids : UuidText Uuid) (σ : Server T S P Uuid) : Prop where
  log : σ.log.Inv docs.toCodec
  projected : σ.projectedRev ≤ σ.log.rev
  passes : ∀ p s r, σ.passes p = some (s, r) → r ≤ σ.log.rev ∧ s = σ.log.mergeUpTo docs.toCodec r
  gc : ∀ t, GcInv docs uuids σ.log t (σ.gc t)
  deleted : ∀ e ∈ σ.hardDeleted, Removes docs uuids σ.log e

variable {docs : YjsDocs S P} {lib : FractionalIndexing} {uuids : UuidText Uuid} {replicaId : JsString}
  {threshold batchSize : ℕ} {σ τ : Server T S P Uuid} {log : Log T P} {t : T} {a : ServerAction T S P Uuid}

omit [DecidableEq T] [DecidableEq P] in
theorem inv_initial (docs : YjsDocs S P) (uuids : UuidText Uuid) (seed : Option ℕ) (items : Items Uuid) :
    (initial seed items : Server T S P Uuid).Inv docs uuids where
  log := Log.inv_initial _ seed
  projected := Nat.zero_le _
  passes := by simp [initial]
  gc _ := trivial
  deleted := by simp [initial]

omit [SemilatticeSup S] [OrderBot S] [DecidableEq P] [DecidableEq Uuid] in
theorem gcInv_update {gc : T → GcTx S P Uuid T} {tx : GcTx S P Uuid T}
    (h : ∀ t' ≠ t, GcInv docs uuids log t' (gc t')) (htx : GcInv docs uuids log t tx) :
    ∀ t', GcInv docs uuids log t' (Function.update gc t tx t') := by
  intro t'
  by_cases ht : t' = t
  · subst ht
    rw [Function.update_self]
    exact htx
  · rw [Function.update_of_ne ht]
    exact h t' ht

section Steps

variable (h : σ.Inv docs uuids)

include h

omit [DecidableEq T] in
theorem Inv.evolve {items : Items Uuid} {room : S} {ledger : List (Option ℤ)} {unsynced : Bool}
    {gc : T → GcTx S P Uuid T} {hardDeleted : List (Uuid × ℕ)} (hlog : log.Inv docs.toCodec)
    (hext : Log.Extends σ.log log) (hgc : ∀ t, GcInv docs uuids log t (gc t))
    (hdel : ∀ e ∈ hardDeleted, e ∈ σ.hardDeleted ∨ Removes docs uuids log e) :
    Inv docs uuids ⟨log, items, σ.projectedRev, σ.passes, room, ledger, unsynced, gc, hardDeleted⟩ where
  log := hlog
  projected := h.projected.trans hext.rev
  passes p s r hp := by
    obtain ⟨hr, hs⟩ := h.passes p s r hp
    exact ⟨hr.trans hext.rev, hs.trans (hext.mergeUpTo hr).symm⟩
  gc := hgc
  deleted e he := by
    cases hdel e he with
    | inl hold => exact (h.deleted e hold).mono hext.committed
    | inr hnew => exact hnew

omit [DecidableEq P] in
theorem Inv.pass {items : Items Uuid} {projectedRev : ℕ} {p : T} {pass : Option (S × ℕ)}
    (hrev : projectedRev ≤ σ.log.rev)
    (hpass : ∀ s r, pass = some (s, r) → r ≤ σ.log.rev ∧ s = σ.log.mergeUpTo docs.toCodec r) :
    Inv docs uuids { σ with items, projectedRev, passes := Function.update σ.passes p pass } := by
  refine { h with projected := hrev, passes := ?_ }
  intro p' s r hp
  by_cases hpp : p' = p
  · subst hpp
    dsimp only at hp
    rw [Function.update_self] at hp
    exact hpass s r hp
  · dsimp only at hp
    rw [Function.update_of_ne hpp] at hp
    exact h.passes p' s r hp

theorem gc_frame {tx : GcTx S P Uuid T} {b : LogAction T P}
    (hstep : σ.log.step docs.toCodec threshold b = some log)
    (hg : σ.gc t = tx) (hb : b ≠ .rollback t) : GcInv docs uuids log t tx := by
  have hold := h.gc t
  rw [hg] at hold
  exact hold.frame (fun hh => Log.step_holding hstep hh hb) (Log.step_extends h.log hstep).committed

theorem inv_gcEnd : (σ.gcEnd t).Inv docs uuids := by
  have hstep : σ.log.step docs.toCodec 0 (.rollback t) = some (σ.log.release t) := rfl
  refine h.evolve (Log.inv_step h.log hstep) (Log.step_extends h.log hstep) ?_ (fun _ he => Or.inl he)
  refine gcInv_update ?_ trivial
  intro t' ht
  refine gc_frame h hstep rfl ?_
  intro he
  cases he
  exact ht rfl

theorem inv_log {b : LogAction T P} (hidle : σ.gc b.tx = .idle)
    (hlog : σ.log.step docs.toCodec threshold b = some log) :
    ({ σ with log } : Server T S P Uuid).Inv docs uuids := by
  refine h.evolve (Log.inv_step h.log hlog) (Log.step_extends h.log hlog) ?_ (fun _ he => Or.inl he)
  intro t
  by_cases hb : b = .rollback t
  · subst hb
    rw [show σ.gc t = .idle from hidle]
    trivial
  · exact gc_frame h hlog rfl hb

theorem inv_gc {tx : GcTx S P Uuid T} {room : S} {b : LogAction T P} (hb : ∀ t, b ≠ .rollback t)
    (hlog : σ.log.step docs.toCodec threshold b = some log) (htx : GcInv docs uuids log t tx) :
    (({ σ with log, room } : Server T S P Uuid).setGc t tx).Inv docs uuids :=
  h.evolve (Log.inv_step h.log hlog) (Log.step_extends h.log hlog)
    (gcInv_update (fun t' _ => gc_frame h hlog rfl (hb t')) htx) (fun _ he => Or.inl he)

omit [DecidableEq P] in
theorem inv_setGc {tx : GcTx S P Uuid T} (htx : GcInv docs uuids σ.log t tx) :
    (σ.setGc t tx).Inv docs uuids :=
  { h with gc := gcInv_update (fun t' _ => h.gc t') htx }

omit [DecidableEq T] [DecidableEq P] in
theorem inv_gcDelete {ids : List Uuid} {room : S} {rev : ℕ} (hg : σ.gc t = .removed ids room rev)
    (items : Items Uuid) : ({ σ with
      items, hardDeleted :=
  ids.map (fun id => (id, rev)) ++ σ.hardDeleted } : Server T S P Uuid).Inv docs uuids := by
  have hold := h.gc t
  rw [hg] at hold
  refine { h with deleted := ?_ }
  intro e he
  cases List.mem_append.mp he with
  | inl hnew =>
    obtain ⟨id, hid, rfl⟩ := List.mem_map.mp hnew
    exact ⟨room, ids, hid, hold.2⟩
  | inr hkept => exact h.deleted e hkept

end Steps

omit [SemilatticeSup S] [OrderBot S] [DecidableEq P] in
theorem project_cases {p : T} {now : ℤ} {foreign : Uuid → Bool}
    (hstep : σ.projectStep docs lib uuids replicaId p now foreign = some τ) :
    ∃ s r items projectedRev, σ.passes p = some (s, r) ∧ σ.log.documentLock = none ∧
      projectTx lib uuids replicaId foreign now (docs.doc s) r σ.log.rev σ.items σ.projectedRev =
        some (items, projectedRev) ∧
      τ = { σ with items, projectedRev, passes := Function.update σ.passes p none } := by
  unfold projectStep at hstep
  split at hstep
  · cases hstep
  · rename_i s r hpass
    split at hstep
    · cases hstep
    · rename_i hfree
      rw [not_or, not_not, not_not] at hfree
      split at hstep
      · obtain ⟨⟨items, projectedRev⟩, htx, rfl⟩ := Option.map_eq_some_iff.mp hstep
        exact ⟨s, r, items, projectedRev, hpass, hfree.1, htx, rfl⟩
      · cases hstep

omit [DecidableEq P] in
theorem inv_project {p : T} {now : ℤ} {foreign : Uuid → Bool} (h : σ.Inv docs uuids)
    (hstep : σ.projectStep docs lib uuids replicaId p now foreign = some τ) : τ.Inv docs uuids := by
  obtain ⟨s, r, items, projectedRev, hpass, -, htx, rfl⟩ := project_cases hstep
  refine h.pass ?_ (by simp)
  by_cases hguard : σ.log.rev ≤ σ.projectedRev ∨ r ≤ σ.projectedRev
  · rw [(projectTx_refused htx hguard).2]
    exact h.projected
  · rw [(projectTx_applied htx hguard).1]
    exact (h.passes p s r hpass).1

theorem inv_gcRemove {w : T} {id : ℕ} (h : σ.Inv docs uuids)
    (hstep : σ.step docs lib uuids replicaId threshold batchSize (.gcRemove t w id) = some τ) :
    τ.Inv docs uuids := by
  simp only [step] at hstep
  split at hstep
  · rename_i hg
    split at hstep
    · cases hstep
      exact inv_gcEnd h
    · obtain ⟨log, hlog, rfl⟩ := Option.map_eq_some_iff.mp hstep
      exact inv_gc h (by simp) hlog ⟨gc_frame h hlog hg (by simp), rfl⟩
  · cases hstep

theorem inv_gcStored (h : σ.Inv docs uuids)
    (hstep : σ.step docs lib uuids replicaId threshold batchSize (.gcStored t) = some τ) :
    τ.Inv docs uuids := by
  simp only [step] at hstep
  split at hstep
  · rename_i ids room w row hg
    split at hstep
    · rename_i stored rev htx
      split at hstep
      · rename_i he
        obtain ⟨log, hlog, rfl⟩ := Option.map_eq_some_iff.mp hstep
        have hgc := gc_frame h hlog hg (by simp)
        obtain ⟨hrev, hcom, -⟩ := Log.commit_appended htx hlog
        refine inv_gc h (by simp) hlog ⟨hgc.1, ?_⟩
        rw [hcom, hrev, ← hgc.2, he]
        exact Finset.mem_insert_self _ _
      · cases hstep
    · cases hstep
  · cases hstep

theorem inv_step (h : σ.Inv docs uuids)
    (hstep : σ.step docs lib uuids replicaId threshold batchSize a = some τ) : τ.Inv docs uuids := by
  cases a with
  | log b =>
    simp only [step] at hstep
    split at hstep
    · cases hstep
    · rename_i hidle
      obtain ⟨log, hlog, rfl⟩ := Option.map_eq_some_iff.mp hstep
      exact inv_log h hidle hlog
    · cases hstep
  | load p =>
    obtain ⟨⟨s, r⟩, hload, rfl⟩ := Option.map_eq_some_iff.mp hstep
    refine h.pass h.projected ?_
    rintro s' r' ⟨⟩
    exact Log.loadDocumentSnapshot_spec h.log hload
  | project p now foreign => exact inv_project h hstep
  | giveUp p =>
    cases hstep
    exact h.pass h.projected (by simp)
  | room s =>
    cases hstep
    exact { h with }
  | ledger rows =>
    cases hstep
    exact { h with }
  | connections unsynced =>
    cases hstep
    exact { h with }
  | gcPrepare t cutoff =>
    simp only [step] at hstep
    split at hstep
    · split at hstep
      · cases hstep
      · cases hstep
        exact inv_setGc h trivial
    · cases hstep
  | gcLock t =>
    simp only [step] at hstep
    split at hstep
    · obtain ⟨log, hlog, rfl⟩ := Option.map_eq_some_iff.mp hstep
      exact inv_gc h (by simp) hlog (Log.holdDocument_txs hlog)
    · cases hstep
  | gcCheck t =>
    simp only [step] at hstep
    split at hstep
    · rename_i hg
      have hold := h.gc t
      rw [hg] at hold
      split at hstep
      · cases hstep
        exact inv_gcEnd h
      · cases hstep
        exact inv_setGc h hold
    · cases hstep
  | gcRemove t w id => exact inv_gcRemove h hstep
  | gcStored t => exact inv_gcStored h hstep
  | gcDelete t =>
    simp only [step] at hstep
    split at hstep
    · rename_i hg
      cases hstep
      exact inv_gcEnd (inv_gcDelete h hg _)
    · cases hstep
  | gcAbort t =>
    cases hstep
    exact inv_gcEnd h

theorem runs_inv {ok : Server T S P Uuid → ServerAction T S P Uuid → Prop} {seed : Option ℕ}
    {items : Items Uuid}
    (h : Runs (step docs lib uuids replicaId threshold batchSize) ok (initial seed items) σ) :
    σ.Inv docs uuids :=
  h.invariant (fun hi _ hstep => inv_step hi hstep) (inv_initial docs uuids seed items)

structure Quiet (docs : YjsDocs S P) (threshold : ℕ) (a : ServerAction T S P Uuid)
    (σ τ : Server T S P Uuid) : Prop where
  items : τ.items = σ.items
  projectedRev : τ.projectedRev = σ.projectedRev
  hardDeleted : τ.hardDeleted = σ.hardDeleted
  log : τ.log = σ.log ∨ ∃ b, σ.log.step docs.toCodec threshold b = some τ.log
  eligible : ∀ t ids, τ.gc t = .eligible ids →
    σ.gc t = .eligible ids ∨ ∀ u ∈ ids, ∃ row, σ.items.get u = some row ∧ row.deletedAt ≠ none
  removed : ∀ t ids room rev, τ.gc t = .removed ids room rev → σ.gc t = .removed ids room rev ∨
    a = .gcStored t ∧ ∃ w row, σ.gc t = .removing ids room w row ∧ σ.log.txs w = .appended row rev ∧
      σ.log.step docs.toCodec threshold (.commit w) = some τ.log

def Plain : GcTx S P Uuid T → Prop
  | .eligible _ | .removed _ _ _ => False
  | _ => True

omit [SemilatticeSup S] [OrderBot S] [DecidableEq P] [DecidableEq Uuid] in
theorem plain_update {tx tx' : GcTx S P Uuid T} {gc : T → GcTx S P Uuid T} {t' : T} (htx : Plain tx)
    (htx' : ¬ Plain tx') (h : Function.update gc t tx t' = tx') : gc t' = tx' := by
  by_cases ht : t' = t
  · subst ht
    rw [Function.update_self] at h
    exact absurd (h ▸ htx) htx'
  · rwa [Function.update_of_ne ht] at h

theorem quiet_setGc {tx : GcTx S P Uuid T} {room : S} (htx : Plain tx)
    (hlog : log = σ.log ∨ ∃ b, σ.log.step docs.toCodec threshold b = some log) :
    Quiet docs threshold a σ (({ σ with log, room } : Server T S P Uuid).setGc t tx) :=
  ⟨rfl, rfl, rfl, hlog, fun _ _ he => Or.inl (plain_update htx not_false he),
    fun _ _ _ _ he => Or.inl (plain_update htx not_false he)⟩

theorem quiet_gcEnd : Quiet docs threshold a σ (σ.gcEnd t) := quiet_setGc trivial (Or.inr ⟨.rollback t, rfl⟩)

theorem quiet_gcCheck (hstep : σ.step docs lib uuids replicaId threshold batchSize (.gcCheck t) = some τ) :
    Quiet docs threshold (.gcCheck t) σ τ := by
  simp only [step] at hstep
  split at hstep
  · split at hstep
    · cases hstep
      exact quiet_gcEnd
    · cases hstep
      refine ⟨rfl, rfl, rfl, Or.inl rfl, ?_, ?_⟩
      · intro t' ids he
        by_cases ht : t' = t
        · subst ht
          simp only [setGc, Function.update_self, GcTx.eligible.injEq] at he
          exact Or.inr (he ▸ fun u hu => eligible_deleted hu)
        · simp only [setGc, Function.update_of_ne ht] at he
          exact Or.inl he
      · intro t' ids room rev he
        by_cases ht : t' = t
        · subst ht
          simp [setGc] at he
        · simp only [setGc, Function.update_of_ne ht] at he
          exact Or.inl he
  · cases hstep

theorem quiet_gcStored (hstep : σ.step docs lib uuids replicaId threshold batchSize (.gcStored t) = some τ) :
    Quiet docs threshold (.gcStored t) σ τ := by
  simp only [step] at hstep
  split at hstep
  · rename_i ids room w row hg
    split at hstep
    · rename_i stored rev htx
      split at hstep
      · rename_i he
        subst he
        obtain ⟨log, hlog, rfl⟩ := Option.map_eq_some_iff.mp hstep
        refine ⟨rfl, rfl, rfl, Or.inr ⟨_, hlog⟩, ?_, ?_⟩
        · intro t' ids' he
          by_cases ht : t' = t
          · subst ht
            simp [setGc] at he
          · simp only [setGc, Function.update_of_ne ht] at he
            exact Or.inl he
        · intro t' ids' room' rev' he
          by_cases ht : t' = t
          · subst ht
            simp only [setGc, Function.update_self, GcTx.removed.injEq] at he
            obtain ⟨rfl, rfl, rfl⟩ := he
            rw [(Log.commit_appended htx hlog).1]
            exact Or.inr ⟨rfl, w, stored, hg, htx, hlog⟩
          · simp only [setGc, Function.update_of_ne ht] at he
            exact Or.inl he
      · cases hstep
    · cases hstep
  · cases hstep

theorem step_quiet (hstep : σ.step docs lib uuids replicaId threshold batchSize a = some τ)
    (hproj : ∀ p now foreign, a ≠ .project p now foreign) (hdel : ∀ t, a ≠ .gcDelete t) :
    Quiet docs threshold a σ τ := by
  cases a with
  | project p now foreign => exact absurd rfl (hproj p now foreign)
  | gcDelete t => exact absurd rfl (hdel t)
  | log b =>
    simp only [step] at hstep
    split at hstep
    · cases hstep
    · obtain ⟨log, hlog, rfl⟩ := Option.map_eq_some_iff.mp hstep
      exact ⟨rfl, rfl, rfl, Or.inr ⟨_, hlog⟩, fun _ _ he => Or.inl he, fun _ _ _ _ he => Or.inl he⟩
    · cases hstep
  | load p =>
    obtain ⟨snapshot, -, rfl⟩ := Option.map_eq_some_iff.mp hstep
    exact ⟨rfl, rfl, rfl, Or.inl rfl, fun _ _ he => Or.inl he, fun _ _ _ _ he => Or.inl he⟩
  | giveUp p | room s | ledger rows | connections unsynced =>
    cases hstep
    exact ⟨rfl, rfl, rfl, Or.inl rfl, fun _ _ he => Or.inl he, fun _ _ _ _ he => Or.inl he⟩
  | gcPrepare t cutoff =>
    simp only [step] at hstep
    split at hstep
    · split at hstep
      · cases hstep
      · cases hstep
        exact quiet_setGc trivial (Or.inl rfl)
    · cases hstep
  | gcLock t =>
    simp only [step] at hstep
    split at hstep
    · obtain ⟨log, hlog, rfl⟩ := Option.map_eq_some_iff.mp hstep
      exact quiet_setGc trivial (Or.inr ⟨_, hlog⟩)
    · cases hstep
  | gcCheck t => exact quiet_gcCheck hstep
  | gcRemove t w id =>
    simp only [step] at hstep
    split at hstep
    · split at hstep
      · cases hstep
        exact quiet_gcEnd
      · obtain ⟨log, hlog, rfl⟩ := Option.map_eq_some_iff.mp hstep
        exact quiet_setGc trivial (Or.inr ⟨_, hlog⟩)
    · cases hstep
  | gcStored t => exact quiet_gcStored hstep
  | gcAbort t =>
    cases hstep
    exact quiet_gcEnd

theorem step_cases (hstep : σ.step docs lib uuids replicaId threshold batchSize a = some τ) :
    Quiet docs threshold a σ τ ∨ (∃ t, a = .gcDelete t) ∨ ∃ p now foreign, a = .project p now foreign := by
  by_cases hdel : ∃ t, a = .gcDelete t
  · exact Or.inr (Or.inl hdel)
  · by_cases hproj : ∃ p now foreign, a = .project p now foreign
    · exact Or.inr (Or.inr hproj)
    · refine Or.inl (step_quiet hstep ?_ ?_)
      · exact fun p now foreign ha => hproj ⟨p, now, foreign, ha⟩
      · exact fun t ha => hdel ⟨t, ha⟩

theorem gcDelete_cases (hstep : σ.step docs lib uuids replicaId threshold batchSize (.gcDelete t) = some τ) :
    ∃ ids room rev, σ.gc t = .removed ids room rev ∧ τ = ({ σ with
      items := ids.foldl OrderedMap.delete σ.items,
      hardDeleted := ids.map (fun id => (id, rev)) ++ σ.hardDeleted } : Server T S P Uuid).gcEnd t := by
  simp only [step] at hstep
  split at hstep
  · rename_i ids room rev hg
    cases hstep
    exact ⟨ids, room, rev, hg, rfl⟩
  · cases hstep

end Server

end OpenOutliner
