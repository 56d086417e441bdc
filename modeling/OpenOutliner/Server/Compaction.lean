import OpenOutliner.Server.YjsStore

namespace OpenOutliner

open Foundations

variable {S P T : Type} [SemilatticeSup S] [OrderBot S] [DecidableEq P] [DecidableEq T]

section Merge

variable {c : Codec S P} {rows more : Finset (ℕ × P)} {row : ℕ × P}

theorem mergeRows_insert : mergeRows c (insert row rows) = (c.decode row.2).getD ⊥ ⊔ mergeRows c rows :=
  Finset.sup_insert

omit [DecidableEq P] in
theorem mergeRows_mono (h : rows ⊆ more) : mergeRows c rows ≤ mergeRows c more := Finset.sup_mono h

theorem mergeRows_replace (h : rows ⊆ more) (hrow : c.decode row.2 = some (mergeRows c rows)) :
    mergeRows c (insert row (more \ rows)) = mergeRows c more := by
  rw [mergeRows_insert, hrow, Option.getD_some]
  unfold mergeRows
  rw [← Finset.sup_union, Finset.union_sdiff_of_subset h]

end Merge

namespace Log

variable {c : Codec S P} {threshold : ℕ} {σ τ : Log T P}

section Fields

variable (t : T)
omit [DecidableEq P]

@[simp] theorem setTx_rows (tx : Tx P) : (σ.setTx t tx).rows = σ.rows := rfl
@[simp] theorem setTx_sourceRev (tx : Tx P) : (σ.setTx t tx).sourceRev = σ.sourceRev := rfl
@[simp] theorem setTx_committed (tx : Tx P) : (σ.setTx t tx).committed = σ.committed := rfl
@[simp] theorem setTx_rev (tx : Tx P) : (σ.setTx t tx).rev = σ.rev := rfl
@[simp] theorem release_rows : (σ.release t).rows = σ.rows := rfl
@[simp] theorem release_sourceRev : (σ.release t).sourceRev = σ.sourceRev := rfl
@[simp] theorem release_committed : (σ.release t).committed = σ.committed := rfl
@[simp] theorem release_rev : (σ.release t).rev = σ.rev := rfl

end Fields

end Log

section Ids

variable {rows rows' : Finset (ℕ × P)} {used : Finset ℕ} {pending : T → Option (ℕ × P)} {row : ℕ × P} {t : T}

structure DistinctIds (rows : Finset (ℕ × P)) (used : Finset ℕ) (pending : T → Option (ℕ × P)) : Prop where
  stored : ∀ row ∈ rows, row.1 ∈ used ∧ ∀ row' ∈ rows, row.1 = row'.1 → row = row'
  open_ : ∀ t, ∀ row ∈ pending t, row.1 ∈ used ∧ ∀ row' ∈ rows, row'.1 ≠ row.1
  apart : ∀ t t', ∀ row ∈ pending t, ∀ row' ∈ pending t', row.1 = row'.1 → t = t'

namespace DistinctIds

variable (h : DistinctIds rows used pending)

include h

omit [DecidableEq P] in
theorem keep {p : Option (ℕ × P)} (hp : ∀ row ∈ p, row ∈ pending t) :
    DistinctIds rows used (Function.update pending t p) := by
  have hold : ∀ t', ∀ row ∈ Function.update pending t p t', row ∈ pending t' := by
    intro t' row hrow
    by_cases ht : t' = t
    · subst ht
      rw [Function.update_self] at hrow
      exact hp row hrow
    · rwa [Function.update_of_ne ht] at hrow
  refine ⟨h.stored, fun t' row hrow => h.open_ t' row (hold t' row hrow), ?_⟩
  intro t₁ t₂ row hrow row' hrow'
  exact h.apart t₁ t₂ row (hold t₁ row hrow) row' (hold t₂ row' hrow')

omit [DecidableEq P] in
theorem fresh (row : ℕ × P) (hid : row.1 ∉ used) :
    DistinctIds rows (insert row.1 used) (Function.update pending t (some row)) := by
  have hcases : ∀ t', ∀ r ∈ Function.update pending t (some row) t', t' = t ∧ r = row ∨ t' ≠ t ∧
      r ∈ pending t' := by
    intro t' r hr
    by_cases ht : t' = t
    · subst ht
      rw [Function.update_self] at hr
      exact Or.inl ⟨rfl, (Option.some.inj hr).symm⟩
    · rw [Function.update_of_ne ht] at hr
      exact Or.inr ⟨ht, hr⟩
  constructor
  · intro r hr
    exact ⟨Finset.mem_insert_of_mem (h.stored r hr).1, (h.stored r hr).2⟩
  · intro t' r hr
    obtain ⟨-, rfl⟩ | ⟨-, hr⟩ := hcases t' r hr
    · refine ⟨Finset.mem_insert_self _ _, ?_⟩
      rintro r' hr' he
      exact hid (he ▸ (h.stored r' hr').1)
    · exact ⟨Finset.mem_insert_of_mem (h.open_ t' r hr).1, (h.open_ t' r hr).2⟩
  · intro t₁ t₂ r₁ hr₁ r₂ hr₂ he
    obtain ⟨rfl, rfl⟩ | ⟨-, hold₁⟩ := hcases t₁ r₁ hr₁
    · obtain ⟨rfl, -⟩ | ⟨-, hold₂⟩ := hcases t₂ r₂ hr₂
      · rfl
      · exact absurd (he ▸ (h.open_ t₂ r₂ hold₂).1) hid
    · obtain ⟨-, rfl⟩ | ⟨-, hold₂⟩ := hcases t₂ r₂ hr₂
      · exact absurd (he ▸ (h.open_ t₁ r₁ hold₁).1) hid
      · exact h.apart t₁ t₂ r₁ hold₁ r₂ hold₂ he

theorem commit (hrow : row ∈ pending t) (hsub : rows' ⊆ insert row rows) :
    DistinctIds rows' used (Function.update pending t none) := by
  have hkeep := h.keep (t := t) (p := none) (by simp)
  constructor
  · intro r hr
    refine ⟨?_, ?_⟩
    · cases Finset.mem_insert.mp (hsub hr) with
      | inl he => exact he ▸ (h.open_ t row hrow).1
      | inr hr => exact (h.stored r hr).1
    · intro r' hr' he
      cases Finset.mem_insert.mp (hsub hr) with
      | inl hr =>
        cases Finset.mem_insert.mp (hsub hr') with
        | inl hr' => rw [hr, hr']
        | inr hr' => exact absurd (hr ▸ he).symm ((h.open_ t row hrow).2 r' hr')
      | inr hr =>
        cases Finset.mem_insert.mp (hsub hr') with
        | inl hr' => exact absurd (hr' ▸ he) ((h.open_ t row hrow).2 r hr)
        | inr hr' => exact (h.stored r hr).2 r' hr' he
  · intro t' r hr
    refine ⟨(hkeep.open_ t' r hr).1, ?_⟩
    intro r' hr' he
    cases Finset.mem_insert.mp (hsub hr') with
    | inl hr' =>
      by_cases ht : t' = t
      · subst ht
        rw [Function.update_self] at hr
        cases hr
      · rw [Function.update_of_ne ht] at hr
        exact ht (h.apart t' t r hr row hrow (hr' ▸ he).symm)
    | inr hr' => exact (hkeep.open_ t' r hr).2 r' hr' he
  · exact hkeep.apart

end DistinctIds

end Ids

namespace Log

variable {c : Codec S P} {threshold : ℕ} {σ τ : Log T P} {t : T}

/-- What a transaction in progress relies on. -/
def TxInv (c : Codec S P) (σ : Log T P) (t : T) : Tx P → Prop
  | .idle | .inserted _ => True
  | .appended _ rev => σ.projectionLock = some t ∧ rev = σ.rev + 1
  | .locked | .holding => σ.documentLock = some t
  | .covered rows => σ.documentLock = some t ∧ rows ⊆ σ.rows ∧ rows.Nonempty
  | .deleted rows deleted => σ.documentLock = some t ∧ rows ⊆ σ.rows ∧ rows.Nonempty ∧ deleted = rows
  | .snapshotted deleted row => σ.documentLock = some t ∧ deleted ⊆ σ.rows ∧ deleted.Nonempty ∧
      c.decode row.2 = some (mergeRows c deleted)
  | .compacted deleted row rev => σ.documentLock = some t ∧ deleted ⊆ σ.rows ∧ deleted.Nonempty ∧
      c.decode row.2 = some (mergeRows c deleted) ∧ σ.projectionLock = some t ∧ rev = σ.sourceRev.map (· + 1)

omit [DecidableEq P] [DecidableEq T] in
theorem TxInv.frame {tx : Tx P} (h : TxInv c σ t tx)
    (hdoc : σ.documentLock = some t → τ.documentLock = some t ∧ σ.rows ⊆ τ.rows)
    (hproj : σ.projectionLock = some t → τ.projectionLock = some t ∧ τ.sourceRev = σ.sourceRev) :
    TxInv c τ t tx := by
  cases tx with
  | idle => trivial
  | inserted row => trivial
  | appended row rev =>
    obtain ⟨hlock, hrev⟩ := h
    obtain ⟨hlock', hsrc⟩ := hproj hlock
    exact ⟨hlock', by rw [hrev, Log.rev, Log.rev, hsrc]⟩
  | locked => exact (hdoc h).1
  | holding => exact (hdoc h).1
  | covered rows => exact ⟨(hdoc h.1).1, h.2.1.trans (hdoc h.1).2, h.2.2⟩
  | deleted rows deleted => exact ⟨(hdoc h.1).1, h.2.1.trans (hdoc h.1).2, h.2.2⟩
  | snapshotted deleted row => exact ⟨(hdoc h.1).1, h.2.1.trans (hdoc h.1).2, h.2.2⟩
  | compacted deleted row rev =>
    obtain ⟨hlock, hsub, hne, hrow, hproj', hrev⟩ := h
    obtain ⟨hlock', hsrc⟩ := hproj hproj'
    exact ⟨(hdoc hlock).1, hsub.trans (hdoc hlock).2, hne, hrow, hlock', by rw [hrev, hsrc]⟩

structure Inv (c : Codec S P) (σ : Log T P) : Prop where
  ids : DistinctIds σ.rows σ.used fun t => (σ.txs t).pending
  tx : ∀ t, TxInv c σ t (σ.txs t)
  merged : mergeRows c σ.rows = mergeRows c σ.committed
  gens : ∀ e ∈ σ.committed, 1 ≤ e.1 ∧ e.1 ≤ σ.rev
  counted : σ.sourceRev = none → σ.rows = ∅

omit [DecidableEq P] [DecidableEq T] in
theorem inv_initial (c : Codec S P) (seed : Option ℕ) : (initial seed : Log T P).Inv c :=
  ⟨⟨by simp [initial], by simp [initial, Tx.pending], by simp [initial, Tx.pending]⟩, fun _ => trivial, rfl,
    by simp [initial], fun _ => rfl⟩

omit [DecidableEq P] in
theorem pending_update (txs : T → Tx P) (t : T) (tx : Tx P) :
    (fun t' => (Function.update txs t tx t').pending) =
      Function.update (fun t' => (txs t').pending) t tx.pending := by
  funext t'
  by_cases ht : t' = t
  · subst ht
    rw [Function.update_self, Function.update_self]
  · rw [Function.update_of_ne ht, Function.update_of_ne ht]

theorem other_lock {lock : Option T} {t' : T} (ht : t' ≠ t) (hl : lock = some t') :
    (if lock = some t then none else lock) = some t' := by
  rw [hl, if_neg]
  exact fun he => ht (Option.some.inj he)

omit [DecidableEq T] in
theorem free_lock {lock : Option T} {t' : T} (hfree : lock = none) (hl : lock = some t') (p : Prop) : p := by
  rw [hfree] at hl
  cases hl

section Steps

variable (h : σ.Inv c)

include h

section

omit [DecidableEq P]

theorem Inv.advance {used : Finset ℕ} {doc proj : Option T} {tx : Tx P}
    (hids : DistinctIds σ.rows used (Function.update (fun t => (σ.txs t).pending) t tx.pending))
    (hdoc : ∀ t' ≠ t, σ.documentLock = some t' → doc = some t')
    (hproj : ∀ t' ≠ t, σ.projectionLock = some t' → proj = some t')
    (hnew : TxInv c { σ with documentLock := doc, projectionLock := proj } t tx) :
    Inv c ⟨σ.rows, σ.sourceRev, doc, proj, Function.update σ.txs t tx, used, σ.committed⟩ := by
  refine ⟨?_, ?_, h.merged, h.gens, h.counted⟩
  · rw [pending_update]
    exact hids
  · intro t'
    dsimp only
    by_cases ht : t' = t
    · subst ht
      rw [Function.update_self]
      exact hnew.frame (fun hl => ⟨hl, Finset.Subset.rfl⟩) (fun hl => ⟨hl, rfl⟩)
    · rw [Function.update_of_ne ht]
      exact (h.tx t').frame (fun hl => ⟨hdoc t' ht hl, Finset.Subset.rfl⟩) (fun hl => ⟨hproj t' ht hl, rfl⟩)

theorem inv_release : (σ.release t).Inv c := by
  refine h.advance (h.ids.keep ?_) ?_ ?_ trivial
  · simp [Tx.pending]
  · exact fun t' ht hl => other_lock ht hl
  · exact fun t' ht hl => other_lock ht hl

theorem inv_insertUpdate {id : ℕ} {update : P} (hid : id ∉ σ.used) :
    (({ σ with used := insert id σ.used } : Log T P).setTx t (.inserted (id, update))).Inv c := by
  refine h.advance ?_ (fun _ _ hl => hl) (fun _ _ hl => hl) trivial
  exact h.ids.fresh (id, update) hid

theorem inv_advanceRev_append {row : ℕ × P} (htx : σ.txs t = .inserted row)
    (hfree : σ.projectionLock = none) :
    (({ σ with projectionLock := some t } : Log T P).setTx t (.appended row (σ.rev + 1))).Inv c := by
  refine h.advance (h.ids.keep ?_) (fun _ _ hl => hl) (fun _ _ hl => free_lock hfree hl _) ?_
  · rw [htx]
    exact fun _ hr => hr
  · exact ⟨rfl, rfl⟩

theorem inv_advanceRev_compact {deleted : Finset (ℕ × P)} {row : ℕ × P}
    (htx : σ.txs t = .snapshotted deleted row) (hfree : σ.projectionLock = none) :
    (({ σ with projectionLock := some t } : Log T P).setTx t
      (.compacted deleted row (σ.sourceRev.map (· + 1)))).Inv c := by
  have hold := h.tx t
  rw [htx] at hold
  refine h.advance (h.ids.keep ?_) (fun _ _ hl => hl) (fun _ _ hl => free_lock hfree hl _) ?_
  · rw [htx]
    exact fun _ hr => hr
  · exact ⟨hold.1, hold.2.1, hold.2.2.1, hold.2.2.2, rfl, rfl⟩

theorem inv_takeLock {tx : Tx P} (hfree : σ.documentLock = none) (htx : tx = .locked ∨ tx = .holding) :
    (({ σ with documentLock := some t } : Log T P).setTx t tx).Inv c := by
  refine h.advance (h.ids.keep ?_) (fun _ _ hl => free_lock hfree hl _) (fun _ _ hl => hl) ?_
  · obtain rfl | rfl := htx <;> simp [Tx.pending]
  · obtain rfl | rfl := htx <;> rfl

theorem inv_readUpdates {threshold : ℕ} (htx : σ.txs t = .locked) (hmore : ¬ σ.rows.card ≤ threshold) :
    (σ.setTx t (.covered σ.rows)).Inv c := by
  have hold := h.tx t
  rw [htx] at hold
  refine h.advance (h.ids.keep ?_) (fun _ _ hl => hl) (fun _ _ hl => hl) ?_
  · simp [Tx.pending]
  · exact ⟨hold, Finset.Subset.rfl, Finset.card_pos.mp (by omega)⟩

theorem inv_deleteUpdates {rows : Finset (ℕ × P)} (htx : σ.txs t = .covered rows) :
    (σ.setTx t (.deleted rows (σ.rows.filter fun row => row.1 ∈ rows.image Prod.fst))).Inv c := by
  have hold := h.tx t
  rw [htx] at hold
  obtain ⟨hlock, hsub, hne⟩ := hold
  refine h.advance (h.ids.keep ?_) (fun _ _ hl => hl) (fun _ _ hl => hl) ?_
  · simp [Tx.pending]
  · refine ⟨hlock, hsub, hne, ?_⟩
    ext row
    rw [Finset.mem_filter, Finset.mem_image]
    constructor
    · rintro ⟨hrow, row', hrow', he⟩
      rwa [(h.ids.stored row hrow).2 row' (hsub hrow') he.symm]
    · intro hrow
      exact ⟨hsub hrow, row, hrow, rfl⟩

theorem inv_insertSnapshot {rows deleted : Finset (ℕ × P)} {id : ℕ} (htx : σ.txs t = .deleted rows deleted)
    (hid : id ∉ σ.used) : (({ σ with used := insert id σ.used } : Log T P).setTx t
      (.snapshotted deleted (id, c.encode (mergeRows c rows)))).Inv c := by
  have hold := h.tx t
  rw [htx] at hold
  obtain ⟨hlock, hsub, hne, rfl⟩ := hold
  refine h.advance ?_ (fun _ _ hl => hl) (fun _ _ hl => hl) ?_
  · exact h.ids.fresh (id, c.encode (mergeRows c deleted)) hid
  · exact ⟨hlock, hsub, hne, c.decode_encode _⟩

end

theorem inv_commit_append {row : ℕ × P} {rev : ℕ} (htx : σ.txs t = .appended row rev) :
    (({ σ with
      rows := insert row σ.rows, sourceRev := some rev,
      committed := insert (rev, row.2) σ.committed } : Log T P).release t).Inv c := by
  have hold := h.tx t
  rw [htx] at hold
  obtain ⟨hlock, rfl⟩ := hold
  refine ⟨?_, ?_, ?_, ?_, ?_⟩
  · simp only [release]
    rw [pending_update]
    exact h.ids.commit (by rw [htx]; rfl) Finset.Subset.rfl
  · intro t'
    simp only [release]
    by_cases ht : t' = t
    · subst ht
      rw [Function.update_self]
      trivial
    · rw [Function.update_of_ne ht]
      apply (h.tx t').frame
      · intro hl
        refine ⟨?_, Finset.subset_insert _ _⟩
        dsimp only
        exact other_lock ht hl
      · intro hl
        rw [hlock] at hl
        exact absurd (Option.some.inj hl).symm ht
  · simp only [release_rows, release_committed]
    rw [mergeRows_insert, mergeRows_insert, h.merged]
  · simp only [release_committed, rev]
    intro e he
    cases Finset.mem_insert.mp he with
    | inl he => rw [he]; exact ⟨by simp, le_rfl⟩
    | inr he => exact ⟨(h.gens e he).1, (h.gens e he).2.trans (Nat.le_succ _)⟩
  · intro hnone
    cases hnone

theorem inv_commit_compact {deleted : Finset (ℕ × P)} {row : ℕ × P} {rev : Option ℕ}
    (htx : σ.txs t = .compacted deleted row rev) :
    (({ σ with rows := insert row (σ.rows \ deleted), sourceRev := rev } : Log T P).release t).Inv c := by
  have hold := h.tx t
  rw [htx] at hold
  obtain ⟨hdoc, hsub, hne, hrow, hproj, rfl⟩ := hold
  refine ⟨?_, ?_, ?_, ?_, ?_⟩
  · simp only [release]
    rw [pending_update]
    exact h.ids.commit (by rw [htx]; rfl) (Finset.insert_subset_insert _ Finset.sdiff_subset)
  · intro t'
    simp only [release]
    by_cases ht : t' = t
    · subst ht
      rw [Function.update_self]
      trivial
    · rw [Function.update_of_ne ht]
      apply (h.tx t').frame
      · intro hl
        rw [hdoc] at hl
        exact absurd (Option.some.inj hl).symm ht
      · intro hl
        rw [hproj] at hl
        exact absurd (Option.some.inj hl).symm ht
  · simp only [release_rows, release_committed]
    rw [mergeRows_replace hsub hrow, h.merged]
  · intro e he
    refine ⟨(h.gens e he).1, (h.gens e he).2.trans ?_⟩
    simp only [Log.rev]
    cases σ.sourceRev <;> simp
  · simp only [release_sourceRev, Option.map_eq_none_iff]
    intro hnone
    rw [h.counted hnone] at hsub
    exact absurd (Finset.subset_empty.mp hsub) hne.ne_empty

end Steps

theorem inv_step {a : LogAction T P} (h : σ.Inv c) (hstep : step c threshold σ a = some τ) : τ.Inv c := by
  cases a with
  | insertUpdate t id update =>
    simp only [step] at hstep
    split at hstep
    · split at hstep
      · cases hstep
      · rename_i hid
        cases hstep
        exact inv_insertUpdate h hid
    · cases hstep
  | advanceRev t =>
    simp only [step] at hstep
    split at hstep
    · rename_i htx hfree
      cases hstep
      exact inv_advanceRev_append h htx hfree
    · rename_i htx hfree
      cases hstep
      exact inv_advanceRev_compact h htx hfree
    · cases hstep
  | lockDocument t =>
    simp only [step] at hstep
    split at hstep
    · rename_i hfree
      cases hstep
      exact inv_takeLock h hfree (Or.inl rfl)
    · cases hstep
  | readUpdates t =>
    simp only [step] at hstep
    split at hstep
    · rename_i htx
      split_ifs at hstep with hfew hdec
      · cases hstep
        exact inv_release h
      · cases hstep
        exact inv_readUpdates h htx hfew
      · cases hstep
        exact inv_release h
    · cases hstep
  | deleteUpdates t =>
    simp only [step] at hstep
    split at hstep
    · rename_i htx
      cases hstep
      exact inv_deleteUpdates h htx
    · cases hstep
  | insertSnapshot t id =>
    simp only [step] at hstep
    split at hstep
    · rename_i htx
      split at hstep
      · cases hstep
      · rename_i hid
        cases hstep
        exact inv_insertSnapshot h htx hid
    · cases hstep
  | commit t =>
    simp only [step] at hstep
    split at hstep
    · rename_i htx
      cases hstep
      exact inv_commit_append h htx
    · rename_i htx
      cases hstep
      exact inv_commit_compact h htx
    · cases hstep
  | rollback t =>
    simp only [step] at hstep
    cases hstep
    exact inv_release h
  | holdDocument t =>
    simp only [step] at hstep
    split at hstep
    · rename_i hfree
      cases hstep
      exact inv_takeLock h hfree (Or.inr rfl)
    · cases hstep

theorem runs_inv {seed : Option ℕ} (h : LogRuns c threshold (initial seed) σ) : σ.Inv c :=
  h.invariant (fun hi _ hstep => inv_step hi hstep) (inv_initial c seed)

theorem step_unchanged {a : LogAction T P} (hstep : step c threshold σ a = some τ) (ha : ∀ t, a ≠ .commit t) :
    τ.rows = σ.rows ∧ τ.sourceRev = σ.sourceRev ∧ τ.committed = σ.committed := by
  cases a with
  | commit t => exact absurd rfl (ha t)
  | rollback t =>
    cases hstep
    exact ⟨rfl, rfl, rfl⟩
  | _ =>
    simp only [step] at hstep
    repeat' split at hstep
    all_goals cases hstep
    all_goals exact ⟨rfl, rfl, rfl⟩

theorem commit_cases (h : σ.Inv c) (hstep : step c threshold σ (.commit t) = some τ) :
    (∃ row, σ.txs t = .appended row (σ.rev + 1) ∧ τ.rev = σ.rev + 1 ∧
        τ.committed = insert (σ.rev + 1, row.2) σ.committed) ∨
      (∃ deleted row rev, σ.txs t = .compacted deleted row rev) ∧ τ.rev = σ.rev + 1 ∧
        τ.committed = σ.committed := by
  simp only [step] at hstep
  split at hstep
  · rename_i row rev htx
    cases hstep
    have hold := h.tx t
    rw [htx] at hold
    obtain ⟨-, rfl⟩ := hold
    exact Or.inl ⟨row, htx, rfl, rfl⟩
  · rename_i deleted row rev htx
    cases hstep
    have hold := h.tx t
    rw [htx] at hold
    obtain ⟨-, hsub, hne, -, -, rfl⟩ := hold
    refine Or.inr ⟨⟨deleted, row, _, htx⟩, ?_, rfl⟩
    simp only [Log.rev]
    cases hsrc : σ.sourceRev with
    | some rev => rfl
    | none =>
      rw [h.counted hsrc] at hsub
      exact absurd (Finset.subset_empty.mp hsub) hne.ne_empty
  · cases hstep

structure Extends (σ τ : Log T P) : Prop where
  rev : σ.rev ≤ τ.rev
  committed : σ.committed ⊆ τ.committed
  later : ∀ e ∈ τ.committed, e ∉ σ.committed → σ.rev < e.1

omit [DecidableEq P] [DecidableEq T] in
theorem Extends.refl (σ : Log T P) : Extends σ σ :=
  ⟨le_rfl, Finset.Subset.rfl, fun _ he hnot => absurd he hnot⟩

omit [DecidableEq T] in
theorem Extends.trans {υ : Log T P} (h : Extends σ τ) (h' : Extends τ υ) : Extends σ υ := by
  refine ⟨h.rev.trans h'.rev, h.committed.trans h'.committed, ?_⟩
  intro e he hnot
  by_cases hmid : e ∈ τ.committed
  · exact h.later e hmid hnot
  · exact h.rev.trans_lt (h'.later e he hmid)

theorem step_extends {a : LogAction T P} (h : σ.Inv c) (hstep : step c threshold σ a = some τ) :
    Extends σ τ := by
  by_cases ha : ∀ t, a ≠ .commit t
  · obtain ⟨-, hsrc, hcom⟩ := step_unchanged hstep ha
    refine ⟨?_, hcom.ge, fun e he hnot => absurd (hcom ▸ he) hnot⟩
    rw [Log.rev, Log.rev, hsrc]
  · simp only [not_forall, not_not] at ha
    obtain ⟨t, rfl⟩ := ha
    obtain ⟨row, -, hrev, hcom⟩ | ⟨-, hrev, hcom⟩ := commit_cases h hstep
    · refine ⟨by omega, by rw [hcom]; exact Finset.subset_insert _ _, ?_⟩
      intro e he hnot
      rw [hcom] at he
      rw [(Finset.mem_insert.mp he).resolve_right hnot]
      exact Nat.lt_succ_self _
    · exact ⟨by omega, hcom.ge, fun e he hnot => absurd (hcom ▸ he) hnot⟩

theorem runs_extends (h : σ.Inv c) (hrun : LogRuns c threshold σ τ) : Extends σ τ :=
  hrun.relates Extends.refl
    Extends.trans (fun hi _ hstep => inv_step hi hstep) (fun hi _ hstep => step_extends hi hstep) h

/-- The merge of the updates of the generations up to `r`. -/
def mergeUpTo (c : Codec S P) (σ : Log T P) (r : ℕ) : S := mergeRows c (σ.committed.filter fun e => e.1 ≤ r)

omit [DecidableEq T] in
theorem Extends.mergeUpTo (h : Extends σ τ) {r : ℕ} (hr : r ≤ σ.rev) : τ.mergeUpTo c r = σ.mergeUpTo c r := by
  have hfilter : (τ.committed.filter fun e => e.1 ≤ r) = σ.committed.filter fun e => e.1 ≤ r := by
    ext e
    rw [Finset.mem_filter, Finset.mem_filter]
    constructor
    · rintro ⟨he, hle⟩
      refine ⟨?_, hle⟩
      by_contra hnot
      have := h.later e he hnot
      omega
    · rintro ⟨he, hle⟩
      exact ⟨h.committed he, hle⟩
  rw [Log.mergeUpTo, Log.mergeUpTo, hfilter]

omit [DecidableEq P] [DecidableEq T] in
theorem mergeUpTo_rev (h : σ.Inv c) : σ.mergeUpTo c σ.rev = mergeRows c σ.rows := by
  rw [h.merged, mergeUpTo, Finset.filter_true_of_mem fun e he => (h.gens e he).2]

omit [DecidableEq T] in
theorem loadDocumentSnapshot_spec (h : σ.Inv c) {strict : Bool} {s : S} {r : ℕ}
    (hload : σ.loadDocumentSnapshot c strict = some (s, r)) : r ≤ σ.rev ∧ s = σ.mergeUpTo c r := by
  have hzero : σ.mergeUpTo c 0 = ⊥ := by
    have hnone : (σ.committed.filter fun e => e.1 ≤ 0) = ∅ := by
      apply Finset.filter_false_of_mem
      intro e he
      have := (h.gens e he).1
      omega
    rw [mergeUpTo, hnone]
    rfl
  unfold loadDocumentSnapshot at hload
  split at hload
  · cases hload
    exact ⟨Nat.zero_le _, hzero.symm⟩
  · rename_i revision hsrc
    split_ifs at hload with hempty hbad
    · cases hload
      exact ⟨Nat.zero_le _, hzero.symm⟩
    · cases hload
      have hrev : σ.rev = r := by rw [Log.rev, hsrc, Option.getD_some]
      rw [← hrev]
      exact ⟨le_rfl, (mergeUpTo_rev h).symm⟩

theorem readUpdates_undecodable (hstep : step c threshold σ (.readUpdates t) = some τ)
    (hbad : ¬ Decodes c σ.rows) : τ = σ.release t := by
  simp only [step] at hstep
  split at hstep
  · rw [if_neg hbad, ite_self] at hstep
    exact (Option.some.inj hstep).symm
  · cases hstep

end Log

/-- In every interleaving the rows merge to all that was committed; a snapshot is the merge of exactly
the updates of its revision; `source_rev` grows with each commit, which for an append brings in its
update; and a compaction fails closed. -/
theorem compactDocument_loses_nothing {c : Codec S P} {threshold : ℕ} {seed : Option ℕ} {σ : Log T P}
    (h : Log.LogRuns c threshold (Log.initial seed) σ) :
    mergeRows c σ.rows = mergeRows c σ.committed ∧
      (∀ strict s r, σ.loadDocumentSnapshot c strict = some (s, r) → ∀ τ, Log.LogRuns c threshold σ τ →
        s = mergeRows c (τ.committed.filter fun e => e.1 ≤ r)) ∧
      (∀ a τ, σ.step c threshold a = some τ → (∃ t, a = .commit t) ∧ σ.rev < τ.rev ∨
        τ.rows = σ.rows ∧ τ.sourceRev = σ.sourceRev ∧ τ.committed = σ.committed) ∧
      (∀ t τ, σ.step c threshold (.commit t) = some τ → σ.rev < τ.rev ∧
        ((∃ row, σ.txs t = .appended row τ.rev ∧ τ.committed = insert (τ.rev, row.2) σ.committed) ∨
          (∃ deleted row rev, σ.txs t = .compacted deleted row rev) ∧ τ.committed = σ.committed)) ∧
      ∀ t τ, σ.step c threshold (.readUpdates t) = some τ → ¬ Decodes c σ.rows →
        τ.txs t = .idle ∧ τ.rows = σ.rows ∧ τ.sourceRev = σ.sourceRev := by
  have hinv := Log.runs_inv h
  refine ⟨hinv.merged, ?_, ?_, ?_, ?_⟩
  · intro strict s r hload τ hrun
    obtain ⟨hr, rfl⟩ := Log.loadDocumentSnapshot_spec hinv hload
    exact ((Log.runs_extends hinv hrun).mergeUpTo hr).symm
  · intro a τ hstep
    by_cases ha : ∀ t, a ≠ .commit t
    · exact Or.inr (Log.step_unchanged hstep ha)
    · simp only [not_forall, not_not] at ha
      obtain ⟨t, rfl⟩ := ha
      refine Or.inl ⟨⟨t, rfl⟩, ?_⟩
      obtain ⟨row, -, hrev, -⟩ | ⟨-, hrev, -⟩ := Log.commit_cases hinv hstep <;> omega
  · intro t τ hstep
    obtain ⟨row, htx, hrev, hcom⟩ | ⟨htx, hrev, hcom⟩ := Log.commit_cases hinv hstep
    · rw [← hrev] at htx hcom
      exact ⟨by omega, Or.inl ⟨row, htx, hcom⟩⟩
    · exact ⟨by omega, Or.inr ⟨htx, hcom⟩⟩
  · intro t τ hstep hbad
    rw [Log.readUpdates_undecodable hstep hbad]
    exact ⟨Function.update_self _ _ _, rfl, rfl⟩

section Examples

def setCodec : Codec (Finset ℕ) (Option (Finset ℕ)) := ⟨id, some, fun _ => rfl⟩

def lateCommit : List (LogAction ℕ (Option (Finset ℕ))) :=
  [.insertUpdate 1 10 (some {1}), .insertUpdate 2 11 (some {2}), .advanceRev 2, .commit 2,
    .lockDocument 3, .readUpdates 3, .advanceRev 1, .deleteUpdates 3, .commit 1, .insertSnapshot 3 12,
    .advanceRev 3, .commit 3]

theorem compactDocument_lateCommit :
    ∃ σ, execute (Log.step setCodec 0) (Log.initial none : Log ℕ (Option (Finset ℕ))) lateCommit = some σ ∧
      mergeRows setCodec σ.rows = mergeRows setCodec σ.committed ∧
      σ.committed = {(1, some {2}), (2, some {1})} ∧
      σ.rows = {(10, some {1}), (12, some {2})} := by
  have hrun : ∃ σ, execute (Log.step setCodec 0) (Log.initial none : Log ℕ (Option (Finset ℕ))) lateCommit =
      some σ ∧ σ.committed = {(1, some {2}), (2, some {1})} ∧ σ.rows = {(10, some {1}), (12, some {2})} :=
    ⟨_, rfl, by decide, by decide⟩
  obtain ⟨σ, hσ, hcommitted, hrows⟩ := hrun
  exact ⟨σ, hσ, (compactDocument_loses_nothing (execute_runs hσ)).1, hcommitted, hrows⟩

end Examples

end OpenOutliner
