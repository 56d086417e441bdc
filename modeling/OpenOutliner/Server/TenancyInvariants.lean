import OpenOutliner.Server.Tenancy

namespace OpenOutliner

open Foundations

def PassStage.Rechecked {Uuid : Type} : PassStage Uuid → Prop
  | .rechecked | .upserted | .swept | .titled | .advanced => True
  | _ => False

namespace TenantTx

variable {D Uuid : Type} [DecidableEq D] [LinearOrder Uuid]

def lockedDocument : TenantTx D Uuid → Option D
  | .idle => none
  | .pass .loaded _ => none
  | .pass _ l => some l.documentId
  | .gc .prepared _ _ => none
  | .gc _ documentId _ => some documentId

def Locks (tx : TenantTx D Uuid) (d : D) : Prop := tx.lockedDocument = some d

def Claims (uuids : UuidText Uuid) : TenantTx D Uuid → Uuid → Prop
  | .pass (.claiming rest) l, u => u ∈ l.ids uuids ∧ u ∉ rest
  | .pass stage l, u => stage.Rechecked ∧ u ∈ l.ids uuids
  | _, _ => False

def Rechecked : TenantTx D Uuid → Prop
  | .pass stage _ => stage.Rechecked
  | _ => False

def Writing : TenantTx D Uuid → Prop
  | .pass .upserted _ | .pass .swept _ | .pass .titled _ | .pass .advanced _ | .gc (.deleting _) _ _ => True
  | _ => False

def Collects : TenantTx D Uuid → Prop
  | .gc _ _ _ => True
  | _ => False

omit [DecidableEq D] [LinearOrder Uuid] in
theorem Locks.eq {tx : TenantTx D Uuid} {d d' : D} (h : tx.Locks d) (h' : tx.Locks d') : d = d' :=
  Option.some.inj (h.symm.trans h')

end TenantTx

def TenantAction.tx {T D Uuid : Type} : TenantAction T D Uuid → Option T
  | .append _ => none
  | .load t _ | .lock t | .readRevisions t | .check t | .claim t | .recheck t | .upsert t | .sweep t
  | .title t | .advance t | .gcPrepare t _ _ | .gcLock t | .gcCheck t _ | .gcDelete t | .commit t
  | .fail t => some t

namespace Tenancy

variable {T K D Uuid : Type} [DecidableEq T] [DecidableEq K] [DecidableEq D] [LinearOrder Uuid]
  {uuids : UuidText Uuid} {docKey : D → K} {itemKey : Uuid → K} {σ τ : Tenancy T K D Uuid} {s t : T} {k : K}

structure Leaves (t : T) (σ τ : Tenancy T K D Uuid) : Prop where
  txs : ∀ s, s ≠ t → τ.txs s = σ.txs s
  advisory : ∀ k s, s ≠ t → (τ.advisory k = some s ↔ σ.advisory k = some s)
  items : σ.items.Leaves t τ.items
  documents : σ.documents.Leaves t τ.documents
  projection : σ.projection.Leaves t τ.projection

omit [DecidableEq K] [DecidableEq T] in
theorem Leaves.refl (t : T) (σ : Tenancy T K D Uuid) : Leaves t σ σ :=
  ⟨fun _ _ => rfl, fun _ _ _ => Iff.rfl, .refl _ _, .refl _ _, .refl _ _⟩

omit [DecidableEq K] in
theorem Leaves.setTx (h : Leaves t σ τ) (tx : TenantTx D Uuid) : Leaves t σ (τ.setTx t tx) :=
  { h with txs := fun s hs => (Function.update_of_ne hs _ _).trans (h.txs s hs) }

theorem acquire_leaves (h : σ.acquire t k = some τ) :
    Leaves t σ τ ∧ τ.advisory k = some t ∧ (∀ k', σ.advisory k' = some t → τ.advisory k' = some t) ∧
      τ.items = σ.items ∧ τ.documents = σ.documents ∧ τ.projection = σ.projection ∧ τ.txs = σ.txs := by
  unfold acquire at h
  split at h
  · rename_i hfree
    cases h
    refine ⟨{ Leaves.refl t σ with advisory := ?_ }, Function.update_self _ _ _, ?_, rfl, rfl, rfl, rfl⟩
    · intro k' s hs
      by_cases hk : k' = k
      · subst hk
        simp [hfree, hs.symm]
      · simp [hk]
    · intro k' hk'
      by_cases hk : k' = k
      · subst hk
        rw [hfree] at hk'
        cases hk'
      · simpa [hk] using hk'
  · rename_i s hs
    split at h
    · rename_i he
      subst he
      cases h
      exact ⟨.refl _ _, hs, fun _ h => h, rfl, rfl, rfl, rfl⟩
    · cases h

omit [DecidableEq K] in
theorem close_leaves (σ : Tenancy T K D Uuid) (t : T) : Leaves t σ (σ.close t) where
  txs := fun s hs => Function.update_of_ne hs _ _
  advisory := by
    intro k s hs
    unfold close
    dsimp only
    split
    · rename_i ht
      simp [ht, hs.symm]
    · rfl
  items := Table.release_leaves _ _
  documents := Table.release_leaves _ _
  projection := Table.release_leaves _ _

structure TxInv (uuids : UuidText Uuid) (docKey : D → K) (itemKey : Uuid → K) (σ : Tenancy T K D Uuid)
    (t : T) : Prop where
  lock : ∀ d, (σ.txs t).Locks d → σ.advisory (docKey d) = some t
  claim : ∀ u, (σ.txs t).Claims uuids u → σ.advisory (itemKey u) = some t
  own : (σ.txs t).Rechecked → ∀ u, (σ.txs t).Claims uuids u → ∀ r, σ.items.committed.get u = some r →
    (σ.txs t).Locks r.documentId
  writing : ∀ u v, σ.items.pending.get u = some (t, v) → (σ.txs t).Writing
  deleted : ∀ u, σ.items.pending.get u = some (t, none) → (σ.txs t).Collects
  written : ∀ u v, σ.items.pending.get u = some (t, v) → ∀ r ∈ v, (σ.txs t).Locks r.documentId
  overwritten : ∀ u v, σ.items.pending.get u = some (t, v) → ∀ r, σ.items.committed.get u = some r →
    (σ.txs t).Locks r.documentId
  inserted : ∀ u v, σ.items.pending.get u = some (t, v) → σ.items.committed.get u = none →
    (σ.txs t).Claims uuids u
  documents : ∀ d v, σ.documents.pending.get d = some (t, v) → (σ.txs t).Locks d
  projection : ∀ d v, σ.projection.pending.get d = some (t, v) → (σ.txs t).Locks d

omit [DecidableEq T] [DecidableEq K] in
theorem TxInv.idle (htx : σ.txs t = .idle) (hitems : ∀ u v, σ.items.pending.get u ≠ some (t, v))
    (hdocuments : ∀ d v, σ.documents.pending.get d ≠ some (t, v))
    (hprojection : ∀ d v, σ.projection.pending.get d ≠ some (t, v)) : TxInv uuids docKey itemKey σ t where
  lock := by simp [htx, TenantTx.Locks, TenantTx.lockedDocument]
  claim := by simp [htx, TenantTx.Claims]
  own := by simp [htx, TenantTx.Claims]
  writing := fun u v h => absurd h (hitems u v)
  deleted := fun u h => absurd h (hitems u none)
  written := fun u v h => absurd h (hitems u v)
  overwritten := fun u v h => absurd h (hitems u v)
  inserted := fun u v h => absurd h (hitems u v)
  documents := fun d v h => absurd h (hdocuments d v)
  projection := fun d v h => absurd h (hprojection d v)

omit [DecidableEq K] in
theorem TxInv.close (σ : Tenancy T K D Uuid) (t : T) : TxInv uuids docKey itemKey (σ.close t) t :=
  .idle (Function.update_self _ _ _) (fun _ _ => Table.release_own _ _) (fun _ _ => Table.release_own _ _)
    fun _ _ => Table.release_own _ _

omit [DecidableEq K] in
theorem TxInv.commitTx (σ : Tenancy T K D Uuid) (t : T) : TxInv uuids docKey itemKey (σ.commitTx t) t :=
  .idle (Function.update_self _ _ _) (fun _ _ => Table.release_own _ _) (fun _ _ => Table.release_own _ _)
    fun _ _ => Table.release_own _ _

omit [DecidableEq T] [DecidableEq K] in
theorem TxInv.unwritten (h : TxInv uuids docKey itemKey σ t) (hw : ¬ (σ.txs t).Writing) (u : Uuid)
    (v : Option (TenantRow D Uuid)) : σ.items.pending.get u ≠ some (t, v) :=
  fun hp => hw (h.writing u v hp)

omit [DecidableEq K] in
theorem TxInv.view_committed (h : TxInv uuids docKey itemKey σ t) (hw : ¬ (σ.txs t).Writing) (u : Uuid) :
    (σ.items.view t).get u = σ.items.committed.get u :=
  Table.view_other (h.unwritten hw u)

omit [DecidableEq T] [DecidableEq K] in
theorem TxInv.leaves (h : TxInv uuids docKey itemKey σ t) (hs : t ≠ s) (hl : Leaves s σ τ) :
    TxInv uuids docKey itemKey τ t where
  lock := by
    rw [hl.txs t hs]
    exact fun d hd => (hl.advisory _ t hs).mpr (h.lock d hd)
  claim := by
    rw [hl.txs t hs]
    exact fun u hu => (hl.advisory _ t hs).mpr (h.claim u hu)
  own := by
    rw [hl.txs t hs, hl.items.committed]
    exact h.own
  writing := by
    rw [hl.txs t hs]
    exact fun u v hp => h.writing u v ((hl.items.others u t v hs).mp hp)
  deleted := by
    rw [hl.txs t hs]
    exact fun u hp => h.deleted u ((hl.items.others u t none hs).mp hp)
  written := by
    rw [hl.txs t hs]
    exact fun u v hp => h.written u v ((hl.items.others u t v hs).mp hp)
  overwritten := by
    rw [hl.txs t hs, hl.items.committed]
    exact fun u v hp => h.overwritten u v ((hl.items.others u t v hs).mp hp)
  inserted := by
    rw [hl.txs t hs, hl.items.committed]
    exact fun u v hp => h.inserted u v ((hl.items.others u t v hs).mp hp)
  documents := by
    rw [hl.txs t hs]
    exact fun d v hp => h.documents d v ((hl.documents.others d t v hs).mp hp)
  projection := by
    rw [hl.txs t hs]
    exact fun d v hp => h.projection d v ((hl.projection.others d t v hs).mp hp)

omit [DecidableEq T] [DecidableEq K] in
theorem rechecked_unwritten (h : TxInv uuids docKey itemKey σ t) (h' : TxInv uuids docKey itemKey σ s)
    (hs : t ≠ s)
    (hre : (σ.txs t).Rechecked) {u : Uuid} (hu : (σ.txs t).Claims uuids u) (v : Option (TenantRow D Uuid)) :
    σ.items.pending.get u ≠ some (s, v) := by
  intro hp
  cases hc : σ.items.committed.get u with
  | none => exact hs (Option.some.inj ((h.claim u hu).symm.trans (h'.claim u (h'.inserted u v hp hc))))
  | some r =>
    have ht := h.lock _ (h.own hre u hu r hc)
    have hs' := h'.lock _ (h'.overwritten u v hp r hc)
    exact hs (Option.some.inj (ht.symm.trans hs'))

omit [DecidableEq K] in
theorem TxInv.commit_other (h : TxInv uuids docKey itemKey σ t) (h' : TxInv uuids docKey itemKey σ s)
    (hs : t ≠ s) :
    TxInv uuids docKey itemKey (σ.commitTx s) t := by
  have hclose := h.leaves hs (close_leaves σ s)
  have hkept : ∀ u v, (σ.commitTx s).items.pending.get u = some (t, v) →
      (σ.commitTx s).items.committed.get u = σ.items.committed.get u := by
    intro u v hp
    refine Table.view_other fun w hw => ?_
    rw [(Table.commit_others _ _ hs).mp hp] at hw
    cases hw
    exact hs rfl
  refine { hclose with own := ?_, overwritten := ?_, inserted := ?_ }
  · intro hre u hu r hr
    rw [show (σ.commitTx s).items.committed = σ.items.view s from rfl, Table.view_other] at hr
    · exact hclose.own hre u hu r hr
    · rw [show (σ.commitTx s).txs t = σ.txs t from Function.update_of_ne hs _ _] at hre hu
      exact rechecked_unwritten h h' hs hre hu
  · intro u v hp r hr
    rw [hkept u v hp] at hr
    exact hclose.overwritten u v hp r hr
  · intro u v hp hr
    rw [hkept u v hp] at hr
    exact hclose.inserted u v hp hr

omit [DecidableEq T] [DecidableEq K] in
theorem TxInv.quiet (h : TxInv uuids docKey itemKey σ t) (hw : ¬ (σ.txs t).Writing)
    (hitems : τ.items = σ.items) (hlock : ∀ d, (τ.txs t).Locks d → τ.advisory (docKey d) = some t)
    (hclaim : ∀ u, (τ.txs t).Claims uuids u → τ.advisory (itemKey u) = some t)
    (hown : (τ.txs t).Rechecked → ∀ u, (τ.txs t).Claims uuids u → ∀ r, σ.items.committed.get u = some r →
      (τ.txs t).Locks r.documentId)
    (hdocuments : ∀ d v, τ.documents.pending.get d = some (t, v) → (τ.txs t).Locks d)
    (hprojection : ∀ d v, τ.projection.pending.get d = some (t, v) → (τ.txs t).Locks d) :
    TxInv uuids docKey itemKey τ t where
  lock := hlock
  claim := hclaim
  own := hitems ▸ hown
  writing := fun u v hp => absurd (hitems ▸ hp) (h.unwritten hw u v)
  deleted := fun u hp => absurd (hitems ▸ hp) (h.unwritten hw u none)
  written := fun u v hp => absurd (hitems ▸ hp) (h.unwritten hw u v)
  overwritten := fun u v hp => absurd (hitems ▸ hp) (h.unwritten hw u v)
  inserted := fun u v hp => absurd (hitems ▸ hp) (h.unwritten hw u v)
  documents := hdocuments
  projection := hprojection

omit [DecidableEq K] in
theorem TxInv.wrote {tx : TenantTx D Uuid} {items : Table T Uuid (TenantRow D Uuid)}
    {es : List (Uuid × Option (TenantRow D Uuid))} (h : TxInv uuids docKey itemKey σ t)
    (hes : σ.items.Wrote t es items) (hlocks : tx.lockedDocument = (σ.txs t).lockedDocument)
    (hclaims : ∀ u, tx.Claims uuids u ↔ (σ.txs t).Claims uuids u)
    (hre : tx.Rechecked → (σ.txs t).Rechecked) (hwriting : tx.Writing)
    (hcollects : (σ.txs t).Collects → tx.Collects) (hdeleted : ∀ u, (u, none) ∈ es → tx.Collects)
    (hwritten : ∀ u v, (u, v) ∈ es → ∀ r ∈ v, tx.Locks r.documentId)
    (hover : ∀ u v, (u, v) ∈ es → ∀ r, σ.items.committed.get u = some r → tx.Locks r.documentId)
    (hinsert : ∀ u v, (u, v) ∈ es → σ.items.committed.get u = none → tx.Claims uuids u) :
    TxInv uuids docKey itemKey ({ σ with items }.setTx t tx) t := by
  have htx : ({ σ with items }.setTx t tx).txs t = tx := Function.update_self _ _ _
  have hto : ∀ d, (σ.txs t).Locks d → tx.Locks d := fun d hd => hlocks.trans hd
  constructor
  · rw [htx]
    exact fun d hd => h.lock d (hlocks.symm.trans hd)
  · rw [htx]
    exact fun u hu => h.claim u ((hclaims u).mp hu)
  · rw [htx]
    intro hrechecked u hu r hr
    change items.committed.get u = some r at hr
    rw [hes.committed] at hr
    exact hto _ (h.own (hre hrechecked) u ((hclaims u).mp hu) r hr)
  · rw [htx]
    exact fun _ _ _ => hwriting
  · rw [htx]
    intro u hp
    cases hes.pending_own hp with
    | inl he => exact hdeleted u he
    | inr hold => exact hcollects (h.deleted u hold)
  · rw [htx]
    intro u v hp
    cases hes.pending_own hp with
    | inl he => exact hwritten u v he
    | inr hold => exact fun r hr => hto _ (h.written u v hold r hr)
  · rw [htx]
    intro u v hp r hr
    change items.committed.get u = some r at hr
    rw [hes.committed] at hr
    cases hes.pending_own hp with
    | inl he => exact hover u v he r hr
    | inr hold => exact hto _ (h.overwritten u v hold r hr)
  · rw [htx]
    intro u v hp hr
    change items.committed.get u = none at hr
    rw [hes.committed] at hr
    cases hes.pending_own hp with
    | inl he => exact hinsert u v he hr
    | inr hold => exact (hclaims u).mpr (h.inserted u v hold hr)
  · rw [htx]
    exact fun d v hp => hto d (h.documents d v hp)
  · rw [htx]
    exact fun d v hp => hto d (h.projection d v hp)

theorem get_ownRows {d : D} {items : OrderedMap Uuid (TenantRow D Uuid)} {u : Uuid} {row : ItemRow Uuid} :
    (ownRows d items).get u = some row ↔ items.get u = some ⟨d, row⟩ := by
  rw [ownRows, OrderedMap.get_filterMapEntries, Option.bind_eq_some_iff]
  constructor
  · rintro ⟨r, hr, hcond⟩
    split at hcond
    · rename_i hd
      cases hcond
      subst hd
      exact hr
    · cases hcond
  · exact fun h => ⟨_, h, if_pos rfl⟩

theorem upsertOwn_eq {l : Loaded D} {items : OrderedMap Uuid (TenantRow D Uuid)} {after : Items Uuid}
    (h : upsertOwn uuids l items = some after) : (∀ item ∈ l.batch, castItem uuids item ≠ none) ∧
      upsertStatement l.now (ownRows l.documentId items) (upsertRows uuids l items) = some after := by
  unfold upsertOwn at h
  split at h
  · cases h
  · rename_i hcast
    exact ⟨fun item hitem hnone => hcast ⟨item, hitem, hnone⟩, h⟩

theorem upsertWrites_mem {l : Loaded D} {items : OrderedMap Uuid (TenantRow D Uuid)} {after : Items Uuid}
    {u : Uuid} {v : Option (TenantRow D Uuid)} (hafter : upsertOwn uuids l items = some after)
    (h : (u, v) ∈ upsertWrites uuids l items after) :
    u ∈ l.ids uuids ∧ ∃ row, v = some ⟨l.documentId, row⟩ := by
  obtain ⟨u, hkey, he⟩ := List.mem_map.mp h
  cases he
  obtain ⟨⟨u, parent, item⟩, hrow, rfl⟩ := List.mem_map.mp (List.mem_dedup.mp hkey)
  obtain ⟨r, hget⟩ := upsertStatement_get (upsertOwn_eq hafter).2 hrow
  obtain ⟨item', hitem, hcast⟩ := List.mem_filterMap.mp (List.mem_of_mem_filter hrow)
  exact ⟨List.mem_filterMap.mpr ⟨item', hitem, (castItem_some hcast).2.1⟩, r, by rw [hget, Option.map_some]⟩

theorem sweepWrites_mem {l : Loaded D} {items : OrderedMap Uuid (TenantRow D Uuid)} {u : Uuid}
    {v : Option (TenantRow D Uuid)} (h : (u, v) ∈ sweepWrites uuids l items) :
    ∃ old row, items.get u = some ⟨l.documentId, old⟩ ∧ v = some ⟨l.documentId, row⟩ := by
  rw [sweepWrites, OrderedMap.mem_entries_iff, OrderedMap.get_filterMapEntries] at h
  obtain ⟨⟨d, old⟩, hold, hcond⟩ := Option.bind_eq_some_iff.mp h
  split at hcond
  · rename_i hmissing
    cases hcond
    obtain ⟨rfl, -⟩ := hmissing
    exact ⟨old, _, hold, rfl⟩
  · cases hcond

omit [DecidableEq K] in
theorem TxInv.seen (h : TxInv uuids docKey itemKey σ t) {u : Uuid} {r : TenantRow D Uuid}
    (hr : (σ.items.view t).get u = some r) (hd : (σ.txs t).Locks r.documentId) :
    (∀ r', σ.items.committed.get u = some r' → (σ.txs t).Locks r'.documentId) ∧
      (σ.items.committed.get u = none → (σ.txs t).Claims uuids u) := by
  by_cases hp : ∃ v, σ.items.pending.get u = some (t, v)
  · obtain ⟨v, hp⟩ := hp
    exact ⟨h.overwritten u v hp, h.inserted u v hp⟩
  · rw [Table.view_other fun v hv => hp ⟨v, hv⟩] at hr
    constructor
    · intro r' hr'
      rw [hr] at hr'
      cases hr'
      exact hd
    · intro hnone
      rw [hr] at hnone
      cases hnone

section Own

variable {lib : FractionalIndexing} {replicaId : JsString} {batchSize : ℕ} {a : TenantAction T D Uuid}

theorem TxInv.acquired {σ' : Tenancy T K D Uuid} {tx : TenantTx D Uuid} (h : TxInv uuids docKey itemKey σ t)
    (hacquire : σ.acquire t k = some σ') (hw : ¬ (σ.txs t).Writing) (hre : ¬ tx.Rechecked)
    (hlock : ∀ d, tx.Locks d → docKey d = k ∨ (σ.txs t).Locks d)
    (hclaim : ∀ u, tx.Claims uuids u → itemKey u = k ∨ (σ.txs t).Claims uuids u)
    (hkeep : ∀ d, (σ.txs t).Locks d → tx.Locks d) :
    Leaves t σ (σ'.setTx t tx) ∧ TxInv uuids docKey itemKey (σ'.setTx t tx) t := by
  obtain ⟨hl, hnew, hold, hitems, hdocuments, hprojection, -⟩ := acquire_leaves hacquire
  have htx : (σ'.setTx t tx).txs t = tx := Function.update_self _ _ _
  refine ⟨hl.setTx tx, h.quiet hw hitems ?_ ?_ ?_ ?_ ?_⟩
  · rw [htx]
    intro d hd
    cases hlock d hd with
    | inl he => exact he ▸ hnew
    | inr hd => exact hold _ (h.lock d hd)
  · rw [htx]
    intro u hu
    cases hclaim u hu with
    | inl he => exact he ▸ hnew
    | inr hu => exact hold _ (h.claim u hu)
  · rw [htx]
    exact fun hr => absurd hr hre
  · rw [htx]
    exact fun d v hp => hkeep d (h.documents d v (hdocuments ▸ hp))
  · rw [htx]
    exact fun d v hp => hkeep d (h.projection d v (hprojection ▸ hp))

section

omit [DecidableEq K]

theorem TxInv.moved {tx : TenantTx D Uuid} (h : TxInv uuids docKey itemKey σ t) (hw : ¬ (σ.txs t).Writing)
    (hlocks : tx.lockedDocument = (σ.txs t).lockedDocument)
    (hclaim : ∀ u, tx.Claims uuids u → (σ.txs t).Claims uuids u)
    (hown : tx.Rechecked → ∀ u, tx.Claims uuids u → ∀ r, σ.items.committed.get u = some r →
      tx.Locks r.documentId) :
    Leaves t σ (σ.setTx t tx) ∧ TxInv uuids docKey itemKey (σ.setTx t tx) t := by
  have htx : (σ.setTx t tx).txs t = tx := Function.update_self _ _ _
  refine ⟨(Leaves.refl t σ).setTx tx, h.quiet hw rfl ?_ ?_ ?_ ?_ ?_⟩
  · rw [htx]
    exact fun d hd => h.lock d (hlocks.symm.trans hd)
  · rw [htx]
    exact fun u hu => h.claim u (hclaim u hu)
  · rw [htx]
    exact hown
  · rw [htx]
    exact fun d v hp => hlocks.trans (h.documents d v hp)
  · rw [htx]
    exact fun d v hp => hlocks.trans (h.projection d v hp)

theorem TxInv.noted {tx : TenantTx D Uuid} {documents : Table T D JsString} {projection : Table T D (ℕ × ℕ)}
    {es : List (D × Option JsString)} {es' : List (D × Option (ℕ × ℕ))} {d : D}
    (h : TxInv uuids docKey itemKey σ t)
    (hd : (σ.txs t).Locks d) (hdocuments : σ.documents.Wrote t es documents) (hes : ∀ e ∈ es, e.1 = d)
    (hprojection : σ.projection.Wrote t es' projection) (hes' : ∀ e ∈ es', e.1 = d)
    (hlocks : tx.lockedDocument = (σ.txs t).lockedDocument)
    (hclaims : ∀ u, tx.Claims uuids u ↔ (σ.txs t).Claims uuids u)
    (hre : tx.Rechecked → (σ.txs t).Rechecked) (hwriting : (σ.txs t).Writing → tx.Writing)
    (hcollects : (σ.txs t).Collects → tx.Collects) :
    Leaves t σ ({ σ with documents, projection }.setTx t tx) ∧
      TxInv uuids docKey itemKey ({ σ with documents, projection }.setTx t tx) t := by
  have htx : ({ σ with documents, projection }.setTx t tx).txs t = tx := Function.update_self _ _ _
  have hto : ∀ d, (σ.txs t).Locks d → tx.Locks d := fun d hd => hlocks.trans hd
  refine ⟨?_, ?_⟩
  · exact { Leaves.refl t σ with
      txs := fun s hs => Function.update_of_ne hs _ _
      documents := hdocuments.leaves
      projection := hprojection.leaves }
  · constructor
    · rw [htx]
      exact fun d hd => h.lock d (hlocks.symm.trans hd)
    · rw [htx]
      exact fun u hu => h.claim u ((hclaims u).mp hu)
    · rw [htx]
      exact fun hr u hu r hget => hto _ (h.own (hre hr) u ((hclaims u).mp hu) r hget)
    · rw [htx]
      exact fun u v hp => hwriting (h.writing u v hp)
    · rw [htx]
      exact fun u hp => hcollects (h.deleted u hp)
    · rw [htx]
      exact fun u v hp r hr => hto _ (h.written u v hp r hr)
    · rw [htx]
      exact fun u v hp r hr => hto _ (h.overwritten u v hp r hr)
    · rw [htx]
      exact fun u v hp hr => (hclaims u).mpr (h.inserted u v hp hr)
    · rw [htx]
      intro d' v hp
      cases hdocuments.pending_own hp with
      | inl he =>
        obtain rfl : d' = d := hes _ he
        exact hto d' hd
      | inr hold => exact hto d' (h.documents d' v hold)
    · rw [htx]
      intro d' v hp
      cases hprojection.pending_own hp with
      | inl he =>
        obtain rfl : d' = d := hes' _ he
        exact hto d' hd
      | inr hold => exact hto d' (h.projection d' v hold)

theorem close_own (σ : Tenancy T K D Uuid) (t : T) :
    Leaves t σ (σ.close t) ∧ TxInv uuids docKey itemKey (σ.close t) t :=
  ⟨close_leaves σ t, .close σ t⟩

end

theorem load_own {l : Loaded D} (h : TxInv uuids docKey itemKey σ t)
    (hstep : σ.step lib uuids replicaId docKey itemKey batchSize (.load t l) = some τ) :
    Leaves t σ τ ∧ TxInv uuids docKey itemKey τ t := by
  simp only [step] at hstep
  split at hstep
  · rename_i hidle
    cases hstep
    exact h.moved (by simp [hidle, TenantTx.Writing]) (by simp [hidle, TenantTx.lockedDocument])
      (by simp [TenantTx.Claims, PassStage.Rechecked]) (by simp [TenantTx.Rechecked, PassStage.Rechecked])
  · cases hstep

theorem lock_own (h : TxInv uuids docKey itemKey σ t)
    (hstep : σ.step lib uuids replicaId docKey itemKey batchSize (.lock t) = some τ) :
    Leaves t σ τ ∧ TxInv uuids docKey itemKey τ t := by
  simp only [step] at hstep
  split at hstep
  · rename_i l hl
    split at hstep
    · obtain ⟨σ', hacquire, rfl⟩ := Option.map_eq_some_iff.mp hstep
      refine h.acquired hacquire (by simp [hl, TenantTx.Writing])
        (by simp [TenantTx.Rechecked, PassStage.Rechecked]) ?_ ?_ ?_
      · intro d hd
        exact Or.inl (congrArg docKey (Option.some.inj hd)).symm
      · simp [TenantTx.Claims, PassStage.Rechecked]
      · simp [hl, TenantTx.Locks, TenantTx.lockedDocument]
    · cases hstep
  · cases hstep

theorem readRevisions_own (h : TxInv uuids docKey itemKey σ t)
    (hstep : σ.step lib uuids replicaId docKey itemKey batchSize (.readRevisions t) = some τ) :
    Leaves t σ τ ∧ TxInv uuids docKey itemKey τ t := by
  simp only [step] at hstep
  split at hstep
  · rename_i l hl
    obtain ⟨projection, hupdate, rfl⟩ := Option.map_eq_some_iff.mp hstep
    split
    · exact close_own σ t
    · obtain ⟨es, hes, hwrote⟩ := Table.update_wrote hupdate
      exact h.noted (by simp [hl, TenantTx.Locks, TenantTx.lockedDocument]) (.nil _ _) (by simp) hwrote hes
        (by simp [hl, TenantTx.lockedDocument]) (by simp [hl, TenantTx.Claims, PassStage.Rechecked])
        (by simp [TenantTx.Rechecked, PassStage.Rechecked]) (by simp [hl, TenantTx.Writing])
          (by simp [hl, TenantTx.Collects])
  · cases hstep

theorem check_own (h : TxInv uuids docKey itemKey σ t)
    (hstep : σ.step lib uuids replicaId docKey itemKey batchSize (.check t) = some τ) :
    Leaves t σ τ ∧ TxInv uuids docKey itemKey τ t := by
  simp only [step] at hstep
  split at hstep
  · rename_i l hl
    have hw : ¬ (σ.txs t).Writing := by simp [hl, TenantTx.Writing]
    have hlocks : (σ.txs t).lockedDocument = some l.documentId := by simp [hl, TenantTx.lockedDocument]
    split at hstep
    · rename_i hempty
      cases hstep
      have hids : l.ids uuids = [] := by simp [Loaded.ids, hempty]
      exact h.moved hw hlocks.symm (by simp [TenantTx.Claims, hids]) (by simp [TenantTx.Claims, hids])
    · split at hstep
      · cases hstep
        exact close_own σ t
      · cases hstep
        exact h.moved hw hlocks.symm (by simp [TenantTx.Claims])
          (by simp [TenantTx.Rechecked, PassStage.Rechecked])
  · cases hstep

theorem claim_own (h : TxInv uuids docKey itemKey σ t)
    (hstep : σ.step lib uuids replicaId docKey itemKey batchSize (.claim t) = some τ) :
    Leaves t σ τ ∧ TxInv uuids docKey itemKey τ t := by
  simp only [step] at hstep
  split at hstep
  · rename_i u rest l hl
    obtain ⟨σ', hacquire, rfl⟩ := Option.map_eq_some_iff.mp hstep
    refine h.acquired hacquire (by simp [hl, TenantTx.Writing])
      (by simp [TenantTx.Rechecked, PassStage.Rechecked]) ?_ ?_ ?_
    · exact fun d hd => Or.inr (by rwa [hl])
    · rintro x ⟨hx, hrest⟩
      by_cases he : x = u
      · exact Or.inl (congrArg itemKey he)
      · rw [hl]
        exact Or.inr ⟨hx, by simp [he, hrest]⟩
    · rw [hl]
      exact fun _ hd => hd
  · cases hstep

theorem recheck_own (h : TxInv uuids docKey itemKey σ t)
    (hstep : σ.step lib uuids replicaId docKey itemKey batchSize (.recheck t) = some τ) :
    Leaves t σ τ ∧ TxInv uuids docKey itemKey τ t := by
  simp only [step] at hstep
  split at hstep
  · rename_i l hl
    have hw : ¬ (σ.txs t).Writing := by simp [hl, TenantTx.Writing]
    split at hstep
    · cases hstep
      exact close_own σ t
    · rename_i hnone
      cases hstep
      refine h.moved hw (by simp [hl, TenantTx.lockedDocument])
        (by simp [hl, TenantTx.Claims, PassStage.Rechecked]) ?_
      rintro - u ⟨-, hu⟩ r hr
      by_contra hne
      apply hnone
      refine ⟨u, hu, ?_⟩
      rw [isForeign, h.view_committed hw, hr, Option.any_some, decide_eq_true_eq]
      exact fun he => hne (congrArg some he.symm)
  · cases hstep

theorem upsert_own (h : TxInv uuids docKey itemKey σ t)
    (hstep : σ.step lib uuids replicaId docKey itemKey batchSize (.upsert t) = some τ) :
    Leaves t σ τ ∧ TxInv uuids docKey itemKey τ t := by
  simp only [step] at hstep
  split at hstep
  · rename_i l hl
    split at hstep
    · cases hstep
      exact close_own σ t
    · rename_i after hafter
      obtain ⟨items, hwrite, rfl⟩ := Option.map_eq_some_iff.mp hstep
      have hwrote := Table.writeAll_wrote hwrite
      refine ⟨?_, h.wrote hwrote (by simp [hl, TenantTx.lockedDocument])
        (by simp [hl, TenantTx.Claims, PassStage.Rechecked])
          (by simp [hl, TenantTx.Rechecked, PassStage.Rechecked])
        trivial (by simp [hl, TenantTx.Collects]) ?_ ?_ ?_ ?_⟩
      · exact { Leaves.refl t σ with txs := fun s hs => Function.update_of_ne hs _ _, items := hwrote.leaves }
      · intro u he
        obtain ⟨-, row, hrow⟩ := upsertWrites_mem hafter he
        cases hrow
      · intro u v he r hr
        obtain ⟨-, row, rfl⟩ := upsertWrites_mem hafter he
        cases hr
        rfl
      · intro u v he r hr
        obtain ⟨hu, -⟩ := upsertWrites_mem hafter he
        have hlock := h.own (by simp [hl, TenantTx.Rechecked, PassStage.Rechecked]) u
          (by simp [hl, TenantTx.Claims, PassStage.Rechecked, hu]) r hr
        rwa [hl] at hlock
      · intro u v he _
        obtain ⟨hu, -⟩ := upsertWrites_mem hafter he
        exact ⟨trivial, hu⟩
  · cases hstep

theorem sweep_own (h : TxInv uuids docKey itemKey σ t)
    (hstep : σ.step lib uuids replicaId docKey itemKey batchSize (.sweep t) = some τ) :
    Leaves t σ τ ∧ TxInv uuids docKey itemKey τ t := by
  simp only [step] at hstep
  split at hstep
  · rename_i l hl
    obtain ⟨items, hwrite, rfl⟩ := Option.map_eq_some_iff.mp hstep
    have hwrote := Table.writeAll_wrote hwrite
    have hclaims : ∀ u, (TenantTx.pass .swept l).Claims uuids u ↔ (σ.txs t).Claims uuids u := by
      simp [hl, TenantTx.Claims, PassStage.Rechecked]
    have hseen : ∀ u v, (u, v) ∈ sweepWrites uuids l (σ.items.view t) →
        (∀ r', σ.items.committed.get u = some r' → (σ.txs t).Locks r'.documentId) ∧
          (σ.items.committed.get u = none → (σ.txs t).Claims uuids u) := by
      intro u v he
      obtain ⟨old, row, hold, -⟩ := sweepWrites_mem he
      exact h.seen hold (by simp [hl, TenantTx.Locks, TenantTx.lockedDocument])
    refine ⟨?_, h.wrote hwrote (by simp [hl, TenantTx.lockedDocument]) hclaims
      (by simp [hl, TenantTx.Rechecked, PassStage.Rechecked]) trivial
        (by simp [hl, TenantTx.Collects]) ?_ ?_ ?_ ?_⟩
    · exact { Leaves.refl t σ with txs := fun s hs => Function.update_of_ne hs _ _, items := hwrote.leaves }
    · intro u he
      obtain ⟨old, row, -, hrow⟩ := sweepWrites_mem he
      cases hrow
    · intro u v he r hr
      obtain ⟨old, row, -, rfl⟩ := sweepWrites_mem he
      cases hr
      rfl
    · intro u v he r hr
      have hlock := (hseen u v he).1 r hr
      rwa [hl] at hlock
    · exact fun u v he hr => (hclaims u).mpr ((hseen u v he).2 hr)
  · cases hstep

theorem title_own (h : TxInv uuids docKey itemKey σ t)
    (hstep : σ.step lib uuids replicaId docKey itemKey batchSize (.title t) = some τ) :
    Leaves t σ τ ∧ TxInv uuids docKey itemKey τ t := by
  simp only [step] at hstep
  split at hstep
  · rename_i l hl
    have hlock : (σ.txs t).Locks l.documentId := by simp [hl, TenantTx.Locks, TenantTx.lockedDocument]
    have hgo : ∀ (documents : Table T D JsString) (es : List (D × Option JsString)),
        (∀ e ∈ es, e.1 = l.documentId) →
        σ.documents.Wrote t es documents →
        Leaves t σ ({ σ with documents }.setTx t (.pass .titled l)) ∧
          TxInv uuids docKey itemKey ({ σ with documents }.setTx t (.pass .titled l)) t :=
      fun documents es hes hwrote => h.noted hlock hwrote hes (.nil _ _) (by simp)
        (by simp [hl, TenantTx.lockedDocument]) (by simp [hl, TenantTx.Claims, PassStage.Rechecked])
        (by simp [hl, TenantTx.Rechecked, PassStage.Rechecked]) (fun _ => trivial)
          (by simp [hl, TenantTx.Collects])
    split at hstep
    · obtain ⟨documents, hupdate, rfl⟩ := Option.map_eq_some_iff.mp hstep
      obtain ⟨es, hes, hwrote⟩ := Table.update_wrote hupdate
      exact hgo documents es hes hwrote
    · cases hstep
      exact hgo σ.documents [] (by simp) (.nil _ _)
  · cases hstep

theorem advance_own (h : TxInv uuids docKey itemKey σ t)
    (hstep : σ.step lib uuids replicaId docKey itemKey batchSize (.advance t) = some τ) :
    Leaves t σ τ ∧ TxInv uuids docKey itemKey τ t := by
  simp only [step] at hstep
  split at hstep
  · rename_i l hl
    obtain ⟨projection, hupdate, rfl⟩ := Option.map_eq_some_iff.mp hstep
    obtain ⟨es, hes, hwrote⟩ := Table.update_wrote hupdate
    exact h.noted (by simp [hl, TenantTx.Locks, TenantTx.lockedDocument]) (.nil _ _) (by simp) hwrote hes
      (by simp [hl, TenantTx.lockedDocument]) (by simp [hl, TenantTx.Claims, PassStage.Rechecked])
      (by simp [hl, TenantTx.Rechecked, PassStage.Rechecked]) (fun _ => trivial)
        (by simp [hl, TenantTx.Collects])
  · cases hstep

theorem gcPrepare_own {d : D} {cutoff : ℤ} (h : TxInv uuids docKey itemKey σ t)
    (hstep : σ.step lib uuids replicaId docKey itemKey batchSize (.gcPrepare t d cutoff) = some τ) :
    Leaves t σ τ ∧ TxInv uuids docKey itemKey τ t := by
  simp only [step] at hstep
  split at hstep
  · rename_i hidle
    cases hstep
    exact h.moved (by simp [hidle, TenantTx.Writing]) (by simp [hidle, TenantTx.lockedDocument])
      (by simp [TenantTx.Claims]) (by simp [TenantTx.Rechecked])
  · cases hstep

theorem gcLock_own (h : TxInv uuids docKey itemKey σ t)
    (hstep : σ.step lib uuids replicaId docKey itemKey batchSize (.gcLock t) = some τ) :
    Leaves t σ τ ∧ TxInv uuids docKey itemKey τ t := by
  simp only [step] at hstep
  split at hstep
  · rename_i d cutoff hl
    obtain ⟨σ', hacquire, rfl⟩ := Option.map_eq_some_iff.mp hstep
    refine h.acquired hacquire (by simp [hl, TenantTx.Writing]) (by simp [TenantTx.Rechecked]) ?_ ?_ ?_
    · exact fun d' hd => Or.inl (congrArg docKey (Option.some.inj hd)).symm
    · simp [TenantTx.Claims]
    · simp [hl, TenantTx.Locks, TenantTx.lockedDocument]
  · cases hstep

theorem gcCheck_own {ledger : List (Option ℤ)} (h : TxInv uuids docKey itemKey σ t)
    (hstep : σ.step lib uuids replicaId docKey itemKey batchSize (.gcCheck t ledger) = some τ) :
    Leaves t σ τ ∧ TxInv uuids docKey itemKey τ t := by
  simp only [step] at hstep
  split at hstep
  · rename_i d cutoff hl
    split at hstep
    · cases hstep
      exact close_own σ t
    · cases hstep
      exact h.moved (by simp [hl, TenantTx.Writing]) (by simp [hl, TenantTx.lockedDocument])
        (by simp [TenantTx.Claims]) (by simp [TenantTx.Rechecked])
  · cases hstep

theorem gcDelete_own (h : TxInv uuids docKey itemKey σ t)
    (hstep : σ.step lib uuids replicaId docKey itemKey batchSize (.gcDelete t) = some τ) :
    Leaves t σ τ ∧ TxInv uuids docKey itemKey τ t := by
  simp only [step] at hstep
  split at hstep
  · rename_i u rest d cutoff hl
    have hgo : ∀ (items : Table T Uuid (TenantRow D Uuid)) (es : List (Uuid × Option (TenantRow D Uuid))),
        σ.items.Wrote t es items → (∀ e ∈ es, e.2 = none ∧ ∃ row, (σ.items.view t).get e.1 = some ⟨d, row⟩) →
        Leaves t σ ({ σ with items }.setTx t (.gc (.deleting rest) d cutoff)) ∧
          TxInv uuids docKey itemKey ({ σ with items }.setTx t (.gc (.deleting rest) d cutoff)) t := by
      intro items es hwrote hes
      have hseen : ∀ u v, (u, v) ∈ es →
          (∀ r', σ.items.committed.get u = some r' → (σ.txs t).Locks r'.documentId) ∧
            (σ.items.committed.get u = none → (σ.txs t).Claims uuids u) := by
        intro u v he
        obtain ⟨-, row, hrow⟩ := hes _ he
        exact h.seen hrow (by simp [hl, TenantTx.Locks, TenantTx.lockedDocument])
      refine ⟨?_, h.wrote hwrote (by simp [hl, TenantTx.lockedDocument]) (by simp [hl, TenantTx.Claims])
        (by simp [TenantTx.Rechecked]) trivial (fun _ => trivial) (fun _ _ => trivial) ?_ ?_ ?_⟩
      · exact { Leaves.refl t σ with txs := fun s hs => Function.update_of_ne hs _ _, items := hwrote.leaves }
      · intro u v he r hr
        obtain ⟨hnone, -⟩ := hes _ he
        rw [show v = none from hnone] at hr
        cases hr
      · intro u v he r hr
        have hlock := (hseen u v he).1 r hr
        rwa [hl] at hlock
      · intro u v he hr
        have hclaim := (hseen u v he).2 hr
        rwa [hl] at hclaim
    split at hstep
    · rename_i hhas
      obtain ⟨items, hwrite, rfl⟩ := Option.map_eq_some_iff.mp hstep
      obtain ⟨row, hrow⟩ := (OrderedMap.has_iff _ _).mp hhas
      refine hgo items _ (Table.write_wrote hwrite) ?_
      intro e he
      obtain rfl := List.mem_singleton.mp he
      exact ⟨rfl, row, get_ownRows.mp hrow⟩
    · cases hstep
      exact hgo σ.items [] (.nil _ _) (by simp)
  · cases hstep

theorem fail_own
    (hstep : σ.step lib uuids replicaId docKey itemKey batchSize (.fail t) = some τ) :
    Leaves t σ τ ∧ TxInv uuids docKey itemKey τ t := by
  simp only [step] at hstep
  split at hstep
  · cases hstep
  · cases hstep
    exact close_own σ t

/-- What a step of `t` does to the others, and to what `t` relies on. -/
theorem step_own (h : TxInv uuids docKey itemKey σ t) (ha : a.tx = some t)
    (hstep : σ.step lib uuids replicaId docKey itemKey batchSize a = some τ) :
    (Leaves t σ τ ∧ TxInv uuids docKey itemKey τ t) ∨ (a = .commit t ∧ τ = σ.commitTx t) := by
  cases a with
  | append d => cases ha
  | load t' l =>
    cases ha
    exact Or.inl (load_own h hstep)
  | lock t' =>
    cases ha
    exact Or.inl (lock_own h hstep)
  | readRevisions t' =>
    cases ha
    exact Or.inl (readRevisions_own h hstep)
  | check t' =>
    cases ha
    exact Or.inl (check_own h hstep)
  | claim t' =>
    cases ha
    exact Or.inl (claim_own h hstep)
  | recheck t' =>
    cases ha
    exact Or.inl (recheck_own h hstep)
  | upsert t' =>
    cases ha
    exact Or.inl (upsert_own h hstep)
  | sweep t' =>
    cases ha
    exact Or.inl (sweep_own h hstep)
  | title t' =>
    cases ha
    exact Or.inl (title_own h hstep)
  | advance t' =>
    cases ha
    exact Or.inl (advance_own h hstep)
  | gcPrepare t' d cutoff =>
    cases ha
    exact Or.inl (gcPrepare_own h hstep)
  | gcLock t' =>
    cases ha
    exact Or.inl (gcLock_own h hstep)
  | gcCheck t' ledger =>
    cases ha
    exact Or.inl (gcCheck_own h hstep)
  | gcDelete t' =>
    cases ha
    exact Or.inl (gcDelete_own h hstep)
  | commit t' =>
    cases ha
    simp only [step] at hstep
    split at hstep
    · cases hstep
      exact Or.inr ⟨rfl, rfl⟩
    · cases hstep
      exact Or.inr ⟨rfl, rfl⟩
    · cases hstep
  | fail t' =>
    cases ha
    exact Or.inl (fail_own hstep)

theorem append_eq {d : D} (hstep : σ.step lib uuids replicaId docKey itemKey batchSize (.append d) = some τ) :
    σ.projection.pending.get d = none ∧ ∃ revs, σ.projection.committed.get d = some revs ∧ τ = { σ with
      projection :=
  { σ.projection with committed := σ.projection.committed.set d (revs.1 + 1, revs.2) } } := by
  simp only [step] at hstep
  split at hstep
  · cases hstep
  · rename_i hfree
    obtain ⟨revs, hrevs, rfl⟩ := Option.map_eq_some_iff.mp hstep
    exact ⟨by simpa using hfree, revs, hrevs, rfl⟩

theorem step_cases (h : ∀ t, TxInv uuids docKey itemKey σ t)
    (hstep : σ.step lib uuids replicaId docKey itemKey batchSize a = some τ) :
    (∃ d revs, a = .append d ∧ σ.projection.committed.get d = some revs ∧ τ = { σ with
      projection := { σ.projection with committed := σ.projection.committed.set d (revs.1 + 1, revs.2) } }) ∨
    (∃ t, a.tx = some t ∧ Leaves t σ τ ∧ TxInv uuids docKey itemKey τ t) ∨
    ∃ t, a = .commit t ∧ τ = σ.commitTx t := by
  cases ha : a.tx with
  | none =>
    cases a with
    | append d =>
      obtain ⟨-, revs, hrevs, hτ⟩ := append_eq hstep
      exact Or.inl ⟨d, revs, rfl, hrevs, hτ⟩
    | _ => cases ha
  | some t =>
    obtain ⟨hl, hinv⟩ | hcommit := step_own (h t) ha hstep
    · exact Or.inr (Or.inl ⟨t, rfl, hl, hinv⟩)
    · exact Or.inr (Or.inr ⟨t, hcommit⟩)

theorem step_inv (h : ∀ t, TxInv uuids docKey itemKey σ t)
    (hstep : σ.step lib uuids replicaId docKey itemKey batchSize a = some τ) :
    ∀ t, TxInv uuids docKey itemKey τ t := by
  intro t
  obtain ⟨d, revs, -, -, rfl⟩ | ⟨s, -, hl, hinv⟩ | ⟨s, -, rfl⟩ := step_cases h hstep
  · exact { h t with }
  · by_cases hs : t = s
    · subst hs
      exact hinv
    · exact (h t).leaves hs hl
  · by_cases hs : t = s
    · subst hs
      exact .commitTx σ t
    · exact (h t).commit_other (h s) hs

theorem runs_inv {ok : Tenancy T K D Uuid → TenantAction T D Uuid → Prop}
    {items : OrderedMap Uuid (TenantRow D Uuid)} {documents : OrderedMap D JsString}
    {projection : OrderedMap D (ℕ × ℕ)}
    (h : Runs (step lib uuids replicaId docKey itemKey batchSize) ok (initial items documents projection) σ) :
    ∀ t, TxInv uuids docKey itemKey σ t := by
  induction h with
  | refl =>
    exact fun t => .idle rfl (by simp [initial]) (by simp [initial]) (by simp [initial])
  | step a _ _ hstep ih => exact step_inv ih hstep

end Own

end Tenancy

end OpenOutliner
