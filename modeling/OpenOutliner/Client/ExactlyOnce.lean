import OpenOutliner.Client.DocumentSync
import OpenOutliner.Server.ExactProjection

namespace OpenOutliner

open Foundations

namespace Sync

variable {Tb W V S P G Uuid : Type} [DecidableEq Tb] [DecidableEq W] [DecidableEq V] [SemilatticeSup S]
  [OrderBot S]
  [DecidableEq P] [DecidableEq G] [DecidableEq Uuid] {payloads : Payloads S P G} {uuids : UuidText Uuid}
  {threshold : ℕ} {σ τ : Sync Tb W V P G Uuid} {t : Tb} {tab tab' : Tab P Uuid} {a : TabAction P Uuid}

/-- The update's bytes are in the log of its document. -/
def Committed (uuids : UuidText Uuid) (server : UpdateServer W V P G Uuid)
    (update : PendingUpdate P Uuid) : Prop :=
  ∃ document revision, uuids.parse update.documentId = some document ∧
    (revision, update.bytes) ∈ (server.logs document).committed

def FlushInv (uuids : UuidText Uuid) (σ : Sync Tb W V P G Uuid) : Flush P Uuid → Prop
  | .sending rest => rest ⊆ σ.stored
  | .persisting update rest => update ∈ σ.stored ∧ rest ⊆ σ.stored
  | .deleting update rest => update ∈ σ.stored ∧ rest ⊆ σ.stored ∧
      ∃ revision, (update.request uuids, revision) ∈ σ.server.replies
  | _ => True

structure Inv (payloads : Payloads S P G) (uuids : UuidText Uuid) (σ : Sync Tb W V P G Uuid) : Prop where
  server : σ.server.Inv payloads uuids
  minted : (σ.stored.map PendingUpdate.id).Nodup
  pending : ∀ id update, σ.pending.get id = some update → update ∈ σ.stored ∧ update.id = id
  kept : ∀ update ∈ σ.stored, σ.pending.get update.id = some update ∨ Committed uuids σ.server update
  flush : ∀ t tab, σ.tabs t = some tab → FlushInv uuids σ tab.flush

omit [DecidableEq Tb] [DecidableEq W] [DecidableEq V] [DecidableEq P] [DecidableEq G] in
theorem inv_initial (seed : Uuid → Option ℕ) :
    (initial seed : Sync Tb W V P G Uuid).Inv payloads uuids where
  server := UpdateServer.inv_initial seed
  minted := List.nodup_nil
  pending id update hget := by cases hget
  kept := by simp [initial]
  flush t tab htab := by cases htab

omit [DecidableEq W] [DecidableEq V] [DecidableEq P] [DecidableEq G] [DecidableEq Uuid] in
theorem Committed.mono {server server' : UpdateServer W V P G Uuid} {update : PendingUpdate P Uuid}
    (h : Committed uuids server update) (hk : UpdateServer.Keeps server server') :
    Committed uuids server' update := by
  obtain ⟨document, revision, hd, hmem⟩ := h
  exact ⟨document, revision, hd, hk.committed document hmem⟩

omit [DecidableEq Tb] [DecidableEq W] [DecidableEq V] [DecidableEq P] [DecidableEq G] in
theorem committed_of_reply (hdigest : Function.Injective payloads.digest) (h : σ.server.Inv payloads uuids)
    {update : PendingUpdate P Uuid} {revision : ℕ}
    (hr : (update.request uuids, revision) ∈ σ.server.replies) :
    Committed uuids σ.server update := by
  obtain ⟨document, batch, hd, -, hreceipt⟩ := h.replies _ _ hr
  obtain ⟨bytes, hmem, he⟩ := h.receipts _ _ _ hreceipt
  obtain rfl : bytes = update.bytes := hdigest he
  exact ⟨document, revision, hd, (h.appends _ _ _ hmem).1⟩

omit [DecidableEq Tb] [DecidableEq W] [DecidableEq V] [DecidableEq P] [DecidableEq G] in
theorem FlushInv.frame {flush : Flush P Uuid} (h : FlushInv uuids σ flush) (hstored : σ.stored ⊆ τ.stored)
    (hreplies : σ.server.replies ⊆ τ.server.replies) : FlushInv uuids τ flush := by
  cases flush with
  | sending rest => exact List.Subset.trans h hstored
  | persisting update rest => exact ⟨hstored h.1, List.Subset.trans h.2 hstored⟩
  | deleting update rest =>
    obtain ⟨revision, hr⟩ := h.2.2
    exact ⟨hstored h.1, List.Subset.trans h.2.1 hstored, revision, hreplies hr⟩
  | _ => trivial

omit [DecidableEq W] [DecidableEq V] [DecidableEq P] [DecidableEq G] in
theorem flush_update {tabs : Tb → Option (Tab P Uuid)}
    (h : ∀ t' ≠ t, ∀ tab, tabs t' = some tab → FlushInv uuids σ tab.flush)
    {new : Option (Tab P Uuid)} (hnew : ∀ tab, new = some tab → FlushInv uuids σ tab.flush) :
    ∀ t' tab, Function.update tabs t new t' = some tab → FlushInv uuids σ tab.flush := by
  intro t' tab htab
  by_cases ht : t' = t
  · subst ht
    rw [Function.update_self] at htab
    exact hnew tab htab
  · rw [Function.update_of_ne ht] at htab
    exact h t' ht tab htab

inductive TabEffect (uuids : UuidText Uuid) (σ : Sync Tb W V P G Uuid) (t : Tb) (tab : Tab P Uuid) :
    TabAction P Uuid → Sync Tb W V P G Uuid → Prop
  | put {id : Uuid} {createdAt : ℤ} {bytes : P} (hbytes : tab.captured[tab.results.length]? = some bytes)
      (hidle : tab.touching = none) (hnew : id ∉ σ.stored.map PendingUpdate.id) :
      TabEffect uuids σ t tab (.put id createdAt)
        { σ with
          pending := σ.pending.set id ⟨id, tab.accountId, tab.documentId, bytes, createdAt⟩
          stored := ⟨id, tab.accountId, tab.documentId, bytes, createdAt⟩ :: σ.stored
          tabs := Function.update σ.tabs t (some { tab with touching := some id }) }
  | deleted {update : PendingUpdate P Uuid} {rest : List (PendingUpdate P Uuid)}
      (hflush : tab.flush = .deleting update rest) : TabEffect uuids σ t tab .deleted
        { σ with
          pending := σ.pending.delete update.id
          tabs := Function.update σ.tabs t (some { tab with flush := .sending rest }) }
  | other {a : TabAction P Uuid} {tab' : Tab P Uuid} (hstep : σ.tabStep uuids tab a = some tab') :
      TabEffect uuids σ t tab a { σ with tabs := Function.update σ.tabs t (some tab') }

theorem tab_effect (hstep : σ.step payloads uuids threshold (.tab t a) = some τ) :
    ∃ tab, σ.tabs t = some tab ∧ TabEffect uuids σ t tab a τ := by
  simp only [step] at hstep
  split at hstep
  · cases hstep
  · rename_i tab htab
    refine ⟨tab, htab, ?_⟩
    split at hstep
    · split at hstep
      · rename_i bytes hbytes
        split at hstep
        · cases hstep
        · rename_i hnot
          cases hstep
          rw [not_or, not_not] at hnot
          exact .put hbytes hnot.1 hnot.2
      · cases hstep
    · rename_i hflush
      cases hstep
      exact .deleted hflush
    · obtain ⟨tab', htab', rfl⟩ := Option.map_eq_some_iff.mp hstep
      exact .other htab'

omit [DecidableEq Tb] [DecidableEq W] [DecidableEq V] [DecidableEq P] [DecidableEq G] in
theorem pendingOf_stored (h : σ.Inv payloads uuids) (accountId documentId : JsString) :
    σ.pendingOf accountId documentId ⊆ σ.stored := by
  intro update hmem
  obtain ⟨⟨id, update⟩, he, rfl⟩ := List.mem_map.mp (List.mem_filter.mp hmem).1
  exact (h.pending id update ((OrderedMap.mem_entries_iff _ _ _).mp he)).1

omit [DecidableEq Tb] [DecidableEq W] [DecidableEq V] [DecidableEq G] in
theorem flushInv_tabStep (h : σ.Inv payloads uuids) (htab : FlushInv uuids σ tab.flush)
    (hstep : σ.tabStep uuids tab a = some tab') : FlushInv uuids σ tab'.flush := by
  cases a with
  | listed =>
    simp only [tabStep] at hstep
    split at hstep
    · cases hstep
      intro update hmem
      exact pendingOf_stored h _ _ ((List.mem_insertionSort _).mp hmem)
    · cases hstep
  | next =>
    simp only [tabStep] at hstep
    split at hstep
    · cases hstep
      trivial
    · rename_i update rest hflush
      rw [hflush] at htab
      cases hstep
      dsimp only
      split
      · trivial
      · exact List.cons_subset.mp htab
    · cases hstep
  | receipt revision =>
    simp only [tabStep] at hstep
    split at hstep
    · rename_i update rest hflush
      rw [hflush] at htab
      split at hstep
      · rename_i hr
        cases hstep
        exact ⟨htab.1, htab.2, revision, hr⟩
      · cases hstep
    · cases hstep
  | putFails =>
    simp only [tabStep] at hstep
    split at hstep
    · cases hstep
      rwa [Tab.settle_flush]
    · cases hstep
  | documentUpdated ok =>
    obtain ⟨id, -, rfl⟩ := Option.map_eq_some_iff.mp hstep
    rwa [Tab.settle_flush]
  | stop | enqueue bytes =>
    cases hstep
    exact htab
  | _ =>
    -- the flush goes on to an await that holds no update
    simp only [tabStep] at hstep
    repeat' split at hstep
    all_goals cases hstep
    all_goals
      simp only [Tab.throws, Tab.emit_flush]
      trivial

section Steps

variable (h : σ.Inv payloads uuids)

include h

section

omit [DecidableEq W] [DecidableEq V] [DecidableEq P] [DecidableEq G]

theorem inv_put {id : Uuid} {createdAt : ℤ} {bytes : P} (htab : σ.tabs t = some tab)
    (hnew : id ∉ σ.stored.map PendingUpdate.id) : Inv payloads uuids
      { σ with
        pending := σ.pending.set id ⟨id, tab.accountId, tab.documentId, bytes, createdAt⟩
        stored := ⟨id, tab.accountId, tab.documentId, bytes, createdAt⟩ :: σ.stored
        tabs := Function.update σ.tabs t (some { tab with touching := some id }) } := by
  refine ⟨h.server, ?_, ?_, ?_, ?_⟩
  · rw [List.map_cons, List.nodup_cons]
    exact ⟨hnew, h.minted⟩
  · intro id' update hget
    dsimp only at hget
    by_cases hid : id' = id
    · subst hid
      rw [OrderedMap.get_set_self] at hget
      obtain rfl := Option.some.inj hget
      exact ⟨List.mem_cons_self, rfl⟩
    · rw [OrderedMap.get_set_of_ne _ _ hid] at hget
      obtain ⟨hmem, he⟩ := h.pending id' update hget
      exact ⟨List.mem_cons_of_mem _ hmem, he⟩
  · intro update hmem
    dsimp only
    cases List.mem_cons.mp hmem with
    | inl he =>
      subst he
      exact Or.inl (OrderedMap.get_set_self _ _ _)
    | inr hold =>
      rw [OrderedMap.get_set_of_ne]
      · exact h.kept update hold
      · rintro rfl
        exact hnew (List.mem_map_of_mem hold)
  · have hframe : ∀ flush, FlushInv uuids σ flush → FlushInv uuids
        { σ with
          pending := σ.pending.set id ⟨id, tab.accountId, tab.documentId, bytes, createdAt⟩
          stored := ⟨id, tab.accountId, tab.documentId, bytes, createdAt⟩ :: σ.stored
          tabs := Function.update σ.tabs t (some { tab with touching := some id }) } flush :=
      fun flush hf => hf.frame (List.subset_cons_self _ _) (List.Subset.refl _)
    refine flush_update (fun t' _ tab' htab' => hframe _ (h.flush t' tab' htab')) ?_
    rintro tab' ⟨⟩
    exact hframe _ (h.flush t tab htab)

theorem inv_deleted (hdigest : Function.Injective payloads.digest) {update : PendingUpdate P Uuid}
    {rest : List (PendingUpdate P Uuid)} (htab : σ.tabs t = some tab)
    (hflush : tab.flush = .deleting update rest) :
    Inv payloads uuids
      { σ with
        pending := σ.pending.delete update.id
        tabs := Function.update σ.tabs t (some { tab with flush := .sending rest }) } := by
  have hf := h.flush t tab htab
  rw [hflush] at hf
  obtain ⟨hmem, hrest, revision, hr⟩ := hf
  refine ⟨h.server, h.minted, ?_, ?_, ?_⟩
  · intro id' update' hget
    dsimp only at hget
    rw [OrderedMap.get_delete] at hget
    split at hget
    · cases hget
    · exact h.pending id' update' hget
  · intro update' hmem'
    dsimp only
    rw [OrderedMap.get_delete]
    by_cases hid : update'.id = update.id
    · obtain rfl := List.inj_on_of_nodup_map h.minted hmem' hmem hid
      exact Or.inr (committed_of_reply hdigest h.server hr)
    · rw [if_neg hid]
      exact h.kept update' hmem'
  · refine flush_update (fun t' _ tab' htab' => h.flush t' tab' htab') ?_
    rintro tab' ⟨⟩
    exact hrest

theorem inv_tabs {new : Option (Tab P Uuid)} (hnew : ∀ tab, new = some tab → FlushInv uuids σ tab.flush) :
    ({ σ with tabs := Function.update σ.tabs t new } : Sync Tb W V P G Uuid).Inv payloads uuids :=
  ⟨h.server, h.minted, h.pending, h.kept, flush_update (fun t' _ tab htab => h.flush t' tab htab) hnew⟩

end

end Steps

theorem inv_step {a : SyncAction Tb W V P Uuid} (hdigest : Function.Injective payloads.digest)
    (h : σ.Inv payloads uuids) (hstep : σ.step payloads uuids threshold a = some τ) :
    τ.Inv payloads uuids := by
  cases a with
  | openTab t accountId documentId =>
    simp only [step] at hstep
    split at hstep
    · cases hstep
      refine inv_tabs h ?_
      rintro tab ⟨⟩
      trivial
    · cases hstep
  | crash t =>
    cases hstep
    exact inv_tabs h (by simp)
  | tab t a =>
    obtain ⟨tab, htab, heffect⟩ := tab_effect hstep
    cases heffect with
    | put hbytes hidle hnew => exact inv_put h htab hnew
    | deleted hflush => exact inv_deleted h hdigest htab hflush
    | other htab' =>
      refine inv_tabs h ?_
      rintro tab' ⟨⟩
      exact flushInv_tabStep h (h.flush t tab htab) htab'
  | server a =>
    obtain ⟨server, hserver, rfl⟩ := Option.map_eq_some_iff.mp hstep
    have hk := UpdateServer.step_keeps h.server hserver
    refine ⟨UpdateServer.inv_step h.server hserver, h.minted, h.pending, ?_, ?_⟩
    · intro update hmem
      exact (h.kept update hmem).imp_right fun hc => hc.mono hk
    · intro t tab htab
      exact (h.flush t tab htab).frame (List.Subset.refl _) hk.replies

theorem runs_inv {seed : Uuid → Option ℕ} (hdigest : Function.Injective payloads.digest)
    (h : Runs (step payloads uuids threshold) (fun _ _ => True) (initial seed) σ) : σ.Inv payloads uuids :=
  h.invariant (fun hi _ hstep => inv_step hdigest hi hstep) (inv_initial seed)

end Sync

/-- At every moment each update that was put is pending or in the log; the calls for one batch append
once, and nothing else of theirs reaches a log; all its receipts are of one revision and the same bytes,
and other bytes change nothing. -/
theorem synchronizeDocument_exactly_once {Tb W V S P G Uuid : Type} [DecidableEq Tb] [DecidableEq W]
    [DecidableEq V] [SemilatticeSup S] [OrderBot S] [DecidableEq P] [DecidableEq G] [DecidableEq Uuid]
    {payloads : Payloads S P G} {uuids : UuidText Uuid} {threshold : ℕ} {seed : Uuid → Option ℕ}
    {σ : Sync Tb W V P G Uuid} (hdigest : Function.Injective payloads.digest)
    (h : Runs (Sync.step payloads uuids threshold) (fun _ _ => True) (Sync.initial seed) σ) :
    (∀ update ∈ σ.stored, σ.pending.get update.id = some update ∨ ∃ document revision,
        uuids.parse update.documentId = some document ∧
        (revision, update.bytes) ∈ (σ.server.logs document).committed) ∧
      ((σ.server.appends.map Prod.fst).Nodup ∧ ∀ key update revision,
        (key, update, revision) ∈ σ.server.appends →
        (revision, update) ∈ (σ.server.logs key.1).committed) ∧
      (∀ a server, (∃ w, a.call = some w) → σ.server.step payloads uuids threshold a = some server →
        ∀ document e, e ∈ (server.logs document).committed → e ∉ (σ.server.logs document).committed →
          ∃ batch, server.appends = ((document, batch), e.2, e.1) :: σ.server.appends) ∧
      (∀ q revision q' revision', (q, revision) ∈ σ.server.replies → (q', revision') ∈ σ.server.replies →
        uuids.parse q.documentId = uuids.parse q'.documentId →
        uuids.parse q.batchId = uuids.parse q'.batchId →
        q.update = q'.update ∧ revision = revision') ∧
      ∀ w q document batch digest revision, (σ.server.calls w).request = some q →
        uuids.parse q.documentId = some document → uuids.parse q.batchId = some batch →
        σ.server.receipts (document, batch) = some (digest, revision) → digest ≠ payloads.digest q.update →
        ∀ a server, a.call = some w → σ.server.step payloads uuids threshold a = some server →
          UpdateServer.Same σ.server server := by
  have hinv := Sync.runs_inv hdigest h
  refine ⟨hinv.kept,
    ⟨hinv.server.once, fun key update revision hmem => (hinv.server.appends key update revision hmem).1⟩,
    ?_, ?_, ?_⟩
  · rintro a server ⟨w, ha⟩ hserver document e he hnew
    exact UpdateServer.step_recorded hinv.server hserver ha he hnew
  · intro q revision q' revision' hr hr' hd hb
    obtain ⟨document, batch, hd₁, hb₁, hreceipt⟩ := hinv.server.replies q revision hr
    obtain ⟨document', batch', hd₂, hb₂, hreceipt'⟩ := hinv.server.replies q' revision' hr'
    rw [hd₁, hd₂] at hd
    rw [hb₁, hb₂] at hb
    cases hd
    cases hb
    rw [hreceipt, Option.some.injEq, Prod.mk.injEq] at hreceipt'
    exact ⟨hdigest hreceipt'.1, hreceipt'.2⟩
  · intro w q document batch digest revision hq hd hb hreceipt hne a server ha hserver
    exact UpdateServer.step_rejected hinv.server hserver ha hq hd hb hreceipt hne

section Examples

def longDigits : UuidText (Fin 16) where
  parse id := hexDigits.parse (id.drop 35)
  text u := List.replicate 35 (Fin.ofNat 65536 0x30) ++ hexDigits.text u
  parse_text := by decide

def setPayloads : Payloads (Finset ℕ) (Option (Finset ℕ)) (Option (Finset ℕ)) :=
  { setCodec with size := fun _ => 0, digest := id }

abbrev SetSync := Sync ℕ ℕ ℕ (Option (Finset ℕ)) (Option (Finset ℕ)) (Fin 16)

abbrev SetAction := SyncAction ℕ ℕ ℕ (Option (Finset ℕ)) (Fin 16)

def account : JsString := js ['u']

def startFlush (t : ℕ) : List SetAction :=
  [.tab t .flush, .tab t .queueSettled, .tab t (.identified account), .tab t (.opened true true),
    .tab t .listed,
    .tab t .next]

def editRequest : PersistRequest (Option (Finset ℕ)) := ⟨longDigits.text 1, longDigits.text 5, 2, some {1}⟩

def serve (w : ℕ) (append : List SetAction) : List SetAction :=
  [.server (.receive w editRequest), .server (.lockBatch w), .server (.selectReceipt w)] ++ append

/-- The answer to the first tab is lost with the tab; a second tab sends the same update again. -/
def lostAnswer : List SetAction :=
  [.openTab 0 account (longDigits.text 1), .tab 0 (.enqueue (some {1})), .tab 0 (.put 5 0),
    .tab 0 (.documentUpdated true)] ++ startFlush 0 ++
  serve 0 [.server (.insertUpdate 0 1), .server (.advanceRev 0), .server (.insertReceipt 0),
    .server (.commit 0)] ++
  [.crash 0, .openTab 1 account (longDigits.text 1)] ++ startFlush 1 ++ serve 1 [] ++
  [.tab 1 (.receipt 1), .tab 1 .deleted]

theorem synchronizeDocument_exactly_once_lostAnswer :
    ∃ σ : SetSync, execute (Sync.step setPayloads longDigits 100) (Sync.initial fun _ => none) lostAnswer =
    some σ ∧
      σ.pending.get 5 = none ∧ σ.server.replies = [(editRequest, 1), (editRequest, 1)] ∧
      (∀ update ∈ σ.stored, σ.pending.get update.id = some update ∨ ∃ document revision,
        longDigits.parse update.documentId = some document ∧
        (revision, update.bytes) ∈ (σ.server.logs document).committed) ∧
      (σ.server.appends.map Prod.fst).Nodup := by
  have hrun : ∃ σ : SetSync, execute (Sync.step setPayloads longDigits 100)
      (Sync.initial fun _ => none) lostAnswer =
      some σ ∧ σ.pending.get 5 = none ∧ σ.server.replies = [(editRequest, 1), (editRequest, 1)] :=
    ⟨_, rfl, rfl, rfl⟩
  obtain ⟨σ, hσ, hpending, hreplies⟩ := hrun
  have hspec := synchronizeDocument_exactly_once Function.injective_id (execute_runs hσ)
  exact ⟨σ, hσ, hpending, hreplies, hspec.1, hspec.2.1.1⟩

end Examples

end OpenOutliner
