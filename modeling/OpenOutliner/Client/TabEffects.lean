import OpenOutliner.Client.TabDocuments

namespace OpenOutliner

open Foundations

namespace UpdateServer

variable {W V S P G Uuid : Type} [DecidableEq W] [DecidableEq V] [SemilatticeSup S] [OrderBot S]
  [DecidableEq P] [DecidableEq G] [DecidableEq Uuid] {payloads : Payloads S P G} {uuids : UuidText Uuid}
  {threshold : ℕ} {σ τ : UpdateServer W V P G Uuid} {document : Uuid}

omit [DecidableEq G] [DecidableEq W] [DecidableEq V] [DecidableEq P] in
theorem extends_update {log : Log (W ⊕ V) P} (h : Log.Extends (σ.logs document) log) (d : Uuid) :
    Log.Extends (σ.logs d) (Function.update σ.logs document log d) := by
  by_cases hd : d = document
  · subst hd
    rwa [Function.update_self]
  · rw [Function.update_of_ne hd]
    exact .refl _

omit [DecidableEq W] [DecidableEq V] [DecidableEq P] [DecidableEq G] [DecidableEq Uuid] in
theorem Same.extends (h : Same σ τ) (d : Uuid) : Log.Extends (σ.logs d) (τ.logs d) := by
  obtain ⟨-, hrev, hcom⟩ := h.logs d
  refine ⟨?_, hcom.ge, fun e he hnot => absurd (hcom ▸ he) hnot⟩
  rw [Log.rev, Log.rev, hrev]

omit [DecidableEq G] in
theorem logStep_extends {a : LogAction (W ⊕ V) P} (h : σ.Inv payloads uuids)
    (hstep : σ.logStep payloads threshold document a = some τ) (d : Uuid) :
    Log.Extends (σ.logs d) (τ.logs d) := by
  obtain ⟨log, hlog, rfl⟩ := Option.map_eq_some_iff.mp hstep
  exact extends_update (Log.step_extends (h.log document) hlog) d

theorem step_extends {a : UpdateAction W V P Uuid} (h : σ.Inv payloads uuids)
    (hstep : σ.step payloads uuids threshold a = some τ) (d : Uuid) : Log.Extends (σ.logs d) (τ.logs d) := by
  by_cases hsame : ∃ w, a.call = some w ∧ a ≠ .commit w ∧ a ≠ .selectReceipt w
  · obtain ⟨w, ha, hcommit, hselect⟩ := hsame
    exact (same_step hstep ha hcommit hselect).extends d
  · cases a with
    | commit w =>
      simp only [step] at hstep
      split at hstep
      · obtain ⟨log, hlog, rfl⟩ := Option.map_eq_some_iff.mp hstep
        exact extends_update (Log.step_extends (h.log _) hlog) d
      · cases hstep
    | selectReceipt w =>
      simp only [step] at hstep
      repeat' split at hstep
      all_goals cases hstep
      all_goals exact .refl _
    | log document a =>
      simp only [step] at hstep
      split at hstep
      · cases hstep
      · exact logStep_extends h hstep d
    | _ => exact absurd ⟨_, rfl, by simp, by simp⟩ hsame

end UpdateServer

namespace Sync

variable {Tb W V S P G Uuid : Type} [DecidableEq Tb] [DecidableEq W] [DecidableEq V] [SemilatticeSup S]
  [OrderBot S] [DecidableEq P] [DecidableEq G] [DecidableEq Uuid] {payloads : Payloads S P G}
  {uuids : UuidText Uuid} {threshold : ℕ} {σ τ : Sync Tb W V P G Uuid} {t : Tb} {tab tab' : Tab P Uuid}

omit [DecidableEq P] [DecidableEq Uuid] in
theorem settle_key (result : Option Uuid) (ok : Bool) :
    (tab.settle result ok).key = tab.key ∧ (tab.settle result ok).captured = tab.captured := by
  cases ok <;> exact ⟨rfl, rfl⟩

omit [DecidableEq Tb] [DecidableEq W] [DecidableEq V] [DecidableEq G] in
theorem tabStep_frame {a : TabAction P Uuid} (hstep : σ.tabStep uuids tab a = some tab') :
    tab'.key = tab.key ∧ (tab'.captured = tab.captured ∨ ∃ bytes, a = .enqueue bytes ∧
      tab'.captured = tab.captured ++ [bytes]) := by
  cases a with
  | enqueue bytes =>
    cases hstep
    exact ⟨rfl, Or.inr ⟨bytes, rfl, rfl⟩⟩
  | putFails =>
    simp only [tabStep] at hstep
    split at hstep
    · cases hstep
      exact ⟨(settle_key _ _).1, Or.inl (settle_key _ _).2⟩
    · cases hstep
  | documentUpdated ok =>
    obtain ⟨id, -, rfl⟩ := Option.map_eq_some_iff.mp hstep
    exact ⟨(settle_key _ _).1, Or.inl (settle_key _ _).2⟩
  | _ =>
    simp only [tabStep] at hstep
    repeat' split at hstep
    all_goals cases hstep
    all_goals exact ⟨rfl, Or.inl rfl⟩

structure Moved (a : SyncAction Tb W V P Uuid) (σ τ : Sync Tb W V P G Uuid) : Prop where
  logs : ∀ d, Log.Extends (σ.server.logs d) (τ.server.logs d)
  tabs : ∀ t tab', τ.tabs t = some tab' →
    (∃ tab, σ.tabs t = some tab ∧ tab'.key = tab.key ∧ ∀ b ∈ tab'.captured, b ∈ tab.captured ∨
      a = .tab t (.enqueue b)) ∨
    ∃ accountId documentId, a = .openTab t accountId documentId ∧ tab' = .opened accountId documentId
  kept : ∀ t tab, σ.tabs t = some tab → a ≠ .crash t → ∃ tab', τ.tabs t = some tab' ∧ tab'.key = tab.key
  stored : ∀ update ∈ τ.stored, update ∈ σ.stored ∨
    ∃ t tab, σ.tabs t = some tab ∧ update.key = tab.key ∧ update.bytes ∈ tab.captured
  puts : σ.stored ⊆ τ.stored

omit [DecidableEq G] [DecidableEq W] [DecidableEq V] [DecidableEq P] in
theorem moved_tab {new : Tab P Uuid} {a : TabAction P Uuid} (htab : σ.tabs t = some tab)
    (hkey : new.key = tab.key) (hcaptured : ∀ b ∈ new.captured, b ∈ tab.captured ∨ a = .enqueue b)
    {pending : OrderedMap Uuid (PendingUpdate P Uuid)} {stored : List (PendingUpdate P Uuid)}
    (hputs : σ.stored ⊆ stored)
    (hstored : ∀ update ∈ stored, update ∈ σ.stored ∨ update.key = tab.key ∧ update.bytes ∈ tab.captured) :
    Moved (.tab t a) σ ⟨σ.server, pending, stored, Function.update σ.tabs t (some new)⟩ where
  logs d := .refl _
  tabs t' tab' htab' := by
    dsimp only at htab'
    by_cases ht : t' = t
    · subst ht
      rw [Function.update_self] at htab'
      obtain rfl := Option.some.inj htab'
      refine Or.inl ⟨tab, htab, hkey, ?_⟩
      intro b hb
      exact (hcaptured b hb).imp_right fun he => by rw [he]
    · rw [Function.update_of_ne ht] at htab'
      exact Or.inl ⟨tab', htab', rfl, fun b hb => Or.inl hb⟩
  kept t' tab' htab' _ := by
    dsimp only
    by_cases ht : t' = t
    · subst ht
      rw [Function.update_self]
      rw [htab] at htab'
      obtain rfl := Option.some.inj htab'
      exact ⟨new, rfl, hkey⟩
    · rw [Function.update_of_ne ht]
      exact ⟨tab', htab', rfl⟩
  stored update hmem := by
    refine (hstored update hmem).imp_right ?_
    rintro ⟨hsame, hin⟩
    exact ⟨t, tab, htab, hsame, hin⟩
  puts := hputs

theorem step_moved {a : SyncAction Tb W V P Uuid} (h : σ.Inv payloads uuids)
    (hstep : σ.step payloads uuids threshold a = some τ) : Moved a σ τ := by
  cases a with
  | openTab t accountId documentId =>
    simp only [step] at hstep
    split at hstep
    · rename_i hnone
      cases hstep
      refine ⟨fun _ => .refl _, ?_, ?_, fun update hmem => Or.inl hmem, List.Subset.refl _⟩
      · intro t' tab' htab'
        dsimp only at htab'
        by_cases ht : t' = t
        · subst ht
          rw [Function.update_self] at htab'
          exact Or.inr ⟨accountId, documentId, rfl, (Option.some.inj htab').symm⟩
        · rw [Function.update_of_ne ht] at htab'
          exact Or.inl ⟨tab', htab', rfl, fun b hb => Or.inl hb⟩
      · intro t' tab' htab' _
        have ht : t' ≠ t := by
          rintro rfl
          rw [hnone] at htab'
          cases htab'
        exact ⟨tab', (Function.update_of_ne ht _ _).trans htab', rfl⟩
    · cases hstep
  | crash t =>
    cases hstep
    refine ⟨fun _ => .refl _, ?_, ?_, fun update hmem => Or.inl hmem, List.Subset.refl _⟩
    · intro t' tab' htab'
      dsimp only at htab'
      by_cases ht : t' = t
      · subst ht
        rw [Function.update_self] at htab'
        cases htab'
      · rw [Function.update_of_ne ht] at htab'
        exact Or.inl ⟨tab', htab', rfl, fun b hb => Or.inl hb⟩
    · intro t' tab' htab' hne
      have ht : t' ≠ t := by
        rintro rfl
        exact hne rfl
      exact ⟨tab', (Function.update_of_ne ht _ _).trans htab', rfl⟩
  | tab t a =>
    obtain ⟨tab, htab, heffect⟩ := tab_effect hstep
    cases heffect with
    | put hbytes hidle hnew =>
      refine moved_tab htab ?_ ?_ (List.subset_cons_self _ _) ?_
      · rfl
      · exact fun b hb => Or.inl hb
      · intro update hmem
        obtain rfl | hold := List.mem_cons.mp hmem
        · exact Or.inr ⟨rfl, List.mem_of_getElem? hbytes⟩
        · exact Or.inl hold
    | deleted hflush =>
      refine moved_tab htab ?_ ?_ (List.Subset.refl _) fun update hmem => Or.inl hmem
      · rfl
      · exact fun b hb => Or.inl hb
    | other hmoved =>
      obtain ⟨hkey, hcaptured⟩ := tabStep_frame hmoved
      refine moved_tab htab hkey ?_ (List.Subset.refl _) fun update hmem => Or.inl hmem
      intro b hb
      obtain hsame | ⟨bytes, rfl, hadd⟩ := hcaptured
      · exact Or.inl (hsame ▸ hb)
      · rw [hadd] at hb
        obtain hold | hnew := List.mem_append.mp hb
        · exact Or.inl hold
        · exact Or.inr (by rw [List.mem_singleton.mp hnew])
  | server a =>
    obtain ⟨server, hserver, rfl⟩ := Option.map_eq_some_iff.mp hstep
    refine ⟨UpdateServer.step_extends h.server hserver, ?_, ?_, fun update hmem => Or.inl hmem,
      List.Subset.refl _⟩
    · intro t tab' htab'
      exact Or.inl ⟨tab', htab', rfl, fun b hb => Or.inl hb⟩
    · intro t tab htab _
      exact ⟨tab, htab, rfl⟩

end Sync

namespace Device

variable {Tb W V S P G Uuid : Type} [DecidableEq Tb] [DecidableEq W] [DecidableEq V] [SemilatticeSup S]
  [OrderBot S] [DecidableLE S] [DecidableEq P] [DecidableEq G] [DecidableEq Uuid]
  {payloads : Payloads S P G} {uuids : UuidText Uuid} {threshold : ℕ} {σ τ : Device Tb W V S P G Uuid}
  {t : Tb} {key : DocumentKey}

omit [DecidableEq Tb] [DecidableEq W] [DecidableEq V] [SemilatticeSup S] [OrderBot S] [DecidableLE S]
  [DecidableEq P] [DecidableEq G] in
theorem keyOf_eq : σ.keyOf t = some key ↔ ∃ tab, σ.sync.tabs t = some tab ∧ tab.key = key :=
  Option.map_eq_some_iff

inductive Enqueued (payloads : Payloads S P G) (uuids : UuidText Uuid) (threshold : ℕ)
    (σ : Sync Tb W V P G Uuid) (t : Tb) (bound : S) : Sync Tb W V P G Uuid → Prop
  | no : Enqueued payloads uuids threshold σ t bound σ
  | yes {sync : Sync Tb W V P G Uuid} {bytes : P} : content payloads bytes ≤ bound →
    σ.step payloads uuids threshold (.tab t (.enqueue bytes)) = some sync →
    Enqueued payloads uuids threshold σ t bound sync

inductive Posted (payloads : Payloads S P G) (peers : DocumentKey → Channel Tb (PeerMessage P)) (t : Tb)
    (key : DocumentKey) (bound : S) : (DocumentKey → Channel Tb (PeerMessage P)) → Prop
  | no : Posted payloads peers t key bound peers
  | yes {bytes : P} : content payloads bytes ≤ bound →
    Posted payloads peers t key bound (Function.update peers key ((peers key).post t (.update bytes)))

theorem applyUpdate_spec {origin : UpdateOrigin} {incoming : S} {fired : Option P}
    (h : σ.applyUpdate payloads uuids threshold t origin incoming fired = some τ) :
    ∃ doc key sync peers, σ.docs t = some doc ∧ σ.keyOf t = some key ∧
      τ = { σ with sync, peers, docs := Function.update σ.docs t (some (doc ⊔ incoming)) } ∧
      Enqueued payloads uuids threshold σ.sync t (doc ⊔ incoming) sync ∧
      Posted payloads σ.peers t key (doc ⊔ incoming) peers ∧
      (origin.isEnqueued = false → sync = σ.sync) ∧ (origin.isBroadcast = false → peers = σ.peers) ∧
      ∀ bytes, fired = some bytes → origin.isBroadcast = true →
        peers = Function.update σ.peers key ((σ.peers key).post t (.update bytes)) := by
  unfold applyUpdate at h
  split at h
  · rename_i doc key hdoc hkey
    cases fired with
    | none =>
      obtain rfl := Option.some.inj h
      exact ⟨doc, key, σ.sync, σ.peers, hdoc, hkey, rfl, .no, .no, fun _ => rfl, fun _ => rfl, by simp⟩
    | some bytes =>
      dsimp only at h
      split_ifs at h with hpart
      unfold fire at h
      refine ⟨doc, key, τ.sync, τ.peers, hdoc, hkey, ?_⟩
      cases hb : origin.isBroadcast <;> cases he : origin.isEnqueued <;> rw [hb, he] at h
      · obtain rfl := Option.some.inj h
        exact ⟨rfl, .no, .no, fun _ => rfl, fun _ => rfl, by simp⟩
      · obtain ⟨sync, hsync, rfl⟩ := Option.map_eq_some_iff.mp h
        exact ⟨rfl, .yes hpart hsync, .no, by simp, fun _ => rfl, by simp⟩
      · obtain rfl := Option.some.inj h
        refine ⟨rfl, .no, .yes hpart, fun _ => rfl, by simp, ?_⟩
        rintro _ ⟨⟩ _
        rfl
      · obtain ⟨sync, hsync, rfl⟩ := Option.map_eq_some_iff.mp h
        refine ⟨rfl, .yes hpart hsync, .yes hpart, by simp, by simp, ?_⟩
        rintro _ ⟨⟩ _
        rfl
  · cases h

inductive Effect (payloads : Payloads S P G) (uuids : UuidText Uuid) (threshold : ℕ)
    (σ : Device Tb W V S P G Uuid) :
    DeviceAction Tb W V P Uuid → Device Tb W V S P G Uuid → Prop
  | opened {t : Tb} {accountId documentId : JsString} {sync : Sync Tb W V P G Uuid} (hnew : t ∉ σ.opened)
      (hsync : σ.sync.step payloads uuids threshold (.openTab t accountId documentId) = some sync) :
      Effect payloads uuids threshold σ (.openTab t accountId documentId)
        { σ with
          sync
          docs := Function.update σ.docs t (some ⊥)
          peers := Function.update σ.peers (accountId, documentId)
            (((σ.peers (accountId, documentId)).attach t).post t .request)
          opened := t :: σ.opened }
  | closed {a : DeviceAction Tb W V P Uuid} {b : SyncAction Tb W V P Uuid} {t : Tb} {key : DocumentKey}
      {sync : Sync Tb W V P G Uuid} (hkey : σ.keyOf t = some key) (hb : b = .tab t .stop ∨ b = .crash t)
      (hsync : σ.sync.step payloads uuids threshold b = some sync) :
      Effect payloads uuids threshold σ a { σ.closeDoc t key with sync }
  | edited {t : Tb} {bytes : P} {doc : S} {key : DocumentKey} {sync : Sync Tb W V P G Uuid}
      (hdoc : σ.docs t = some doc)
      (hkey : σ.keyOf t = some key)
      (hsync : Enqueued payloads uuids threshold σ.sync t (doc ⊔ content payloads bytes) sync) :
      Effect payloads uuids threshold σ (.edit t bytes)
        { σ with
          sync
          docs := Function.update σ.docs t (some (doc ⊔ content payloads bytes))
          peers := Function.update σ.peers key ((σ.peers key).post t (.update bytes))
          authored := ⟨t, key, bytes⟩ :: σ.authored }
  | answered {t : Tb} {fired : Option P} {doc : S} {key : DocumentKey} {channel : Channel Tb (PeerMessage P)}
      (hdoc : σ.docs t = some doc) (hkey : σ.keyOf t = some key)
      (htake : (σ.peers key).take t .request = some channel) :
      Effect payloads uuids threshold σ (.deliver t .request fired)
        { σ with peers := Function.update σ.peers key (channel.post t (.update (payloads.encode doc))) }
  | delivered {t : Tb} {bytes : P} {fired : Option P} {doc : S} {key : DocumentKey}
      {channel : Channel Tb (PeerMessage P)}
      {sync : Sync Tb W V P G Uuid} (hdoc : σ.docs t = some doc) (hkey : σ.keyOf t = some key)
      (htake : (σ.peers key).take t (.update bytes) = some channel)
      (hsync : Enqueued payloads uuids threshold σ.sync t (doc ⊔ content payloads bytes) sync) :
      Effect payloads uuids threshold σ (.deliver t (.update bytes) fired)
        { σ with
          sync
          docs := Function.update σ.docs t (some (doc ⊔ content payloads bytes))
          peers := Function.update σ.peers key channel }
  | loaded {t : Tb} {bytes : P} {fired : Option P} {doc : S} {key : DocumentKey} {sync : Sync Tb W V P G Uuid}
      (hdoc : σ.docs t = some doc) (hkey : σ.keyOf t = some key)
      (hcache : content payloads bytes ≤ σ.cache key)
      (hsync : Enqueued payloads uuids threshold σ.sync t (doc ⊔ content payloads bytes) sync) :
      Effect payloads uuids threshold σ (.load t bytes fired)
        { σ with sync, docs := Function.update σ.docs t (some (doc ⊔ content payloads bytes)) }
  | stored {t : Tb} {bytes : P} {doc : S} {key : DocumentKey} (hdoc : σ.docs t = some doc)
      (hkey : σ.keyOf t = some key)
      (hpart : content payloads bytes ≤ doc) :
      Effect payloads uuids threshold σ (.store t bytes)
        { σ with cache := Function.update σ.cache key (σ.cache key ⊔ content payloads bytes) }
  | listed {t : Tb} {tab : Tab P Uuid} {list : List (PendingUpdate P Uuid)} (htab : σ.sync.tabs t = some tab)
      (hlist : list ⊆ σ.sync.pendingOf tab.accountId tab.documentId) :
      Effect payloads uuids threshold σ (.listPending t)
        { σ with restoring := Function.update σ.restoring t list }
  | restored {t : Tb} {fired : Option P} {doc : S} {key : DocumentKey} {update : PendingUpdate P Uuid}
      {rest : List (PendingUpdate P Uuid)} {peers : DocumentKey → Channel Tb (PeerMessage P)}
      (hdoc : σ.docs t = some doc)
      (hkey : σ.keyOf t = some key) (hlisted : σ.restoring t = update :: rest)
      (hpeers : Posted payloads σ.peers t key (doc ⊔ content payloads update.bytes) peers) :
      Effect payloads uuids threshold σ (.restore t fired)
        { σ with
          peers
          docs := Function.update σ.docs t (some (doc ⊔ content payloads update.bytes))
          restoring := Function.update σ.restoring t rest }
  | read {t : Tb} {fired : Option P} {doc s : S} {revision : ℕ} {sync : Sync Tb W V P G Uuid}
      (hdoc : σ.docs t = some doc)
      (hanswer : σ.snapshots t = some (s, revision))
      (hsync : σ.sync.step payloads uuids threshold (.tab t .read) = some sync) :
      Effect payloads uuids threshold σ (.read t fired)
        { σ with
          sync
          docs := Function.update σ.docs t (some (doc ⊔ s))
          snapshots := Function.update σ.snapshots t none
          pulled := Function.update σ.pulled t (some revision) }
  | snapshotted {t : Tb} {tab : Tab P Uuid} {document : Uuid} {answer : S × ℕ}
      (htab : σ.sync.tabs t = some tab)
      (hparse : uuids.parse tab.documentId = some document)
      (hload : (σ.sync.server.logs document).loadDocumentSnapshot payloads.toCodec true = some answer) :
      Effect payloads uuids threshold σ (.snapshot t)
        { σ with snapshots := Function.update σ.snapshots t (some answer) }
  | synced {a : DeviceAction Tb W V P Uuid} {b : SyncAction Tb W V P Uuid} {sync : Sync Tb W V P G Uuid}
      {snapshots : Tb → Option (S × ℕ)}
      (hopen : ∀ t accountId documentId, b ≠ .openTab t accountId documentId)
      (hcrash : ∀ t, b ≠ .crash t)
      (hcapture : ∀ t bytes, b = .tab t (.enqueue bytes) → ∃ doc, σ.docs t = some doc ∧
        content payloads bytes ≤ doc)
      (hsnapshots : ∀ t answer, snapshots t = some answer → σ.snapshots t = some answer)
      (hsync : σ.sync.step payloads uuids threshold b = some sync) :
      Effect payloads uuids threshold σ a { σ with sync, snapshots }

omit [DecidableEq W] [DecidableEq V] [SemilatticeSup S] [OrderBot S] [DecidableLE S] [DecidableEq P]
  [DecidableEq G] in
theorem post_update {channel : Channel Tb (PeerMessage P)} {message : PeerMessage P} :
    post { σ with peers := Function.update σ.peers key channel } t key message =
      { σ with peers := Function.update σ.peers key (channel.post t message) } := by
  simp [post]

omit [DecidableLE S] [DecidableEq P] [DecidableEq G] in
theorem content_encode (s : S) : content payloads (payloads.encode s) = s := by
  rw [content, payloads.decode_encode, Option.getD_some]

omit [DecidableEq W] [DecidableEq V] [SemilatticeSup S] [OrderBot S] [DecidableLE S] [DecidableEq P]
  [DecidableEq G] in
theorem cleared_snapshots {answer : S × ℕ} {t' : Tb}
    (h : Function.update σ.snapshots t none t' = some answer) :
    σ.snapshots t' = some answer := by
  by_cases ht : t' = t
  · subst ht
    rw [Function.update_self] at h
    cases h
  · rwa [Function.update_of_ne ht] at h

theorem effect_openTab {accountId documentId : JsString}
    (hstep : σ.step payloads uuids threshold (.openTab t accountId documentId) = some τ) :
    Effect payloads uuids threshold σ (.openTab t accountId documentId) τ := by
  simp only [step] at hstep
  split_ifs at hstep with hnew
  obtain ⟨μ, hμ, rfl⟩ := Option.map_eq_some_iff.mp hstep
  obtain ⟨sync, hsync, rfl⟩ := Option.map_eq_some_iff.mp hμ
  exact .opened hnew hsync

theorem effect_destroy (hstep : σ.step payloads uuids threshold (.destroy t) = some τ) :
    Effect payloads uuids threshold σ (.destroy t) τ := by
  simp only [step] at hstep
  split at hstep
  · rename_i key hkey
    obtain ⟨sync, hsync, rfl⟩ := Option.map_eq_some_iff.mp hstep
    exact .closed hkey (Or.inl rfl) hsync
  · cases hstep

theorem effect_crash (hstep : σ.step payloads uuids threshold (.crash t) = some τ) :
    Effect payloads uuids threshold σ (.crash t) τ := by
  simp only [step] at hstep
  split at hstep
  · rename_i key hkey
    obtain ⟨sync, hsync, rfl⟩ := Option.map_eq_some_iff.mp hstep
    exact .closed hkey (Or.inr rfl) hsync
  · cases hstep

theorem effect_edit {bytes : P} (hstep : σ.step payloads uuids threshold (.edit t bytes) = some τ) :
    Effect payloads uuids threshold σ (.edit t bytes) τ := by
  simp only [step] at hstep
  split at hstep
  · rename_i key hkey
    obtain ⟨doc, key', sync, peers, hdoc, hkey', rfl, hsync, -, -, -, hfired⟩ := applyUpdate_spec hstep
    obtain rfl : key = key' := Option.some.inj (hkey.symm.trans hkey')
    rw [hfired bytes rfl rfl]
    exact .edited hdoc hkey hsync
  · cases hstep

theorem effect_deliver {message : PeerMessage P} {fired : Option P}
    (hstep : σ.step payloads uuids threshold (.deliver t message fired) = some τ) :
    Effect payloads uuids threshold σ (.deliver t message fired) τ := by
  simp only [step] at hstep
  split at hstep
  · rename_i key doc hkey hdoc
    split at hstep
    · rename_i channel htake
      cases message with
      | request =>
        obtain rfl := Option.some.inj hstep
        rw [post_update]
        exact .answered hdoc hkey htake
      | update bytes =>
        obtain ⟨doc', key', sync, peers, hdoc', hkey', rfl, hsync, -, -, hquiet, -⟩ := applyUpdate_spec hstep
        obtain rfl : doc = doc' := Option.some.inj (hdoc.symm.trans hdoc')
        rw [hquiet rfl]
        exact .delivered hdoc hkey htake hsync
    · cases hstep
  · cases hstep

theorem effect_load {bytes : P} {fired : Option P}
    (hstep : σ.step payloads uuids threshold (.load t bytes fired) = some τ) :
    Effect payloads uuids threshold σ (.load t bytes fired) τ := by
  simp only [step] at hstep
  split at hstep
  · rename_i key hkey
    split_ifs at hstep with hcache
    obtain ⟨doc, key', sync, peers, hdoc, hkey', rfl, hsync, -, -, hquiet, -⟩ := applyUpdate_spec hstep
    rw [hquiet rfl]
    exact .loaded hdoc hkey hcache hsync
  · cases hstep

theorem effect_store {bytes : P} (hstep : σ.step payloads uuids threshold (.store t bytes) = some τ) :
    Effect payloads uuids threshold σ (.store t bytes) τ := by
  simp only [step] at hstep
  split at hstep
  · rename_i key doc hkey hdoc
    split_ifs at hstep with hpart
    obtain rfl := Option.some.inj hstep
    exact .stored hdoc hkey hpart
  · cases hstep

theorem effect_listPending (hstep : σ.step payloads uuids threshold (.listPending t) = some τ) :
    Effect payloads uuids threshold σ (.listPending t) τ := by
  obtain ⟨tab, htab, rfl⟩ := Option.map_eq_some_iff.mp hstep
  exact .listed htab fun update hmem => (List.mem_insertionSort _).mp hmem

theorem effect_restore {fired : Option P}
    (hstep : σ.step payloads uuids threshold (.restore t fired) = some τ) :
    Effect payloads uuids threshold σ (.restore t fired) τ := by
  simp only [step] at hstep
  split at hstep
  · cases hstep
  · rename_i update rest hlisted
    obtain ⟨doc, key, sync, peers, hdoc, hkey, rfl, -, hpeers, hquiet, -, -⟩ := applyUpdate_spec hstep
    rw [hquiet rfl]
    exact .restored hdoc hkey hlisted hpeers

theorem effect_capture (hstep : σ.step payloads uuids threshold (.capture t) = some τ) :
    Effect payloads uuids threshold σ (.capture t) τ := by
  simp only [step] at hstep
  obtain ⟨doc, hdoc, hstep⟩ := Option.bind_eq_some_iff.mp hstep
  obtain ⟨sync, hsync, rfl⟩ := Option.map_eq_some_iff.mp hstep
  refine .synced (by simp) (by simp) ?_ (fun _ _ h => h) hsync
  rintro t' bytes ⟨⟩
  exact ⟨doc, hdoc, (content_encode doc).le⟩

theorem effect_snapshot (hstep : σ.step payloads uuids threshold (.snapshot t) = some τ) :
    Effect payloads uuids threshold σ (.snapshot t) τ := by
  simp only [step] at hstep
  split at hstep
  · rename_i tab htab
    split at hstep
    · rename_i document hflush hparse
      obtain ⟨answer, hload, rfl⟩ := Option.map_eq_some_iff.mp hstep
      exact .snapshotted htab hparse hload
    · cases hstep
  · cases hstep

theorem effect_read {fired : Option P} (hstep : σ.step payloads uuids threshold (.read t fired) = some τ) :
    Effect payloads uuids threshold σ (.read t fired) τ := by
  simp only [step] at hstep
  split at hstep
  · rename_i s revision tab hanswer htab
    obtain ⟨μ, hμ, hstep⟩ := Option.bind_eq_some_iff.mp hstep
    obtain ⟨sync, hsync, rfl⟩ := Option.map_eq_some_iff.mp hμ
    dsimp only at hstep
    split_ifs at hstep with hstopped
    · obtain rfl := Option.some.inj hstep
      exact .synced (by simp) (by simp) (by simp) (fun _ _ h => cleared_snapshots h) hsync
    · obtain ⟨ν, hν, rfl⟩ := Option.map_eq_some_iff.mp hstep
      obtain ⟨doc, key, sync', peers, hdoc, hkey, rfl, -, -, hquiet, hsilent, -⟩ := applyUpdate_spec hν
      rw [hquiet rfl, hsilent rfl]
      exact .read hdoc hanswer hsync
  · cases hstep

theorem effect_sync {a : SyncAction Tb W V P Uuid}
    (hstep : σ.step payloads uuids threshold (.sync a) = some τ) :
    Effect payloads uuids threshold σ (.sync a) τ := by
  simp only [step] at hstep
  split at hstep
  any_goals cases hstep
  · obtain ⟨sync, hsync, rfl⟩ := Option.map_eq_some_iff.mp hstep
    exact .synced (by simp) (by simp) (by simp) (fun _ _ h => cleared_snapshots h) hsync
  · rename_i hopen hcrash hstop henqueue hread hthrows
    obtain ⟨sync, hsync, rfl⟩ := Option.map_eq_some_iff.mp hstep
    exact .synced hopen hcrash (fun t bytes he => absurd he (henqueue t bytes)) (fun _ _ h => h) hsync

theorem step_effect {a : DeviceAction Tb W V P Uuid} (hstep : σ.step payloads uuids threshold a = some τ) :
    Effect payloads uuids threshold σ a τ := by
  cases a with
  | openTab t accountId documentId => exact effect_openTab hstep
  | destroy t => exact effect_destroy hstep
  | crash t => exact effect_crash hstep
  | edit t bytes => exact effect_edit hstep
  | deliver t message fired => exact effect_deliver hstep
  | load t bytes fired => exact effect_load hstep
  | store t bytes => exact effect_store hstep
  | listPending t => exact effect_listPending hstep
  | restore t fired => exact effect_restore hstep
  | capture t => exact effect_capture hstep
  | snapshot t => exact effect_snapshot hstep
  | read t fired => exact effect_read hstep
  | sync a => exact effect_sync hstep

end Device

end OpenOutliner
