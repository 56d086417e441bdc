import OpenOutliner.Client.TabConvergence

namespace OpenOutliner

open Foundations

namespace Device

variable {Tb W V S P G Uuid : Type} [DecidableEq Tb] [DecidableEq W] [DecidableEq V] [SemilatticeSup S]
  [OrderBot S] [DecidableLE S] [DecidableEq P] [DecidableEq G] [DecidableEq Uuid]
  {payloads : Payloads S P G} {uuids : UuidText Uuid} {threshold : ℕ} {σ τ : Device Tb W V S P G Uuid}
  {t t' : Tb} {key : DocumentKey} {u : S}

structure Listening (payloads : Payloads S P G) (σ : Device Tb W V S P G Uuid) : Prop where
  listens : ∀ t doc key, σ.docs t = some doc → σ.keyOf t = some key → t ∈ (σ.peers key).listeners
  wrote : ∀ e ∈ σ.authored, e.tab ∈ σ.opened ∧ ∀ doc, σ.docs e.tab = some doc → content payloads e.bytes ≤ doc

/-- The tab has it, or it is under way to the tab. -/
def Reaches (payloads : Payloads S P G) (σ : Device Tb W V S P G Uuid) (t : Tb) (key : DocumentKey)
    (u : S) : Prop :=
  (∃ doc, σ.docs t = some doc ∧ u ≤ doc) ∨
    ∃ bytes, (t, .update bytes) ∈ (σ.peers key).flight ∧ u ≤ content payloads bytes

def Offers (payloads : Payloads S P G) (σ : Device Tb W V S P G Uuid) (t t' : Tb) (key : DocumentKey)
    (u : S) : Prop :=
  σ.Reaches payloads t key u ∨ (t', .request) ∈ (σ.peers key).flight ∧
    ∃ doc', σ.docs t' = some doc' ∧ u ≤ doc'

inductive Handled (payloads : Payloads S P G) (σ τ : Device Tb W V S P G Uuid) (t : Tb) (key : DocumentKey) :
    PeerMessage P → Prop
  | waits {m : PeerMessage P} : (t, m) ∈ (τ.peers key).flight → Handled payloads σ τ t key m
  | applied {bytes : P} {doc' : S} : τ.docs t = some doc' → content payloads bytes ≤ doc' →
      Handled payloads σ τ t key (.update bytes)
  | answered {doc : S} {bytes : P} : σ.docs t = some doc → doc ≤ content payloads bytes →
    (∀ t' ≠ t, t' ∈ (σ.peers key).listeners → (t', .update bytes) ∈ (τ.peers key).flight) →
    Handled payloads σ τ t key .request

section Channels

variable {peers : DocumentKey → Channel Tb (PeerMessage P)} {channel : Channel Tb (PeerMessage P)}
  {key' : DocumentKey} {e : Tb × PeerMessage P}

omit [DecidableEq Tb] [DecidableEq P] in
theorem mem_gained (hgain : e ∈ (peers key).flight → e ∈ channel.flight) (he : e ∈ (peers key').flight) :
    e ∈ (Function.update peers key channel key').flight := by
  by_cases hk : key' = key
  · subst hk
    rw [Function.update_self]
    exact hgain he
  · rwa [Function.update_of_ne hk]

omit [DecidableLE S] [DecidableEq G] [DecidableEq P] in
theorem mem_posted {peers' : DocumentKey → Channel Tb (PeerMessage P)} {bound : S}
    (h : Posted payloads peers t key bound peers')
    (he : e ∈ (peers key').flight) : e ∈ (peers' key').flight := by
  cases h with
  | no => exact he
  | yes hb => exact mem_gained (fun he => Channel.mem_post.mpr (Or.inl he)) he

theorem mem_taken {message : PeerMessage P} (htake : (peers key).take t message = some channel)
    (he : e ∈ (peers key').flight) (hne : key' = key → e ≠ (t, message)) :
    e ∈ (Function.update peers key channel key').flight := by
  by_cases hk : key' = key
  · subst hk
    rw [Function.update_self]
    exact (Channel.take_some htake).2.2.2 e he (hne rfl)
  · rwa [Function.update_of_ne hk]

end Channels

omit [DecidableLE S] in
theorem flight_effect {a : DeviceAction Tb W V P Uuid} {m : PeerMessage P}
    (heffect : Effect payloads uuids threshold σ a τ)
    (hm : (t, m) ∈ (σ.peers key).flight) (hstill : τ.docs t ≠ none) : Handled payloads σ τ t key m := by
  cases heffect with
  | opened hnew hsync =>
    exact .waits (mem_gained (fun he => Channel.mem_post.mpr (Or.inl he)) hm)
  | @closed _ _ t₀ key₀ sync hkey hb hsync =>
    refine .waits (mem_gained (fun he => Channel.mem_close_flight.mpr ⟨he, ?_⟩) hm)
    rintro rfl
    exact hstill (Function.update_self ..)
  | edited hdoc hkey hsync =>
    exact .waits (mem_gained (fun he => Channel.mem_post.mpr (Or.inl he)) hm)
  | @answered t₀ _ doc key₀ channel hdoc hkey htake =>
    by_cases hsame : key = key₀ ∧ (t, m) = (t₀, .request)
    · obtain ⟨rfl, he⟩ := hsame
      obtain ⟨rfl, rfl⟩ := Prod.mk.inj he
      refine .answered hdoc (content_encode doc).ge ?_
      intro t' ht' hl
      dsimp only
      rw [Function.update_self]
      exact Channel.mem_post.mpr (Or.inr ⟨rfl, ht', (Channel.take_some htake).2.1 ▸ hl⟩)
    · have hleft := mem_taken htake hm fun hk he => hsame ⟨hk, he⟩
      refine .waits ?_
      dsimp only
      by_cases hk : key = key₀
      · subst hk
        rw [Function.update_self] at hleft ⊢
        exact Channel.mem_post.mpr (Or.inl hleft)
      · rwa [Function.update_of_ne hk] at hleft ⊢
  | @delivered t₀ bytes _ doc key₀ channel sync hdoc hkey htake hsync =>
    by_cases hsame : key = key₀ ∧ (t, m) = (t₀, .update bytes)
    · obtain ⟨rfl, he⟩ := hsame
      obtain ⟨rfl, rfl⟩ := Prod.mk.inj he
      exact .applied (Function.update_self ..) le_sup_right
    · exact .waits (mem_taken htake hm fun hk he => hsame ⟨hk, he⟩)
  | restored hdoc hkey hlisted hpeers => exact .waits (mem_posted hpeers hm)
  | _ => exact .waits hm

omit [DecidableEq Tb] [DecidableEq W] [DecidableEq V] [DecidableLE S] [DecidableEq P] [DecidableEq G] in
theorem Evolves.doc_grows {doc : S} (hevolves : Evolves payloads uuids σ τ) (hdoc : σ.docs t = some doc)
    (hopen : t ∈ σ.opened) (hstill : τ.docs t ≠ none) :
    ∃ doc', τ.docs t = some doc' ∧ doc ≤ doc' := by
  obtain ⟨doc', hdoc'⟩ := Option.ne_none_iff_exists'.mp hstill
  obtain ⟨old, hold, hle⟩ | ⟨hnew, -⟩ := hevolves.docs t doc' hdoc'
  · rw [hdoc] at hold
    obtain rfl := Option.some.inj hold
    exact ⟨doc', hdoc', hle⟩
  · exact absurd hopen hnew

section Step

variable {a : DeviceAction Tb W V P Uuid} (heffect : Effect payloads uuids threshold σ a τ)
  (hevolves : Evolves payloads uuids σ τ)
include heffect hevolves

omit [DecidableLE S] in
theorem reaches_effect (h : σ.Reaches payloads t key u) (hopen : t ∈ σ.opened) (hstill : τ.docs t ≠ none) :
    τ.Reaches payloads t key u := by
  obtain ⟨doc, hdoc, hle⟩ | ⟨bytes, hm, hle⟩ := h
  · obtain ⟨doc', hdoc', hgrown⟩ := hevolves.doc_grows hdoc hopen hstill
    exact Or.inl ⟨doc', hdoc', hle.trans hgrown⟩
  · cases flight_effect heffect hm hstill with
    | waits hwaits => exact Or.inr ⟨bytes, hwaits, hle⟩
    | applied hdoc' hpart => exact Or.inl ⟨_, hdoc', hle.trans hpart⟩

omit [DecidableLE S] in
theorem offers_effect (h : σ.Offers payloads t t' key u) (hne : t ≠ t')
    (hlistens : t ∈ (σ.peers key).listeners)
    (hopen : t ∈ σ.opened) (hopen' : t' ∈ σ.opened) (hstill : τ.docs t ≠ none) (hstill' : τ.docs t' ≠ none) :
    τ.Offers payloads t t' key u := by
  obtain hreach | ⟨hm, doc', hdoc', hle⟩ := h
  · exact Or.inl (reaches_effect heffect hevolves hreach hopen hstill)
  · cases flight_effect heffect hm hstill' with
    | waits hwaits =>
      obtain ⟨doc'', hdoc'', hgrown⟩ := hevolves.doc_grows hdoc' hopen' hstill'
      exact Or.inr ⟨hwaits, doc'', hdoc'', hle.trans hgrown⟩
    | answered hdoc hpart hposted =>
      rw [hdoc'] at hdoc
      obtain rfl := Option.some.inj hdoc
      exact Or.inl (Or.inr ⟨_, hposted t hne hlistens, hle.trans hpart⟩)

end Step

omit [DecidableEq Tb] [DecidableEq P] in
theorem listeners_gained {peers : DocumentKey → Channel Tb (PeerMessage P)}
    {channel : Channel Tb (PeerMessage P)} {key' : DocumentKey}
    (hgain : t ∈ (peers key).listeners → t ∈ channel.listeners) (ht : t ∈ (peers key').listeners) :
    t ∈ (Function.update peers key channel key').listeners := by
  by_cases hk : key' = key
  · subst hk
    rw [Function.update_self]
    exact hgain ht
  · rwa [Function.update_of_ne hk]

omit [DecidableLE S] in
theorem listeners_effect {a : DeviceAction Tb W V P Uuid} (heffect : Effect payloads uuids threshold σ a τ)
    (ht : t ∈ (σ.peers key).listeners) (hstill : τ.docs t ≠ none) : t ∈ (τ.peers key).listeners := by
  cases heffect with
  | opened hnew hsync => exact listeners_gained (fun ht => Channel.mem_attach.mpr (Or.inr ht)) ht
  | @closed _ _ t₀ key₀ sync hkey hb hsync =>
    refine listeners_gained (fun ht => Channel.mem_close.mpr ⟨?_, ht⟩) ht
    rintro rfl
    exact hstill (Function.update_self ..)
  | edited hdoc hkey hsync => exact listeners_gained id ht
  | answered hdoc hkey htake => exact listeners_gained (fun ht => (Channel.take_some htake).2.1 ▸ ht) ht
  | delivered hdoc hkey htake hsync =>
    exact listeners_gained (fun ht => (Channel.take_some htake).2.1 ▸ ht) ht
  | restored hdoc hkey hlisted hpeers =>
    cases hpeers with
    | no => exact ht
    | yes hb => exact listeners_gained id ht
  | _ => exact ht

omit [DecidableEq Tb] [DecidableEq W] [DecidableEq V] [DecidableLE S] [DecidableEq P] [DecidableEq G] in
theorem Evolves.keyOf_before (h : Evolves payloads uuids σ τ) (hopen : t ∈ σ.opened)
    (hkey : τ.keyOf t = some key) :
    σ.keyOf t = some key := by
  obtain ⟨b, hmoved, hnew, -⟩ := h.moved
  obtain ⟨tab', htab', rfl⟩ := keyOf_eq.mp hkey
  obtain ⟨tab, htab, hsame, -⟩ | ⟨x, y, he, -⟩ := hmoved.tabs t tab' htab'
  · exact keyOf_eq.mpr ⟨tab, htab, hsame.symm⟩
  · exact absurd hopen (hnew t x y he).1

omit [DecidableEq Tb] [DecidableEq W] [DecidableEq V] [DecidableLE S] [DecidableEq P] [DecidableEq G] in
theorem Evolves.docs_before (h : Evolves payloads uuids σ τ) (hopen : t ∈ σ.opened) (hdoc : τ.docs t ≠ none) :
    σ.docs t ≠ none := by
  obtain ⟨doc', hdoc'⟩ := Option.ne_none_iff_exists'.mp hdoc
  obtain ⟨doc, hold, -⟩ | ⟨hnew, -⟩ := h.docs t doc' hdoc'
  · rw [hold]
    exact Option.some_ne_none doc
  · exact absurd hopen hnew

section

omit [DecidableLE S]

theorem opened_key {accountId documentId : JsString} {sync : Sync Tb W V P G Uuid}
    (hsync : σ.sync.step payloads uuids threshold (.openTab t accountId documentId) = some sync) :
    keyOf { σ with sync } t = some (accountId, documentId) := by
  simp only [Sync.step] at hsync
  split at hsync
  · obtain rfl := Option.some.inj hsync
    simp [keyOf, Tab.key, Tab.opened]
  · cases hsync

theorem effect_opens {a : DeviceAction Tb W V P Uuid} (heffect : Effect payloads uuids threshold σ a τ)
    (ht : t ∈ τ.opened)
    (hnew : t ∉ σ.opened) : τ.authored = σ.authored ∧ (∀ t' ≠ t, τ.docs t' = σ.docs t') ∧
      ∀ key, τ.keyOf t = some key → t ∈ (τ.peers key).listeners ∧
        ∀ t' ≠ t, t' ∈ (σ.peers key).listeners → (t', .request) ∈ (τ.peers key).flight := by
  cases heffect with
  | @opened t₀ accountId documentId sync hnew₀ hsync =>
    obtain rfl | hold := List.mem_cons.mp ht
    · refine ⟨rfl, fun t' ht' => Function.update_of_ne ht' _ _, ?_⟩
      intro key hkey
      obtain rfl : (accountId, documentId) = key := Option.some.inj ((opened_key hsync).symm.trans hkey)
      dsimp only
      rw [Function.update_self]
      exact ⟨Channel.mem_attach.mpr (Or.inl rfl), fun t' ht' hl =>
        Channel.mem_post.mpr (Or.inr ⟨rfl, ht', Channel.mem_attach.mpr (Or.inr hl)⟩)⟩
    · exact absurd hold hnew
  | _ => exact absurd ht hnew

theorem effect_writes {a : DeviceAction Tb W V P Uuid} (heffect : Effect payloads uuids threshold σ a τ) :
    τ.authored = σ.authored ∨ ∃ e doc, τ.authored = e :: σ.authored ∧ σ.docs e.tab = some doc ∧
      σ.keyOf e.tab = some e.key ∧ τ.docs e.tab = some (doc ⊔ content payloads e.bytes) ∧
      ∀ t' ≠ e.tab, t' ∈ (σ.peers e.key).listeners → (t', .update e.bytes) ∈ (τ.peers e.key).flight := by
  cases heffect with
  | @edited t bytes doc key sync hdoc hkey hsync =>
    refine Or.inr ⟨⟨t, key, bytes⟩, doc, rfl, hdoc, hkey, Function.update_self .., ?_⟩
    intro t' ht' hl
    dsimp only
    rw [Function.update_self]
    exact Channel.mem_post.mpr (Or.inr ⟨rfl, ht', hl⟩)
  | _ => exact Or.inl rfl

theorem listening_effect {a : DeviceAction Tb W V P Uuid} (h : Listening payloads σ)
    (hanswers : Answers payloads uuids σ)
    (hevolves : Evolves payloads uuids σ τ) (heffect : Effect payloads uuids threshold σ a τ) :
    Listening payloads τ where
  listens t doc key hdoc hkey := by
    by_cases hopen : t ∈ σ.opened
    · have hstill : τ.docs t ≠ none := by simp [hdoc]
      obtain ⟨old, hold⟩ := Option.ne_none_iff_exists'.mp (hevolves.docs_before hopen hstill)
      exact listeners_effect heffect (h.listens t old key hold (hevolves.keyOf_before hopen hkey)) hstill
    · obtain ⟨old, hold, -⟩ | ⟨-, hnew⟩ := hevolves.docs t doc hdoc
      · rw [(hanswers.unopened t hopen).2.1] at hold
        cases hold
      · exact ((effect_opens heffect hnew hopen).2.2 key hkey).1
  wrote e he := by
    have hold : ∀ e ∈ σ.authored, e.tab ∈ τ.opened ∧ ∀ doc, τ.docs e.tab = some doc →
        content payloads e.bytes ≤ doc := by
      intro e he
      obtain ⟨hopen, hle⟩ := h.wrote e he
      refine ⟨hevolves.opened hopen, ?_⟩
      intro doc hdoc
      obtain ⟨old, hold, hgrown⟩ | ⟨hnew, -⟩ := hevolves.docs _ doc hdoc
      · exact (hle old hold).trans hgrown
      · exact absurd hopen hnew
    obtain hsame | ⟨e', doc, hnew, hdoc, -, hdoc', -⟩ := effect_writes heffect
    · exact hold e (hsame ▸ he)
    · rw [hnew] at he
      obtain rfl | he := List.mem_cons.mp he
      · refine ⟨hevolves.opened ?_, ?_⟩
        · by_contra hopen
          rw [(hanswers.unopened _ hopen).2.1] at hdoc
          cases hdoc
        · intro doc'' hdoc''
          rw [hdoc'] at hdoc''
          obtain rfl := Option.some.inj hdoc''
          exact le_sup_right
      · exact hold e he

end

structure PeerInv (payloads : Payloads S P G) (uuids : UuidText Uuid) (σ : Device Tb W V S P G Uuid) : Prop
    extends Inv payloads uuids σ where
  listening : Listening payloads σ
  -- what a tab wrote is with every other tab of the document, or offered to it
  shared : ∀ t key e, σ.docs t ≠ none → σ.docs e.tab ≠ none → σ.keyOf t = some key →
    σ.keyOf e.tab = some key → t ≠ e.tab →
    e ∈ σ.authored → σ.Offers payloads t e.tab key (content payloads e.bytes)

section Shared

variable {a : DeviceAction Tb W V P Uuid} (h : σ.PeerInv payloads uuids)
  (hevolves : Evolves payloads uuids σ τ) (heffect : Effect payloads uuids threshold σ a τ)
include h hevolves heffect

section

omit [DecidableLE S]

theorem offers_opened (hnew : t ∉ σ.opened) (hdoc : τ.docs t ≠ none) (hkey : τ.keyOf t = some key)
    {doc' : S} (hdoc' : σ.docs t' = some doc') (hkey' : σ.keyOf t' = some key) (hle : u ≤ doc')
    (hne : t ≠ t') :
    τ.Offers payloads t t' key u := by
  obtain ⟨doc, hdoc⟩ := Option.ne_none_iff_exists'.mp hdoc
  obtain ⟨old, hold, -⟩ | ⟨-, hopened⟩ := hevolves.docs t doc hdoc
  · rw [(h.answers.unopened t hnew).2.1] at hold
    cases hold
  · obtain ⟨-, hdocs, hasks⟩ := effect_opens heffect hopened hnew
    refine Or.inr ⟨(hasks key hkey).2 t' hne.symm (h.listening.listens t' doc' key hdoc' hkey'),
      doc', ?_, hle⟩
    rw [hdocs t' hne.symm, hdoc']

theorem offers_kept (hopen : t ∈ σ.opened) (hopen' : t' ∈ σ.opened) (hdoc : τ.docs t ≠ none)
    (hdoc' : τ.docs t' ≠ none)
    (hkey : τ.keyOf t = some key) (hne : t ≠ t') (hoffers : σ.Offers payloads t t' key u) :
    τ.Offers payloads t t' key u := by
  obtain ⟨old, hold⟩ := Option.ne_none_iff_exists'.mp (hevolves.docs_before hopen hdoc)
  have hlistens := h.listening.listens t old key hold (hevolves.keyOf_before hopen hkey)
  exact offers_effect heffect hevolves hoffers hne hlistens hopen hopen' hdoc hdoc'

theorem reaches_written {e : Authored Tb P} (hopen : t ∈ σ.opened) (hdoc : τ.docs t ≠ none)
    (hkey : τ.keyOf t = some e.key)
    (hnew : τ.authored = e :: σ.authored) : τ.Reaches payloads t e.key (content payloads e.bytes) := by
  obtain hsame | ⟨e', doc, hnew', -, -, hdoc', hposted⟩ := effect_writes heffect
  · rw [hnew] at hsame
    exact absurd (congrArg List.length hsame) (by simp)
  · obtain ⟨rfl, -⟩ := List.cons.inj (hnew.symm.trans hnew')
    by_cases ht : t = e.tab
    · exact Or.inl ⟨_, ht ▸ hdoc', le_sup_right⟩
    · obtain ⟨old, hold⟩ := Option.ne_none_iff_exists'.mp (hevolves.docs_before hopen hdoc)
      have hlistens := h.listening.listens t old e.key hold (hevolves.keyOf_before hopen hkey)
      exact Or.inr ⟨e.bytes, hposted t ht hlistens, le_rfl⟩

theorem shared_effect {e : Authored Tb P} (hdoc : τ.docs t ≠ none) (hdoc' : τ.docs e.tab ≠ none)
    (hkey : τ.keyOf t = some key)
    (hkey' : τ.keyOf e.tab = some key) (hne : t ≠ e.tab) (he : e ∈ τ.authored) :
    τ.Offers payloads t e.tab key (content payloads e.bytes) := by
  have hopen' : e.tab ∈ σ.opened := by
    obtain hsame | ⟨e', doc, hnew, hwrote, -⟩ := effect_writes heffect
    · exact (h.listening.wrote e (hsame ▸ he)).1
    · rw [hnew] at he
      obtain rfl | he := List.mem_cons.mp he
      · by_contra hopen
        rw [(h.answers.unopened _ hopen).2.1] at hwrote
        cases hwrote
      · exact (h.listening.wrote e he).1
  have hbefore := hevolves.docs_before hopen' hdoc'
  have hkeyBefore := hevolves.keyOf_before hopen' hkey'
  by_cases hopen : t ∈ σ.opened
  · have hkept : e ∈ σ.authored → τ.Offers payloads t e.tab key (content payloads e.bytes) := fun he =>
      offers_kept h hevolves heffect hopen hopen' hdoc hdoc' hkey hne
        (h.shared t key e (hevolves.docs_before hopen hdoc) hbefore
          (hevolves.keyOf_before hopen hkey) hkeyBefore hne he)
    obtain hsame | ⟨e', doc, hnew, -, hkeyWrote, -⟩ := effect_writes heffect
    · exact hkept (hsame ▸ he)
    · obtain rfl | he := List.mem_cons.mp (hnew ▸ he)
      · obtain rfl : key = e.key := Option.some.inj (hkeyBefore.symm.trans hkeyWrote)
        exact Or.inl (reaches_written h hevolves heffect hopen hdoc hkey hnew)
      · exact hkept he
  · obtain ⟨old, hold⟩ := Option.ne_none_iff_exists'.mp hbefore
    have hmem : e ∈ σ.authored := by
      obtain ⟨doc, hdoc⟩ := Option.ne_none_iff_exists'.mp hdoc
      obtain ⟨_, hopened, -⟩ | ⟨-, hopened⟩ := hevolves.docs t doc hdoc
      · rw [(h.answers.unopened t hopen).2.1] at hopened
        cases hopened
      · exact (effect_opens heffect hopened hopen).1 ▸ he
    exact offers_opened h hevolves heffect hopen hdoc hkey hold hkeyBefore
      ((h.listening.wrote e hmem).2 old hold) hne

end

end Shared

theorem peerInv_step {a : DeviceAction Tb W V P Uuid} (hdigest : Function.Injective payloads.digest)
    (h : σ.PeerInv payloads uuids) (hstep : σ.step payloads uuids threshold a = some τ) :
    τ.PeerInv payloads uuids := by
  have heffect := step_effect hstep
  have hevolves := effect_evolves hdigest h.sync heffect
  exact ⟨inv_step hdigest h.toInv hstep, listening_effect h.listening h.answers hevolves heffect,
    fun t key e hdoc hdoc' hkey hkey' hne he => shared_effect h hevolves heffect hdoc hdoc' hkey hkey' hne he⟩

omit [DecidableLE S] [DecidableEq Tb] [DecidableEq W] [DecidableEq V] [DecidableEq P] [DecidableEq G] in
theorem peerInv_initial (seed : Uuid → Option ℕ) :
    (initial seed : Device Tb W V S P G Uuid).PeerInv payloads uuids :=
  ⟨inv_initial seed, ⟨by simp [initial], by simp [initial]⟩, by simp [initial]⟩

structure Later (payloads : Payloads S P G) (σ τ : Device Tb W V S P G Uuid) : Prop where
  opened : σ.opened ⊆ τ.opened
  reopened : ∀ t, t ∈ σ.opened → τ.docs t ≠ none → σ.docs t ≠ none
  grown : ∀ t before doc, t ∈ σ.opened → σ.docs t = some before → τ.docs t = some doc → before ≤ doc
  offered : ∀ t t' key before, σ.docs t' = some before → t ∉ σ.opened → t' ∈ σ.opened → τ.docs t ≠ none →
    τ.docs t' ≠ none →
    τ.keyOf t = some key → τ.keyOf t' = some key → τ.Offers payloads t t' key before
  written : ∃ later, τ.authored = later ++ σ.authored ∧ ∀ t, t ∈ σ.opened → τ.docs t ≠ none →
    ∀ e ∈ later, τ.keyOf t = some e.key → τ.Reaches payloads t e.key (content payloads e.bytes)

omit [DecidableEq Tb] [DecidableEq W] [DecidableEq V] [DecidableLE S] [DecidableEq P] [DecidableEq G] in
theorem Later.refl (σ : Device Tb W V S P G Uuid) (h : σ.PeerInv payloads uuids) : Later payloads σ σ where
  opened := List.Subset.refl _
  reopened t _ hdoc := hdoc
  grown t before doc _ hbefore hdoc := by
    rw [hbefore] at hdoc
    exact (Option.some.inj hdoc).le
  offered t t' key before _ hnew _ hdoc := absurd (h.answers.unopened t hnew).2.1 hdoc
  written := ⟨[], rfl, by simp⟩

omit [DecidableLE S] in
theorem Later.step {μ : Device Tb W V S P G Uuid} {a : DeviceAction Tb W V P Uuid}
    (hlater : Later payloads σ μ) (h : μ.PeerInv payloads uuids) (hevolves : Evolves payloads uuids μ τ)
    (heffect : Effect payloads uuids threshold μ a τ) :
    Later payloads σ τ where
  opened := List.Subset.trans hlater.opened hevolves.opened
  reopened t hopen hdoc := hlater.reopened t hopen (hevolves.docs_before (hlater.opened hopen) hdoc)
  grown t before doc hopen hbefore hdoc := by
    obtain ⟨mid, hmid, hle⟩ | ⟨hnew, -⟩ := hevolves.docs t doc hdoc
    · exact (hlater.grown t before mid hopen hbefore hmid).trans hle
    · exact absurd (hlater.opened hopen) hnew
  offered t t' key before hbefore hnew hopen' hdoc hdoc' hkey hkey' := by
    have hne : t ≠ t' := fun he => hnew (he ▸ hopen')
    have hmid' := hevolves.docs_before (hlater.opened hopen') hdoc'
    have hkeyMid' := hevolves.keyOf_before (hlater.opened hopen') hkey'
    by_cases hopen : t ∈ μ.opened
    · have hmid := hlater.offered t t' key before hbefore hnew hopen' (hevolves.docs_before hopen hdoc) hmid'
        (hevolves.keyOf_before hopen hkey) hkeyMid'
      exact offers_kept h hevolves heffect hopen (hlater.opened hopen') hdoc hdoc' hkey hne hmid
    · obtain ⟨mid, hmid⟩ := Option.ne_none_iff_exists'.mp hmid'
      exact offers_opened h hevolves heffect hopen hdoc hkey hmid hkeyMid'
        (hlater.grown t' before mid hopen' hbefore hmid) hne
  written := by
    obtain ⟨later, hauthored, hreaches⟩ := hlater.written
    have hkept : ∀ t, t ∈ σ.opened → τ.docs t ≠ none → ∀ e ∈ later, τ.keyOf t = some e.key →
        τ.Reaches payloads t e.key (content payloads e.bytes) := by
      intro t hopen hdoc e he hkey
      have hopenMid := hlater.opened hopen
      exact reaches_effect heffect hevolves
        (hreaches t hopen (hevolves.docs_before hopenMid hdoc) e he
          (hevolves.keyOf_before hopenMid hkey)) hopenMid hdoc
    obtain hsame | ⟨e, doc, hnew, -⟩ := effect_writes heffect
    · exact ⟨later, hsame.trans hauthored, hkept⟩
    · refine ⟨e :: later, by rw [hnew, hauthored, List.cons_append], ?_⟩
      intro t hopen hdoc e' he' hkey
      obtain rfl | he' := List.mem_cons.mp he'
      · exact reaches_written h hevolves heffect (hlater.opened hopen) hdoc hkey hnew
      · exact hkept t hopen hdoc e' he' hkey

theorem runs_later (hdigest : Function.Injective payloads.digest) (h : σ.PeerInv payloads uuids)
    (hrun : Runs (step payloads uuids threshold) (fun _ _ => True) σ τ) :
    τ.PeerInv payloads uuids ∧ Later payloads σ τ := by
  induction hrun with
  | refl => exact ⟨h, .refl σ h⟩
  | step a _ _ hstep ih =>
    have heffect := step_effect hstep
    exact ⟨peerInv_step hdigest ih.1 hstep, ih.2.step ih.1 (effect_evolves hdigest ih.1.sync heffect) heffect⟩

end Device

open Device

section Results

variable {Tb W V S P G Uuid : Type} [DecidableEq Tb] [DecidableEq W] [DecidableEq V] [SemilatticeSup S]
  [OrderBot S] [DecidableLE S] [DecidableEq P] [DecidableEq G] [DecidableEq Uuid]
  {payloads : Payloads S P G} {uuids : UuidText Uuid} {threshold : ℕ} {seed : Uuid → Option ℕ}
  {σ τ : Device Tb W V S P G Uuid}

/-- Of two open tabs of a document, each has all that the other wrote once no message is under way. One that
opened later has all that the older one had then, and a tab has all that any tab wrote while it was open,
also of tabs that are closed by now. -/
theorem tabs_share_edits (hdigest : Function.Injective payloads.digest)
    (hbefore : Runs (Device.step payloads uuids threshold) (fun _ _ => True) (initial seed) σ)
    (hlater : Runs (Device.step payloads uuids threshold) (fun _ _ => True) σ τ) {t t' : Tb}
    {key : DocumentKey} {doc : S} (hdoc : τ.docs t = some doc) (hkey : τ.keyOf t = some key)
    (hdoc' : τ.docs t' ≠ none) (hkey' : τ.keyOf t' = some key) (hquiet : (τ.peers key).flight = 0) :
    (∀ e ∈ τ.authored, e.tab = t' → content payloads e.bytes ≤ doc) ∧
    (∀ before, σ.docs t' = some before → σ.docs t = none → before ≤ doc) ∧
    (σ.docs t ≠ none → ∃ later, τ.authored = later ++ σ.authored ∧ ∀ e ∈ later, e.key = key →
      content payloads e.bytes ≤ doc) := by
  obtain ⟨h, -⟩ := runs_later hdigest (peerInv_initial seed) hbefore
  obtain ⟨hτ, hrun⟩ := runs_later hdigest h hlater
  have hstill : τ.docs t ≠ none := by simp [hdoc]
  have hreached : ∀ u, τ.Reaches payloads t key u → u ≤ doc := by
    rintro u (⟨doc'', hdoc'', hle⟩ | ⟨bytes, hm, -⟩)
    · rw [hdoc] at hdoc''
      exact hle.trans (Option.some.inj hdoc'').ge
    · rw [hquiet] at hm
      simp at hm
  have hoffered : ∀ u, τ.Offers payloads t t' key u → u ≤ doc := by
    rintro u (hreaches | ⟨hm, -⟩)
    · exact hreached u hreaches
    · rw [hquiet] at hm
      simp at hm
  refine ⟨?_, ?_, ?_⟩
  · rintro e he rfl
    by_cases ht : t = e.tab
    · exact (hτ.listening.wrote e he).2 doc (ht ▸ hdoc)
    · exact hoffered _ (hτ.shared t key e hstill hdoc' hkey hkey' ht he)
  · intro before hold hclosed
    have hnew : t ∉ σ.opened := fun hopen => hrun.reopened t hopen hstill hclosed
    have hopen' : t' ∈ σ.opened := by
      by_contra hnew'
      rw [(h.answers.unopened t' hnew').2.1] at hold
      cases hold
    exact hoffered before (hrun.offered t t' key before hold hnew hopen' hstill hdoc' hkey hkey')
  · intro hopen
    obtain ⟨later, hauthored, hreaches⟩ := hrun.written
    refine ⟨later, hauthored, ?_⟩
    rintro e he rfl
    refine hreached _ (hreaches t ?_ hstill e he hkey)
    by_contra hnew
    exact hopen (h.answers.unopened t hnew).2.1

end Results

section Example

def firstTab : List (DeviceAction ℕ ℕ ℕ (Option (Finset ℕ)) (Fin 16)) :=
  [.openTab 0 account (longDigits.text 1), .edit 0 (some {1})]

def secondTab : List (DeviceAction ℕ ℕ ℕ (Option (Finset ℕ)) (Fin 16)) :=
  [.openTab 1 account (longDigits.text 1), .edit 1 (some {2}),
    .deliver 0 (.update (some {2})) (some (some {2})),
    .deliver 0 .request none, .deliver 1 (.update (some {1, 2})) (some (some {1}))]

end Example

theorem tabs_share_edits_second :
    ∃ σ τ : SetDevice, execute (Device.step setPayloads longDigits 100)
      (Device.initial fun _ => none) firstTab = some σ ∧
      execute (Device.step setPayloads longDigits 100) σ secondTab = some τ ∧ σ.docs 0 = some {1} ∧
      σ.docs 1 = none ∧
      τ.docs 1 = some {1, 2} ∧ (∀ e ∈ τ.authored, e.tab = 0 → content setPayloads e.bytes ≤ {1, 2}) ∧
      ∀ before, σ.docs 0 = some before → before ≤ {1, 2} := by
  have hends :
      ((execute (Device.step setPayloads longDigits 100)
      (Device.initial fun _ => none : SetDevice) firstTab).bind fun σ =>
      (execute (Device.step setPayloads longDigits 100) σ secondTab).map fun τ =>
        decide (σ.docs 0 = some {1} ∧ σ.docs 1 = none ∧ τ.docs 1 = some {1, 2} ∧ (τ.docs 0).isSome = true ∧
          τ.keyOf 0 = some (account, longDigits.text 1) ∧ τ.keyOf 1 = some (account, longDigits.text 1) ∧
          (τ.peers (account, longDigits.text 1)).flight.card = 0)) = some true := by decide +kernel
  obtain ⟨σ, hσ, hends⟩ := Option.bind_eq_some_iff.mp hends
  obtain ⟨τ, hτ, hends⟩ := Option.map_eq_some_iff.mp hends
  obtain ⟨hbefore, hnew, hdoc, hdoc', hkey', hkey, hquiet⟩ := of_decide_eq_true hends
  have hshared := tabs_share_edits (fun _ _ h => h) (execute_runs hσ) (execute_runs hτ) hdoc hkey
    (Option.ne_none_iff_isSome.mpr hdoc') hkey' (Multiset.card_eq_zero.mp hquiet)
  exact ⟨σ, τ, hσ, hτ, hbefore, hnew, hdoc, hshared.1, fun before h => hshared.2.1 before h hnew⟩

end OpenOutliner
