import OpenOutliner.Client.TabEffects
import Mathlib.Data.Multiset.Lattice

namespace OpenOutliner

open Foundations

namespace Device

variable {Tb W V S P G Uuid : Type} [DecidableEq Tb] [DecidableEq W] [DecidableEq V] [SemilatticeSup S]
  [OrderBot S] [DecidableLE S] [DecidableEq P] [DecidableEq G] [DecidableEq Uuid]
  {payloads : Payloads S P G} {uuids : UuidText Uuid} {threshold : ℕ} {σ τ : Device Tb W V S P G Uuid}
  {t : Tb} {key : DocumentKey}

section Bound

variable {B : DocumentKey → S}

structure Bounded (payloads : Payloads S P G) (B : DocumentKey → S)
    (σ : Device Tb W V S P G Uuid) : Prop where
  docs : ∀ t doc, σ.docs t = some doc → ∃ key, σ.keyOf t = some key ∧ doc ≤ B key
  cache : ∀ key, σ.cache key ≤ B key
  peers : ∀ key t bytes, (t, .update bytes) ∈ (σ.peers key).flight → content payloads bytes ≤ B key
  captured : ∀ t tab, σ.sync.tabs t = some tab → ∀ b ∈ tab.captured, content payloads b ≤ B tab.key
  stored : ∀ update ∈ σ.sync.stored, content payloads update.bytes ≤ B update.key

omit [DecidableEq Tb] [DecidableEq W] [DecidableEq V] [DecidableLE S] [DecidableEq P] [DecidableEq G] in
theorem Bounded.mono {B' : DocumentKey → S} (h : Bounded payloads B σ) (hle : ∀ key, B key ≤ B' key) :
    Bounded payloads B' σ where
  docs t doc hdoc := by
    obtain ⟨key, hkey, hb⟩ := h.docs t doc hdoc
    exact ⟨key, hkey, hb.trans (hle key)⟩
  cache key := (h.cache key).trans (hle key)
  peers key t bytes hm := (h.peers key t bytes hm).trans (hle key)
  captured t tab htab b hb := (h.captured t tab htab b hb).trans (hle _)
  stored update hmem := (h.stored update hmem).trans (hle _)

omit [DecidableEq Tb] [DecidableEq W] [DecidableEq V] [DecidableLE S] [DecidableEq P] [DecidableEq G] in
theorem Bounded.doc_le {doc : S} (h : Bounded payloads B σ) (hdoc : σ.docs t = some doc)
    (hkey : σ.keyOf t = some key) :
    doc ≤ B key := by
  obtain ⟨key', hkey', hb⟩ := h.docs t doc hdoc
  obtain rfl : key = key' := Option.some.inj (hkey.symm.trans hkey')
  exact hb

omit [DecidableEq W] [DecidableEq V] [DecidableLE S] [DecidableEq P] [DecidableEq G] in
theorem Bounded.setDoc {doc : S} (h : Bounded payloads B σ) (hkey : σ.keyOf t = some key)
    (hle : doc ≤ B key) :
    Bounded payloads B { σ with docs := Function.update σ.docs t (some doc) } := by
  refine { h with docs := ?_ }
  intro t' doc' hdoc'
  dsimp only at hdoc'
  by_cases ht : t' = t
  · subst ht
    rw [Function.update_self] at hdoc'
    obtain rfl := Option.some.inj hdoc'
    exact ⟨key, hkey, hle⟩
  · rw [Function.update_of_ne ht] at hdoc'
    exact h.docs t' doc' hdoc'

omit [DecidableEq Tb] [DecidableEq W] [DecidableEq V] [DecidableLE S] [DecidableEq P] [DecidableEq G] in
theorem Bounded.setChannel {channel : Channel Tb (PeerMessage P)} (h : Bounded payloads B σ)
    (hflight : ∀ t bytes, (t, .update bytes) ∈ channel.flight → content payloads bytes ≤ B key) :
    Bounded payloads B { σ with peers := Function.update σ.peers key channel } := by
  refine { h with peers := ?_ }
  intro key' t' bytes hm
  dsimp only at hm
  by_cases hk : key' = key
  · subst hk
    rw [Function.update_self] at hm
    exact hflight t' bytes hm
  · rw [Function.update_of_ne hk] at hm
    exact h.peers key' t' bytes hm

omit [DecidableLE S] [DecidableEq P] [DecidableEq G] in
theorem posted_flight {channel : Channel Tb (PeerMessage P)} {message : PeerMessage P}
    (hflight : ∀ t bytes, (t, .update bytes) ∈ channel.flight → content payloads bytes ≤ B key)
    (hle : ∀ bytes, message = .update bytes → content payloads bytes ≤ B key) :
    ∀ t' bytes, (t', .update bytes) ∈ (channel.post t message).flight → content payloads bytes ≤ B key := by
  intro t' bytes hm
  obtain hold | ⟨rfl, -, -⟩ := Channel.mem_post.mp hm
  · exact hflight t' bytes hold
  · exact hle bytes rfl

omit [DecidableEq W] [DecidableEq V] [DecidableLE S] [DecidableEq P] [DecidableEq G] in
theorem Bounded.posted {peers : DocumentKey → Channel Tb (PeerMessage P)} {bound : S}
    (h : Bounded payloads B σ) (hpeers : Posted payloads σ.peers t key bound peers) (hle : bound ≤ B key) :
    Bounded payloads B { σ with peers } := by
  cases hpeers with
  | no => exact h
  | yes hb =>
    refine h.setChannel (posted_flight (h.peers key) ?_)
    rintro _ ⟨⟩
    exact hb.trans hle

omit [DecidableEq W] [DecidableEq V] [DecidableLE S] [DecidableEq P] [DecidableEq G] in
theorem Bounded.closed (h : Bounded payloads B σ) : Bounded payloads B (σ.closeDoc t key) := by
  have hclosed : Bounded payloads B { σ with docs := Function.update σ.docs t none } := by
    refine { h with docs := ?_ }
    intro t' doc hdoc
    dsimp only at hdoc
    by_cases ht : t' = t
    · subst ht
      rw [Function.update_self] at hdoc
      cases hdoc
    · rw [Function.update_of_ne ht] at hdoc
      exact h.docs t' doc hdoc
  refine hclosed.setChannel ?_
  intro t' bytes hm
  exact h.peers key t' bytes (Channel.mem_close_flight.mp hm).1

omit [DecidableEq Tb] [DecidableEq W] [DecidableEq V] [DecidableLE S] [DecidableEq P] [DecidableEq G] in
theorem Bounded.synced {sync : Sync Tb W V P G Uuid} {b : SyncAction Tb W V P Uuid} (h : Bounded payloads B σ)
    (hmoved : Sync.Moved b σ.sync sync) (hcrash : ∀ t, b = .crash t → σ.docs t = none)
    (henqueue : ∀ t bytes key, b = .tab t (.enqueue bytes) → σ.keyOf t = some key →
      content payloads bytes ≤ B key) :
    Bounded payloads B { σ with sync } where
  docs t doc hdoc := by
    obtain ⟨key, hkey, hle⟩ := h.docs t doc hdoc
    obtain ⟨tab, htab, rfl⟩ := keyOf_eq.mp hkey
    obtain ⟨tab', htab', hsame⟩ := hmoved.kept t tab htab fun he => by
      rw [hcrash t he] at hdoc
      cases hdoc
    exact ⟨tab'.key, keyOf_eq.mpr ⟨tab', htab', rfl⟩, hsame ▸ hle⟩
  cache := h.cache
  peers := h.peers
  captured t tab' htab' b hb := by
    obtain ⟨tab, htab, hsame, hcaptured⟩ | ⟨accountId, documentId, -, rfl⟩ := hmoved.tabs t tab' htab'
    · rw [hsame]
      obtain hold | hnew := hcaptured b hb
      · exact h.captured t tab htab b hold
      · exact henqueue t b _ hnew (keyOf_eq.mpr ⟨tab, htab, rfl⟩)
    · cases hb
  stored update hmem := by
    obtain hold | ⟨t, tab, htab, hsame, hin⟩ := hmoved.stored update hmem
    · exact h.stored update hold
    · rw [hsame]
      exact h.captured t tab htab _ hin

omit [DecidableLE S] in
theorem Bounded.enqueued {sync : Sync Tb W V P G Uuid} {bound : S} (hinv : σ.sync.Inv payloads uuids)
    (h : Bounded payloads B σ) (hsync : Enqueued payloads uuids threshold σ.sync t bound sync)
    (hkey : σ.keyOf t = some key) (hle : bound ≤ B key) : Bounded payloads B { σ with sync } := by
  cases hsync with
  | no => exact h
  | yes hb hstep =>
    refine h.synced (Sync.step_moved hinv hstep) (by simp) ?_
    rintro t' bytes key' ⟨⟩ hkey'
    obtain rfl : key = key' := Option.some.inj (hkey.symm.trans hkey')
    exact hb.trans hle

end Bound

section Ceiling

variable (payloads uuids)

/-- The merged document of the server, by the id that the tabs have for it. -/
def serverDoc (σ : Device Tb W V S P G Uuid) (documentId : JsString) : S :=
  match uuids.parse documentId with
  | some document => mergeRows payloads.toCodec (σ.sync.server.logs document).rows
  | none => ⊥

def written (edits : List (Authored Tb P)) : S :=
  ((edits.map fun e => content payloads e.bytes : List S) : Multiset S).sup

def ceiling (σ : Device Tb W V S P G Uuid) (key : DocumentKey) : S :=
  σ.serverDoc payloads uuids key.2 ⊔ written payloads (σ.authored.filter fun e => e.key = key)

variable {payloads uuids}

omit [DecidableEq Tb] [DecidableLE S] [DecidableEq P] [DecidableEq G] in
theorem le_written {edits : List (Authored Tb P)} {e : Authored Tb P} (he : e ∈ edits) :
    content payloads e.bytes ≤ written payloads edits :=
  Multiset.le_sup (Multiset.mem_coe.mpr (List.mem_map.mpr ⟨e, he, rfl⟩))

omit [DecidableEq Tb] [DecidableLE S] [DecidableEq P] [DecidableEq G] in
theorem written_le {edits : List (Authored Tb P)} {s : S} (h : ∀ e ∈ edits, content payloads e.bytes ≤ s) :
    written payloads edits ≤ s := by
  refine Multiset.sup_le.mpr ?_
  intro b hb
  obtain ⟨e, he, rfl⟩ := List.mem_map.mp (Multiset.mem_coe.mp hb)
  exact h e he

section

omit [DecidableEq Tb] [DecidableEq W] [DecidableEq V] [DecidableLE S] [DecidableEq P] [DecidableEq G]

theorem le_serverDoc {documentId : JsString} {document : Uuid} {revision : ℕ} {bytes : P}
    (hinv : σ.sync.Inv payloads uuids) (hparse : uuids.parse documentId = some document)
    (hcom : (revision, bytes) ∈ (σ.sync.server.logs document).committed) :
    content payloads bytes ≤ σ.serverDoc payloads uuids documentId := by
  unfold serverDoc
  rw [hparse]
  dsimp only
  rw [(hinv.server.log document).merged]
  exact Finset.le_sup (f := fun row : ℕ × P => (payloads.decode row.2).getD ⊥) hcom

theorem serverDoc_mono {b : SyncAction Tb W V P Uuid} (hσ : σ.sync.Inv payloads uuids)
    (hτ : τ.sync.Inv payloads uuids) (hmoved : Sync.Moved b σ.sync τ.sync) (documentId : JsString) :
    σ.serverDoc payloads uuids documentId ≤ τ.serverDoc payloads uuids documentId := by
  unfold serverDoc
  cases uuids.parse documentId with
  | none => exact le_rfl
  | some document =>
    dsimp only
    rw [(hσ.server.log document).merged, (hτ.server.log document).merged]
    exact mergeRows_mono (hmoved.logs document).committed

theorem ceiling_mono {b : SyncAction Tb W V P Uuid} (hσ : σ.sync.Inv payloads uuids)
    (hτ : τ.sync.Inv payloads uuids)
    (hmoved : Sync.Moved b σ.sync τ.sync) (hauthored : σ.authored ⊆ τ.authored) (key : DocumentKey) :
    σ.ceiling payloads uuids key ≤ τ.ceiling payloads uuids key := by
  refine sup_le_sup (serverDoc_mono hσ hτ hmoved key.2) (written_le ?_)
  intro e he
  obtain ⟨he, hkey⟩ := List.mem_filter.mp he
  exact le_written (List.mem_filter.mpr ⟨hauthored he, hkey⟩)

theorem authored_le {e : Authored Tb P} (he : e ∈ σ.authored) :
    content payloads e.bytes ≤ σ.ceiling payloads uuids e.key :=
  (le_written (List.mem_filter.mpr ⟨he, decide_eq_true rfl⟩)).trans le_sup_right

end

end Ceiling

omit [DecidableEq Tb] [DecidableEq G] [DecidableEq W] [DecidableEq V] [DecidableEq P] in
theorem moved_refl (σ : Sync Tb W V P G Uuid) (b : SyncAction Tb W V P Uuid) : Sync.Moved b σ σ :=
  ⟨fun _ => .refl _, fun _ tab' htab' => Or.inl ⟨tab', htab', rfl, fun _ hb => Or.inl hb⟩,
    fun _ tab htab _ => ⟨tab, htab, rfl⟩, fun _ hmem => Or.inl hmem, List.Subset.refl _⟩

omit [DecidableLE S] in
theorem Enqueued.moved {sync : Sync Tb W V P G Uuid} {bound : S}
    (hdigest : Function.Injective payloads.digest)
    (hinv : σ.sync.Inv payloads uuids) (h : Enqueued payloads uuids threshold σ.sync t bound sync) :
    sync.Inv payloads uuids ∧ ∃ bytes, Sync.Moved (.tab t (.enqueue bytes)) σ.sync sync := by
  cases h with
  | no => exact ⟨hinv, payloads.encode ⊥, moved_refl _ _⟩
  | yes _ hstep => exact ⟨Sync.inv_step hdigest hinv hstep, _, Sync.step_moved hinv hstep⟩

structure Evolves (payloads : Payloads S P G) (uuids : UuidText Uuid)
    (σ τ : Device Tb W V S P G Uuid) : Prop where
  inv : τ.sync.Inv payloads uuids
  moved : ∃ b, Sync.Moved b σ.sync τ.sync ∧ (∀ t x y, b = .openTab t x y → t ∉ σ.opened ∧ t ∈ τ.opened) ∧
    ∀ t, b = .crash t → τ.docs t = none
  docs : ∀ t doc', τ.docs t = some doc' → (∃ doc, σ.docs t = some doc ∧ doc ≤ doc') ∨ t ∉ σ.opened ∧
    t ∈ τ.opened
  opened : σ.opened ⊆ τ.opened
  authored : σ.authored <:+ τ.authored

omit [DecidableLE S] [DecidableEq Tb] [DecidableEq G] [DecidableEq W] [DecidableEq V] [DecidableEq P] in
theorem Evolves.still (t : Tb) (hinv : σ.sync.Inv payloads uuids) (hsync : τ.sync = σ.sync)
    (hopened : τ.opened = σ.opened) (hauthored : τ.authored = σ.authored)
    (hdocs : ∀ t doc', τ.docs t = some doc' → ∃ doc, σ.docs t = some doc ∧ doc ≤ doc') :
    Evolves payloads uuids σ τ where
  inv := hsync ▸ hinv
  moved := ⟨.tab t .stop, hsync ▸ moved_refl _ _, by simp, by simp⟩
  docs t doc' hdoc' := Or.inl (hdocs t doc' hdoc')
  opened := hopened ▸ List.Subset.refl _
  authored := hauthored ▸ List.suffix_refl _

omit [DecidableEq W] [DecidableEq V] [OrderBot S] [DecidableLE S] [DecidableEq P] [DecidableEq G] in
theorem grown_docs {doc incoming : S} (hdoc : σ.docs t = some doc) (t' : Tb) (doc' : S)
    (hdoc' : Function.update σ.docs t (some (doc ⊔ incoming)) t' = some doc') :
    ∃ old, σ.docs t' = some old ∧ old ≤ doc' := by
  by_cases ht : t' = t
  · subst ht
    rw [Function.update_self] at hdoc'
    obtain rfl := Option.some.inj hdoc'
    exact ⟨doc, hdoc, le_sup_left⟩
  · rw [Function.update_of_ne ht] at hdoc'
    exact ⟨doc', hdoc', le_rfl⟩

omit [DecidableLE S] in
theorem effect_evolves {a : DeviceAction Tb W V P Uuid} (hdigest : Function.Injective payloads.digest)
    (hinv : σ.sync.Inv payloads uuids) (h : Effect payloads uuids threshold σ a τ) :
    Evolves payloads uuids σ τ := by
  cases h with
  | @opened t _ _ _ hnew hsync =>
    refine ⟨Sync.inv_step hdigest hinv hsync, ⟨_, Sync.step_moved hinv hsync, ?_, by simp⟩, ?_,
      List.subset_cons_self _ _,
      List.suffix_refl _⟩
    · rintro t' x y ⟨⟩
      exact ⟨hnew, List.mem_cons_self⟩
    · intro t' doc' hdoc'
      dsimp only at hdoc'
      by_cases ht : t' = t
      · subst ht
        exact Or.inr ⟨hnew, List.mem_cons_self⟩
      · rw [Function.update_of_ne ht] at hdoc'
        exact Or.inl ⟨doc', hdoc', le_rfl⟩
  | @closed _ b t key sync hkey hb hsync =>
    have hgone : Function.update σ.docs t none t = none := Function.update_self ..
    refine ⟨Sync.inv_step hdigest hinv hsync, ⟨b, Sync.step_moved hinv hsync, ?_, ?_⟩, ?_, List.Subset.refl _,
      List.suffix_refl _⟩
    · rintro t' x y rfl
      obtain hb | hb := hb <;> cases hb
    · rintro t' rfl
      obtain hb | hb := hb <;> cases hb
      exact hgone
    · intro t' doc' hdoc'
      dsimp only [closeDoc] at hdoc'
      by_cases ht : t' = t
      · subst ht
        rw [hgone] at hdoc'
        cases hdoc'
      · rw [Function.update_of_ne ht] at hdoc'
        exact Or.inl ⟨doc', hdoc', le_rfl⟩
  | edited hdoc hkey hsync =>
    obtain ⟨hinv', bytes, hmoved⟩ := hsync.moved hdigest hinv
    exact ⟨hinv', ⟨_, hmoved, by simp, by simp⟩,
      fun t' doc' hdoc' => Or.inl (grown_docs hdoc t' doc' hdoc'), List.Subset.refl _,
      List.suffix_cons _ _⟩
  | @answered t _ _ _ _ hdoc hkey htake =>
    exact .still t hinv rfl rfl rfl fun t' doc' hdoc' => ⟨doc', hdoc', le_rfl⟩
  | delivered hdoc hkey htake hsync =>
    obtain ⟨hinv', bytes, hmoved⟩ := hsync.moved hdigest hinv
    exact ⟨hinv', ⟨_, hmoved, by simp, by simp⟩,
      fun t' doc' hdoc' => Or.inl (grown_docs hdoc t' doc' hdoc'), List.Subset.refl _,
      List.suffix_refl _⟩
  | loaded hdoc hkey hcache hsync =>
    obtain ⟨hinv', bytes, hmoved⟩ := hsync.moved hdigest hinv
    exact ⟨hinv', ⟨_, hmoved, by simp, by simp⟩,
      fun t' doc' hdoc' => Or.inl (grown_docs hdoc t' doc' hdoc'), List.Subset.refl _,
      List.suffix_refl _⟩
  | @stored t _ _ _ hdoc hkey hpart =>
    exact .still t hinv rfl rfl rfl fun t' doc' hdoc' => ⟨doc', hdoc', le_rfl⟩
  | @listed t _ _ htab hlist => exact .still t hinv rfl rfl rfl fun t' doc' hdoc' => ⟨doc', hdoc', le_rfl⟩
  | @restored t _ _ _ _ _ _ hdoc hkey hlisted hpeers => exact .still t hinv rfl rfl rfl (grown_docs hdoc)
  | read hdoc hanswer hsync =>
    exact ⟨Sync.inv_step hdigest hinv hsync, ⟨_, Sync.step_moved hinv hsync, by simp, by simp⟩,
      fun t' doc' hdoc' => Or.inl (grown_docs hdoc t' doc' hdoc'), List.Subset.refl _, List.suffix_refl _⟩
  | @snapshotted t _ _ _ htab hparse hload =>
    exact .still t hinv rfl rfl rfl fun t' doc' hdoc' => ⟨doc', hdoc', le_rfl⟩
  | synced hopen hcrash hcapture hsnapshots hsync =>
    exact ⟨Sync.inv_step hdigest hinv hsync,
      ⟨_, Sync.step_moved hinv hsync, fun t x y he => absurd he (hopen t x y),
      fun t he => absurd he (hcrash t)⟩, fun t' doc' hdoc' => Or.inl ⟨doc', hdoc', le_rfl⟩,
      List.Subset.refl _, List.suffix_refl _⟩

omit [DecidableEq Tb] [DecidableEq W] [DecidableEq V] [DecidableLE S] [DecidableEq G] [DecidableEq P] in
theorem Evolves.ceiling_le (h : Evolves payloads uuids σ τ) (hinv : σ.sync.Inv payloads uuids)
    (key : DocumentKey) :
    σ.ceiling payloads uuids key ≤ τ.ceiling payloads uuids key := by
  obtain ⟨b, hmoved, -⟩ := h.moved
  exact ceiling_mono hinv h.inv hmoved h.authored.subset key

omit [DecidableEq Tb] [DecidableEq W] [DecidableEq V] [SemilatticeSup S] [OrderBot S] [DecidableLE S]
  [DecidableEq P] [DecidableEq G] in
theorem synced_keyOf {b : SyncAction Tb W V P Uuid} {sync : Sync Tb W V P G Uuid}
    (hmoved : Sync.Moved b σ.sync sync)
    (hcrash : b ≠ .crash t) (hkey : σ.keyOf t = some key) : keyOf { σ with sync } t = some key := by
  obtain ⟨tab, htab, rfl⟩ := keyOf_eq.mp hkey
  obtain ⟨tab', htab', hsame⟩ := hmoved.kept t tab htab hcrash
  exact keyOf_eq.mpr ⟨tab', htab', hsame⟩

omit [DecidableLE S] in
theorem enqueued_keyOf {sync : Sync Tb W V P G Uuid} {bound : S} (hinv : σ.sync.Inv payloads uuids)
    (hsync : Enqueued payloads uuids threshold σ.sync t bound sync) (hkey : σ.keyOf t = some key) :
    keyOf { σ with sync } t = some key := by
  cases hsync with
  | no => exact hkey
  | yes _ hstep => exact synced_keyOf (Sync.step_moved hinv hstep) (by simp) hkey

omit [DecidableLE S] in
theorem Bounded.grown {B : DocumentKey → S} {doc incoming : S} {sync : Sync Tb W V P G Uuid}
    (h : Bounded payloads B σ) (hinv : σ.sync.Inv payloads uuids) (hdoc : σ.docs t = some doc)
    (hkey : σ.keyOf t = some key)
    (hle : incoming ≤ B key) (hsync : Enqueued payloads uuids threshold σ.sync t (doc ⊔ incoming) sync) :
    Bounded payloads B { σ with sync, docs := Function.update σ.docs t (some (doc ⊔ incoming)) } := by
  have hdocle : doc ⊔ incoming ≤ B key := sup_le (h.doc_le hdoc hkey) hle
  have hput : Bounded payloads B { σ with sync } := h.enqueued hinv hsync hkey hdocle
  exact hput.setDoc (enqueued_keyOf hinv hsync hkey) hdocle

omit [DecidableEq W] [DecidableEq V] [DecidableLE S] [DecidableEq G] in
theorem taken_flight {B : DocumentKey → S} {channel : Channel Tb (PeerMessage P)} {message : PeerMessage P}
    (h : Bounded payloads B σ) (htake : (σ.peers key).take t message = some channel) :
    ∀ t' bytes, (t', .update bytes) ∈ channel.flight → content payloads bytes ≤ B key := by
  obtain ⟨-, -, hsub, -⟩ := Channel.take_some htake
  exact fun t' bytes hm => h.peers key t' bytes (hsub _ hm)

omit [DecidableEq Tb] [DecidableEq W] [DecidableEq V] [DecidableLE S] [DecidableEq G] [DecidableEq P] in
theorem answer_le {document : Uuid} {tab : Tab P Uuid} (hinv : σ.sync.Inv payloads uuids)
    (hparse : uuids.parse tab.documentId = some document) (r : ℕ) :
    (σ.sync.server.logs document).mergeUpTo payloads.toCodec r ≤ σ.ceiling payloads uuids tab.key := by
  refine le_trans ?_ le_sup_left
  unfold serverDoc
  rw [Tab.key, hparse]
  dsimp only
  rw [(hinv.server.log document).merged]
  exact mergeRows_mono (Finset.filter_subset _ _)

structure Answers (payloads : Payloads S P G) (uuids : UuidText Uuid)
    (σ : Device Tb W V S P G Uuid) : Prop where
  unopened : ∀ t, t ∉ σ.opened → σ.sync.tabs t = none ∧ σ.docs t = none ∧ σ.snapshots t = none ∧
    σ.pulled t = none
  snapshots : ∀ t s r tab, σ.snapshots t = some (s, r) → σ.sync.tabs t = some tab →
    ∃ document, uuids.parse tab.documentId = some document ∧ r ≤ (σ.sync.server.logs document).rev ∧
      s = (σ.sync.server.logs document).mergeUpTo payloads.toCodec r
  pulled : ∀ t r doc tab, σ.pulled t = some r → σ.docs t = some doc → σ.sync.tabs t = some tab →
    ∃ document, uuids.parse tab.documentId = some document ∧ r ≤ (σ.sync.server.logs document).rev ∧
      (σ.sync.server.logs document).mergeUpTo payloads.toCodec r ≤ doc

omit [DecidableEq Tb] [DecidableLE S] [DecidableEq G] [DecidableEq W] [DecidableEq V] in
theorem Answers.evolve (h : Answers payloads uuids σ) (hevolves : Evolves payloads uuids σ τ)
    (hsnapshots : ∀ t answer, τ.snapshots t = some answer → σ.snapshots t = some answer)
    (hpulled : τ.pulled = σ.pulled) : Answers payloads uuids τ := by
  obtain ⟨b, hmoved, hopen, hcrash⟩ := hevolves.moved
  have htab : ∀ t tab', σ.pulled t ≠ none ∨ σ.snapshots t ≠ none → τ.sync.tabs t = some tab' →
      ∃ tab, σ.sync.tabs t = some tab ∧ tab'.documentId = tab.documentId := by
    intro t tab' hold htab'
    obtain ⟨tab, htab, hsame, -⟩ | ⟨x, y, he, -⟩ := hmoved.tabs t tab' htab'
    · exact ⟨tab, htab, congrArg Prod.snd hsame⟩
    · obtain ⟨-, -, hnone, hnone'⟩ := h.unopened t (hopen t x y he).1
      exact absurd hold (by simp [hnone, hnone'])
  refine ⟨?_, ?_, ?_⟩
  · intro t ht
    obtain ⟨hnone, hclosed, hwaits, hpulls⟩ := h.unopened t fun hmem => ht (hevolves.opened hmem)
    refine ⟨?_, ?_, ?_, hpulled ▸ hpulls⟩
    · rw [Option.eq_none_iff_forall_ne_some]
      intro tab' htab'
      obtain ⟨tab, htab, -⟩ | ⟨x, y, he, -⟩ := hmoved.tabs t tab' htab'
      · rw [hnone] at htab
        cases htab
      · exact ht (hopen t x y he).2
    · rw [Option.eq_none_iff_forall_ne_some]
      intro doc' hdoc'
      obtain ⟨doc, hdoc, -⟩ | ⟨-, hmem⟩ := hevolves.docs t doc' hdoc'
      · rw [hclosed] at hdoc
        cases hdoc
      · exact ht hmem
    · rw [Option.eq_none_iff_forall_ne_some]
      intro answer hanswer
      have hold := hsnapshots t answer hanswer
      rw [hwaits] at hold
      cases hold
  · intro t s r tab' hanswer htab'
    have hold := hsnapshots t (s, r) hanswer
    obtain ⟨tab, htab, hsame⟩ := htab t tab' (Or.inr (by simp [hold])) htab'
    obtain ⟨document, hparse, hrev, rfl⟩ := h.snapshots t s r tab hold htab
    have hextends := hmoved.logs document
    exact ⟨document, hsame ▸ hparse, hrev.trans hextends.rev, (hextends.mergeUpTo hrev).symm⟩
  · intro t r doc' tab' hpull hdoc' htab'
    rw [hpulled] at hpull
    obtain ⟨tab, htab, hsame⟩ := htab t tab' (Or.inl (by simp [hpull])) htab'
    obtain ⟨doc, hdoc, hle⟩ | ⟨hnew, -⟩ := hevolves.docs t doc' hdoc'
    · obtain ⟨document, hparse, hrev, hpart⟩ := h.pulled t r doc tab hpull hdoc htab
      have hextends := hmoved.logs document
      exact ⟨document, hsame ▸ hparse, hrev.trans hextends.rev,
        (hextends.mergeUpTo hrev).trans_le (hpart.trans hle)⟩
    · rw [(h.unopened t hnew).2.2.2] at hpull
      cases hpull

omit [DecidableLE S] in
theorem answers_effect {a : DeviceAction Tb W V P Uuid} (hdigest : Function.Injective payloads.digest)
    (hinv : σ.sync.Inv payloads uuids) (h : Answers payloads uuids σ)
    (heffect : Effect payloads uuids threshold σ a τ) :
    Answers payloads uuids τ := by
  have hevolves := effect_evolves hdigest hinv heffect
  cases heffect with
  | @snapshotted t tab document answer htab hparse hload =>
    refine { h with unopened := ?_, snapshots := ?_ }
    · intro t' ht'
      obtain ⟨hnone, hclosed, hwaits, hpulls⟩ := h.unopened t' ht'
      have ht : t' ≠ t := by
        rintro rfl
        rw [hnone] at htab
        cases htab
      exact ⟨hnone, hclosed, (Function.update_of_ne ht _ _).trans hwaits, hpulls⟩
    · intro t' s r tab' hanswer htab'
      dsimp only at hanswer htab'
      by_cases ht : t' = t
      · subst ht
        rw [Function.update_self] at hanswer
        obtain rfl := Option.some.inj hanswer
        rw [htab] at htab'
        obtain rfl := Option.some.inj htab'
        obtain ⟨hrev, hs⟩ := Log.loadDocumentSnapshot_spec (hinv.server.log document) hload
        exact ⟨document, hparse, hrev, hs⟩
      · rw [Function.update_of_ne ht] at hanswer
        exact h.snapshots t' s r tab' hanswer htab'
  | @read t fired doc s revision sync hdoc hanswer hsync =>
    have hgrown : Answers payloads uuids { σ with sync, docs := Function.update σ.docs t (some (doc ⊔ s)) } :=
      h.evolve ⟨hevolves.inv, hevolves.moved, hevolves.docs, hevolves.opened, hevolves.authored⟩
        (fun _ _ h => h) rfl
    refine ⟨?_, ?_, ?_⟩
    · intro t' ht'
      obtain ⟨hnone, hclosed, hwaits, hpulls⟩ := hgrown.unopened t' ht'
      have ht : t' ≠ t := by
        rintro rfl
        dsimp only at hwaits
        rw [hanswer] at hwaits
        cases hwaits
      exact ⟨hnone, hclosed, (Function.update_of_ne ht _ _).trans hwaits,
        (Function.update_of_ne ht _ _).trans hpulls⟩
    · intro t' s' r tab' hanswer' htab'
      exact hgrown.snapshots t' s' r tab' (cleared_snapshots hanswer') htab'
    · intro t' r doc' tab' hpull hdoc' htab'
      dsimp only at hpull hdoc'
      by_cases ht : t' = t
      · subst ht
        rw [Function.update_self] at hpull hdoc'
        obtain rfl := Option.some.inj hpull
        obtain rfl := Option.some.inj hdoc'
        obtain ⟨document, hparse, hrev, hs⟩ := hgrown.snapshots t' s revision tab' hanswer htab'
        exact ⟨document, hparse, hrev, hs.ge.trans le_sup_right⟩
      · rw [Function.update_of_ne ht] at hpull
        exact hgrown.pulled t' r doc' tab' hpull hdoc' htab'
  | synced hopen hcrash hcapture hsnapshots hsync => exact h.evolve hevolves hsnapshots rfl
  | _ => exact h.evolve hevolves (fun _ _ h => h) rfl

def Restores (σ : Device Tb W V S P G Uuid) : Prop :=
  ∀ t, ∀ update ∈ σ.restoring t, t ∈ σ.opened ∧ update ∈ σ.sync.stored ∧
    ∀ tab, σ.sync.tabs t = some tab → tab.key = update.key

omit [DecidableEq Tb] [DecidableEq W] [DecidableEq V] [DecidableLE S] [DecidableEq P] [DecidableEq G] in
theorem Restores.evolve (h : Restores σ) (hevolves : Evolves payloads uuids σ τ)
    (hrestoring : ∀ t, τ.restoring t ⊆ σ.restoring t) : Restores τ := by
  obtain ⟨b, hmoved, hopen, -⟩ := hevolves.moved
  intro t update hmem
  obtain ⟨hopened, hstored, hkey⟩ := h t update (hrestoring t hmem)
  refine ⟨hevolves.opened hopened, hmoved.puts hstored, ?_⟩
  intro tab' htab'
  obtain ⟨tab, htab, hsame, -⟩ | ⟨x, y, he, -⟩ := hmoved.tabs t tab' htab'
  · exact hsame.trans (hkey tab htab)
  · exact absurd hopened (hopen t x y he).1

omit [DecidableLE S] in
theorem restores_effect {a : DeviceAction Tb W V P Uuid} (hdigest : Function.Injective payloads.digest)
    (hinv : σ.sync.Inv payloads uuids) (hanswers : Answers payloads uuids σ) (h : Restores σ)
    (heffect : Effect payloads uuids threshold σ a τ) : Restores τ := by
  have hevolves := effect_evolves hdigest hinv heffect
  cases heffect with
  | @listed t tab list htab hlist =>
    intro t' update hmem
    dsimp only at hmem
    by_cases ht : t' = t
    · subst ht
      rw [Function.update_self] at hmem
      have hread := hlist hmem
      refine ⟨?_, Sync.pendingOf_stored hinv _ _ hread, ?_⟩
      · by_contra hnew
        rw [(hanswers.unopened t' hnew).1] at htab
        cases htab
      · intro tab' htab'
        obtain rfl := Option.some.inj (htab.symm.trans htab')
        obtain ⟨haccount, hdocument⟩ := of_decide_eq_true (List.mem_filter.mp hread).2
        exact Prod.ext haccount.symm hdocument.symm
    · rw [Function.update_of_ne ht] at hmem
      exact h t' update hmem
  | @restored t _ _ _ update rest _ hdoc hkey hlisted hpeers =>
    refine h.evolve hevolves fun t' => ?_
    dsimp only
    by_cases ht : t' = t
    · subst ht
      rw [Function.update_self, hlisted]
      exact List.subset_cons_self _ _
    · rw [Function.update_of_ne ht]
      exact List.Subset.refl _
  | _ => exact h.evolve hevolves fun t => List.Subset.refl _

omit [DecidableLE S] in
theorem bounded_effect {a : DeviceAction Tb W V P Uuid} (hdigest : Function.Injective payloads.digest)
    (hinv : σ.sync.Inv payloads uuids) (hanswers : Answers payloads uuids σ) (hrestores : Restores σ)
    (hbounded : Bounded payloads (σ.ceiling payloads uuids) σ)
    (heffect : Effect payloads uuids threshold σ a τ) :
    Bounded payloads (τ.ceiling payloads uuids) τ := by
  have hevolves := effect_evolves hdigest hinv heffect
  have h := hbounded.mono (hevolves.ceiling_le hinv)
  cases heffect with
  | @opened t accountId documentId sync hnew hsync =>
    have hmoved := Sync.step_moved hinv hsync
    have hopened : Bounded payloads _ { σ with sync } := h.synced hmoved (by simp) (by simp)
    have hkey : keyOf { σ with sync } t = some (accountId, documentId) := by
      simp only [Sync.step] at hsync
      split at hsync
      · obtain rfl := Option.some.inj hsync
        simp [keyOf, Tab.key, Tab.opened]
      · cases hsync
    have hbot := hopened.setDoc hkey bot_le
    refine ⟨hbot.docs, hbot.cache, ?_, hbot.captured, hbot.stored⟩
    refine (hbot.setChannel ?_).peers
    intro t' bytes hm
    obtain hold | ⟨he, -, -⟩ := Channel.mem_post.mp hm
    · exact h.peers (accountId, documentId) t' bytes hold
    · cases he
  | @closed _ b t key sync hkey hb hsync =>
    refine Bounded.synced (σ := σ.closeDoc t key) h.closed (Sync.step_moved hinv hsync) ?_ ?_
    · rintro t' rfl
      obtain hb | hb := hb <;> cases hb
      exact Function.update_self ..
    · rintro t' bytes key' rfl
      obtain hb | hb := hb <;> cases hb
  | @edited t bytes doc key sync hdoc hkey hsync =>
    have hgrown := h.grown hinv hdoc hkey (authored_le (e := ⟨t, key, bytes⟩) List.mem_cons_self) hsync
    refine ⟨hgrown.docs, hgrown.cache, ?_, hgrown.captured, hgrown.stored⟩
    refine (hgrown.setChannel (posted_flight (h.peers key) ?_)).peers
    rintro _ ⟨⟩
    exact authored_le (e := ⟨t, key, bytes⟩) List.mem_cons_self
  | answered hdoc hkey htake =>
    exact h.setChannel (posted_flight (taken_flight h htake) fun bytes he => by
      obtain rfl := PeerMessage.update.inj he
      exact (content_encode _).trans_le (h.doc_le hdoc hkey))
  | delivered hdoc hkey htake hsync =>
    have hle := h.peers _ _ _ (Channel.take_some htake).1
    exact (h.grown hinv hdoc hkey hle hsync).setChannel (taken_flight h htake)
  | loaded hdoc hkey hcache hsync =>
    exact h.grown hinv hdoc hkey (hcache.trans (h.cache _)) hsync
  | @stored t bytes doc key hdoc hkey hpart =>
    refine ⟨h.docs, ?_, h.peers, h.captured, h.stored⟩
    intro key'
    dsimp only
    by_cases hk : key' = key
    · subst hk
      rw [Function.update_self]
      exact sup_le (h.cache _) (hpart.trans (h.doc_le hdoc hkey))
    · rw [Function.update_of_ne hk]
      exact h.cache key'
  | listed htab hlist => exact ⟨h.docs, h.cache, h.peers, h.captured, h.stored⟩
  | @restored t _ doc _ update rest peers hdoc hkey hlisted hpeers =>
    obtain ⟨-, hstored, hsame⟩ := hrestores t update (hlisted ▸ List.mem_cons_self)
    obtain ⟨tab, htab, rfl⟩ := keyOf_eq.mp hkey
    have hle := h.stored update hstored
    rw [← hsame tab htab] at hle
    have hdocle := sup_le (h.doc_le hdoc hkey) hle
    have hdone := (h.setDoc hkey hdocle).posted hpeers hdocle
    exact ⟨hdone.docs, hdone.cache, hdone.peers, hdone.captured, hdone.stored⟩
  | @read t fired doc s revision sync hdoc hanswer hsync =>
    obtain ⟨key, hkey, -⟩ := h.docs t doc hdoc
    obtain ⟨tab, htab, rfl⟩ := keyOf_eq.mp hkey
    obtain ⟨document, hparse, -, rfl⟩ := hanswers.snapshots t s revision tab hanswer htab
    have hle := (answer_le hinv hparse revision).trans (hevolves.ceiling_le hinv tab.key)
    have hmoved := Sync.step_moved hinv hsync
    have hput : Bounded payloads _ { σ with sync } := h.synced hmoved (by simp) (by simp)
    have hdone := hput.setDoc (synced_keyOf hmoved (by simp) hkey) (sup_le (h.doc_le hdoc hkey) hle)
    exact ⟨hdone.docs, hdone.cache, hdone.peers, hdone.captured, hdone.stored⟩
  | snapshotted htab hparse hload => exact ⟨h.docs, h.cache, h.peers, h.captured, h.stored⟩
  | synced hopen hcrash hcapture hsnapshots hsync =>
    have hdone :=
      h.synced (Sync.step_moved hinv hsync) (fun t he => absurd he (hcrash t)) fun t bytes key he hkey => by
      obtain ⟨doc, hdoc, hle⟩ := hcapture t bytes he
      exact hle.trans (h.doc_le hdoc hkey)
    exact ⟨hdone.docs, hdone.cache, hdone.peers, hdone.captured, hdone.stored⟩

structure Inv (payloads : Payloads S P G) (uuids : UuidText Uuid) (σ : Device Tb W V S P G Uuid) : Prop where
  sync : σ.sync.Inv payloads uuids
  answers : Answers payloads uuids σ
  restores : Restores σ
  bounded : Bounded payloads (σ.ceiling payloads uuids) σ

omit [DecidableLE S] [DecidableEq Tb] [DecidableEq W] [DecidableEq V] [DecidableEq P] [DecidableEq G] in
theorem inv_initial (seed : Uuid → Option ℕ) :
    (initial seed : Device Tb W V S P G Uuid).Inv payloads uuids where
  sync := Sync.inv_initial seed
  answers := ⟨fun _ _ => ⟨rfl, rfl, rfl, rfl⟩, by simp [initial], by simp [initial]⟩
  restores := by simp [Restores, initial]
  bounded := ⟨by simp [initial], fun _ => bot_le, by simp [initial], by simp [initial, Sync.initial],
    by simp [initial, Sync.initial]⟩

theorem inv_step {a : DeviceAction Tb W V P Uuid} (hdigest : Function.Injective payloads.digest)
    (h : σ.Inv payloads uuids) (hstep : σ.step payloads uuids threshold a = some τ) :
    τ.Inv payloads uuids := by
  have heffect := step_effect hstep
  exact ⟨(effect_evolves hdigest h.sync heffect).inv, answers_effect hdigest h.sync h.answers heffect,
    restores_effect hdigest h.sync h.answers h.restores heffect,
    bounded_effect hdigest h.sync h.answers h.restores h.bounded heffect⟩

theorem runs_inv {seed : Uuid → Option ℕ} (hdigest : Function.Injective payloads.digest)
    (hrun : Runs (step payloads uuids threshold) (fun _ _ => True) (initial seed) σ) : σ.Inv payloads uuids :=
  hrun.invariant (fun h _ hstep => inv_step hdigest h hstep) (inv_initial seed)

/-- No store of the device got the update. -/
def Unput (σ : Device Tb W V S P G Uuid) (e : Authored Tb P) : Prop :=
  ∀ update ∈ σ.sync.stored, update.key = e.key → update.bytes ≠ e.bytes

instance (σ : Device Tb W V S P G Uuid) (e : Authored Tb P) : Decidable (σ.Unput e) :=
  inferInstanceAs (Decidable (∀ update ∈ σ.sync.stored, update.key = e.key → update.bytes ≠ e.bytes))

variable (payloads) in
def pendingContent (σ : Device Tb W V S P G Uuid) (key : DocumentKey) : S :=
  (((σ.sync.pendingOf key.1 key.2).map fun update => content payloads update.bytes : List S) : Multiset S).sup

omit [DecidableEq Tb] [DecidableEq W] [DecidableEq V] [DecidableLE S] [DecidableEq P] [DecidableEq G] in
theorem pending_le {update : PendingUpdate P Uuid} (hget : σ.sync.pending.get update.id = some update) :
    content payloads update.bytes ≤ σ.pendingContent payloads update.key := by
  have hvalue : update ∈ σ.sync.pending.values := (OrderedMap.mem_values_iff _ _).mpr ⟨update.id, hget⟩
  have hin : update ∈ σ.sync.pendingOf update.key.1 update.key.2 :=
    List.mem_filter.mpr ⟨hvalue, decide_eq_true ⟨rfl, rfl⟩⟩
  exact Multiset.le_sup (Multiset.mem_coe.mpr (List.mem_map.mpr ⟨update, hin, rfl⟩))

omit [DecidableEq Tb] [DecidableEq W] [DecidableEq V] [DecidableLE S] [DecidableEq G] in
theorem authored_cases (h : σ.Inv payloads uuids) {e : Authored Tb P} (he : e ∈ σ.authored) :
    content payloads e.bytes ≤ σ.serverDoc payloads uuids e.key.2 ⊔ σ.pendingContent payloads e.key ⊔
      written payloads (σ.authored.filter fun e' => e'.key = e.key ∧ σ.Unput e') := by
  by_cases hunput : σ.Unput e
  · exact (le_written (List.mem_filter.mpr ⟨he, decide_eq_true ⟨rfl, hunput⟩⟩)).trans le_sup_right
  · simp only [Unput, not_forall, not_not] at hunput
    obtain ⟨update, hmem, hkey, hbytes⟩ := hunput
    rw [← hbytes, ← hkey]
    refine le_sup_of_le_left ?_
    obtain hpending | ⟨document, revision, hparse, hcom⟩ := h.sync.kept update hmem
    · exact (pending_le hpending).trans le_sup_right
    · exact (le_serverDoc h.sync hparse hcom).trans le_sup_left

end Device

open Device

section Results

variable {Tb W V S P G Uuid : Type} [DecidableEq Tb] [DecidableEq W] [DecidableEq V] [SemilatticeSup S]
  [OrderBot S] [DecidableLE S] [DecidableEq P] [DecidableEq G] [DecidableEq Uuid]
  {payloads : Payloads S P G} {uuids : UuidText Uuid} {threshold : ℕ} {seed : Uuid → Option ℕ}
  {σ : Device Tb W V S P G Uuid}

/-- An open document holds nothing but what the server merged, what is pending, and what a tab of the device
wrote and lost before it was put; it holds all of the revision that the tab has last pulled. So once
nothing is pending and nothing was lost, a tab with the current revision shows the server's document. -/
theorem documents_converge (hdigest : Function.Injective payloads.digest)
    (hrun : Runs (Device.step payloads uuids threshold) (fun _ _ => True) (initial seed) σ) {t : Tb} {doc : S}
    {tab : Tab P Uuid} (hdoc : σ.docs t = some doc) (htab : σ.sync.tabs t = some tab) :
    doc ≤ σ.serverDoc payloads uuids tab.documentId ⊔ σ.pendingContent payloads tab.key ⊔
        written payloads (σ.authored.filter fun e => e.key = tab.key ∧ σ.Unput e) ∧
    (∀ document revision, uuids.parse tab.documentId = some document → σ.pulled t = some revision →
      (σ.sync.server.logs document).mergeUpTo payloads.toCodec revision ≤ doc) ∧
    (σ.sync.pendingOf tab.accountId tab.documentId = [] → (∀ e ∈ σ.authored, e.key = tab.key → ¬ σ.Unput e) →
      ∀ document, uuids.parse tab.documentId = some document →
      σ.pulled t = some (σ.sync.server.logs document).rev →
        doc = mergeRows payloads.toCodec (σ.sync.server.logs document).rows) := by
  have h := runs_inv hdigest hrun
  have hupper : doc ≤ σ.serverDoc payloads uuids tab.documentId ⊔ σ.pendingContent payloads tab.key ⊔
      written payloads (σ.authored.filter fun e => e.key = tab.key ∧ σ.Unput e) := by
    refine (h.bounded.doc_le hdoc (keyOf_eq.mpr ⟨tab, htab, rfl⟩)).trans (sup_le ?_ (written_le ?_))
    · exact le_sup_of_le_left le_sup_left
    · intro e he
      obtain ⟨he, hkey⟩ := List.mem_filter.mp he
      have hkey : e.key = tab.key := of_decide_eq_true hkey
      have hcases := authored_cases h he
      rwa [hkey] at hcases
  have hlower : ∀ document revision, uuids.parse tab.documentId = some document → σ.pulled t = some revision →
      (σ.sync.server.logs document).mergeUpTo payloads.toCodec revision ≤ doc := by
    intro document revision hparse hpull
    obtain ⟨document', hparse', -, hle⟩ := h.answers.pulled t revision doc tab hpull hdoc htab
    obtain rfl : document = document' := Option.some.inj (hparse.symm.trans hparse')
    exact hle
  refine ⟨hupper, hlower, ?_⟩
  intro hempty hput document hparse hpull
  have hnone : (σ.authored.filter fun e => e.key = tab.key ∧ σ.Unput e) = [] := by
    rw [List.filter_eq_nil_iff]
    intro e he hlost
    obtain ⟨hkey, hunput⟩ := of_decide_eq_true hlost
    exact hput e he hkey hunput
  apply le_antisymm
  · refine hupper.trans (sup_le (sup_le ?_ ?_) ?_)
    · rw [serverDoc, hparse]
    · rw [pendingContent, Tab.key, hempty]
      exact bot_le
    · rw [hnone]
      exact bot_le
  · rw [← Log.mergeUpTo_rev (h.sync.server.log document)]
    exact hlower document _ hparse hpull

end Results

section Example

abbrev SetDevice := Device ℕ ℕ ℕ (Finset ℕ) (Option (Finset ℕ)) (Option (Finset ℕ)) (Fin 16)

def updateRequest (id : Fin 16) (update : Option (Finset ℕ)) : PersistRequest (Option (Finset ℕ)) :=
  ⟨longDigits.text 1, longDigits.text id, 2, update⟩

def persisted (w id : ℕ) (q : PersistRequest (Option (Finset ℕ))) : List SetAction :=
  [.server (.receive w q), .server (.lockBatch w), .server (.selectReceipt w), .server (.insertUpdate w id),
    .server (.advanceRev w), .server (.insertReceipt w), .server (.commit w)]

def putBoth : List SetAction :=
  [.tab 0 (.put 5 0), .tab 0 (.documentUpdated true), .tab 1 (.put 6 1), .tab 1 (.documentUpdated true)]

/-- Tab 1 sends what both tabs put, and before it asks for the document another client sends an update. -/
def bothSent : List SetAction :=
  startFlush 1 ++ persisted 0 1 (updateRequest 5 (some {1})) ++
    [.tab 1 (.receipt 1), .tab 1 .deleted, .tab 1 .next] ++
  persisted 1 2 (updateRequest 6 (some {2})) ++ persisted 2 3 (updateRequest 9 (some {7})) ++
  [.tab 1 (.receipt 2), .tab 1 .deleted, .tab 1 .next]

/-- Two tabs write before they hear of each other, and one sends and reads for both. -/
def editsPulled : List (DeviceAction ℕ ℕ ℕ (Option (Finset ℕ)) (Fin 16)) :=
  [.openTab 0 account (longDigits.text 1), .openTab 1 account (longDigits.text 1), .edit 0 (some {1}),
    .edit 1 (some {2})] ++
  putBoth.map .sync ++ bothSent.map .sync ++ [.snapshot 1, .read 1 none]

end Example

theorem documents_converge_pulled :
    ∃ σ : SetDevice, execute (Device.step setPayloads longDigits 100)
      (Device.initial fun _ => none) editsPulled = some σ ∧
      σ.docs 0 = some {1} ∧ σ.docs 1 = some {1, 2, 7} ∧
      mergeRows setCodec (σ.sync.server.logs 1).rows = {1, 2, 7} := by
  have hends :
      ((execute (Device.step setPayloads longDigits 100)
      (Device.initial fun _ => none : SetDevice) editsPulled).any fun σ =>
      decide (σ.docs 0 = some {1} ∧ σ.docs 1 = some {1, 2, 7} ∧
        σ.keyOf 1 = some (account, longDigits.text 1) ∧
        σ.sync.pendingOf account (longDigits.text 1) = [] ∧ (∀ e ∈ σ.authored, ¬ σ.Unput e) ∧
        σ.pulled 1 = some (σ.sync.server.logs 1).rev)) = true := by decide +kernel
  obtain ⟨σ, hσ, hends⟩ := Option.any_eq_true _ _ |>.mp hends
  obtain ⟨hdoc', hdoc, hkey, hempty, hput, hpull⟩ := of_decide_eq_true hends
  obtain ⟨tab, htab, hsame⟩ := keyOf_eq.mp hkey
  obtain ⟨haccount, hdocument⟩ := Prod.mk.inj hsame
  refine ⟨σ, hσ, hdoc', hdoc, ?_⟩
  have hconverge := documents_converge (fun _ _ h => h) (execute_runs hσ) hdoc htab
  rw [haccount, hdocument] at hconverge
  exact (hconverge.2.2 hempty (fun e he _ => hput e he) 1 (longDigits.parse_text 1) hpull).symm

end OpenOutliner
