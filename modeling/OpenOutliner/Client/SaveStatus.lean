import OpenOutliner.Client.ExactlyOnce

namespace OpenOutliner

open Foundations

namespace Sync

variable {Tb W V S P G Uuid : Type} [DecidableEq Tb] [DecidableEq W] [DecidableEq V] [SemilatticeSup S]
  [OrderBot S]
  [DecidableEq P] [DecidableEq G] [DecidableEq Uuid] {payloads : Payloads S P G} {uuids : UuidText Uuid}
  {threshold : ℕ} {σ τ : Sync Tb W V P G Uuid} {t : Tb} {tab tab' : Tab P Uuid} {a : TabAction P Uuid}

def PutOf (σ : Sync Tb W V P G Uuid) (tab : Tab P Uuid) (i : ℕ) (id : Uuid)
    (update : PendingUpdate P Uuid) : Prop :=
  update ∈ σ.stored ∧ update.id = id ∧ tab.captured[i]? = some update.bytes ∧
    update.accountId = tab.accountId ∧ update.documentId = tab.documentId

/-- The put of captured update `i` has been reported, and the update is in the store or in the log. -/
def Durable (uuids : UuidText Uuid) (σ : Sync Tb W V P G Uuid) (tab : Tab P Uuid) (i : ℕ) : Prop :=
  ∃ id update, tab.results[i]? = some (some id) ∧ PutOf σ tab i id update ∧
    (σ.pending.get id = some update ∨ Committed uuids σ.server update)

/-- The put of captured update `i` has been reported, and the update is in the log. -/
def OnServer (uuids : UuidText Uuid) (σ : Sync Tb W V P G Uuid) (tab : Tab P Uuid) (i : ℕ) : Prop :=
  ∃ id update, tab.results[i]? = some (some id) ∧ PutOf σ tab i id update ∧ Committed uuids σ.server update

structure TabInv (uuids : UuidText Uuid) (σ : Sync Tb W V P G Uuid) (tab : Tab P Uuid) : Prop where
  settled : tab.results.length ≤ tab.captured.length
  put : ∀ i id, tab.results[i]? = some (some id) → ∃ update, PutOf σ tab i id update
  touching : ∀ id, tab.touching = some id →
    tab.results.length < tab.captured.length ∧ ∃ update, PutOf σ tab tab.results.length id update
  counted : ∀ remaining seen, tab.flush = .counted remaining seen → seen <+: tab.results ∧
    (remaining = 0 → ∀ id, some id ∈ seen → ∃ update ∈ σ.stored, update.id = id ∧
      Committed uuids σ.server update)

section

omit [DecidableEq Tb] [DecidableEq W] [DecidableEq V] [DecidableEq P] [DecidableEq G]

theorem PutOf.frame {i : ℕ} {id : Uuid} {update : PendingUpdate P Uuid} (h : PutOf σ tab i id update)
    (hstored : σ.stored ⊆ τ.stored) (hcaptured : tab.captured <+: tab'.captured)
    (haccount : tab'.accountId = tab.accountId) (hdocument : tab'.documentId = tab.documentId) :
    PutOf τ tab' i id update := by
  obtain ⟨hmem, hid, hbytes, ha, hd⟩ := h
  refine ⟨hstored hmem, hid, ?_, ha.trans haccount.symm, hd.trans hdocument.symm⟩
  obtain ⟨more, he⟩ := hcaptured
  rw [← he]
  obtain ⟨hlt, -⟩ := List.getElem?_eq_some_iff.mp hbytes
  rw [List.getElem?_append_left hlt, hbytes]

theorem TabInv.frame (h : TabInv uuids σ tab) (hstored : σ.stored ⊆ τ.stored)
    (hk : UpdateServer.Keeps σ.server τ.server) : TabInv uuids τ tab := by
  have hput : ∀ i id update, PutOf σ tab i id update → PutOf τ tab i id update :=
    fun i id update hp => hp.frame hstored (List.prefix_refl _) rfl rfl
  refine ⟨h.settled, ?_, ?_, ?_⟩
  · intro i id hr
    obtain ⟨update, hp⟩ := h.put i id hr
    exact ⟨update, hput i id update hp⟩
  · intro id ht
    obtain ⟨hlt, update, hp⟩ := h.touching id ht
    exact ⟨hlt, update, hput _ id update hp⟩
  · intro remaining seen hf
    obtain ⟨hseen, hzero⟩ := h.counted remaining seen hf
    refine ⟨hseen, ?_⟩
    intro hr id hid
    obtain ⟨update, hmem, he, hcom⟩ := hzero hr id hid
    exact ⟨update, hstored hmem, he, hcom.mono hk⟩

theorem TabInv.moves (h : TabInv uuids σ tab) (haccount : tab'.accountId = tab.accountId)
    (hdocument : tab'.documentId = tab.documentId) (hcaptured : tab.captured <+: tab'.captured)
    (hresults : tab'.results = tab.results) (htouching : tab'.touching = tab.touching)
    (hcounted : ∀ remaining seen, tab'.flush = .counted remaining seen → seen <+: tab.results ∧
      (remaining = 0 → ∀ id, some id ∈ seen → ∃ update ∈ σ.stored, update.id = id ∧
        Committed uuids σ.server update)) : TabInv uuids σ tab' := by
  have hput : ∀ i id update, PutOf σ tab i id update → PutOf σ tab' i id update :=
    fun i id update hp => hp.frame (List.Subset.refl _) hcaptured haccount hdocument
  refine ⟨?_, ?_, ?_, ?_⟩
  · rw [hresults]
    exact h.settled.trans hcaptured.length_le
  · intro i id hr
    rw [hresults] at hr
    obtain ⟨update, hp⟩ := h.put i id hr
    exact ⟨update, hput i id update hp⟩
  · intro id ht
    rw [htouching] at ht
    rw [hresults]
    obtain ⟨hlt, update, hp⟩ := h.touching id ht
    exact ⟨hlt.trans_le hcaptured.length_le, update, hput _ id update hp⟩
  · rw [hresults]
    exact hcounted

theorem TabInv.settle (h : TabInv uuids σ tab) {result : Option Uuid} {ok : Bool}
    (hlt : tab.results.length < tab.captured.length)
    (hput : ∀ id, result = some id → ∃ update, PutOf σ tab tab.results.length id update) :
    TabInv uuids σ (tab.settle result ok) := by
  have hresults : (tab.settle result ok).results = tab.results ++ [result] := by cases ok <;> rfl
  have hcaptured : (tab.settle result ok).captured = tab.captured := by cases ok <;> rfl
  have hsame : ∀ i id update, PutOf σ tab i id update → PutOf σ (tab.settle result ok) i id update := by
    intro i id update hp
    refine hp.frame (List.Subset.refl _) ?_ ?_ ?_
    · rw [hcaptured]
    · cases ok <;> rfl
    · cases ok <;> rfl
  refine ⟨?_, ?_, ?_, ?_⟩
  · rw [hresults, hcaptured, List.length_append, List.length_singleton]
    exact hlt
  · intro i id hr
    rw [hresults] at hr
    by_cases hi : i < tab.results.length
    · rw [List.getElem?_append_left hi] at hr
      obtain ⟨update, hp⟩ := h.put i id hr
      exact ⟨update, hsame i id update hp⟩
    · obtain ⟨hle, -⟩ := List.getElem?_eq_some_iff.mp hr
      rw [List.length_append, List.length_singleton] at hle
      obtain rfl : i = tab.results.length := by omega
      rw [List.getElem?_concat_length] at hr
      obtain ⟨update, hp⟩ := hput id (Option.some.inj hr)
      exact ⟨update, hsame _ id update hp⟩
  · intro id ht
    have hnone : (tab.settle result ok).touching = none := by cases ok <;> rfl
    rw [hnone] at ht
    cases ht
  · intro remaining seen hf
    rw [Tab.settle_flush] at hf
    obtain ⟨hseen, hzero⟩ := h.counted remaining seen hf
    rw [hresults]
    exact ⟨hseen.trans (List.prefix_append _ _), hzero⟩

theorem TabInv.touch (h : TabInv uuids σ tab) {id : Uuid}
    (hput : ∃ update, PutOf σ tab tab.results.length id update) :
    TabInv uuids σ { tab with touching := some id } := by
  refine ⟨h.settled, h.put, ?_, h.counted⟩
  rintro id' ⟨⟩
  obtain ⟨update, hput⟩ := hput
  exact ⟨(List.getElem?_eq_some_iff.mp hput.2.2.1).1, update, hput⟩

theorem committed_of_count (hi : σ.Inv payloads uuids) (h : TabInv uuids σ tab)
    (hcount : (σ.pendingOf tab.accountId tab.documentId).length = 0) {id : Uuid}
    (hid : some id ∈ tab.results) :
    ∃ update ∈ σ.stored, update.id = id ∧ Committed uuids σ.server update := by
  obtain ⟨i, hi', he⟩ := List.mem_iff_getElem.mp hid
  obtain ⟨update, hmem, hupdate, -, ha, hd⟩ := h.put i id (by rw [List.getElem?_eq_getElem hi', he])
  refine ⟨update, hmem, hupdate, ?_⟩
  cases hi.kept update hmem with
  | inr hcom => exact hcom
  | inl hget =>
    have hvalue : update ∈ σ.pending.values := (OrderedMap.mem_values_iff _ _).mpr ⟨update.id, hget⟩
    have hin : update ∈ σ.pendingOf tab.accountId tab.documentId :=
      List.mem_filter.mpr ⟨hvalue, decide_eq_true ⟨ha, hd⟩⟩
    rw [List.length_eq_zero_iff] at hcount
    rw [hcount] at hin
    cases hin

end

omit [DecidableEq Tb] [DecidableEq W] [DecidableEq V] [DecidableEq G] in
theorem tabInv_tabStep (hi : σ.Inv payloads uuids) (h : TabInv uuids σ tab)
    (hstep : σ.tabStep uuids tab a = some tab') : TabInv uuids σ tab' := by
  cases a with
  | stop =>
    cases hstep
    exact h.moves rfl rfl (List.prefix_refl _) rfl rfl h.counted
  | enqueue bytes =>
    cases hstep
    exact h.moves rfl rfl (List.prefix_append _ _) rfl rfl h.counted
  | putFails =>
    simp only [tabStep] at hstep
    split at hstep
    · rename_i hnow
      cases hstep
      exact h.settle hnow.2 (by simp)
    · cases hstep
  | documentUpdated ok =>
    obtain ⟨id, hid, rfl⟩ := Option.map_eq_some_iff.mp hstep
    obtain ⟨hlt, hput⟩ := h.touching id hid
    refine h.settle hlt ?_
    rintro id' ⟨⟩
    exact hput
  | count =>
    simp only [tabStep] at hstep
    split at hstep
    · cases hstep
      refine h.moves rfl rfl (List.prefix_refl _) rfl rfl ?_
      rintro remaining seen ⟨⟩
      exact ⟨List.prefix_refl _, fun hzero id hid => committed_of_count hi h hzero hid⟩
    · cases hstep
  | _ =>
    simp only [tabStep] at hstep
    repeat' split at hstep
    all_goals cases hstep
    all_goals
      refine h.moves rfl rfl (List.prefix_refl _) rfl rfl ?_
      intro remaining seen hf
      cases hf

structure StatusInv (payloads : Payloads S P G) (uuids : UuidText Uuid) (σ : Sync Tb W V P G Uuid) : Prop
    extends Inv payloads uuids σ where
  tabs : ∀ t tab, σ.tabs t = some tab → TabInv uuids σ tab

omit [DecidableEq W] [DecidableEq V] [DecidableEq P] [DecidableEq G] in
theorem tabs_step {new : Option (Tab P Uuid)} (h : ∀ t tab, σ.tabs t = some tab → TabInv uuids σ tab)
    (hstored : σ.stored ⊆ τ.stored) (hk : UpdateServer.Keeps σ.server τ.server)
    (htabs : τ.tabs = Function.update σ.tabs t new) (hnew : ∀ tab, new = some tab → TabInv uuids τ tab) :
    ∀ t' tab, τ.tabs t' = some tab → TabInv uuids τ tab := by
  intro t' tab htab
  rw [htabs] at htab
  by_cases ht : t' = t
  · subst ht
    rw [Function.update_self] at htab
    exact hnew tab htab
  · rw [Function.update_of_ne ht] at htab
    exact (h t' tab htab).frame hstored hk

omit [DecidableEq Tb] [DecidableEq W] [DecidableEq V] [DecidableEq P] [DecidableEq G] in
theorem opened_inv (accountId documentId : JsString) : TabInv uuids σ (Tab.opened accountId documentId) where
  settled := le_rfl
  put i id hr := by cases hr
  touching id ht := by cases ht
  counted remaining seen hf := by cases hf

omit [DecidableEq W] [DecidableEq V] [DecidableEq P] [DecidableEq G] [DecidableEq Uuid] in
theorem keeps_refl (server : UpdateServer W V P G Uuid) : UpdateServer.Keeps server server :=
  ⟨fun _ => Finset.Subset.rfl, fun _ _ hr => hr, List.Subset.refl _⟩

theorem statusInv_tab (h : σ.StatusInv payloads uuids)
    (hstep : σ.step payloads uuids threshold (.tab t a) = some τ) :
    ∀ t tab, τ.tabs t = some tab → TabInv uuids τ tab := by
  obtain ⟨tab, htab, heffect⟩ := tab_effect hstep
  have hold := h.tabs t tab htab
  cases heffect with
  | put hbytes hidle hnew =>
    refine tabs_step h.tabs (List.subset_cons_self _ _) (keeps_refl _) rfl ?_
    rintro tab' ⟨⟩
    refine TabInv.touch ?_ ?_
    · exact hold.frame (List.subset_cons_self _ _) (keeps_refl _)
    · exact ⟨_, List.mem_cons_self, rfl, hbytes, rfl, rfl⟩
  | @deleted update rest hflush =>
    refine tabs_step h.tabs (List.Subset.refl _) (keeps_refl _) rfl ?_
    rintro tab' ⟨⟩
    have hmoved : TabInv uuids σ { tab with flush := .sending rest } := by
      refine hold.moves rfl rfl (List.prefix_refl _) rfl rfl ?_
      intro remaining seen hf
      cases hf
    exact hmoved.frame (List.Subset.refl _) (keeps_refl _)
  | other htab' =>
    refine tabs_step h.tabs (List.Subset.refl _) (keeps_refl _) rfl ?_
    rintro tab' ⟨⟩
    exact (tabInv_tabStep h.toInv hold htab').frame (List.Subset.refl _) (keeps_refl _)

theorem statusInv_step {a : SyncAction Tb W V P Uuid} (hdigest : Function.Injective payloads.digest)
    (h : σ.StatusInv payloads uuids) (hstep : σ.step payloads uuids threshold a = some τ) :
    τ.StatusInv payloads uuids := by
  refine ⟨inv_step hdigest h.toInv hstep, ?_⟩
  cases a with
  | openTab t accountId documentId =>
    simp only [step] at hstep
    split at hstep
    · cases hstep
      refine tabs_step h.tabs (List.Subset.refl _) (keeps_refl _) rfl ?_
      rintro tab ⟨⟩
      exact opened_inv accountId documentId
    · cases hstep
  | crash t =>
    cases hstep
    refine tabs_step h.tabs (List.Subset.refl _) (keeps_refl _) rfl ?_
    rintro tab ⟨⟩
  | tab t a => exact statusInv_tab h hstep
  | server a =>
    obtain ⟨server, hserver, rfl⟩ := Option.map_eq_some_iff.mp hstep
    have hk := UpdateServer.step_keeps h.server hserver
    intro t tab htab
    exact (h.tabs t tab htab).frame (List.Subset.refl _) hk

theorem runs_statusInv {seed : Uuid → Option ℕ} (hdigest : Function.Injective payloads.digest)
    (h : Runs (step payloads uuids threshold) (fun _ _ => True) (initial seed) σ) :
    σ.StatusInv payloads uuids := by
  refine h.invariant (fun hi _ hstep => statusInv_step hdigest hi hstep) ⟨inv_initial seed, ?_⟩
  rintro t tab ⟨⟩

omit [DecidableEq Tb] [DecidableEq W] [DecidableEq V] [DecidableEq P] [DecidableEq G] in
theorem durable_of_put (hi : σ.Inv payloads uuids) {i : ℕ} {id : Uuid} {update : PendingUpdate P Uuid}
    (hr : tab.results[i]? = some (some id)) (hput : PutOf σ tab i id update) : Durable uuids σ tab i := by
  refine ⟨id, update, hr, hput, ?_⟩
  have hkept := hi.kept update hput.1
  rwa [hput.2.1] at hkept

omit [DecidableEq Tb] [DecidableEq W] [DecidableEq V] [DecidableEq P] [DecidableEq G] in
theorem durable_iff (hi : σ.Inv payloads uuids) (h : TabInv uuids σ tab) {n : ℕ}
    (hn : n ≤ tab.captured.length) :
    (∀ i < n, Durable uuids σ tab i) ↔ n ≤ tab.results.length ∧ none ∉ tab.results.take n := by
  constructor
  · intro hall
    have hle : n ≤ tab.results.length := by
      cases n with
      | zero => exact Nat.zero_le _
      | succ n =>
        obtain ⟨id, update, hr, -⟩ := hall n (Nat.lt_succ_self n)
        exact (List.getElem?_eq_some_iff.mp hr).1
    refine ⟨hle, ?_⟩
    intro hnone
    obtain ⟨i, hi', he⟩ := List.mem_iff_getElem.mp hnone
    rw [List.length_take] at hi'
    obtain ⟨id, update, hr, -⟩ := hall i (by omega)
    rw [List.getElem_take] at he
    rw [List.getElem?_eq_getElem (by omega), he] at hr
    cases hr
  · rintro ⟨hle, hnone⟩ i hlt
    have hi' : i < tab.results.length := by omega
    cases hr : tab.results[i] with
    | none =>
      refine absurd ?_ hnone
      rw [List.mem_take_iff_getElem]
      exact ⟨i, by omega, hr⟩
    | some id =>
      have hr' : tab.results[i]? = some (some id) := by rw [List.getElem?_eq_getElem (by omega), hr]
      obtain ⟨update, hput⟩ := h.put i id hr'
      exact durable_of_put hi hr' hput

theorem tab_grows (hstep : σ.step payloads uuids threshold (.tab t a) = some τ) :
    σ.stored ⊆ τ.stored ∧ τ.server = σ.server := by
  obtain ⟨tab, -, heffect⟩ := tab_effect hstep
  cases heffect with
  | put hbytes hidle hnew => exact ⟨List.subset_cons_self _ _, rfl⟩
  | deleted hflush => exact ⟨List.Subset.refl _, rfl⟩
  | other hmoved => exact ⟨List.Subset.refl _, rfl⟩

inductive Reports (tab tab' : Tab P Uuid) (state : SaveState) (n : ℕ) : TabAction P Uuid → Prop
  | enqueued {id : Uuid} (htouching : tab.touching = some id)
      (hresults : tab'.results = tab.results ++ [some id])
      (hcaptured : tab'.captured = tab.captured) (hn : n = tab.results.length + 1)
      (hstate : state ≠ .savedOnServer) :
      Reports tab tab' state n (.documentUpdated true)
  | flushed {remaining : ℕ} {seen : List (Option Uuid)} (hflush : tab.flush = .counted remaining seen)
      (hmoved : tab' = { tab with flush := .idle }.emit state n) (hn : n = tab.captured.length)
      (hstate : state = .savedOnServer ↔ remaining = 0) : Reports tab tab' state n .report

theorem not_emitted {α : Type} {x : α} {xs : List α} (h : xs = x :: xs) (p : Prop) : p :=
  absurd (congrArg List.length h) (by simp)

omit [DecidableEq Tb] [DecidableEq W] [DecidableEq V] [DecidableEq G] in
theorem reports_of_emitted {state : SaveState} {n : ℕ} (hstep : σ.tabStep uuids tab a = some tab')
    (hemit : tab'.emitted = (state, n) :: tab.emitted)
    (hstate : state = .savedLocally ∨ state = .pendingSync ∨ state = .savedOnServer) :
    Reports tab tab' state n a := by
  cases a with
  | documentUpdated ok =>
    obtain ⟨id, hid, rfl⟩ := Option.map_eq_some_iff.mp hstep
    cases ok with
    | false =>
      obtain ⟨he, -⟩ := List.cons.inj hemit
      cases he
      simp at hstate
    | true =>
      obtain ⟨he, -⟩ := List.cons.inj hemit
      cases he
      refine .enqueued hid rfl rfl (by simp) ?_
      split <;> simp
  | report =>
    simp only [tabStep] at hstep
    split at hstep
    · rename_i remaining seen hflush
      cases hstep
      obtain ⟨he, -⟩ := List.cons.inj hemit
      cases he
      refine .flushed hflush rfl rfl ?_
      split <;> simp [*]
    · cases hstep
  | throws unauthorized =>
    simp only [tabStep] at hstep
    repeat' split at hstep
    all_goals cases hstep
    all_goals
      obtain ⟨he, -⟩ := List.cons.inj hemit
      cases he
      cases unauthorized <;> simp at hstate
  | _ =>
    -- another status, or none
    simp only [tabStep] at hstep
    repeat' split at hstep
    all_goals cases hstep
    all_goals first
      | exact not_emitted hemit _
      | (obtain ⟨he, -⟩ := List.cons.inj hemit
         cases he
         simp at hstate)

/-- No put has failed; and none is waiting when the flush reports. -/
def PutsSucceeded (tab : Tab P Uuid) (a : TabAction P Uuid) : Prop :=
  none ∉ tab.results ∧ (a = .report → tab.results.length = tab.captured.length)

/-- When the store was counted, the puts of all captured updates were over, and none had failed. -/
def CountSawAll (tab : Tab P Uuid) : Prop :=
  ∀ remaining seen, tab.flush = .counted remaining seen → seen.length = tab.captured.length ∧ none ∉ seen

end Sync

/-- A status is truthful under the stated conditions, in every reachable state. -/
theorem synchronizeDocument_truthful {Tb W V S P G Uuid : Type} [DecidableEq Tb] [DecidableEq W]
    [DecidableEq V] [SemilatticeSup S] [OrderBot S] [DecidableEq P] [DecidableEq G] [DecidableEq Uuid]
    {payloads : Payloads S P G} {uuids : UuidText Uuid} {threshold : ℕ} {seed : Uuid → Option ℕ}
    {σ τ : Sync Tb W V P G Uuid} {t : Tb} {a : TabAction P Uuid} {tab tab' : Tab P Uuid}
    {state : SaveState} {n : ℕ} (hdigest : Function.Injective payloads.digest)
    (h : Runs (Sync.step payloads uuids threshold) (fun _ _ => True) (Sync.initial seed) σ)
    (hstep : σ.step payloads uuids threshold (.tab t a) = some τ) (htab : σ.tabs t = some tab)
    (htab' : τ.tabs t = some tab') (hemit : tab'.emitted = (state, n) :: tab.emitted) :
    (state = .savedLocally ∨ state = .pendingSync →
        ((∀ i < n, Sync.Durable uuids τ tab' i) ↔ Sync.PutsSucceeded tab a)) ∧
      (state = .savedOnServer → n = tab'.captured.length ∧
        (Sync.CountSawAll tab → ∀ i < n, Sync.OnServer uuids τ tab' i)) := by
  have hinv := Sync.runs_statusInv hdigest h
  have hinv' := Sync.statusInv_step hdigest hinv hstep
  have hnew := hinv'.tabs t tab' htab'
  have hreports : state = .savedLocally ∨ state = .pendingSync ∨ state = .savedOnServer →
      Sync.Reports tab tab' state n a := by
    intro hstate
    obtain ⟨tab₀, htab₀, heffect⟩ := Sync.tab_effect hstep
    obtain rfl := Option.some.inj (htab₀.symm.trans htab)
    cases heffect with
    | put hbytes hidle hnew =>
      simp only [Function.update_self, Option.some.injEq] at htab'
      subst htab'
      exact Sync.not_emitted hemit _
    | deleted hflush =>
      simp only [Function.update_self, Option.some.injEq] at htab'
      subst htab'
      exact Sync.not_emitted hemit _
    | other hmoved =>
      simp only [Function.update_self, Option.some.injEq] at htab'
      subst htab'
      exact Sync.reports_of_emitted hmoved hemit hstate
  constructor
  · intro hstate
    cases hreports (by tauto) with
    | enqueued htouching hresults hcaptured hn hne =>
      have hlt := ((hinv.tabs t tab htab).touching _ htouching).1
      have hlength : tab'.results.length = n := by
        rw [hresults, List.length_append, List.length_singleton, hn]
      rw [Sync.durable_iff hinv'.toInv hnew (by rw [hcaptured]; omega), ← hlength, List.take_length, hresults]
      simp [Sync.PutsSucceeded]
    | flushed hflush hmoved hn hne =>
      have hresults : tab'.results = tab.results := by rw [hmoved]; rfl
      have hcaptured : tab'.captured = tab.captured := by rw [hmoved]; rfl
      have hle := (hinv.tabs t tab htab).settled
      rw [Sync.durable_iff hinv'.toInv hnew (by rw [hcaptured, hn]), hresults,
        List.take_of_length_le (by omega), Sync.PutsSucceeded, and_comm]
      constructor
      · exact fun hall => ⟨hall.1, fun _ => by omega⟩
      · exact fun hall => ⟨hall.1, by rw [hn, hall.2 rfl]⟩
  · intro hstate
    cases hreports (by tauto) with
    | enqueued htouching hresults hcaptured hn hne => exact absurd hstate hne
    | @flushed remaining seen hflush hmoved hn hzero =>
      have hresults : tab'.results = tab.results := by rw [hmoved]; rfl
      have hcaptured : tab'.captured = tab.captured := by rw [hmoved]; rfl
      refine ⟨by rw [hn, hcaptured], ?_⟩
      intro hsaw i hi
      obtain ⟨hall, hnone⟩ := hsaw remaining seen hflush
      obtain ⟨hseenOf, hcom⟩ := (hinv.tabs t tab htab).counted remaining seen hflush
      have hseen : seen = tab'.results := by
        rw [hresults]
        exact hseenOf.eq_of_length_le (by rw [hall]; exact (hinv.tabs t tab htab).settled)
      have hlt : i < seen.length := by omega
      cases hr : seen[i] with
      | none => exact absurd (hr ▸ List.getElem_mem hlt) hnone
      | some id =>
        have hr' : tab'.results[i]? = some (some id) := by rw [← hseen, List.getElem?_eq_getElem hlt, hr]
        obtain ⟨update, hput⟩ := hnew.put i id hr'
        obtain ⟨update', hmem', hid', hcom'⟩ := hcom (hzero.mp hstate) id (hr ▸ List.getElem_mem hlt)
        obtain ⟨hstored, hserver⟩ := Sync.tab_grows hstep
        obtain rfl := List.inj_on_of_nodup_map hinv'.minted hput.1 (hstored hmem') (hput.2.1.trans hid'.symm)
        exact ⟨id, update, hr', hput, hserver ▸ hcom'⟩

section Examples

abbrev setStep : SetSync → SetAction → Option SetSync := Sync.step setPayloads longDigits 100

def editCounted : List SetAction :=
  [.openTab 0 account (longDigits.text 1), .tab 0 (.enqueue (some {1})), .tab 0 (.put 5 0),
    .tab 0 (.documentUpdated true)] ++ startFlush 0 ++
  serve 0 [.server (.insertUpdate 0 1), .server (.advanceRev 0), .server (.insertReceipt 0),
    .server (.commit 0)] ++
  [.tab 0 (.receipt 1), .tab 0 .deleted, .tab 0 .next, .tab 0 .read, .tab 0 .count]

theorem synchronizeDocument_truthful_saved :
    ∃ σ τ : SetSync, ∃ tab tab', execute setStep (Sync.initial fun _ => none) editCounted = some σ ∧
      setStep σ (.tab 0 .report) = some τ ∧ σ.tabs 0 = some tab ∧ τ.tabs 0 = some tab' ∧
      tab'.emitted = (.savedOnServer, 1) :: tab.emitted ∧ Sync.OnServer longDigits τ tab' 0 := by
  have hrun : ∃ σ τ : SetSync, ∃ tab tab', execute setStep (Sync.initial fun _ => none) editCounted = some σ ∧
      setStep σ (.tab 0 .report) = some τ ∧ σ.tabs 0 = some tab ∧ τ.tabs 0 = some tab' ∧
      tab'.emitted = (.savedOnServer, 1) :: tab.emitted ∧ tab.flush = .counted 0 [some 5] ∧
      tab.captured.length = 1 :=
    ⟨_, _, _, _, rfl, rfl, rfl, rfl, rfl, rfl, rfl⟩
  obtain ⟨σ, τ, tab, tab', hσ, hτ, htab, htab', hemit, hflush, hcaptured⟩ := hrun
  refine ⟨σ, τ, tab, tab', hσ, hτ, htab, htab', hemit, ?_⟩
  have hspec := synchronizeDocument_truthful Function.injective_id (execute_runs hσ) hτ htab htab' hemit
  refine (hspec.2 rfl).2 ?_ 0 Nat.zero_lt_one
  intro remaining seen hf
  rw [hflush] at hf
  cases hf
  exact ⟨by rw [hcaptured]; rfl, by decide⟩

/-- A later put succeeds after one has failed; and an edit comes between the count and the report. -/
theorem synchronizeDocument_untruthful :
    (∃ σ τ : SetSync, ∃ tab tab', execute setStep (Sync.initial fun _ => none)
        [.openTab 0 account (longDigits.text 1), .tab 0 (.enqueue (some {1})), .tab 0 .putFails,
          .tab 0 (.enqueue (some {2})), .tab 0 (.put 5 0)] = some σ ∧
      setStep σ (.tab 0 (.documentUpdated true)) = some τ ∧ σ.tabs 0 = some tab ∧ τ.tabs 0 = some tab' ∧
      tab'.emitted = (.pendingSync, 2) :: tab.emitted ∧ ¬ Sync.Durable longDigits τ tab' 0) ∧
    (∃ σ τ : SetSync, ∃ tab tab', execute setStep (Sync.initial fun _ => none)
        (editCounted ++ [.tab 0 (.enqueue (some {2}))]) = some σ ∧
      setStep σ (.tab 0 .report) = some τ ∧ σ.tabs 0 = some tab ∧ τ.tabs 0 = some tab' ∧
      tab'.emitted = (.savedOnServer, 2) :: tab.emitted ∧ ¬ Sync.OnServer longDigits τ tab' 1) := by
  constructor
  · refine ⟨_, _, _, _, rfl, rfl, rfl, rfl, rfl, ?_⟩
    rintro ⟨id, update, hr, -⟩
    cases hr
  · refine ⟨_, _, _, _, rfl, rfl, rfl, rfl, rfl, ?_⟩
    rintro ⟨id, update, hr, -⟩
    cases hr

end Examples

end OpenOutliner
