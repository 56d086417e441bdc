import OpenOutliner.Client.ReplicaId

/-!
What the duel guarantees. As long as two tabs hold one id, a message about this id is under way to one of
them. A tab that holds an id can lose it to a later tab when two later tabs announce it at once.
-/

namespace OpenOutliner

open Foundations

namespace Tabs

variable {T : Type} [DecidableEq T] {s t : Tabs T} {u v : T} {fresh x m : JsString} {a : TabStep T}

section Steps

def taken (s : Tabs T) (u : T) (fresh : JsString) : JsString := (getOrCreateReplicaId (s.storage u) fresh).1

theorem duplicate_step {source copy : T} (h : step s (.duplicate source copy) = some t) :
    t = s.duplicate source copy := by
  rw [step] at h
  split_ifs at h
  exact (Option.some.inj h).symm

theorem claim_step (h : step s (.claim u fresh) = some t) : u ∉ s.claimed ∧ t = s.claimReplicaId u fresh := by
  rw [step] at h
  split_ifs at h with hnew
  exact ⟨hnew, (Option.some.inj h).symm⟩

theorem stop_step (h : step s (.stop u) = some t) : t = { s with channel := s.channel.close u } := by
  rw [step] at h
  split_ifs at h
  exact (Option.some.inj h).symm

def changed (s : Tabs T) (c : Channel T JsString) (u : T) (fresh : JsString) : Tabs T where
  storage := Function.update s.storage u (some fresh)
  id := Function.update s.id u fresh
  claimed := s.claimed
  channel := c.post u (CLAIM ++ fresh)
  used := insert fresh s.used
  changes := Function.update s.changes u (s.changes u + 1)

@[simp] theorem changed_id (s : Tabs T) (c : Channel T JsString) (u v : T) (fresh : JsString) :
    (s.changed c u fresh).id v = if v = u then fresh else s.id v := Function.update_apply _ _ _ _

@[simp] theorem changed_changes (s : Tabs T) (c : Channel T JsString) (u v : T) (fresh : JsString) :
    (s.changed c u fresh).changes v = if v = u then s.changes u + 1 else s.changes v :=
  Function.update_apply _ _ _ _

theorem deliver_step (h : step s (.deliver u m fresh) = some t) : ∃ c, s.channel.take u m = some c ∧
    (m = CLAIM ++ s.id u ∧ t = { s with channel := c.post u (TAKEN ++ s.id u) } ∨
      m = TAKEN ++ s.id u ∧ t = s.changed c u fresh ∨
      m ≠ CLAIM ++ s.id u ∧ m ≠ TAKEN ++ s.id u ∧ t = { s with channel := c }) := by
  obtain ⟨c, hc, rfl⟩ := Option.map_eq_some_iff.mp h
  refine ⟨c, hc, ?_⟩
  unfold onmessage
  dsimp only
  split_ifs with hclaim htaken
  · exact Or.inl ⟨hclaim, rfl⟩
  · exact Or.inr (Or.inl ⟨htaken, rfl⟩)
  · exact Or.inr (Or.inr ⟨hclaim, htaken, rfl⟩)

theorem claimed_id (s : Tabs T) (u v : T) (fresh : JsString) :
    (s.claimReplicaId u fresh).id v = if v = u then s.taken u fresh else s.id v :=
  Function.update_apply _ _ _ _

theorem claimed_listeners : v ∈ (s.claimReplicaId u fresh).channel.listeners ↔
    v = u ∨ v ∈ s.channel.listeners :=
  Channel.mem_attach

theorem claimed_flight : (v, m) ∈ (s.claimReplicaId u fresh).channel.flight ↔
    (v, m) ∈ s.channel.flight ∨ m = CLAIM ++ s.taken u fresh ∧ v ≠ u ∧ v ∈ s.channel.listeners := by
  refine Channel.mem_post.trans (or_congr_right (and_congr_right fun _ => and_congr_right fun hv => ?_))
  rw [Channel.mem_attach, or_iff_right hv]

end Steps

section Base

structure Base (s : Tabs T) : Prop where
  sound : s.channel.Sound
  ran : ∀ u ∈ s.channel.listeners, u ∈ s.claimed
  held : ∀ u ∈ s.claimed, s.id u ∈ s.used
  about : ∀ u m, (u, m) ∈ s.channel.flight → ∃ x ∈ s.used, m = CLAIM ++ x ∨ m = TAKEN ++ x

omit [DecidableEq T] in
theorem base_start (storage : T → Option JsString) : Base (start storage) := by
  refine ⟨?_, ?_, ?_, ?_⟩ <;> simp [start, Channel.Sound]

theorem base_step (h : Base s) (hstep : step s a = some t) : Base t := by
  cases a with
  | duplicate source copy =>
    rw [duplicate_step hstep]
    exact ⟨h.sound, h.ran, h.held, h.about⟩
  | claim u fresh =>
    obtain ⟨-, rfl⟩ := claim_step hstep
    refine ⟨(h.sound.attach u).post u _, fun v hv => ?_, fun v hv => ?_, fun v m he => ?_⟩
    · exact Finset.mem_insert.mpr ((claimed_listeners.mp hv).imp_right (h.ran v))
    · rw [claimed_id]
      split_ifs with hvu
      · exact Finset.mem_insert_self _ _
      · exact Finset.mem_insert_of_mem (h.held v (Finset.mem_of_mem_insert_of_ne hv hvu))
    · rcases claimed_flight.mp he with he | ⟨rfl, -⟩
      · obtain ⟨x, hx, hm⟩ := h.about v m he
        exact ⟨x, Finset.mem_insert_of_mem hx, hm⟩
      · exact ⟨_, Finset.mem_insert_self _ _, Or.inl rfl⟩
  | deliver u m fresh =>
    obtain ⟨c, hc, hcase⟩ := deliver_step hstep
    obtain ⟨hin, hl, hsub, -⟩ := Channel.take_some hc
    have hu := h.held u (h.ran u (h.sound _ hin))
    have hran : ∀ v ∈ c.listeners, v ∈ s.claimed := by
      rw [hl]
      exact h.ran
    obtain ⟨-, rfl⟩ | ⟨-, rfl⟩ | ⟨-, -, rfl⟩ := hcase
    · refine ⟨(h.sound.take hc).post u _, hran, h.held, fun v n he => ?_⟩
      rcases Channel.mem_post.mp he with he | ⟨rfl, -⟩
      · exact h.about v n (hsub _ he)
      · exact ⟨_, hu, Or.inr rfl⟩
    · refine ⟨(h.sound.take hc).post u _, hran, fun v hv => ?_, fun v n he => ?_⟩
      · rw [changed_id]
        split_ifs
        · exact Finset.mem_insert_self _ _
        · exact Finset.mem_insert_of_mem (h.held v hv)
      · rcases Channel.mem_post.mp he with he | ⟨rfl, -⟩
        · obtain ⟨x, hx, hm⟩ := h.about v n (hsub _ he)
          exact ⟨x, Finset.mem_insert_of_mem hx, hm⟩
        · exact ⟨_, Finset.mem_insert_self _ _, Or.inl rfl⟩
    · exact ⟨h.sound.take hc, hran, h.held, fun v n he => h.about v n (hsub _ he)⟩
  | stop u =>
    rw [stop_step hstep]
    exact ⟨h.sound.close u, fun v hv => h.ran v (Channel.mem_close.mp hv).2, h.held,
      fun v m he => h.about v m (Channel.mem_close_flight.mp he).1⟩

omit [DecidableEq T] in
theorem Base.silent (h : Base s) (hfresh : s.Unused fresh) (hm : m = CLAIM ++ fresh ∨ m = TAKEN ++ fresh) :
    (u, m) ∉ s.channel.flight := by
  intro he
  obtain ⟨x, hx, hxm⟩ := h.about u m he
  apply hfresh.1
  rcases hm with rfl | rfl
  · rcases hxm with hxm | hxm
    · rwa [claim_injective hxm]
    · exact absurd hxm (claim_ne_taken _ _)
  · rcases hxm with hxm | hxm
    · exact absurd hxm.symm (claim_ne_taken _ _)
    · rwa [taken_injective hxm]

omit [DecidableEq T] in
theorem Base.ne_fresh (h : Base s) (hfresh : s.Unused fresh) (hu : u ∈ s.channel.listeners) :
    s.id u ≠ fresh := by
  rintro rfl
  exact hfresh.1 (h.held u (h.ran u hu))

end Base

section Distinct

def Contacted (s : Tabs T) (u : T) (x : JsString) : Prop :=
  (u, CLAIM ++ x) ∈ s.channel.flight ∨ (u, TAKEN ++ x) ∈ s.channel.flight

/-- Two tabs that hold one id will hear of it. -/
def Contested (s : Tabs T) : Prop := ∀ u ∈ s.channel.listeners, ∀ v ∈ s.channel.listeners, u ≠ v →
    s.id u = s.id v →
  s.Contacted u (s.id u) ∨ s.Contacted v (s.id u)

theorem contested_claim (hbase : Base s) (h : Contested s) {w : T} (hnew : w ∉ s.claimed) :
    Contested (s.claimReplicaId w fresh) := by
  have hw : w ∉ s.channel.listeners := fun hw => hnew (hbase.ran w hw)
  have hold : ∀ {u x}, s.Contacted u x → (s.claimReplicaId w fresh).Contacted u x := by
    intro u x hc
    exact hc.imp (fun he => claimed_flight.mpr (Or.inl he)) fun he => claimed_flight.mpr (Or.inl he)
  intro u hu v hv huv hid
  rw [claimed_listeners] at hu hv
  rw [claimed_id, claimed_id] at hid
  rw [claimed_id]
  rcases hu with rfl | hu
  · have hvl := hv.resolve_left huv.symm
    rw [if_pos rfl]
    exact Or.inr (Or.inl (claimed_flight.mpr (Or.inr ⟨rfl, huv.symm, hvl⟩)))
  · have huw : u ≠ w := fun he => hw (he ▸ hu)
    rw [if_neg huw] at hid ⊢
    rcases hv with rfl | hv
    · rw [if_pos rfl] at hid
      rw [hid]
      exact Or.inl (Or.inl (claimed_flight.mpr (Or.inr ⟨rfl, huv, hu⟩)))
    · have hvw : v ≠ w := fun he => hw (he ▸ hv)
      rw [if_neg hvw] at hid
      exact (h u hu v hv huv hid).imp hold hold

theorem contacted_take {c : Channel T JsString} {w : T} {x : JsString} (hc : s.channel.take w m = some c)
    (hother : u ≠ w ∨ m ≠ CLAIM ++ x ∧ m ≠ TAKEN ++ x) (h : s.Contacted u x) :
    Contacted { s with channel := c } u x := by
  obtain ⟨-, -, -, hkeep⟩ := Channel.take_some hc
  have hne : ∀ n, n = CLAIM ++ x ∨ n = TAKEN ++ x → (u, n) ≠ (w, m) := by
    rintro n hn he
    obtain ⟨rfl, rfl⟩ := Prod.mk.inj he
    rcases hother with hu | ⟨hclaim, htaken⟩
    · exact hu rfl
    · exact hn.elim hclaim htaken
  exact h.imp (fun he => hkeep _ he (hne _ (Or.inl rfl))) fun he => hkeep _ he (hne _ (Or.inr rfl))

theorem contacted_post {c : Channel T JsString} {w : T} {x : JsString} (n : JsString)
    (h : Contacted { s with channel := c } u x) : Contacted { s with channel := c.post w n } u x :=
  h.imp (fun he => Channel.mem_post.mpr (Or.inl he)) fun he => Channel.mem_post.mpr (Or.inl he)

theorem contested_answer (h : Contested s) {c : Channel T JsString} {w : T}
    (hc : s.channel.take w m = some c) :
    Contested { s with channel := c.post w (TAKEN ++ s.id w) } := by
  obtain ⟨-, hl, -, -⟩ := Channel.take_some hc
  intro u hu v hv huv hid
  dsimp only [Channel.post_listeners] at hu hv hid ⊢
  rw [hl] at hu hv
  have hanswer : ∀ {y}, y ≠ w → y ∈ s.channel.listeners → Contacted
      { s with channel := c.post w (TAKEN ++ s.id w) } y (s.id w) := by
    intro y hy hyl
    exact Or.inr (Channel.mem_post.mpr (Or.inr ⟨rfl, hy, hl ▸ hyl⟩))
  by_cases huw : u = w
  · subst huw
    exact Or.inr (hanswer huv.symm hv)
  · by_cases hvw : v = w
    · subst hvw
      rw [hid]
      exact Or.inl (hanswer huv hu)
    · exact (h u hu v hv huv hid).imp (fun hu => contacted_post _ (contacted_take hc (Or.inl huw) hu))
        fun hv => contacted_post _ (contacted_take hc (Or.inl hvw) hv)

theorem contested_change (hbase : Base s) (h : Contested s) (hfresh : s.Unused fresh)
    {c : Channel T JsString} {w : T}
    (hc : s.channel.take w m = some c) : Contested (s.changed c w fresh) := by
  obtain ⟨-, hl, -, -⟩ := Channel.take_some hc
  intro u hu v hv huv hid
  rw [changed_id, changed_id] at hid
  rw [changed_id]
  have hu : u ∈ s.channel.listeners := hl ▸ hu
  have hv : v ∈ s.channel.listeners := hl ▸ hv
  by_cases huw : u = w
  · rw [if_pos huw, if_neg (huw ▸ huv.symm)] at hid
    exact absurd hid.symm (hbase.ne_fresh hfresh hv)
  · by_cases hvw : v = w
    · rw [if_neg huw, if_pos hvw] at hid
      exact absurd hid (hbase.ne_fresh hfresh hu)
    · rw [if_neg huw, if_neg hvw] at hid
      rw [if_neg huw]
      exact (h u hu v hv huv hid).imp (fun hu => contacted_post _ (contacted_take hc (Or.inl huw) hu))
        fun hv => contacted_post _ (contacted_take hc (Or.inl hvw) hv)

theorem contested_ignore (h : Contested s) {c : Channel T JsString} {w : T} (hc : s.channel.take w m = some c)
    (hclaim : m ≠ CLAIM ++ s.id w) (htaken : m ≠ TAKEN ++ s.id w) : Contested { s with channel := c } := by
  obtain ⟨-, hl, -, -⟩ := Channel.take_some hc
  intro u hu v hv huv hid
  dsimp only at hu hv hid ⊢
  rw [hl] at hu hv
  have hunaddressed : ∀ {y x}, s.id y = x → y ≠ w ∨ m ≠ CLAIM ++ x ∧ m ≠ TAKEN ++ x := by
    rintro y x rfl
    by_cases hy : y = w
    · exact Or.inr (hy ▸ ⟨hclaim, htaken⟩)
    · exact Or.inl hy
  exact (h u hu v hv huv hid).imp (contacted_take hc (hunaddressed rfl))
    (contacted_take hc (hunaddressed hid.symm))

theorem contested_step (hbase : Base s) (h : Contested s) (hmint : s.Mints a) (hstep : step s a = some t) :
    Contested t := by
  cases a with
  | duplicate source copy =>
    rw [duplicate_step hstep]
    exact h
  | claim w fresh =>
    obtain ⟨hnew, rfl⟩ := claim_step hstep
    exact contested_claim hbase h hnew
  | deliver w m fresh =>
    obtain ⟨c, hc, ⟨-, rfl⟩ | ⟨-, rfl⟩ | ⟨hclaim, htaken, rfl⟩⟩ := deliver_step hstep
    · exact contested_answer h hc
    · exact contested_change hbase h hmint hc
    · exact contested_ignore h hc hclaim htaken
  | stop w =>
    rw [stop_step hstep]
    intro u hu v hv huv hid
    obtain ⟨huw, hu⟩ := Channel.mem_close.mp hu
    obtain ⟨hvw, hv⟩ := Channel.mem_close.mp hv
    have hkeep : ∀ {u x}, u ≠ w → s.Contacted u x →
        Contacted { s with channel := s.channel.close w } u x := by
      intro u x huw hc
      exact hc.imp (fun he => Channel.mem_close_flight.mpr ⟨he, huw⟩) fun he =>
        Channel.mem_close_flight.mpr ⟨he, huw⟩
    exact (h u hu v hv huv hid).imp (hkeep huw) (hkeep hvw)

end Distinct

section Stable

/-- No answer for the id of `u` is under way to `u`, and no other holder of the id is about to answer. -/
def Safe (s : Tabs T) (u : T) : Prop := (u, TAKEN ++ s.id u) ∉ s.channel.flight ∧
  ∀ v ∈ s.channel.listeners, v ≠ u → s.id v = s.id u → (v, CLAIM ++ s.id u) ∉ s.channel.flight

def Undisputed (s : Tabs T) (x : JsString) : Prop := ∀ u ∈ s.channel.listeners, s.id u = x →
  (u, TAKEN ++ x) ∉ s.channel.flight ∧ ∀ v ∈ s.channel.listeners, s.id v = x → v = u

/-- A tab claims an id only while no duel over it is open. -/
def OneDuel (s : Tabs T) : TabStep T → Prop
  | .claim u fresh => s.Undisputed (s.taken u fresh)
  | _ => True

theorem claim_safe (hbase : Base s) (hduel : s.Undisputed (s.taken v fresh)) (hv : v ∉ s.claimed)
    (hu : u ∈ s.channel.listeners) (hid : s.id u = s.taken v fresh) : Safe (s.claimReplicaId v fresh) u := by
  have huv : u ≠ v := fun he => hv (he ▸ hbase.ran u hu)
  obtain ⟨hanswer, hone⟩ := hduel u hu hid
  unfold Safe
  rw [claimed_id, if_neg huv, hid]
  constructor
  · intro he
    rcases claimed_flight.mp he with he | ⟨he, -⟩
    · exact hanswer he
    · exact claim_ne_taken _ _ he.symm
  · intro w hw hwu hwid he
    rcases claimed_listeners.mp hw with rfl | hw
    · rcases claimed_flight.mp he with he | ⟨-, hne, -⟩
      · exact hv (hbase.ran w (hbase.sound _ he))
      · exact hne rfl
    · have hwv : w ≠ v := fun he => hv (he ▸ hbase.ran w hw)
      rw [claimed_id, if_neg hwv] at hwid
      exact hwu (hone w hw hwid)

theorem safe_step (hbase : Base s) (hu : u ∈ s.channel.listeners) (h : Safe s u) (hmint : s.Mints a)
    (hduel : s.OneDuel a) (hstep : step s a = some t) : t.id u = s.id u ∧ t.changes u = s.changes u ∧
    (u ∈ t.channel.listeners → Safe t u) := by
  cases a with
  | duplicate source copy =>
    rw [duplicate_step hstep]
    exact ⟨rfl, rfl, fun _ => h⟩
  | claim v fresh =>
    obtain ⟨hnew, rfl⟩ := claim_step hstep
    have huv : u ≠ v := fun he => hnew (he ▸ hbase.ran u hu)
    refine ⟨by rw [claimed_id, if_neg huv], rfl, fun _ => ?_⟩
    by_cases hid : s.id u = s.taken v fresh
    · exact claim_safe hbase hduel hnew hu hid
    · unfold Safe
      rw [claimed_id, if_neg huv]
      constructor
      · intro he
        rcases claimed_flight.mp he with he | ⟨he, -⟩
        · exact h.1 he
        · exact claim_ne_taken _ _ he.symm
      · intro w hw hwu hwid he
        rcases claimed_flight.mp he with he | ⟨he, -⟩
        · have hwl : w ∈ s.channel.listeners := hbase.sound _ he
          have hwv : w ≠ v := fun he => hnew (he ▸ hbase.ran w hwl)
          rw [claimed_id, if_neg hwv] at hwid
          exact h.2 w hwl hwu hwid he
        · exact hid (claim_injective he)
  | deliver w m fresh =>
    obtain ⟨c, hc, hcase⟩ := deliver_step hstep
    obtain ⟨hin, hl, hsub, -⟩ := Channel.take_some hc
    have hwl := hbase.sound _ hin
    obtain ⟨rfl, rfl⟩ | ⟨rfl, rfl⟩ | ⟨-, -, rfl⟩ := hcase
    · refine ⟨rfl, rfl, fun _ => ⟨fun he => ?_, fun v hv hvu hvid he => ?_⟩⟩
      · rcases Channel.mem_post.mp he with he | ⟨he, huw, -⟩
        · exact h.1 (hsub _ he)
        · have hid : s.id w = s.id u := (taken_injective he).symm
          exact h.2 w hwl huw.symm hid (hid ▸ hin)
      · rcases Channel.mem_post.mp he with he | ⟨he, -⟩
        · exact h.2 v (hl ▸ hv) hvu hvid (hsub _ he)
        · exact claim_ne_taken _ _ he
    · have huw : u ≠ w := by
        rintro rfl
        exact h.1 hin
      have hne : s.id u ≠ fresh := hbase.ne_fresh hmint hu
      refine ⟨by rw [changed_id, if_neg huw], by rw [changed_changes, if_neg huw], fun _ => ?_⟩
      unfold Safe
      rw [changed_id, if_neg huw]
      constructor
      · intro he
        rcases Channel.mem_post.mp he with he | ⟨he, -⟩
        · exact h.1 (hsub _ he)
        · exact claim_ne_taken _ _ he.symm
      · intro v hv hvu hvid he
        rcases Channel.mem_post.mp he with he | ⟨he, -⟩
        · have hvw : v ≠ w := by
            rintro rfl
            rw [changed_id, if_pos rfl] at hvid
            exact hne hvid.symm
          rw [changed_id, if_neg hvw] at hvid
          exact h.2 v (hl ▸ hv) hvu hvid (hsub _ he)
        · exact hne (claim_injective he)
    · exact ⟨rfl, rfl,
        fun _ => ⟨fun he => h.1 (hsub _ he), fun v hv hvu hvid he => h.2 v (hl ▸ hv) hvu hvid (hsub _ he)⟩⟩
  | stop w =>
    rw [stop_step hstep]
    refine ⟨rfl, rfl, fun _ => ⟨fun he => h.1 (Channel.mem_close_flight.mp he).1, fun v hv hvu hvid he => ?_⟩⟩
    exact h.2 v (Channel.mem_close.mp hv).2 hvu hvid (Channel.mem_close_flight.mp he).1

theorem change_safe (hbase : Base s) (hmint : s.Mints a) (hstep : step s a = some t)
    (hchange : t.changes u ≠ s.changes u) :
    u ∈ s.channel.listeners ∧ t.changes u = s.changes u + 1 ∧ Safe t u := by
  cases a with
  | duplicate source copy =>
    rw [duplicate_step hstep] at hchange
    exact absurd rfl hchange
  | claim v fresh =>
    obtain ⟨-, rfl⟩ := claim_step hstep
    exact absurd rfl hchange
  | deliver w m fresh =>
    obtain ⟨c, hc, hcase⟩ := deliver_step hstep
    obtain ⟨hin, hl, hsub, -⟩ := Channel.take_some hc
    obtain ⟨-, rfl⟩ | ⟨rfl, rfl⟩ | ⟨-, -, rfl⟩ := hcase
    · exact absurd rfl hchange
    · have huw : u = w := by
        by_contra hne
        exact hchange (by rw [changed_changes, if_neg hne])
      subst huw
      refine ⟨hbase.sound _ hin, by rw [changed_changes, if_pos rfl], ?_⟩
      unfold Safe
      rw [changed_id, if_pos rfl]
      constructor
      · intro he
        rcases Channel.mem_post.mp he with he | ⟨he, -⟩
        · exact hbase.silent hmint (Or.inr rfl) (hsub _ he)
        · exact claim_ne_taken _ _ he.symm
      · intro v hv hvu hvid he
        rw [changed_id, if_neg hvu] at hvid
        exact hbase.ne_fresh hmint (hl ▸ hv) hvid
    · exact absurd rfl hchange
  | stop w =>
    rw [stop_step hstep] at hchange
    exact absurd rfl hchange

end Stable

section Runs

theorem run_base {ok : Tabs T → TabStep T → Prop} {storage : T → Option JsString}
    (hrun : Runs step ok (start storage) s) : Base s :=
  hrun.invariant (fun h _ hstep => base_step h hstep) (base_start storage)

theorem claimed_step (hu : u ∈ s.claimed) (hstep : step s a = some t) : u ∈ t.claimed := by
  cases a with
  | duplicate source copy =>
    rw [duplicate_step hstep]
    exact hu
  | claim v fresh =>
    obtain ⟨-, rfl⟩ := claim_step hstep
    exact Finset.mem_insert_of_mem hu
  | deliver w m fresh =>
    obtain ⟨c, -, hcase⟩ := deliver_step hstep
    obtain ⟨-, rfl⟩ | ⟨-, rfl⟩ | ⟨-, -, rfl⟩ := hcase
    · exact hu
    · exact hu
    · exact hu
  | stop w =>
    rw [stop_step hstep]
    exact hu

theorem silent_step (hbase : Base s) (hu : u ∈ s.claimed) (hul : u ∉ s.channel.listeners)
    (hstep : step s a = some t) :
    t.id u = s.id u ∧ t.changes u = s.changes u ∧ u ∉ t.channel.listeners := by
  cases a with
  | duplicate source copy =>
    rw [duplicate_step hstep]
    exact ⟨rfl, rfl, hul⟩
  | claim v fresh =>
    obtain ⟨hnew, rfl⟩ := claim_step hstep
    have huv : u ≠ v := fun he => hnew (he ▸ hu)
    exact ⟨by rw [claimed_id, if_neg huv], rfl, fun hl => (claimed_listeners.mp hl).elim huv hul⟩
  | deliver w m fresh =>
    obtain ⟨c, hc, hcase⟩ := deliver_step hstep
    obtain ⟨hin, hl, -, -⟩ := Channel.take_some hc
    have huw : u ≠ w := fun he => hul (he ▸ hbase.sound _ hin)
    rw [← hl] at hul
    obtain ⟨-, rfl⟩ | ⟨-, rfl⟩ | ⟨-, -, rfl⟩ := hcase
    · exact ⟨rfl, rfl, hul⟩
    · exact ⟨by rw [changed_id, if_neg huw], by rw [changed_changes, if_neg huw], hul⟩
    · exact ⟨rfl, rfl, hul⟩
  | stop w =>
    rw [stop_step hstep]
    exact ⟨rfl, rfl, fun hl => hul (Channel.mem_close.mp hl).2⟩

theorem run_contested {storage : T → Option JsString} (hrun : Runs step Mints (start storage) s) :
    Base s ∧ Contested s := by
  induction hrun with
  | refl => exact ⟨base_start storage, fun u hu => absurd hu (Finset.notMem_empty u)⟩
  | step a _ hmint hstep ih => exact ⟨base_step ih.1 hstep, contested_step ih.1 ih.2 hmint hstep⟩

theorem run_safe (hbase : Base s) (hu : u ∈ s.channel.listeners) (hsafe : Safe s u)
    (hrun : Runs step (fun s a => s.Mints a ∧ s.OneDuel a) s t) : t.id u = s.id u := by
  have hall : Base t ∧ u ∈ t.claimed ∧ t.id u = s.id u ∧ (u ∈ t.channel.listeners → Safe t u) := by
    induction hrun with
    | refl => exact ⟨hbase, hbase.ran u hu, rfl, fun _ => hsafe⟩
    | @step t w a _ hok hstep ih =>
      obtain ⟨hb, hc, hid, hs⟩ := ih
      have hc' : u ∈ w.claimed := claimed_step hc hstep
      by_cases hl : u ∈ t.channel.listeners
      · obtain ⟨hid', -, hs'⟩ := safe_step hb hl (hs hl) hok.1 hok.2 hstep
        exact ⟨base_step hb hstep, hc', hid'.trans hid, hs'⟩
      · obtain ⟨hid', -, hl'⟩ := silent_step hb hc hl hstep
        exact ⟨base_step hb hstep, hc', hid'.trans hid, fun h => absurd h hl'⟩
  exact hall.2.2.1

theorem run_changes {storage : T → Option JsString}
    (hrun : Runs step (fun s a => s.Mints a ∧ s.OneDuel a) (start storage) s) (u : T) : s.changes u ≤ 1 := by
  have hall : Base s ∧
      (s.changes u = 0 ∨ s.changes u = 1 ∧ u ∈ s.claimed ∧ (u ∈ s.channel.listeners → Safe s u)) := by
    induction hrun with
    | refl => exact ⟨base_start storage, Or.inl rfl⟩
    | @step t w a _ hok hstep ih =>
      obtain ⟨hb, hcase⟩ := ih
      refine ⟨base_step hb hstep, ?_⟩
      by_cases hchange : w.changes u = t.changes u
      · rcases hcase with h0 | ⟨h1, hc, hs⟩
        · exact Or.inl (hchange.trans h0)
        · refine Or.inr ⟨hchange.trans h1, claimed_step hc hstep, fun hl => ?_⟩
          by_cases hlt : u ∈ t.channel.listeners
          · exact (safe_step hb hlt (hs hlt) hok.1 hok.2 hstep).2.2 hl
          · exact absurd hl (silent_step hb hc hlt hstep).2.2
      · obtain ⟨hlt, hplus, hs⟩ := change_safe hb hok.1 hstep hchange
        rcases hcase with h0 | ⟨h1, hc, hs'⟩
        · exact Or.inr ⟨by omega, claimed_step (hb.ran u hlt) hstep, fun _ => hs⟩
        · exact absurd (safe_step hb hlt (hs' hlt) hok.1 hok.2 hstep).2.1 hchange
  omega

end Runs

end Tabs

/-- When no message is under way, all tabs that listen hold different ids. -/
theorem claimReplicaId_distinct {T : Type} [DecidableEq T] {storage : T → Option JsString} {s : Tabs T}
    (hrun : Runs Tabs.step Tabs.Mints (Tabs.start storage) s) (hquiet : s.channel.flight = 0) :
    ∀ u ∈ s.channel.listeners, ∀ v ∈ s.channel.listeners, u ≠ v → s.id u ≠ s.id v := by
  have hcontested : Tabs.Base s ∧ Tabs.Contested s := Tabs.run_contested hrun
  intro u hu v hv huv hid
  rcases hcontested.2 u hu v hv huv hid with hcontact | hcontact
  · exact hcontact.elim (by simp [hquiet]) (by simp [hquiet])
  · exact hcontact.elim (by simp [hquiet]) (by simp [hquiet])

/-- A tab that holds an id when another tab claims the same id keeps it, and no tab changes its id twice. -/
def HolderStable (T : Type) [DecidableEq T] (ok : Tabs T → TabStep T → Prop) : Prop :=
  (∀ (storage : T → Option JsString) (s t s' : Tabs T) (u v : T) (fresh : JsString),
    Runs Tabs.step ok (Tabs.start storage) s → ok s (.claim v fresh) → Tabs.step s (.claim v fresh) = some t →
      u ∈ s.channel.listeners → t.id v = s.id u → Runs Tabs.step ok t s' → s'.id u = s.id u) ∧
    ∀ (storage : T → Option JsString) (s : Tabs T) (u : T), Runs Tabs.step ok (Tabs.start storage) s →
    s.changes u ≤ 1

/-- Holders are stable as long as no tab claims an id over which a duel is open. -/
theorem claimReplicaId_stable (T : Type) [DecidableEq T] :
    HolderStable T fun s a => s.Mints a ∧ s.OneDuel a := by
  constructor
  · intro storage s t s' u v fresh hrun hok hstep hu hid hrest
    have hbase := Tabs.run_base hrun
    obtain ⟨hnew, rfl⟩ := Tabs.claim_step hstep
    have huv : u ≠ v := fun he => hnew (he ▸ hbase.ran u hu)
    rw [Tabs.claimed_id, if_pos rfl] at hid
    have hsafe := Tabs.claim_safe hbase hok.2 hnew hu hid.symm
    have hkept :=
      Tabs.run_safe (Tabs.base_step hbase hstep) (Tabs.claimed_listeners.mpr (Or.inr hu)) hsafe hrest
    rw [hkept, Tabs.claimed_id, if_neg huv]
  · intro storage s u hrun
    exact Tabs.run_changes hrun u

section Examples

instance {n : ℕ} (s : Tabs (Fin n)) (fresh : JsString) : Decidable (s.Unused fresh) :=
  inferInstanceAs (Decidable (fresh ∉ s.used ∧ ∀ t, s.storage t ≠ some fresh))

instance {n : ℕ} (s : Tabs (Fin n)) : (a : TabStep (Fin n)) → Decidable (s.Mints a)
  | .duplicate _ _ => inferInstanceAs (Decidable True)
  | .claim _ fresh => inferInstanceAs (Decidable (s.Unused fresh))
  | .deliver _ _ fresh => inferInstanceAs (Decidable (s.Unused fresh))
  | .stop _ => inferInstanceAs (Decidable True)

def held : JsString := js ['x']

def oneTab : Fin 5 → Option JsString := fun t => if t = 0 then some held else none

def play (s : Tabs (Fin 5)) (as : List (TabStep (Fin 5))) : Option (Tabs (Fin 5)) :=
  executeIf Tabs.step (fun s a => decide (s.Mints a)) s as

theorem play_runs {s t : Tabs (Fin 5)} {as : List (TabStep (Fin 5))} (h : play s as = some t) :
    Runs Tabs.step Tabs.Mints s t :=
  executeIf_runs (fun _ _ => of_decide_eq_true) h

def oneDuel : List (TabStep (Fin 5)) :=
  [.claim 0 (js ['n']), .duplicate 0 1, .claim 1 (js ['n']), .deliver 0 (CLAIM ++ held) (js ['n']),
    .deliver 1 (TAKEN ++ held) (js ['y']), .deliver 0 (CLAIM ++ js ['y']) (js ['n'])]

theorem claimReplicaId_distinct_duel : ∃ s : Tabs (Fin 5), Runs Tabs.step Tabs.Mints (Tabs.start oneTab) s ∧
    s.id 0 = held ∧ s.id 1 = js ['y'] ∧ ∀ u ∈ s.channel.listeners, ∀ v ∈ s.channel.listeners, u ≠ v →
    s.id u ≠ s.id v := by
  have hplay : (play (Tabs.start oneTab) oneDuel).map
      (fun s => (s.id 0, s.id 1, decide (s.channel.flight = 0))) =
    some (held, js ['y'], true) := by decide
  obtain ⟨s, hs, he⟩ := Option.map_eq_some_iff.mp hplay
  obtain ⟨h0, h1, hquiet⟩ : s.id 0 = held ∧ s.id 1 = js ['y'] ∧ decide (s.channel.flight = 0) = true := by
    simpa using he
  exact ⟨s, play_runs hs, h0, h1, claimReplicaId_distinct (play_runs hs) (of_decide_eq_true hquiet)⟩

def duplicated : List (TabStep (Fin 5)) :=
  [.claim 0 (js ['n']), .duplicate 0 1, .duplicate 0 2, .claim 1 (js ['n'])]

def answered : List (TabStep (Fin 5)) :=
  [.deliver 1 (CLAIM ++ held) (js ['n']), .deliver 0 (TAKEN ++ held) (js ['y'])]

def answeredAgain : List (TabStep (Fin 5)) :=
  [.duplicate 0 3, .duplicate 0 4, .claim 3 (js ['n']), .claim 4 (js ['n']),
    .deliver 3 (CLAIM ++ js ['y']) (js ['n']),
    .deliver 0 (TAKEN ++ js ['y']) (js ['z'])]

/-- A tab that announced its id first loses it to the answer of a duplicate, and later another one. -/
theorem claimReplicaId_unstable : ∃ s t u w : Tabs (Fin 5), Runs Tabs.step Tabs.Mints (Tabs.start oneTab) s ∧
    s.id 0 = held ∧ s.id 1 = held ∧ s.Mints (.claim 2 (js ['n'])) ∧
    Tabs.step s (.claim 2 (js ['n'])) = some t ∧ t.id 2 = held ∧
    Runs Tabs.step Tabs.Mints t u ∧ u.id 0 = js ['y'] ∧ Runs Tabs.step Tabs.Mints u w ∧ w.id 0 = js ['z'] ∧
    w.changes 0 = 2 ∧
    ¬ HolderStable (Fin 5) Tabs.Mints := by
  have hplay :
      ((play (Tabs.start oneTab) duplicated).bind fun s => (play s [.claim 2 (js ['n'])]).bind fun t =>
      (play t answered).bind fun u => (play u answeredAgain).map fun w =>
        (decide (0 ∈ s.channel.listeners ∧ s.id 0 = held ∧ s.id 1 = held ∧ s.Mints (.claim 2 (js ['n'])) ∧
          t.id 2 = held),
          u.id 0, w.id 0, w.changes 0)) = some (true, js ['y'], js ['z'], 2) := by decide
  simp only [Option.bind_eq_some_iff, Option.map_eq_some_iff, Prod.mk.injEq, decide_eq_true_eq] at hplay
  obtain ⟨s, hs, t, ht, u, hu, w, hw, ⟨hl, h0, h1, hmint, h2⟩, hu0, hw0, hchanges⟩ := hplay
  have hstep : Tabs.step s (.claim 2 (js ['n'])) = some t := by
    obtain ⟨t', ht', he⟩ := Option.bind_eq_some_iff.mp ht
    dsimp only at ht'
    split_ifs at ht'
    cases he
    exact ht'
  refine ⟨s, t, u, w, play_runs hs, h0, h1, hmint, hstep, h2, play_runs hu, hu0, play_runs hw, hw0,
    hchanges, fun hstable => ?_⟩
  have hkept :=
    hstable.1 oneTab s t u 0 2 (js ['n']) (play_runs hs) hmint hstep hl (h2.trans h0.symm) (play_runs hu)
  rw [hu0, h0] at hkept
  exact absurd hkept (by decide)

end Examples

end OpenOutliner
