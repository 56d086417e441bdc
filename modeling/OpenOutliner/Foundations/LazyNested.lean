import OpenOutliner.Foundations.Replication
import Mathlib.Data.Finset.Prod
import Mathlib.Data.Finset.Lattice.Basic

/-!
Keys of a replicated map whose values are shared collections, created by a replica that sees
none. Merging two creations of one key keeps one instance and hides the edits of the other.
While a key is created at most once, no edit is lost.
-/

namespace OpenOutliner.Foundations

variable {R K Inst E Ev : Type}

/-- The instances created for a key, and the edits, each inside one instance. -/
abbrev Nested (Inst E : Type) := Finset Inst × Finset (Inst × E)

/-- The deterministic choice among the instances that concurrent creations put under one key. -/
structure Winner (Inst : Type) where
  pick : Finset Inst → Option Inst
  pick_mem : ∀ {s i}, pick s = some i → i ∈ s
  pick_isSome : ∀ {s}, s.Nonempty → ∃ i, pick s = some i

namespace Winner

variable [DecidableEq Inst] [DecidableEq E] (W : Winner Inst)

omit [DecidableEq Inst] in
theorem pick_empty : W.pick ∅ = none := by
  cases h : W.pick ∅ with
  | none => rfl
  | some i => exact absurd (W.pick_mem h) (Finset.notMem_empty i)

theorem pick_eq_none {s : Finset Inst} (h : W.pick s = none) : s = ∅ := by
  by_contra hne
  obtain ⟨j, hj⟩ := W.pick_isSome (Finset.nonempty_iff_ne_empty.mpr hne)
  rw [h] at hj
  cases hj

omit [DecidableEq Inst] in
theorem pick_singleton (i : Inst) : W.pick {i} = some i := by
  obtain ⟨j, hj⟩ := W.pick_isSome (Finset.singleton_nonempty i)
  rw [hj, Finset.mem_singleton.mp (W.pick_mem hj)]

def content (n : Nested Inst E) : Finset E :=
  match W.pick n.1 with
  | none => ∅
  | some i => (n.2.filter fun e => e.1 = i).image Prod.snd

def view (n : Nested Inst E) : Option (Finset E) := (W.pick n.1).map fun _ => W.content n

def ensure (fresh : Inst) (n : Nested Inst E) : Nested Inst E :=
  match W.pick n.1 with
  | none => (insert fresh n.1, n.2)
  | some _ => n

def edit (es : Finset E) (n : Nested Inst E) : Nested Inst E :=
  match W.pick n.1 with
  | none => n
  | some i => (n.1, n.2 ∪ es.image fun e => (i, e))

omit [DecidableEq E] in
theorem le_ensure (fresh : Inst) (n : Nested Inst E) : n ≤ W.ensure fresh n := by
  unfold ensure
  split
  · exact ⟨Finset.subset_insert _ _, le_rfl⟩
  · exact le_rfl

theorem le_edit (es : Finset E) (n : Nested Inst E) : n ≤ W.edit es n := by
  unfold edit
  split
  · exact le_rfl
  · exact ⟨le_rfl, Finset.subset_union_left⟩

@[simp] theorem edit_fst (es : Finset E) (n : Nested Inst E) : (W.edit es n).1 = n.1 := by
  unfold edit
  split <;> rfl

theorem edit_empty (n : Nested Inst E) : W.edit ∅ n = n := by
  unfold edit
  split
  · rfl
  · rw [Finset.image_empty, Finset.union_empty]

section

omit [DecidableEq E]

@[simp] theorem ensure_snd (fresh : Inst) (n : Nested Inst E) : (W.ensure fresh n).2 = n.2 := by
  unfold ensure
  split <;> rfl

theorem ensure_nonempty (fresh : Inst) (n : Nested Inst E) : (W.ensure fresh n).1.Nonempty := by
  unfold ensure
  split
  · exact Finset.insert_nonempty _ _
  · rename_i i hi
    exact ⟨i, W.pick_mem hi⟩

theorem ensure_of_nonempty (fresh : Inst) {n : Nested Inst E} (h : n.1.Nonempty) :
    W.ensure fresh n = n := by
  obtain ⟨i, hi⟩ := W.pick_isSome h
  unfold ensure
  rw [hi]

end

theorem mem_content {n : Nested Inst E} {e : E} :
    e ∈ W.content n ↔ ∃ i, W.pick n.1 = some i ∧ (i, e) ∈ n.2 := by
  unfold content
  cases h : W.pick n.1 with
  | none => simp
  | some i => simp

theorem nonempty_of_content {n : Nested Inst E} {e : E} (h : e ∈ W.content n) : n.1.Nonempty := by
  obtain ⟨i, hi, -⟩ := W.mem_content.mp h
  exact ⟨i, W.pick_mem hi⟩

theorem view_getD (n : Nested Inst E) : (W.view n).getD ∅ = W.content n := by
  unfold view content
  cases W.pick n.1 with
  | none => rfl
  | some i => rfl

theorem view_of_nonempty {n : Nested Inst E} (h : n.1.Nonempty) : W.view n = some (W.content n) := by
  obtain ⟨i, hi⟩ := W.pick_isSome h
  unfold view
  rw [hi]
  rfl

theorem content_ensure {fresh : Inst} {n : Nested Inst E} (h : ∀ e ∈ n.2, e.1 ≠ fresh) :
    W.content (W.ensure fresh n) = W.content n := by
  ext e
  rw [W.mem_content, W.mem_content, W.ensure_snd]
  unfold ensure
  cases hp : W.pick n.1 with
  | some i => simp [hp]
  | none =>
    dsimp only
    constructor
    · rintro ⟨i, hi, he⟩
      have hmem := W.pick_mem hi
      rw [W.pick_eq_none hp, Finset.mem_insert] at hmem
      exact absurd (hmem.resolve_right (Finset.notMem_empty i)) (h _ he)
    · rintro ⟨i, hi, -⟩
      cases hi

theorem content_edit (es : Finset E) {n : Nested Inst E} (h : n.1.Nonempty) :
    W.content (W.edit es n) = W.content n ∪ es := by
  obtain ⟨i, hi⟩ := W.pick_isSome h
  unfold content edit
  rw [hi]
  ext e
  simp [hi]

theorem view_edit_ensure {fresh : Inst} {n : Nested Inst E} (h : ∀ e ∈ n.2, e.1 ≠ fresh) (es : Finset E) :
    W.view (W.edit es (W.ensure fresh n)) = some ((W.view n).getD ∅ ∪ es) := by
  have hne := W.ensure_nonempty fresh n
  rw [W.view_of_nonempty (by rwa [W.edit_fst]), W.content_edit es hne, W.content_ensure h, W.view_getD]

def delta (fresh : Inst) (es : Finset E) (n : Nested Inst E) : Nested Inst E :=
  match W.pick n.1 with
  | none => ({fresh}, es.image fun e => (fresh, e))
  | some i => (∅, es.image fun e => (i, e))

theorem sup_delta (fresh : Inst) (es : Finset E) (n : Nested Inst E) :
    n ⊔ W.delta fresh es n = W.edit es (W.ensure fresh n) := by
  unfold delta ensure edit
  cases hp : W.pick n.1 with
  | some i => simp [hp, Prod.ext_iff]
  | none =>
    simp [W.pick_singleton fresh, W.pick_eq_none hp, Prod.ext_iff]

end Winner

section Home

variable [DecidableEq Inst] [DecidableEq E]

structure Home (W : Winner Inst) where
  instances : Finset Inst
  main : Inst
  pick : W.pick instances = some main

variable {W : Winner Inst} {H : Home W} {base n m part : Nested Inst E}

structure Home.Holds (H : Home W) (base n : Nested Inst E) : Prop where
  subset : n.1 ⊆ H.instances
  full : H.instances = {H.main} ∨ n.1 = H.instances
  edits : ∀ e ∈ n.2, e.1 = H.main ∨ e ∈ base.2

namespace Home.Holds

omit [DecidableEq Inst] [DecidableEq E] in
theorem pick (h : H.Holds base n) (hne : n.1.Nonempty) : W.pick n.1 = some H.main := by
  cases h.full with
  | inl hone =>
    have hsub := h.subset
    rw [hone, Finset.Nonempty.subset_singleton_iff hne] at hsub
    rw [hsub, ← hone]
    exact H.pick
  | inr hfull =>
    rw [hfull]
    exact H.pick

theorem sup (hn : H.Holds base n) (hm : H.Holds base m) (hpart : part ≤ m) : H.Holds base (n ⊔ part) := by
  have hsub : n.1 ∪ part.1 ⊆ H.instances := Finset.union_subset hn.subset (hpart.1.trans hm.subset)
  refine ⟨hsub, ?_, ?_⟩
  · cases hn.full with
    | inl hone => exact Or.inl hone
    | inr hfull => exact Or.inr (hsub.antisymm (hfull ▸ Finset.subset_union_left))
  · intro e he
    cases Finset.mem_union.mp he with
    | inl he => exact hn.edits e he
    | inr he => exact hm.edits e (hpart.2 he)

theorem edit (h : H.Holds base n) (es : Finset E) : H.Holds base (W.edit es n) := by
  refine ⟨by rw [W.edit_fst]; exact h.subset, by rw [W.edit_fst]; exact h.full, ?_⟩
  unfold Winner.edit
  split
  · exact h.edits
  · rename_i j hj
    rw [h.pick ⟨j, W.pick_mem hj⟩] at hj
    intro e he
    cases Finset.mem_union.mp he with
    | inl he => exact h.edits e he
    | inr he =>
      obtain ⟨x, -, rfl⟩ := Finset.mem_image.mp he
      exact Or.inl (Option.some.inj hj).symm

theorem content_iff (h : H.Holds base n) (hne : n.1.Nonempty) (e : E) :
    e ∈ W.content n ↔ (H.main, e) ∈ n.2 := by
  rw [W.mem_content, h.pick hne]
  simp

theorem edit_iff (h : H.Holds base n) (hne : n.1.Nonempty) (es : Finset E) (e : E) :
    (H.main, e) ∈ (W.edit es n).2 ↔ (H.main, e) ∈ n.2 ∨ e ∈ es := by
  unfold Winner.edit
  rw [h.pick hne]
  simp

end Home.Holds

end Home

section Keys

variable [DecidableEq Inst] [DecidableEq E] [DecidableEq R] (W : Winner Inst)

/-- What an event does to each key: nothing, or edits, after creating the instance if none is seen. -/
abbrev Plan (K Inst E Ev : Type) := Ev → (K → Nested Inst E) → K → Option (Inst × Finset E)

def execPlan (plan : Plan K Inst E Ev) (ev : Ev) (s : K → Nested Inst E) : K → Nested Inst E := fun k =>
  match plan ev s k with
  | none => s k
  | some (fresh, es) => W.edit es (W.ensure fresh (s k))

def deltaOf (plan : K → Option (Inst × Finset E)) (s : K → Nested Inst E) : K → Nested Inst E := fun k =>
  match plan k with
  | none => ⊥
  | some (fresh, es) => W.delta fresh es (s k)

theorem sup_deltaOf (plan : Plan K Inst E Ev) (ev : Ev) (s : K → Nested Inst E) :
    s ⊔ deltaOf W (plan ev s) s = execPlan W plan ev s := by
  funext k
  rw [Pi.sup_apply]
  unfold deltaOf execPlan
  split
  · exact sup_bot_eq _
  · exact W.sup_delta _ _ _

variable {W} {plan : Plan K Inst E Ev}

theorem le_execPlan (ev : Ev) (s : K → Nested Inst E) : s ≤ execPlan W plan ev s := by
  intro k
  unfold execPlan
  split
  · exact le_rfl
  · exact (W.le_ensure _ _).trans (W.le_edit _ _)

theorem execPlan_created {k : K} {ev : Ev} {s : K → Nested Inst E} (h : (execPlan W plan ev s k).1 = ∅) :
    plan ev s k = none ∧ execPlan W plan ev s k = s k := by
  unfold execPlan at h ⊢
  split at h
  · rename_i hnone
    rw [hnone]
    exact ⟨rfl, rfl⟩
  · rw [W.edit_fst] at h
    exact absurd h (W.ensure_nonempty _ _).ne_empty

/-- An event on key `k` meets an instance, or is the first to create one anywhere. -/
def SharesKey (plan : Plan K Inst E Ev) (k : K) (σ : System R (K → Nested Inst E) Ev) (r : R) (ev : Ev) :
    Prop :=
  (plan ev (σ.state r) k).isSome = true →
    (σ.state r k).1.Nonempty ∨ ∀ r', (σ.state r' k).1 = ∅

theorem sharesKey_of_created {plan : Plan K Inst E Ev} {k : K} {init : K → Nested Inst E}
    {ok : System R (K → Nested Inst E) Ev → R → Ev → Prop} {σ : System R (K → Nested Inst E) Ev}
    (hinit : (init k).1.Nonempty) (h : System.Run init (execPlan W plan) ok σ) (r : R) (ev : Ev) :
    SharesKey plan k σ r ev :=
  fun _ => Or.inl (hinit.mono (h.init_le le_execPlan r k).1)

structure KeyShared (plan : Plan K Inst E Ev) (k : K) (init : K → Nested Inst E) (H : Home W)
    (σ : System R (K → Nested Inst E) Ev) : Prop where
  start : H.Holds (init k) (init k)
  state : ∀ r, H.Holds (init k) (σ.state r k)
  before : ∀ o ∈ σ.history, ∀ fresh es, plan o.event o.before k = some (fresh, es) →
    H.Holds (init k) (W.ensure fresh (o.before k))

variable {k : K} {init : K → Nested Inst E} {H : Home W}
  {ok : System R (K → Nested Inst E) Ev → R → Ev → Prop} {σ : System R (K → Nested Inst E) Ev}

theorem KeyShared.act (h : KeyShared plan k init H σ) (r : R) (ev : Ev)
    (hplan : ∀ fresh es, plan ev (σ.state r) k = some (fresh, es) →
      H.Holds (init k) (W.ensure fresh (σ.state r k))) :
    KeyShared plan k init H (σ.act (execPlan W plan) r ev) := by
  refine ⟨h.start, ?_, ?_⟩
  · refine System.act_forall (P := fun s : K → Nested Inst E => H.Holds (init k) (s k)) h.state ?_
    unfold execPlan
    split
    · exact h.state r
    · rename_i fresh es he
      exact (hplan fresh es he).edit es
  · intro o ho
    cases ho with
    | head => exact hplan
    | tail _ ho => exact h.before o ho

theorem KeyShared.receive (h : KeyShared plan k init H σ) (r : R) {r' : R} {part : K → Nested Inst E}
    (hpart : part ≤ σ.state r') : KeyShared plan k init H (σ.receive r part) :=
  ⟨h.start, System.receive_forall (P := fun s : K → Nested Inst E => H.Holds (init k) (s k)) h.state
    ((h.state r).sup (h.state r') (hpart k)), h.before⟩

section Run

variable (hedits : (init k).1 = ∅ → (init k).2 = ∅) (h : System.Run init (execPlan W plan) ok σ)

include hedits h

theorem run_untouched (hempty : ∀ r, (σ.state r k).1 = ∅) :
    (∀ r, (σ.state r k).2 = ∅) ∧ ∀ o ∈ σ.history, plan o.event o.before k = none := by
  have hnone : ∀ o ∈ σ.history, plan o.event o.before k = none ∧
      execPlan W plan o.event o.before k = o.before k := by
    intro o ho
    apply execPlan_created
    apply Finset.subset_empty.mp
    rw [← hempty o.replica]
    exact (h.kept le_execPlan ho k).1
  refine ⟨fun r => ?_, fun o ho => (hnone o ho).1⟩
  apply Finset.eq_empty_of_forall_notMem
  intro e he
  have horigin := System.Run.origin (P := fun s => e ∈ (s k).2) (fun hle hs => (hle k).2 hs)
    (fun hs => Finset.mem_union.mp hs) h he
  cases horigin with
  | inl hi =>
    rw [hedits (Finset.subset_empty.mp (hempty r ▸ (h.init_le le_execPlan r k).1))] at hi
    exact Finset.notMem_empty e hi
  | inr ho =>
    obtain ⟨o, ho, hnew, hold⟩ := ho
    rw [(hnone o ho).2] at hnew
    exact hold hnew

omit h [DecidableEq E] [DecidableEq R] in
theorem KeyShared.first (hinit : (init k).1 = ∅) (hempty : ∀ r, (σ.state r k).1 = ∅)
    (hnothing : ∀ r, (σ.state r k).2 = ∅) (hnone : ∀ o ∈ σ.history, plan o.event o.before k = none)
    (hmain : H.instances = {H.main}) : KeyShared plan k init H σ := by
  have hholds : ∀ n : Nested Inst E, n.1 = ∅ → n.2 = ∅ → H.Holds (init k) n := by
    intro n h1 h2
    refine ⟨by simp [h1], Or.inl hmain, by simp [h2]⟩
  refine ⟨hholds _ hinit (hedits hinit), fun r => hholds _ (hempty r) (hnothing r), ?_⟩
  intro o ho
  rw [hnone o ho]
  simp

end Run

def Home.single (W : Winner Inst) (i : Inst) : Home W where
  instances := {i}
  main := i
  pick := W.pick_singleton i

/-- While the key is shared, one instance takes all of its edits, in every reachable state. -/
theorem run_keyShared [Inhabited Inst] (hedits : (init k).1 = ∅ → (init k).2 = ∅)
    (hok : ∀ σ r ev, ok σ r ev → SharesKey plan k σ r ev) (h : System.Run init (execPlan W plan) ok σ) :
    ∃ H : Home W, KeyShared plan k init H σ := by
  induction h with
  | start =>
    by_cases hinit : (init k).1.Nonempty
    · obtain ⟨i, hi⟩ := W.pick_isSome hinit
      have hholds : Home.Holds ⟨(init k).1, i, hi⟩ (init k) (init k) :=
        ⟨Finset.Subset.rfl, Or.inr rfl, fun _ he => Or.inr he⟩
      exact ⟨⟨(init k).1, i, hi⟩, hholds, fun _ => hholds, by simp⟩
    · have hnone := Finset.not_nonempty_iff_eq_empty.mp hinit
      exact ⟨Home.single W default, KeyShared.first hedits hnone (fun _ => hnone) (fun _ => hedits hnone)
        (by simp) rfl⟩
  | @act σ r ev hrun ha ih =>
    obtain ⟨H, hH⟩ := ih
    by_cases hne : (σ.state r k).1.Nonempty
    · refine ⟨H, hH.act r ev ?_⟩
      intro fresh es _
      rw [W.ensure_of_nonempty fresh hne]
      exact hH.state r
    · cases hplan : plan ev (σ.state r) k with
      | none =>
        refine ⟨H, hH.act r ev ?_⟩
        rw [hplan]
        simp
      | some p =>
        -- no replica holds an instance, so this creation is the first one
        have hempty : ∀ r', (σ.state r' k).1 = ∅ := by
          apply (hok σ r ev ha _).resolve_left hne
          rw [hplan]
          rfl
        have hinit : (init k).1 = ∅ := Finset.subset_empty.mp (hempty r ▸ (hrun.init_le le_execPlan r k).1)
        obtain ⟨hnothing, hnone⟩ := run_untouched hedits hrun hempty
        refine ⟨Home.single W p.1, (KeyShared.first hedits hinit hempty hnothing hnone rfl).act r ev ?_⟩
        intro fresh es he
        rw [hplan] at he
        obtain rfl : p = (fresh, es) := Option.some.inj he
        refine ⟨?_, Or.inl rfl, by simp [hnothing r]⟩
        unfold Winner.ensure
        rw [hempty r, W.pick_empty]
        exact Finset.Subset.rfl
  | receive r r' part _ hpart ih =>
    obtain ⟨H, hH⟩ := ih
    exact ⟨H, hH.receive r hpart⟩

theorem KeyShared.content_iff (hk : KeyShared plan k init H σ) (hedits : (init k).1 = ∅ → (init k).2 = ∅)
    (h : System.Run init (execPlan W plan) ok σ) (hconv : σ.Converged) (r : R) (e : E) :
    e ∈ W.content (σ.state r k) ↔ e ∈ W.content (init k) ∨
      ∃ o ∈ σ.history, ∃ fresh es, plan o.event o.before k = some (fresh, es) ∧ e ∈ es := by
  constructor
  · intro he
    rw [(hk.state r).content_iff (W.nonempty_of_content he)] at he
    have horigin := System.Run.origin (P := fun s => (H.main, e) ∈ (s k).2) (fun hle hs => (hle k).2 hs)
      (fun hs => Finset.mem_union.mp hs) h he
    cases horigin with
    | inl hi =>
      have hne : (init k).1.Nonempty := by
        apply Finset.nonempty_iff_ne_empty.mpr
        intro hc
        rw [hedits hc] at hi
        exact Finset.notMem_empty _ hi
      exact Or.inl ((hk.start.content_iff hne e).mpr hi)
    | inr ho =>
      obtain ⟨o, ho, hnew, hold⟩ := ho
      unfold execPlan at hnew
      split at hnew
      · exact absurd hnew hold
      · rename_i fresh es he
        rw [(hk.before o ho fresh es he).edit_iff (W.ensure_nonempty _ _), W.ensure_snd] at hnew
        exact Or.inr ⟨o, ho, fresh, es, he, hnew.resolve_left hold⟩
  · intro he
    cases he with
    | inl hi =>
      have hne := W.nonempty_of_content hi
      have hle := h.init_le le_execPlan r k
      rw [hk.start.content_iff hne] at hi
      exact ((hk.state r).content_iff (hne.mono hle.1) e).mpr (hle.2 hi)
    | inr ho =>
      obtain ⟨o, ho, fresh, es, he, hmem⟩ := ho
      have hle := h.kept_everywhere le_execPlan hconv ho r k
      unfold execPlan at hle
      rw [he] at hle
      have hne := W.ensure_nonempty fresh (o.before k)
      have hin := ((hk.before o ho fresh es he).edit_iff hne es e).mpr (Or.inr hmem)
      rw [← W.edit_fst es] at hne
      exact ((hk.state r).content_iff (hne.mono hle.1) e).mpr (hle.2 hin)

end Keys

end OpenOutliner.Foundations
