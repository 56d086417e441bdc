import OpenOutliner.Foundations.RootedOrbit

/-!
Loops that follow a successor function until a stop test holds, with and without a
check for a repeated point. Fuel bounds the number of turns; the lemmas say what a
finished loop computed and how much fuel finishes it.
-/

namespace OpenOutliner.Foundations

open Function

variable {α : Type} {stop : α → Bool} {next : α → α}

theorem iterate_append_last (f : α → α) (x : α) (n : ℕ) :
    List.iterate f x n ++ [f^[n] x] = List.iterate f x (n + 1) := by
  rw [List.iterate_add, List.iterate, List.iterate]

theorem isChain_iterate {R : α → α → Prop} {x : α} {n : ℕ} (h : ∀ i < n, R (next^[i] x) (next^[i + 1] x)) :
    (List.iterate next x (n + 1)).IsChain R := by
  induction n generalizing x with
  | zero => simp
  | succ n ih =>
    rw [List.iterate, List.isChain_cons]
    constructor
    · intro y hy
      rw [List.iterate, List.head?_cons, Option.mem_some_iff] at hy
      exact hy ▸ h 0 (Nat.succ_pos n)
    · apply ih
      intro i hi
      exact h (i + 1) (Nat.succ_lt_succ hi)

theorem iterate_nodup {f : α → α} {x : α} {n : ℕ}
    (h : Set.InjOn (fun i => f^[i] x) (Set.Iio n)) : (List.iterate f x n).Nodup := by
  rw [← List.range_map_iterate]
  exact List.Nodup.map_on (fun i hi j hj hij => h (by simpa using hi) (by simpa using hj) hij)
    List.nodup_range

theorem nodup_snoc {l : List α} {a : α} (h : l.Nodup) (ha : a ∉ l) : (l ++ [a]).Nodup :=
  List.nodup_append.mpr ⟨h, List.nodup_singleton a, fun _ hb _ hc hbc =>
    ha (List.mem_singleton.mp hc ▸ hbc ▸ hb)⟩

theorem idxOf_map {β γ : Type} [BEq β] [LawfulBEq β] [DecidableEq γ] {f : β → γ} (hf : Injective f) (b : β)
    (l : List β) : (l.map f).idxOf (f b) = l.idxOf b := by
  induction l with
  | nil => rfl
  | cons c l ih =>
    by_cases hc : c = b
    · rw [List.map_cons, hc, List.idxOf_cons_self, List.idxOf_cons_self]
    · rw [List.map_cons, List.idxOf_cons_ne _ hc, List.idxOf_cons_ne _ (hf.ne hc), ih]

section Walk

variable [DecidableEq α]

structure Walk (α : Type) where
  path : List α
  last : α
  repeated : Bool

/-- Push points until `stop` holds or a point of the path comes again. -/
def walk (stop : α → Bool) (next : α → α) : ℕ → List α → α → Option (Walk α)
  | 0, _, _ => none
  | fuel + 1, path, x =>
    if stop x then some ⟨path, x, false⟩
    else if x ∈ path then some ⟨path, x, true⟩
    else walk stop next fuel (path ++ [x]) (next x)

def Walk.cycle (w : Walk α) : List α := w.path.drop (w.path.idxOf w.last)

/-- What a walk from `x` found after `n` pushes. -/
structure WalkSpec (stop : α → Bool) (next : α → α) (x : α) (n : ℕ) (w : Walk α) : Prop where
  path_eq : w.path = List.iterate next x n
  last_eq : w.last = next^[n] x
  pushed : ∀ i < n, stop (next^[i] x) = false
  nodup : w.path.Nodup
  stopped : w.repeated = false → stop w.last = true
  looped : w.repeated = true → stop w.last = false ∧ w.last ∈ w.path

theorem walk_spec_from {fuel n : ℕ} {x : α} {w : Walk α}
    (hpush : ∀ i < n, stop (next^[i] x) = false) (hnd : (List.iterate next x n).Nodup)
    (h : walk stop next fuel (List.iterate next x n) (next^[n] x) = some w) :
    ∃ m, WalkSpec stop next x m w := by
  induction fuel generalizing n with
  | zero => simp [walk] at h
  | succ fuel ih =>
    rw [walk] at h
    split_ifs at h with hstop hmem
    · obtain rfl := Option.some.inj h
      exact ⟨n, rfl, rfl, hpush, hnd, fun _ => hstop, by simp⟩
    · obtain rfl := Option.some.inj h
      exact ⟨n, rfl, rfl, hpush, hnd, by simp, fun _ => ⟨by simpa using hstop, hmem⟩⟩
    · rw [iterate_append_last, ← iterate_succ_apply' next n x] at h
      refine ih ?_ ?_ h
      · intro i hi
        rcases Nat.lt_succ_iff_lt_or_eq.mp hi with hi | rfl
        · exact hpush i hi
        · simpa using hstop
      · rw [← iterate_append_last]
        exact nodup_snoc hnd hmem

theorem walk_spec {fuel : ℕ} {x : α} {w : Walk α} (h : walk stop next fuel [] x = some w) :
    ∃ n, WalkSpec stop next x n w :=
  walk_spec_from (n := 0) (by simp) (by simp) h

omit [DecidableEq α] in
theorem WalkSpec.mem_path {n i : ℕ} {x : α} {w : Walk α} (h : WalkSpec stop next x n w) (hi : i ≤ n)
    (hgo : stop (next^[i] x) = false) : next^[i] x ∈ w.path := by
  rcases hi.lt_or_eq with hlt | rfl
  · rw [h.path_eq]
    exact List.mem_iterate.mpr ⟨i, hlt, rfl⟩
  · rw [← h.last_eq] at hgo ⊢
    cases hrep : w.repeated with
    | true => exact (h.looped hrep).2
    | false => simp [h.stopped hrep] at hgo

theorem walk_isSome {s : Finset α} (hs : ∀ y ∈ s, stop y = false → next y ∈ s ∨ stop (next y) = true)
    {fuel : ℕ} {path : List α} {x : α} (hx : x ∈ s ∨ stop x = true) (hnd : path.Nodup)
    (hpath : ∀ y ∈ path, y ∈ s) (hfuel : s.card < path.length + fuel) :
    ∃ w, walk stop next fuel path x = some w := by
  induction fuel generalizing path x with
  | zero =>
    have hle : path.toFinset.card ≤ s.card :=
      Finset.card_le_card (fun y hy => hpath y (List.mem_toFinset.mp hy))
    rw [List.toFinset_card_of_nodup hnd] at hle
    omega
  | succ fuel ih =>
    rw [walk]
    split_ifs with hstop hmem
    · exact ⟨_, rfl⟩
    · exact ⟨_, rfl⟩
    · have hxs : x ∈ s := hx.resolve_right hstop
      apply ih (hs x hxs (by simpa using hstop))
      · exact nodup_snoc hnd hmem
      · intro y hy
        rcases List.mem_append.mp hy with hy | hy
        · exact hpath y hy
        · rwa [List.mem_singleton.mp hy]
      · simp only [List.length_append, List.length_singleton]; omega

theorem WalkSpec.cycle {x : α} {n : ℕ} {w : Walk α} (hw : WalkSpec stop next x n w)
    (h : w.repeated = true) : ∃ k < n, w.last = next^[k] x ∧
      w.cycle = List.iterate next w.last (n - k) ∧
      next^[n - k] w.last = w.last := by
  have hmem := (hw.looped h).2
  rw [hw.path_eq] at hmem
  obtain ⟨k, hk, hlast⟩ := List.mem_iterate.mp hmem
  have hidx : w.path.idxOf w.last = k := by
    have hlen : k < w.path.length := by rw [hw.path_eq, List.length_iterate]; exact hk
    have hget : w.path[k] = w.last := by simp [hw.path_eq, hlast]
    rw [← hget]
    exact hw.nodup.idxOf_getElem k hlen
  refine ⟨k, hk, hlast, ?_, ?_⟩
  · rw [Walk.cycle, hidx, hw.path_eq, hlast]
    conv_lhs => rw [← Nat.add_sub_cancel' hk.le, List.iterate_add]
    rw [List.drop_left' (List.length_iterate ..)]
  · nth_rewrite 1 [hlast]
    rw [← iterate_add_apply, Nat.sub_add_cancel hk.le, hw.last_eq]

theorem walk_mono {fuel fuel' : ℕ} (hf : fuel ≤ fuel') {path : List α} {x : α} {w : Walk α}
    (h : walk stop next fuel path x = some w) : walk stop next fuel' path x = some w := by
  induction fuel generalizing fuel' path x with
  | zero => simp [walk] at h
  | succ fuel ih =>
    obtain ⟨fuel', rfl⟩ : ∃ k, fuel' = k + 1 := ⟨fuel' - 1, by omega⟩
    rw [walk] at h ⊢
    split_ifs at h ⊢
    · exact h
    · exact h
    · exact ih (by omega) h

theorem walk_congr {next' : α → α} (h : ∀ y, stop y = false → next y = next' y) (fuel : ℕ)
    (path : List α) (x : α) : walk stop next fuel path x = walk stop next' fuel path x := by
  induction fuel generalizing path x with
  | zero => rfl
  | succ fuel ih =>
    simp only [walk]
    split_ifs with hstop
    · rfl
    · rfl
    · rw [h x (by simpa using hstop), ih]

end Walk

/-- Push points until `stop` holds; there is no check for a repeated point. -/
def climb (stop : α → Bool) (next : α → α) : ℕ → List α → α → Option (List α × α)
  | 0, _, _ => none
  | fuel + 1, path, x =>
    if stop x then some (path, x) else climb stop next fuel (path ++ [x]) (next x)

theorem climb_mono {fuel fuel' : ℕ} (hf : fuel ≤ fuel') {path : List α} {x : α} {r : List α × α}
    (h : climb stop next fuel path x = some r) : climb stop next fuel' path x = some r := by
  induction fuel generalizing fuel' path x with
  | zero => simp [climb] at h
  | succ fuel ih =>
    obtain ⟨fuel', rfl⟩ : ∃ k, fuel' = k + 1 := ⟨fuel' - 1, by omega⟩
    rw [climb] at h ⊢
    split_ifs at h ⊢
    · exact h
    · exact ih (by omega) h

theorem climb_congr {next' : α → α} (h : ∀ y, stop y = false → next y = next' y) (fuel : ℕ)
    (path : List α) (x : α) : climb stop next fuel path x = climb stop next' fuel path x := by
  induction fuel generalizing path x with
  | zero => rfl
  | succ fuel ih =>
    simp only [climb]
    split_ifs with hstop
    · rfl
    · rw [h x (by simpa using hstop), ih]

theorem climb_spec_from {fuel n : ℕ} {x y : α} {path : List α} (hpush : ∀ i < n, stop (next^[i] x) = false)
    (h : climb stop next fuel (List.iterate next x n) (next^[n] x) = some (path, y)) :
    ∃ m, path = List.iterate next x m ∧ y = next^[m] x ∧ stop y = true ∧
      ∀ i < m, stop (next^[i] x) = false := by
  induction fuel generalizing n with
  | zero => simp [climb] at h
  | succ fuel ih =>
    rw [climb] at h
    split_ifs at h with hstop
    · simp only [Option.some.injEq, Prod.mk.injEq] at h
      obtain ⟨rfl, rfl⟩ := h
      exact ⟨n, rfl, rfl, hstop, hpush⟩
    · rw [iterate_append_last, ← iterate_succ_apply' next n x] at h
      refine ih ?_ h
      intro i hi
      rcases Nat.lt_succ_iff_lt_or_eq.mp hi with hi | rfl
      · exact hpush i hi
      · simpa using hstop

theorem climb_spec {fuel : ℕ} {x y : α} {path : List α} (h : climb stop next fuel [] x = some (path, y)) :
    ∃ m, path = List.iterate next x m ∧ y = next^[m] x ∧ stop y = true ∧
      ∀ i < m, stop (next^[i] x) = false :=
  climb_spec_from (n := 0) (by simp) h

theorem climb_of_hit {x : α} {n : ℕ} (hn : stop (next^[n] x) = true)
    (hpush : ∀ i < n, stop (next^[i] x) = false) {fuel k : ℕ} (hk : k ≤ n) (hfuel : n < k + fuel) :
    climb stop next fuel (List.iterate next x k) (next^[k] x) =
      some (List.iterate next x n, next^[n] x) := by
  induction fuel generalizing k with
  | zero => omega
  | succ fuel ih =>
    rw [climb]
    rcases hk.eq_or_lt with rfl | hlt
    · simp [hn]
    · rw [if_neg (by simp [hpush k hlt]), iterate_append_last, ← iterate_succ_apply' next k x]
      exact ih hlt (by omega)

theorem climb_isSome {s : Finset α} {x : α} (hhit : ∃ n, stop (next^[n] x) = true)
    (hs : ∀ i, stop (next^[i] x) = false → next^[i] x ∈ s) {fuel : ℕ} (hfuel : s.card < fuel) :
    ∃ path y, climb stop next fuel [] x = some (path, y) := by
  classical
  obtain ⟨n, hn, hmin⟩ : ∃ n, stop (next^[n] x) = true ∧ ∀ i < n, stop (next^[i] x) = false :=
    ⟨Nat.find hhit, Nat.find_spec hhit, fun i hi => by simpa using Nat.find_min hhit hi⟩
  have hinj := RootedOrbit.iterate_injOn_of_first_hit (f := next) (x := x)
    (s := {y | stop y = true}) (n := n) hn (fun i hi => by simp [hmin i hi])
  have hle : n ≤ s.card := by
    have hsub : (List.iterate next x n).toFinset ⊆ s := by
      intro y hy
      obtain ⟨i, hi, rfl⟩ := List.mem_iterate.mp (List.mem_toFinset.mp hy)
      exact hs i (hmin i hi)
    have hcard := Finset.card_le_card hsub
    rwa [List.toFinset_card_of_nodup (iterate_nodup hinj), List.length_iterate] at hcard
  exact ⟨_, _, climb_of_hit (k := 0) hn hmin (Nat.zero_le n) (by omega)⟩

theorem foldlM_mono {σ β : Type} {f g : σ → β → Option σ}
    (h : ∀ st b st', f st b = some st' → g st b = some st') {l : List β} {st st' : σ}
    (hl : l.foldlM f st = some st') : l.foldlM g st = some st' := by
  induction l generalizing st with
  | nil => exact hl
  | cons b l ih =>
    rw [List.foldlM_cons, Option.bind_eq_bind, Option.bind_eq_some_iff] at hl ⊢
    obtain ⟨st₁, h₁, h₂⟩ := hl
    exact ⟨st₁, h st b st₁ h₁, ih h₂⟩

theorem foldlM_preserves {σ β : Type} {f : σ → β → Option σ} {P : σ → Prop}
    (h : ∀ st b st', P st → f st b = some st' → P st') {l : List β} {st st' : σ}
    (hl : l.foldlM f st = some st') (hst : P st) : P st' := by
  induction l generalizing st with
  | nil =>
    obtain rfl := Option.some.inj hl
    exact hst
  | cons b l ih =>
    rw [List.foldlM_cons, Option.bind_eq_bind, Option.bind_eq_some_iff] at hl
    obtain ⟨st₁, h₁, h₂⟩ := hl
    exact ih h₂ (h st b st₁ hst h₁)

theorem foldlM_settles {σ β γ : Type} {f : σ → β → Option σ} {Inv : σ → Prop} (seen : σ → Finset γ)
    (point : β → γ) {good : List β} (hstep : ∀ st, Inv st → ∀ b ∈ good, ∃ st', f st b = some st' ∧
      Inv st' ∧ seen st ⊆ seen st' ∧ point b ∈ seen st')
    {l : List β} (hl : l ⊆ good) {st : σ} (h : Inv st) :
    ∃ st', l.foldlM f st = some st' ∧ Inv st' ∧ seen st ⊆ seen st' ∧ ∀ b ∈ l, point b ∈ seen st' := by
  induction l generalizing st with
  | nil => exact ⟨st, rfl, h, Finset.Subset.refl _, by simp⟩
  | cons b l ih =>
    obtain ⟨st₁, he₁, h₁, hsub₁, hb⟩ := hstep st h b (hl (List.mem_cons_self ..))
    obtain ⟨st₂, he₂, h₂, hsub₂, hall⟩ := ih (fun c hc => hl (List.mem_cons_of_mem _ hc)) h₁
    refine ⟨st₂, ?_, h₂, hsub₁.trans hsub₂, ?_⟩
    · rw [List.foldlM_cons, he₁]
      exact he₂
    · intro c hc
      rcases List.mem_cons.mp hc with rfl | hc
      · exact hsub₂ hb
      · exact hall c hc

end OpenOutliner.Foundations
