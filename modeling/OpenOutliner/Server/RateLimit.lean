import OpenOutliner.Foundations.FixedWindow
import OpenOutliner.Foundations.OrderedMap
import OpenOutliner.Shared.Schema
import Mathlib.Data.List.Induction

/-!
The in-memory rate limiter: a fixed-window counter for each key, and a sweep over all of them on every
check. Under a clock that does not run backward the sweep and the other keys do not show.
-/

namespace OpenOutliner

open Foundations

structure RateLimiterOptions where
  limit : ℤ
  windowMs : ℤ

namespace RateLimiter

abbrev Hits := OrderedMap JsString HitWindow

variable (opts : RateLimiterOptions)

def sweep (hits : Hits) (now : ℤ) : Hits :=
  hits.filterMapEntries fun _ entry => if opts.windowMs < now - entry.windowStart then none else some entry

def check (hits : Hits) (key : JsString) (now : ℤ) : Bool × Hits :=
  let hits := sweep opts hits now
  match hits.get key with
  | none => (true, hits.set key ⟨1, now⟩)
  | some entry =>
    if opts.windowMs < now - entry.windowStart then (true, hits.set key ⟨1, now⟩)
    else
      let entry := { entry with count := entry.count + 1 }
      (decide ((entry.count : ℤ) ≤ opts.limit), hits.set key entry)

def checks : Hits → List (JsString × ℤ) → List (JsString × ℤ × Bool)
  | _, [] => []
  | hits, (key, now) :: rest =>
    (key, now, (check opts hits key now).1) :: checks (check opts hits key now).2 rest

def afterChecks (hits : Hits) (events : List (JsString × ℤ)) : Hits :=
  events.foldl (fun hits event => (check opts hits event.1 event.2).2) hits

def ofKey (key : JsString) (answers : List (JsString × ℤ × Bool)) : List (ℤ × Bool) :=
  (answers.filter fun a => a.1 = key).map Prod.snd

def timesOf (key : JsString) (events : List (JsString × ℤ)) : List ℤ :=
  (events.filter fun e => e.1 = key).map Prod.snd

variable {opts} {hits : Hits} {key : JsString} {now : ℤ} {events : List (JsString × ℤ)}

theorem get_sweep : (sweep opts hits now).get key =
    (hits.get key).bind fun entry => if opts.windowMs < now - entry.windowStart then none else some entry :=
  OrderedMap.get_filterMapEntries _ _ _

theorem check_eq (opts : RateLimiterOptions) (hits : Hits) (key : JsString) (now : ℤ) :
    check opts hits key now =
      ((HitWindow.hit opts.limit opts.windowMs ((sweep opts hits now).get key) now).1,
        (sweep opts hits now).set key
        (HitWindow.hit opts.limit opts.windowMs ((sweep opts hits now).get key) now).2) := by
  unfold check HitWindow.hit
  dsimp only
  cases (sweep opts hits now).get key with
  | none => rfl
  | some entry =>
    dsimp only
    split <;> rfl

def Agrees (opts : RateLimiterOptions) (times : List ℤ) (held current : Option HitWindow) : Prop :=
  held = current ∨ held = none ∧ ∀ e ∈ current, ∀ x ∈ times, opts.windowMs < x - e.windowStart

theorem hit_swept {held current : Option HitWindow} {times : List ℤ} (h : Agrees opts times held current)
    (hnow : now ∈ times) :
    HitWindow.hit opts.limit opts.windowMs
        (held.bind fun entry => if opts.windowMs < now - entry.windowStart then none else some entry) now =
      HitWindow.hit opts.limit opts.windowMs current now := by
  obtain rfl | ⟨rfl, hover⟩ := h
  · cases held with
    | none => rfl
    | some entry =>
      by_cases hdrop : opts.windowMs < now - entry.windowStart
      · rw [Option.bind_some, if_pos hdrop]
        exact (if_pos hdrop).symm
      · rw [Option.bind_some, if_neg hdrop]
  · cases current with
    | none => rfl
    | some entry => exact (if_pos (hover entry rfl now hnow)).symm

theorem Agrees.swept {held current : Option HitWindow} {times : List ℤ}
    (h : Agrees opts (now :: times) held current) (htimes : ∀ x ∈ times, now ≤ x) :
    Agrees opts times (held.bind fun entry => if opts.windowMs < now - entry.windowStart then none
      else some entry)
      current := by
  obtain rfl | ⟨rfl, hover⟩ := h
  · cases held with
    | none => exact Or.inl rfl
    | some entry =>
      by_cases hdrop : opts.windowMs < now - entry.windowStart
      · refine Or.inr ⟨if_pos hdrop, ?_⟩
        rintro e ⟨⟩ x hx
        have := htimes x hx
        omega
      · exact Or.inl (if_neg hdrop)
  · exact Or.inr ⟨rfl, fun e he x hx => hover e he x (List.mem_cons_of_mem _ hx)⟩

theorem checks_ofKey {current : Option HitWindow} (hclock : (events.map Prod.snd).Pairwise (· ≤ ·))
    (h : Agrees opts (events.map Prod.snd) (hits.get key) current) :
    ofKey key (checks opts hits events) =
    HitWindow.hits opts.limit opts.windowMs current (timesOf key events) := by
  induction events generalizing hits current with
  | nil => rfl
  | cons event rest ih =>
    obtain ⟨key', now⟩ := event
    obtain ⟨hnow, hrest⟩ := List.pairwise_cons.mp hclock
    rw [checks, check_eq]
    by_cases hkey : key' = key
    · subst hkey
      have hanswer := hit_swept h (List.mem_cons_self ..)
      have hnext := @ih ((sweep opts hits now).set key'
        (HitWindow.hit opts.limit opts.windowMs ((sweep opts hits now).get key') now).2) _ hrest
        (Or.inl (OrderedMap.get_set_self _ _ _))
      rw [get_sweep] at hnext ⊢
      rw [hanswer] at hnext ⊢
      simp only [ofKey, timesOf, List.filter_cons, decide_true, if_true, List.map_cons, HitWindow.hits]
        at hnext ⊢
      rw [hnext]
    · simp only [ofKey, timesOf, List.filter_cons, hkey, decide_false, Bool.false_eq_true, if_false]
      refine ih hrest ?_
      rw [OrderedMap.get_set_of_ne _ _ (Ne.symm hkey), get_sweep]
      exact h.swept hnow

theorem sweep_recent {e : HitWindow} (h : (sweep opts hits now).get key = some e) :
    now - e.windowStart ≤ opts.windowMs := by
  rw [get_sweep] at h
  obtain ⟨entry, -, hkept⟩ := Option.bind_eq_some_iff.mp h
  split at hkept
  · cases hkept
  · rename_i hin
    obtain rfl := Option.some.inj hkept
    exact not_lt.mp hin

theorem check_recent (hwindow : 0 ≤ opts.windowMs) {key' : JsString} {e : HitWindow}
    (h : (check opts hits key' now).2.get key = some e) : now - e.windowStart ≤ opts.windowMs := by
  rw [check_eq] at h
  obtain ⟨-, hopens⟩ | ⟨e', he', hin, hcounts⟩ :=
    HitWindow.hit_cases opts.limit opts.windowMs ((sweep opts hits now).get key') now
  · rw [hopens, OrderedMap.get_set] at h
    split at h
    · obtain rfl := Option.some.inj h
      rwa [sub_self]
    · exact sweep_recent h
  · rw [hcounts, OrderedMap.get_set] at h
    split at h
    · obtain rfl := Option.some.inj h
      exact hin
    · exact sweep_recent h

end RateLimiter

open RateLimiter in
/-- However many keys a process checks, and whatever it sweeps: each key gets at most `n + 1` budgets in
the time of `n` windows, no hit is refused that has not a full budget of its own key's hits right before
it, and the map holds windows of the last `windowMs` only. -/
theorem rateLimiter_budget {opts : RateLimiterOptions} (hwindow : 0 ≤ opts.windowMs)
    {events : List (JsString × ℤ)} (hclock : (events.map Prod.snd).Pairwise (· ≤ ·)) (key : JsString) :
    (∀ t (n : ℕ), HitWindow.admittedIn t (t + n * opts.windowMs) (ofKey key (checks opts .empty events)) ≤
      (n + 1) * HitWindow.budget opts.limit) ∧
    (∀ i x, (ofKey key (checks opts .empty events))[i]? = some (x, false) →
      HitWindow.budget opts.limit ≤
        ((ofKey key (checks opts .empty events)).take i).countP fun a => decide (x - opts.windowMs ≤ a.1)) ∧
    ∀ e, (afterChecks opts .empty events).get key = some e →
      ∃ x, (events.map Prod.snd).getLast? = some x ∧ x - e.windowStart ≤ opts.windowMs := by
  have hanswers : ofKey key (checks opts .empty events) =
      HitWindow.hits opts.limit opts.windowMs none (timesOf key events) :=
    checks_ofKey hclock (Or.inl (OrderedMap.get_empty key))
  have htimes : (timesOf key events).Pairwise (· ≤ ·) := hclock.sublist (List.filter_sublist.map _)
  refine ⟨?_, ?_, ?_⟩
  · intro t n
    rw [hanswers]
    exact HitWindow.admittedIn_le hwindow (by simp) htimes t n
  · intro i x hrefused
    rw [hanswers] at hrefused ⊢
    have hfull : HitWindow.budget opts.limit ≤
        ([] ++ (timesOf key events).take i).countP fun y => decide (x - opts.windowMs ≤ y) :=
      HitWindow.refused_after (by simp) htimes hrefused
    rw [List.nil_append, ← HitWindow.hits_times opts.limit opts.windowMs none (timesOf key events),
      ← List.map_take,
      List.countP_map] at hfull
    exact hfull
  · intro e he
    cases events using List.reverseRecOn with
    | nil => cases he
    | append_singleton events event =>
      rw [afterChecks, List.foldl_append] at he
      exact ⟨event.2, by simp, check_recent hwindow he⟩

open RateLimiter in
theorem rateLimiter_budget_twoKeys :
    (0 : ℤ) ≤ 10 ∧
    (ofKey (js ['a'])
      (checks ⟨1, 10⟩ .empty [(js ['a'], 0), (js ['b'], 1), (js ['a'], 2), (js ['a'], 20)])) =
      [(0, true), (2, false), (20, true)] ∧
    HitWindow.admittedIn 0 (0 + (2 : ℕ) * 10)
      (ofKey (js ['a'])
        (checks ⟨1, 10⟩ .empty [(js ['a'], 0), (js ['b'], 1), (js ['a'], 2), (js ['a'], 20)])) ≤
        (2 + 1) * HitWindow.budget 1 :=
  ⟨by decide, by decide, (@rateLimiter_budget ⟨1, 10⟩ (by decide) _ (by decide) (js ['a'])).1 0 2⟩

end OpenOutliner
