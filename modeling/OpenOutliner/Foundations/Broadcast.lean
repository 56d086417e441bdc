import Mathlib.Data.Finset.Basic
import Mathlib.Data.Multiset.Filter
import Mathlib.Data.Multiset.MapFold

/-!
A broadcast channel. A message that is posted is under way to every other party that listens at that moment;
messages arrive in any order, and those to a party that has closed its end do not arrive.
-/

namespace OpenOutliner.Foundations

structure Channel (R M : Type) where
  listeners : Finset R
  flight : Multiset (R × M)

namespace Channel

variable {R M : Type} [DecidableEq R] [DecidableEq M]

def attach (c : Channel R M) (r : R) : Channel R M := { c with listeners := insert r c.listeners }

def close (c : Channel R M) (r : R) : Channel R M := ⟨c.listeners.erase r, c.flight.filter fun e => e.1 ≠ r⟩

def post (c : Channel R M) (sender : R) (m : M) : Channel R M :=
  { c with flight := c.flight + (c.listeners.erase sender).val.map fun r => (r, m) }

def take (c : Channel R M) (r : R) (m : M) : Option (Channel R M) :=
  if (r, m) ∈ c.flight then some { c with flight := c.flight.erase (r, m) } else none

def Sound (c : Channel R M) : Prop := ∀ e ∈ c.flight, e.1 ∈ c.listeners

variable {c d : Channel R M} {r s : R} {m n : M}

section

omit [DecidableEq M]

@[simp] theorem mem_attach : s ∈ (c.attach r).listeners ↔ s = r ∨ s ∈ c.listeners := Finset.mem_insert

@[simp] theorem attach_flight : (c.attach r).flight = c.flight := rfl

@[simp] theorem mem_close : s ∈ (c.close r).listeners ↔ s ≠ r ∧ s ∈ c.listeners := Finset.mem_erase

@[simp] theorem mem_close_flight : (s, m) ∈ (c.close r).flight ↔ (s, m) ∈ c.flight ∧ s ≠ r :=
  Multiset.mem_filter

@[simp] theorem post_listeners : (c.post r m).listeners = c.listeners := rfl

@[simp] theorem mem_post : (s, n) ∈ (c.post r m).flight ↔
    (s, n) ∈ c.flight ∨ n = m ∧ s ≠ r ∧ s ∈ c.listeners := by
  simp only [post, Multiset.mem_add, Multiset.mem_map, Finset.mem_val, Finset.mem_erase, Prod.mk.injEq]
  apply or_congr_right
  constructor
  · rintro ⟨_, h, rfl, rfl⟩
    exact ⟨rfl, h⟩
  · rintro ⟨rfl, h⟩
    exact ⟨s, h, rfl, rfl⟩

end

theorem take_some (h : c.take r m = some d) : (r, m) ∈ c.flight ∧ d.listeners = c.listeners ∧
    (∀ e ∈ d.flight, e ∈ c.flight) ∧ ∀ e ∈ c.flight, e ≠ (r, m) → e ∈ d.flight := by
  unfold take at h
  split_ifs at h with hin
  obtain rfl := Option.some.inj h
  exact ⟨hin, rfl, fun e he => Multiset.mem_of_mem_erase he,
    fun e he hne => (Multiset.mem_erase_of_ne hne).mpr he⟩

section

omit [DecidableEq M]

theorem Sound.attach (h : c.Sound) (r : R) : (c.attach r).Sound :=
  fun e he => mem_attach.mpr (Or.inr (h e he))

theorem Sound.close (h : c.Sound) (r : R) : (c.close r).Sound := by
  rintro ⟨s, m⟩ he
  obtain ⟨he, hne⟩ := mem_close_flight.mp he
  exact mem_close.mpr ⟨hne, h _ he⟩

theorem Sound.post (h : c.Sound) (r : R) (m : M) : (c.post r m).Sound := by
  rintro ⟨s, n⟩ he
  rcases mem_post.mp he with he | ⟨-, -, hs⟩
  · exact h _ he
  · exact hs

end

theorem Sound.take (h : c.Sound) (hd : c.take r m = some d) : d.Sound := by
  obtain ⟨-, hl, hsub, -⟩ := take_some hd
  intro e he
  rw [hl]
  exact h e (hsub e he)

end Channel

end OpenOutliner.Foundations
