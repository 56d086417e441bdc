import OpenOutliner.Shared.Ordering
import Mathlib.Algebra.Group.Nat.Defs

/-!
Ranks between two siblings. The package that generates order keys is a parameter; what
the program relies on is what that package documents for well-formed keys.
-/

namespace OpenOutliner

inductive JsError
  | rankOrder (lower upper : JsString)
  | invalidOrderKey
  | undefinedProperty
deriving DecidableEq, Repr

/-- The key generator; `none` is an exception of its own. -/
structure FractionalIndexing where
  generateKeyBetween : Option JsString → Option JsString → Option JsString
  generateNKeysBetween : Option JsString → Option JsString → ℕ → Option (List JsString)

def Between (lower : Option JsString) (k : JsString) (upper : Option JsString) : Prop :=
  (∀ a ∈ lower, a < k) ∧ ∀ b ∈ upper, k < b

structure Bounds (Key : JsString → Prop) (lower upper : Option JsString) : Prop where
  lower_key : ∀ a ∈ lower, Key a
  upper_key : ∀ b ∈ upper, Key b
  lt : ∀ a ∈ lower, ∀ b ∈ upper, a < b

structure FractionalIndexing.Lawful (lib : FractionalIndexing) (Key : JsString → Prop) : Prop where
  key : ∀ {lower upper}, Bounds Key lower upper →
    ∃ k, lib.generateKeyBetween lower upper = some k ∧ Key k ∧ Between lower k upper
  nKeys : ∀ {lower upper} n, Bounds Key lower upper →
    ∃ ks, lib.generateNKeysBetween lower upper n = some ks ∧ ks.length = n ∧
      (∀ k ∈ ks, Key k ∧ Between lower k upper) ∧ ks.Pairwise (· < ·)

def JITTER_BUCKETS : ℕ := 16

def hashStep (h : ℕ) (c : CodeUnit) : ℕ := (h ^^^ c.val) * 0x01000193 % 2 ^ 32

def seededBucket (seed : JsString) (buckets : ℕ) : ℕ := seed.foldl hashStep 0x811c9dc5 % buckets

def orThrow {α : Type} (r : Option α) : Except JsError α :=
  match r with
  | some a => .ok a
  | none => .error .invalidOrderKey

variable (lib : FractionalIndexing)

def jitteredKey (lower upper : Option JsString) (seed : JsString) : Except JsError JsString :=
  if seed = [] then orThrow (lib.generateKeyBetween lower upper)
  else do
    let candidates ← orThrow (lib.generateNKeysBetween lower upper JITTER_BUCKETS)
    match candidates[seededBucket seed JITTER_BUCKETS]? with
    | some pick => .ok pick
    | none => orThrow (lib.generateKeyBetween lower upper)

def rankBetween (lower upper : Option JsString) (seed : JsString) : Except JsError JsString :=
  match lower, upper with
  | some l, some u =>
    if 0 ≤ compareRank l u then .error (.rankOrder l u) else jitteredKey lib (some l) (some u) seed
  | lower, upper => jitteredKey lib lower upper seed

def rankAfter (lower : Option JsString) (seed : JsString) : Except JsError JsString :=
  rankBetween lib lower none seed

variable {lib} {Key : JsString → Prop}

theorem seededBucket_lt (seed : JsString) : seededBucket seed JITTER_BUCKETS < JITTER_BUCKETS :=
  Nat.mod_lt _ (by decide)

theorem jitteredKey_ok (hlib : lib.Lawful Key) {lower upper : Option JsString}
    (h : Bounds Key lower upper) (seed : JsString) :
    ∃ k, jitteredKey lib lower upper seed = .ok k ∧ Key k ∧ Between lower k upper := by
  unfold jitteredKey
  by_cases hs : seed = []
  · obtain ⟨k, hk, hkey, hbetween⟩ := hlib.key h
    exact ⟨k, by rw [if_pos hs, hk]; rfl, hkey, hbetween⟩
  · obtain ⟨ks, hks, hlen, hall, -⟩ := hlib.nKeys JITTER_BUCKETS h
    have hlt : seededBucket seed JITTER_BUCKETS < ks.length := by
      rw [hlen]
      exact seededBucket_lt seed
    obtain ⟨hkey, hbetween⟩ := hall _ (List.getElem_mem hlt)
    refine ⟨ks[seededBucket seed JITTER_BUCKETS], ?_, hkey, hbetween⟩
    rw [if_neg hs, hks]
    change (match ks[seededBucket seed JITTER_BUCKETS]? with
      | some pick => Except.ok pick
      | none => orThrow (lib.generateKeyBetween lower upper)) = _
    rw [List.getElem?_eq_getElem hlt]

theorem rankBetween_ok (hlib : lib.Lawful Key) {lower upper : Option JsString}
    (h : Bounds Key lower upper) (seed : JsString) :
    ∃ k, rankBetween lib lower upper seed = .ok k ∧ Key k ∧ Between lower k upper := by
  obtain ⟨k, hk, hkey, hbetween⟩ := jitteredKey_ok hlib h seed
  refine ⟨k, ?_, hkey, hbetween⟩
  cases lower with
  | none => exact hk
  | some l =>
    cases upper with
    | none => exact hk
    | some u =>
      have hlt : l < u := h.lt l rfl u rfl
      have hcmp : ¬ 0 ≤ compareRank l u := by
        rw [compareRank_nonneg_iff]
        exact hlt.not_ge
      rw [rankBetween, if_neg hcmp]
      exact hk

theorem rankBetween_refuses {l u : JsString} (h : u ≤ l) (seed : JsString) :
    rankBetween lib (some l) (some u) seed = .error (.rankOrder l u) := by
  rw [rankBetween, if_pos ((compareRank_nonneg_iff l u).mpr h)]

theorem bounds_above {lower : Option JsString} (h : ∀ a ∈ lower, Key a) : Bounds Key lower none :=
  ⟨h, by simp, by simp⟩

theorem rankAfter_ok (hlib : lib.Lawful Key) {lower : Option JsString} (h : ∀ a ∈ lower, Key a)
    (seed : JsString) : ∃ k, rankAfter lib lower seed = .ok k ∧ Key k ∧ Between lower k none :=
  rankBetween_ok hlib (bounds_above h) seed

section SampleKeys

/-- Keys here are the strings that do not end in the least code unit. -/
def SampleKey (k : JsString) : Prop := ∃ s c, k = s ++ [c] ∧ c ≠ 0

def base62 : JsString :=
  js ['0', '1', '2', '3', '4', '5', '6', '7', '8', '9', 'A', 'B', 'C', 'D', 'E', 'F']

def padBelow (room : ℕ) (b : JsString) : JsString :=
  match b.getLast? with
  | none => []
  | some c => b.dropLast ++ (c - 1) :: List.replicate (room + 1) 65535

def sampleBetween (lower upper : Option JsString) : JsString :=
  match upper with
  | none => lower.getD [] ++ [1]
  | some b => padBelow (lower.getD []).length b

def sampleRun (upper : Option JsString) : ℕ → Option JsString → List JsString
  | 0, _ => []
  | n + 1, lower => sampleBetween lower upper :: sampleRun upper n (some (sampleBetween lower upper))

/-- A generator that gives the package's own keys between no bounds; between others its keys are lawful, but
not the package's. -/
def sampleKeys : FractionalIndexing where
  generateKeyBetween lower upper :=
    if lower = none ∧ upper = none then some (js ['a', '0']) else some (sampleBetween lower upper)
  generateNKeysBetween lower upper n :=
    if lower = none ∧ upper = none ∧ n = 16 then some (base62.map fun c => js ['a'] ++ [c])
    else some (sampleRun upper n lower)

theorem lt_replicate {r : JsString} {n : ℕ} (h : r.length < n) : r < List.replicate n 65535 := by
  induction r generalizing n with
  | nil =>
    obtain ⟨m, rfl⟩ : ∃ m, n = m + 1 := ⟨n - 1, by simp only [List.length_nil] at h; omega⟩
    exact List.nil_lt_cons _ _
  | cons c r ih =>
    obtain ⟨m, rfl⟩ : ∃ m, n = m + 1 := ⟨n - 1, by simp only [List.length_cons] at h; omega⟩
    rw [List.replicate_succ, List.cons_lt_cons_iff]
    have hc : c ≤ 65535 := Fin.le_last c
    rcases hc.lt_or_eq with hlt | heq
    · exact Or.inl hlt
    · refine Or.inr ⟨heq, ih ?_⟩
      simp only [List.length_cons] at h
      omega

theorem pred_lt {c : CodeUnit} (hc : c ≠ 0) : c - 1 < c := by
  have hval : (c - 1).val = c.val - 1 := Fin.val_sub_one_of_ne_zero hc
  have hpos : 0 < c.val := Fin.pos_of_ne_zero hc
  rw [Fin.lt_def, hval]
  omega

theorem le_pred {c z : CodeUnit} (h : z < c) : z ≤ c - 1 := by
  have hc : c ≠ 0 := fun h0 => by simp [h0] at h
  have hval : (c - 1).val = c.val - 1 := Fin.val_sub_one_of_ne_zero hc
  rw [Fin.le_def, hval]
  rw [Fin.lt_def] at h
  omega

theorem padBelow_snoc (room : ℕ) (s : JsString) (c : CodeUnit) :
    padBelow room (s ++ [c]) = s ++ (c - 1) :: List.replicate (room + 1) 65535 := by
  simp [padBelow]

theorem padBelow_lt (room : ℕ) {s : JsString} {c : CodeUnit} (hc : c ≠ 0) :
    padBelow room (s ++ [c]) < s ++ [c] := by
  rw [padBelow_snoc]
  induction s with
  | nil => exact List.cons_lt_cons_iff.mpr (Or.inl (pred_lt hc))
  | cons z s ih => exact List.cons_lt_cons_iff.mpr (Or.inr ⟨rfl, ih⟩)

theorem lt_padBelow {room : ℕ} {a s : JsString} {c : CodeUnit} (h : a < s ++ [c])
    (hroom : a.length ≤ room) : a < padBelow room (s ++ [c]) := by
  rw [padBelow_snoc]
  induction s generalizing a with
  | nil =>
    cases a with
    | nil => exact List.nil_lt_cons _ _
    | cons z r =>
      simp only [List.length_cons] at hroom
      have hz : z < c := by
        rcases List.cons_lt_cons_iff.mp h with hz | ⟨-, hr⟩
        · exact hz
        · exact absurd hr (List.not_lt_nil r)
      rw [List.nil_append, List.cons_lt_cons_iff]
      rcases (le_pred hz).lt_or_eq with hlt | heq
      · exact Or.inl hlt
      · exact Or.inr ⟨heq, lt_replicate (by omega)⟩
  | cons y s ih =>
    cases a with
    | nil => exact List.nil_lt_cons _ _
    | cons z r =>
      simp only [List.length_cons] at hroom
      rw [List.cons_append, List.cons_lt_cons_iff]
      rcases List.cons_lt_cons_iff.mp h with hz | ⟨rfl, hr⟩
      · exact Or.inl hz
      · exact Or.inr ⟨rfl, ih hr (by omega)⟩

theorem lt_append_singleton (a : JsString) (c : CodeUnit) : a < a ++ [c] := by
  induction a with
  | nil => exact List.nil_lt_cons _ _
  | cons z a ih => exact List.cons_lt_cons_iff.mpr (Or.inr ⟨rfl, ih⟩)

theorem sampleBetween_spec {lower upper : Option JsString} (h : Bounds SampleKey lower upper) :
    SampleKey (sampleBetween lower upper) ∧ Between lower (sampleBetween lower upper) upper := by
  cases upper with
  | none =>
    refine ⟨⟨lower.getD [], 1, rfl, by decide⟩, ?_, by simp⟩
    rintro a ha
    rw [Option.mem_def.mp ha]
    exact lt_append_singleton a 1
  | some b =>
    obtain ⟨s, c, rfl, hc⟩ := h.upper_key b rfl
    refine ⟨?_, ?_, ?_⟩
    · refine ⟨s ++ (c - 1) :: List.replicate (lower.getD []).length 65535, 65535, ?_, by decide⟩
      rw [sampleBetween, padBelow_snoc, List.replicate_succ']
      simp
    · rintro a ha
      apply lt_padBelow (h.lt a ha _ rfl)
      rw [Option.mem_def.mp ha, Option.getD_some]
    · rintro b hb
      obtain rfl := Option.some.inj hb
      exact padBelow_lt _ hc

theorem sampleRun_spec {upper : Option JsString} (n : ℕ) {lower : Option JsString}
    (h : Bounds SampleKey lower upper) : (sampleRun upper n lower).length = n ∧
      (∀ k ∈ sampleRun upper n lower, SampleKey k ∧ Between lower k upper) ∧
      (sampleRun upper n lower).Pairwise (· < ·) := by
  induction n generalizing lower with
  | zero => exact ⟨rfl, by simp [sampleRun], .nil⟩
  | succ n ih =>
    obtain ⟨hkey, hbetween⟩ := sampleBetween_spec h
    have hnext : Bounds SampleKey (some (sampleBetween lower upper)) upper := by
      refine ⟨?_, h.upper_key, ?_⟩
      · rintro a ha
        obtain rfl := Option.some.inj ha
        exact hkey
      · rintro a ha b hb
        obtain rfl := Option.some.inj ha
        exact hbetween.2 b hb
    obtain ⟨hlen, hall, hpair⟩ := ih hnext
    refine ⟨by rw [sampleRun, List.length_cons, hlen], ?_, ?_⟩
    · intro k hk
      rcases List.mem_cons.mp hk with rfl | hk
      · exact ⟨hkey, hbetween⟩
      · obtain ⟨hkey', hlow, hup⟩ := hall k hk
        exact ⟨hkey', fun a ha => (hbetween.1 a ha).trans (hlow _ rfl), hup⟩
    · rw [sampleRun, List.pairwise_cons]
      exact ⟨fun k hk => (hall k hk).2.1 _ rfl, hpair⟩

theorem sampleKeys_lawful : sampleKeys.Lawful SampleKey where
  key := by
    intro lower upper h
    by_cases hnone : lower = none ∧ upper = none
    · obtain ⟨rfl, rfl⟩ := hnone
      exact ⟨_, rfl, ⟨js ['a'], _, rfl, by decide⟩, by simp [Between]⟩
    · exact ⟨_, if_neg hnone, sampleBetween_spec h⟩
  nKeys := by
    intro lower upper n h
    by_cases hnone : lower = none ∧ upper = none ∧ n = 16
    · obtain ⟨rfl, rfl, rfl⟩ := hnone
      refine ⟨_, rfl, rfl, ?_, by decide⟩
      intro k hk
      obtain ⟨c, hc, rfl⟩ := List.mem_map.mp hk
      have hdigit : base62.all (fun c => decide (0 < c.val)) = true := by decide
      refine ⟨⟨js ['a'], c, rfl, ?_⟩, by simp [Between]⟩
      rintro rfl
      exact absurd (List.all_eq_true.mp hdigit 0 hc) (by simp)
    · exact ⟨_, if_neg hnone, sampleRun_spec n h⟩

end SampleKeys

end OpenOutliner
