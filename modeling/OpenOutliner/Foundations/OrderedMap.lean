import Mathlib.Data.List.Nodup
import Mathlib.Data.List.Lemmas

/-!
Finite maps that enumerate their keys in the order of first insertion. Overwriting
a key keeps its place, so the enumeration is that of a language-level ordered map.
-/

namespace OpenOutliner.Foundations

variable {K V : Type}

structure OrderedMap (K V : Type) where
  entries : List (K × V)
  nodup : (entries.map Prod.fst).Nodup

namespace OrderedMap

variable [DecidableEq K]

/-- Overwrite the first entry of key `k`, or append a new one. -/
def putEntry (k : K) (v : V) : List (K × V) → List (K × V)
  | [] => [(k, v)]
  | e :: es => if e.1 = k then (k, v) :: es else e :: putEntry k v es

theorem putEntry_keys (k : K) (v : V) (es : List (K × V)) :
    (putEntry k v es).map Prod.fst =
      if k ∈ es.map Prod.fst then es.map Prod.fst else es.map Prod.fst ++ [k] := by
  induction es with
  | nil => simp [putEntry]
  | cons e es ih =>
    by_cases he : e.1 = k
    · simp [putEntry, he]
    · have hk : k ≠ e.1 := fun h => he h.symm
      simp only [putEntry, he, ↓reduceIte, List.map_cons, ih, List.mem_cons, hk, false_or]
      split_ifs <;> rfl

theorem putEntry_nodup (k : K) (v : V) {es : List (K × V)} (h : (es.map Prod.fst).Nodup) :
    ((putEntry k v es).map Prod.fst).Nodup := by
  rw [putEntry_keys]
  split_ifs with hk
  · exact h
  · exact List.nodup_append.mpr ⟨h, by simp, by rintro a ha b hb rfl; simp_all⟩

def empty : OrderedMap K V := ⟨[], by simp⟩

def get (m : OrderedMap K V) (k : K) : Option V := (m.entries.find? (fun e => e.1 = k)).map Prod.snd

def has (m : OrderedMap K V) (k : K) : Bool := (m.get k).isSome

def set (m : OrderedMap K V) (k : K) (v : V) : OrderedMap K V :=
  ⟨putEntry k v m.entries, putEntry_nodup k v m.nodup⟩

def delete (m : OrderedMap K V) (k : K) : OrderedMap K V :=
  ⟨m.entries.filter (fun e => e.1 ≠ k), m.nodup.sublist (List.filter_sublist.map _)⟩

def keys (m : OrderedMap K V) : List K := m.entries.map Prod.fst

def values (m : OrderedMap K V) : List V := m.entries.map Prod.snd

def mapEntries {W : Type} (m : OrderedMap K V) (f : K → V → W) : OrderedMap K W :=
  ⟨m.entries.map fun e => (e.1, f e.1 e.2), by
    rw [List.map_map]
    exact m.nodup⟩

def mapValues {W : Type} (m : OrderedMap K V) (f : V → W) : OrderedMap K W := m.mapEntries fun _ => f

def filterMapEntries {W : Type} (m : OrderedMap K V) (f : K → V → Option W) : OrderedMap K W :=
  ⟨m.entries.filterMap fun e => (f e.1 e.2).map fun w => (e.1, w), by
    refine m.nodup.sublist ?_
    induction m.entries with
    | nil => exact .slnil
    | cons e es ih =>
      rw [List.filterMap_cons]
      cases f e.1 e.2 with
      | none => exact ih.cons _
      | some w => exact ih.cons_cons _⟩

def ofList (es : List (K × V)) : OrderedMap K V := es.foldl (fun m e => m.set e.1 e.2) empty

def union (a b : OrderedMap K V) : OrderedMap K V :=
  b.entries.foldl (fun m e => if m.has e.1 then m else m.set e.1 e.2) a

@[simp] theorem get_empty (k : K) : (empty : OrderedMap K V).get k = none := rfl

theorem find?_putEntry (k j : K) (v : V) (es : List (K × V)) :
    ((putEntry k v es).find? (fun e => e.1 = j)).map Prod.snd =
      if j = k then some v else (es.find? (fun e => e.1 = j)).map Prod.snd := by
  induction es with
  | nil => by_cases hj : j = k <;> simp [putEntry, hj, eq_comm]
  | cons e es ih =>
    by_cases he : e.1 = k
    · by_cases hj : j = k
      · simp [putEntry, he, hj]
      · have hk : ¬ k = j := fun h => hj h.symm
        simp [putEntry, he, hj, hk]
    · by_cases hej : e.1 = j
      · have hj : j ≠ k := fun h => he (hej.trans h)
        simp [putEntry, hej, hj]
      · simp only [putEntry, he, ↓reduceIte, List.find?_cons, hej, decide_false, ih]

theorem get_set (m : OrderedMap K V) (k j : K) (v : V) :
    (m.set k v).get j = if j = k then some v else m.get j :=
  find?_putEntry k j v m.entries

@[simp] theorem get_set_self (m : OrderedMap K V) (k : K) (v : V) : (m.set k v).get k = some v := by
  simp [get_set]

theorem get_set_of_ne (m : OrderedMap K V) {k j : K} (v : V) (h : j ≠ k) :
    (m.set k v).get j = m.get j := by
  simp [get_set, h]

theorem mem_entries_iff (m : OrderedMap K V) (k : K) (v : V) :
    (k, v) ∈ m.entries ↔ m.get k = some v := by
  obtain ⟨es, hes⟩ := m
  simp only [get]
  induction es with
  | nil => simp
  | cons e es ih =>
    have hcons := List.nodup_cons.mp hes
    have ih := ih hcons.2
    by_cases he : e.1 = k
    · have hnot : (k, v) ∉ es := fun h => hcons.1 (List.mem_map.mpr ⟨_, h, he.symm⟩)
      simp only [List.mem_cons, hnot, or_false, List.find?_cons, he, decide_true, Option.map_some,
        Option.some.injEq]
      constructor
      · rintro h; rw [← h]
      · rintro h; exact Prod.ext he.symm h.symm
    · have hne : (k, v) ≠ e := fun h => he (by rw [← h])
      simp only [List.mem_cons, hne, false_or, List.find?_cons, he, decide_false, ih]

theorem mem_values_iff (m : OrderedMap K V) (v : V) : v ∈ m.values ↔ ∃ k, m.get k = some v := by
  rw [values, List.mem_map]
  constructor
  · rintro ⟨⟨k, v⟩, he, rfl⟩
    exact ⟨k, (m.mem_entries_iff k v).mp he⟩
  · rintro ⟨k, hget⟩
    exact ⟨(k, v), (m.mem_entries_iff k v).mpr hget, rfl⟩

theorem mem_keys_iff (m : OrderedMap K V) (k : K) : k ∈ m.keys ↔ ∃ v, m.get k = some v := by
  simp only [keys, List.mem_map, Prod.exists, exists_and_right, exists_eq_right, mem_entries_iff]

theorem has_iff (m : OrderedMap K V) (k : K) : m.has k = true ↔ ∃ v, m.get k = some v :=
  Option.isSome_iff_exists

theorem get_eq_none_iff (m : OrderedMap K V) (k : K) : m.get k = none ↔ k ∉ m.keys := by
  rw [mem_keys_iff, ← Option.isSome_iff_exists, Option.not_isSome_iff_eq_none]

theorem keys_set (m : OrderedMap K V) (k : K) (v : V) :
    (m.set k v).keys = if k ∈ m.keys then m.keys else m.keys ++ [k] :=
  putEntry_keys k v m.entries

theorem get_head {m : OrderedMap K V} {k : K} {v : V} {es : List (K × V)} (h : m.entries = (k, v) :: es) :
    m.get k = some v := by
  rw [get, h]
  simp

theorem entries_set_head {m : OrderedMap K V} {k : K} {v : V} {es : List (K × V)} (v' : V)
    (h : m.entries = (k, v) :: es) : (m.set k v').entries = (k, v') :: es := by
  change putEntry k v' m.entries = _
  rw [h]
  exact if_pos rfl

theorem putEntry_of_notMem {k : K} (v : V) {es : List (K × V)} (h : k ∉ es.map Prod.fst) :
    putEntry k v es = es ++ [(k, v)] := by
  induction es with
  | nil => rfl
  | cons e es ih =>
    rw [List.map_cons, List.mem_cons, not_or] at h
    rw [putEntry, if_neg fun he => h.1 he.symm, ih h.2, List.cons_append]

theorem entries_set_of_notMem {m : OrderedMap K V} {k : K} (v : V) (h : k ∉ m.keys) :
    (m.set k v).entries = m.entries ++ [(k, v)] :=
  putEntry_of_notMem v h

theorem entries_set_of_mem {m : OrderedMap K V} {k : K} (v : V) (h : k ∈ m.keys) :
    (m.set k v).entries = m.entries.map fun e => if e.1 = k then (k, v) else e := by
  have hput : ∀ es : List (K × V), (es.map Prod.fst).Nodup → k ∈ es.map Prod.fst →
      putEntry k v es = es.map fun e => if e.1 = k then (k, v) else e := by
    intro es
    induction es with
    | nil => simp
    | cons e es ih =>
      intro hnd hk
      rw [List.map_cons, List.nodup_cons] at hnd
      rw [List.map_cons, putEntry]
      by_cases he : e.1 = k
      · rw [if_pos he, if_pos he]
        congr 1
        refine ((List.map_congr_left fun a ha => ?_).trans (List.map_id es)).symm
        exact if_neg fun hak => hnd.1 (List.mem_map.mpr ⟨a, ha, hak.trans he.symm⟩)
      · rw [if_neg he, if_neg he, ih hnd.2 ((List.mem_cons.mp hk).resolve_left fun h => he h.symm)]
  exact hput m.entries m.nodup h

theorem putEntry_putEntry (k : K) (v w : V) (es : List (K × V)) :
    putEntry k w (putEntry k v es) = putEntry k w es := by
  induction es with
  | nil => simp [putEntry]
  | cons e es ih =>
    by_cases he : e.1 = k
    · simp [putEntry, he]
    · simp [putEntry, he, ih]

theorem set_set (m : OrderedMap K V) (k : K) (v w : V) : (m.set k v).set k w = m.set k w := by
  unfold set
  congr 1
  exact putEntry_putEntry k v w m.entries

omit [DecidableEq K] in
theorem keys_nodup (m : OrderedMap K V) : m.keys.Nodup := m.nodup

theorem get_delete (m : OrderedMap K V) (k j : K) :
    (m.delete k).get j = if j = k then none else m.get j := by
  split_ifs with h
  · subst h
    rw [get_eq_none_iff]
    simp [keys, delete]
  · cases hg : m.get j with
    | none =>
      rw [get_eq_none_iff] at hg ⊢
      intro hm
      obtain ⟨e, he, rfl⟩ := List.mem_map.mp hm
      exact hg (List.mem_map.mpr ⟨e, (List.mem_filter.mp he).1, rfl⟩)
    | some v =>
      rw [← mem_entries_iff] at hg ⊢
      exact List.mem_filter.mpr ⟨hg, by simpa using h⟩

theorem get_foldl_delete (m : OrderedMap K V) (ks : List K) (j : K) :
    (ks.foldl delete m).get j = if j ∈ ks then none else m.get j := by
  induction ks generalizing m with
  | nil => rw [List.foldl_nil, if_neg List.not_mem_nil]
  | cons k ks ih =>
    rw [List.foldl_cons, ih, get_delete]
    by_cases hk : j ∈ ks
    · rw [if_pos hk, if_pos (List.mem_cons_of_mem _ hk)]
    · simp only [if_neg hk, List.mem_cons, or_iff_left hk]

theorem filterMap_set {W : Type} (g : K × V → Option W) {m : OrderedMap K V} {k : K} {v v' : V}
    (h : m.get k = some v) (hg : g (k, v') = g (k, v)) :
    (m.set k v').entries.filterMap g = m.entries.filterMap g := by
  have hput : ∀ es : List (K × V), (es.find? (fun e => e.1 = k)).map Prod.snd = some v →
      (putEntry k v' es).filterMap g = es.filterMap g := by
    intro es
    induction es with
    | nil => simp
    | cons e es ih =>
      intro hfind
      by_cases he : e.1 = k
      · have hv : e.2 = v := by simpa [he] using hfind
        have hek : e = (k, v) := Prod.ext he hv
        rw [putEntry, if_pos he, List.filterMap_cons, List.filterMap_cons, hek, hg]
      · rw [List.find?_cons_of_neg (by simpa using he)] at hfind
        rw [putEntry, if_neg he, List.filterMap_cons, List.filterMap_cons, ih hfind]
  exact hput m.entries h

theorem get_foldl_absent (es : List (K × V)) (m : OrderedMap K V) {k : K} {v : V}
    (h : (es.foldl (fun m e => if m.has e.1 then m else m.set e.1 e.2) m).get k = some v) :
    m.get k = some v ∨ (k, v) ∈ es := by
  induction es generalizing m with
  | nil => exact Or.inl h
  | cons e es ih =>
    rw [List.foldl_cons] at h
    rcases ih _ h with h' | h'
    · split_ifs at h' with hhas
      · exact Or.inl h'
      · rw [get_set] at h'
        split_ifs at h' with hk
        · refine Or.inr (List.mem_cons.mpr (Or.inl ?_))
          rw [hk, ← Option.some.inj h']
        · exact Or.inl h'
    · exact Or.inr (List.mem_cons_of_mem _ h')

theorem get_union {a b : OrderedMap K V} {k : K} {v : V} (h : (a.union b).get k = some v) :
    a.get k = some v ∨ b.get k = some v := by
  rcases get_foldl_absent _ _ h with h | h
  · exact Or.inl h
  · exact Or.inr ((mem_entries_iff b k v).mp h)

theorem get_mapEntries {W : Type} (m : OrderedMap K V) (f : K → V → W) (k : K) :
    (m.mapEntries f).get k = (m.get k).map (f k) := by
  simp only [get, mapEntries, List.find?_map, Option.map_map]
  change (m.entries.find? fun e => e.1 = k).map (fun e => f e.1 e.2) = _
  cases h : m.entries.find? fun e => e.1 = k with
  | none => rfl
  | some e =>
    have hk : e.1 = k := by simpa using List.find?_some h
    simp [hk]

theorem get_mapValues {W : Type} (m : OrderedMap K V) (f : V → W) (k : K) :
    (m.mapValues f).get k = (m.get k).map f :=
  m.get_mapEntries (fun _ => f) k

theorem get_filterMapEntries {W : Type} (m : OrderedMap K V) (f : K → V → Option W) (k : K) :
    (m.filterMapEntries f).get k = (m.get k).bind (f k) := by
  have hfind : ∀ es : List (K × V), (es.map Prod.fst).Nodup →
      ((es.filterMap fun e => (f e.1 e.2).map fun w => (e.1, w)).find? fun e => e.1 = k).map Prod.snd =
        ((es.find? fun e => e.1 = k).map Prod.snd).bind (f k) := by
    intro es hes
    induction es with
    | nil => rfl
    | cons e es ih =>
      obtain ⟨hk, hes⟩ := List.nodup_cons.mp hes
      by_cases he : e.1 = k
      · subst he
        cases hf : f e.1 e.2 with
        | some w => simp [hf]
        | none =>
          have hnone : (es.find? fun e' => e'.1 = e.1) = none := by
            rw [List.find?_eq_none]
            intro e' he' heq
            apply hk
            rw [← of_decide_eq_true heq]
            exact List.mem_map_of_mem he'
          rw [List.filterMap_cons, hf, List.find?_cons_of_pos (by simp)]
          change Option.map _ (List.find? _ (es.filterMap _)) = f e.1 e.2
          rw [ih hes, hnone, hf]
          rfl
      · rw [List.find?_cons_of_neg (by simpa using he), ← ih hes, List.filterMap_cons]
        cases f e.1 e.2 with
        | none => rfl
        | some w =>
          change Option.map _ (List.find? _ ((e.1, w) :: _)) = _
          rw [List.find?_cons_of_neg (by simpa using he)]
  exact hfind m.entries m.nodup

theorem get_filterMapEntries_unless (m : OrderedMap K V) (drop : K → V → Prop) [∀ k v, Decidable (drop k v)]
    {k : K} {v : V} :
    (m.filterMapEntries fun k v => if drop k v then none else some v).get k = some v ↔
    m.get k = some v ∧ ¬ drop k v := by
  rw [get_filterMapEntries, Option.bind_eq_some_iff]
  constructor
  · rintro ⟨w, hw, hkept⟩
    split at hkept
    · cases hkept
    · next hdrop =>
      obtain rfl := Option.some.inj hkept
      exact ⟨hw, hdrop⟩
  · rintro ⟨hv, hdrop⟩
    exact ⟨v, hv, if_neg hdrop⟩

theorem get_foldl_set (es : List (K × V)) (m : OrderedMap K V) (k : K)
    (h : k ∉ es.map Prod.fst) : (es.foldl (fun m e => m.set e.1 e.2) m).get k = m.get k := by
  induction es generalizing m with
  | nil => rfl
  | cons e es ih =>
    simp only [List.map_cons, List.mem_cons, not_or] at h
    rw [List.foldl_cons, ih _ h.2, get_set_of_ne _ _ h.1]

omit [DecidableEq K] in
theorem map_fst_zip {α : Type} (key : α → K) {l : List α} {vs : List V} (h : l.length ≤ vs.length) :
    ((l.zip vs).map fun e => (key e.1, e.2)).map Prod.fst = l.map key := by
  have hfst : (l.zip vs).map Prod.fst = l := List.map_fst_zip h
  conv_rhs => rw [← hfst]
  rw [List.map_map, List.map_map]
  rfl

theorem get_foldl_set_exists (es : List (K × V)) (m : OrderedMap K V) {k : K} (hk : k ∈ es.map Prod.fst) :
    ∃ v, (k, v) ∈ es ∧ (es.foldl (fun m e => m.set e.1 e.2) m).get k = some v := by
  induction es generalizing m with
  | nil => cases hk
  | cons e es ih =>
    rw [List.foldl_cons]
    by_cases hes : k ∈ es.map Prod.fst
    · obtain ⟨v, hv, hget⟩ := ih (m.set e.1 e.2) hes
      exact ⟨v, List.mem_cons_of_mem _ hv, hget⟩
    · obtain rfl | hin := List.mem_cons.mp hk
      · exact ⟨e.2, List.mem_cons_self .., by rw [get_foldl_set _ _ _ hes, get_set_self]⟩
      · exact absurd hin hes

theorem get_foldl_set_mem (es : List (K × V)) (hes : (es.map Prod.fst).Nodup) (m : OrderedMap K V)
    {k : K} {v : V} (h : (k, v) ∈ es) :
    (es.foldl (fun m e => m.set e.1 e.2) m).get k = some v := by
  induction es generalizing m with
  | nil => simp at h
  | cons e es ih =>
    have hcons := List.nodup_cons.mp hes
    rw [List.foldl_cons]
    rcases List.mem_cons.mp h with rfl | h
    · rw [get_foldl_set _ _ _ hcons.1, get_set_self]
    · exact ih hcons.2 _ h

theorem get_ofList_of_mem {es : List (K × V)} (hes : (es.map Prod.fst).Nodup) {k : K} {v : V}
    (h : (k, v) ∈ es) : (ofList es).get k = some v :=
  get_foldl_set_mem es hes empty h

theorem get_ofList_of_notMem {es : List (K × V)} {k : K} (h : k ∉ es.map Prod.fst) :
    (ofList es).get k = none := by
  rw [ofList, get_foldl_set es empty k h, get_empty]

theorem get_keyed_iff {key : V → K} {vs : List V} (hvs : (vs.map key).Nodup) {k : K} {v : V} :
    (ofList (vs.map fun v => (key v, v))).get k = some v ↔ v ∈ vs ∧ key v = k := by
  have hkeys : ((vs.map fun v => (key v, v)).map Prod.fst).Nodup := by
    rw [List.map_map]
    exact hvs
  constructor
  · intro h
    have hk : k ∈ (vs.map fun v => (key v, v)).map Prod.fst := by
      by_contra hnot
      rw [get_ofList_of_notMem hnot] at h
      cases h
    obtain ⟨e, he, rfl⟩ := List.mem_map.mp hk
    rw [get_ofList_of_mem hkeys he] at h
    obtain ⟨w, hw, rfl⟩ := List.mem_map.mp he
    obtain rfl := Option.some.inj h
    exact ⟨hw, rfl⟩
  · rintro ⟨hv, rfl⟩
    exact get_ofList_of_mem hkeys (List.mem_map_of_mem hv)

theorem mem_keys_ofList {es : List (K × V)} {k : K} (h : k ∈ (ofList es).keys) : k ∈ es.map Prod.fst := by
  by_contra hk
  exact (get_eq_none_iff _ _).mp (get_ofList_of_notMem hk) h

theorem filter_key_eq {f : V → K} {l : List V} (hl : (l.map f).Nodup) {s : V} (hs : s ∈ l) :
    l.filter (fun t => decide (f t = f s)) = [s] := by
  induction l with
  | nil => simp at hs
  | cons t l ih =>
    obtain ⟨ht, hl⟩ := List.nodup_cons.mp hl
    rcases List.mem_cons.mp hs with rfl | hs
    · have hnone : l.filter (fun t => decide (f t = f s)) = [] := by
        rw [List.filter_eq_nil_iff]
        intro u hu hus
        apply ht
        rw [← of_decide_eq_true hus]
        exact List.mem_map_of_mem hu
      rw [List.filter_cons_of_pos (by simp), hnone]
    · have hne : f t ≠ f s := by
        intro he
        apply ht
        rw [he]
        exact List.mem_map_of_mem hs
      rw [List.filter_cons_of_neg (by simpa using hne), ih hl hs]

section Related

variable {W : Type} {R : K → V → W → Prop}

def Related (R : K → V → W → Prop) (a : OrderedMap K V) (b : OrderedMap K W) : Prop :=
  List.Forall₂ (fun e f => e.1 = f.1 ∧ R e.1 e.2 f.2) a.entries b.entries

omit [DecidableEq K] in
theorem related_empty : Related R (empty : OrderedMap K V) empty := List.Forall₂.nil

theorem putEntry_related {k : K} {v : V} {w : W} (hvw : R k v w) {es : List (K × V)} {fs : List (K × W)}
    (h : List.Forall₂ (fun e f => e.1 = f.1 ∧ R e.1 e.2 f.2) es fs) :
    List.Forall₂ (fun e f => e.1 = f.1 ∧ R e.1 e.2 f.2) (putEntry k v es) (putEntry k w fs) := by
  induction h with
  | nil => exact .cons ⟨rfl, hvw⟩ .nil
  | cons hhead htail ih =>
    rw [putEntry, putEntry, ← hhead.1]
    split
    · exact .cons ⟨rfl, hvw⟩ htail
    · exact .cons hhead ih

theorem Related.set {a : OrderedMap K V} {b : OrderedMap K W} (h : Related R a b) {k : K} {v : V} {w : W}
    (hvw : R k v w) :
    Related R (a.set k v) (b.set k w) :=
  putEntry_related hvw h

theorem filter_related {k : K} {es : List (K × V)} {fs : List (K × W)}
    (h : List.Forall₂ (fun e f => e.1 = f.1 ∧ R e.1 e.2 f.2) es fs) :
    List.Forall₂ (fun e f => e.1 = f.1 ∧ R e.1 e.2 f.2) (es.filter fun e => e.1 ≠ k)
      (fs.filter fun f => f.1 ≠ k) := by
  induction h with
  | nil => exact .nil
  | cons hhead htail ih =>
    rw [List.filter_cons, List.filter_cons, ← hhead.1]
    split
    · exact .cons hhead ih
    · exact ih

theorem Related.delete {a : OrderedMap K V} {b : OrderedMap K W} (h : Related R a b) (k : K) :
    Related R (a.delete k) (b.delete k) :=
  filter_related h

theorem foldl_set_append (es fs : List (K × V)) (m : OrderedMap K V) (hm : m.entries = es)
    (h : ((es ++ fs).map Prod.fst).Nodup) :
    (fs.foldl (fun m e => m.set e.1 e.2) m).entries = es ++ fs := by
  induction fs generalizing es m with
  | nil => rw [List.append_nil, List.foldl_nil, hm]
  | cons f fs ih =>
    have hfresh : f.1 ∉ m.keys := by
      unfold keys
      rw [hm]
      rw [List.map_append, List.map_cons, List.nodup_append] at h
      exact fun hmem => h.2.2 f.1 hmem f.1 (List.mem_cons_self ..) rfl
    rw [List.foldl_cons, List.append_cons]
    refine ih (es ++ [f]) _ ?_ (by rwa [← List.append_cons])
    rw [entries_set_of_notMem f.2 hfresh, hm]

theorem ofList_entries (m : OrderedMap K V) : ofList m.entries = m := by
  have hentries : (ofList m.entries).entries = m.entries := foldl_set_append [] m.entries empty rfl m.nodup
  cases hm : ofList m.entries
  cases m
  simpa [hm] using hentries

end Related

end OrderedMap

end OpenOutliner.Foundations
