import OpenOutliner.Server.ItemsRepo
import Mathlib.Data.Prod.Lex
import Mathlib.Logic.Relation

namespace OpenOutliner

open Foundations Relation

abbrev Entry (Uuid : Type) := Uuid × ItemRow Uuid

section Query

variable {Uuid K : Type} [LinearOrder Uuid] [LinearOrder K]

def liveChildren (items : Items Uuid) (parentId : Option Uuid) : List (Entry Uuid) :=
  items.entries.filter fun e => e.2.parentId = parentId ∧ e.2.deletedAt = none

/-- The recursive query from a working table on: its rows with their level, then the rows under them. The
bound is checked for the level that comes next. -/
def subtreeFrom (items : Items Uuid) (depth : ℕ) : ℕ → ℕ → List (Entry Uuid) → List (ℕ × Entry Uuid)
  | 0, _, _ => []
  | fuel + 1, level, working => working.map (fun e => (level, e)) ++
      if level + 1 ≤ depth then subtreeFrom items depth fuel (level + 1)
        (working.flatMap fun s => liveChildren items (some s.1))
      else []

def sortKey (collate : JsString → K) (e : ℕ × Entry Uuid) : ℕ ×ₗ K ×ₗ Uuid :=
  toLex (e.1, toLex (collate e.2.2.rank, e.2.1))

/-- `collate` is the order of the rank column. The recursion takes a turn for each level up to the bound. -/
def getSubtree (collate : JsString → K) (items : Items Uuid) (parentId : Option Uuid) (depth : ℕ) :
    List (Entry Uuid) :=
  ((subtreeFrom items depth (depth + 1) 0 (liveChildren items parentId)).insertionSort fun a b =>
    sortKey collate a ≤ sortKey collate b).map Prod.snd

inductive Below (items : Items Uuid) (parentId : Option Uuid) : ℕ → Entry Uuid → Prop
  | child {e : Entry Uuid} : e ∈ items.entries → e.2.deletedAt = none → e.2.parentId = parentId →
      Below items parentId 1 e
  | deeper {n : ℕ} {s e : Entry Uuid} : Below items parentId n s → e ∈ items.entries → e.2.deletedAt = none →
      e.2.parentId = some s.1 → Below items parentId (n + 1) e

def ParentRow (items : Items Uuid) (u p : Uuid) : Prop :=
  ∃ row, items.get u = some row ∧ row.parentId = some p

def Acyclic (items : Items Uuid) : Prop := ∀ u, ¬ TransGen (ParentRow items) u u

/-- The rows at distance 1 to `depth`, each once, by distance, rank and id. -/
structure DepthExact (collate : JsString → K) (items : Items Uuid) (parentId : Option Uuid) (depth : ℕ)
    (rows : List (Entry Uuid)) : Prop where
  nodup : rows.Nodup
  mem_iff : ∀ e, e ∈ rows ↔ ∃ n, 1 ≤ n ∧ n ≤ depth ∧ Below items parentId n e
  sorted : rows.Pairwise fun a b => ∀ n m, Below items parentId n a → Below items parentId m b → n < m ∨
    n = m ∧ (collate a.2.rank < collate b.2.rank ∨ collate a.2.rank = collate b.2.rank ∧ a.1 < b.1)

variable {collate : JsString → K} {items : Items Uuid} {parentId : Option Uuid} {e s : Entry Uuid}
  {n m k depth : ℕ}

theorem mem_liveChildren : e ∈ liveChildren items parentId ↔
    e ∈ items.entries ∧ e.2.deletedAt = none ∧ e.2.parentId = parentId := by
  simp [liveChildren, and_comm]

def levelRows (items : Items Uuid) (parentId : Option Uuid) : ℕ → List (Entry Uuid)
  | 0 => liveChildren items parentId
  | k + 1 => (levelRows items parentId k).flatMap fun s => liveChildren items (some s.1)

theorem Below.pos (h : Below items parentId n e) : 1 ≤ n := by
  cases h <;> omega

theorem mem_levelRows : e ∈ levelRows items parentId k ↔ Below items parentId (k + 1) e := by
  induction k generalizing e with
  | zero =>
    rw [levelRows, mem_liveChildren]
    constructor
    · rintro ⟨hmem, hlive, hparent⟩
      exact .child hmem hlive hparent
    · rintro (⟨hmem, hlive, hparent⟩ | ⟨h, -⟩)
      · exact ⟨hmem, hlive, hparent⟩
      · exact absurd h.pos (by omega)
  | succ k ih =>
    rw [levelRows, List.mem_flatMap]
    constructor
    · rintro ⟨s, hs, he⟩
      obtain ⟨hmem, hlive, hparent⟩ := mem_liveChildren.mp he
      exact .deeper (ih.mp hs) hmem hlive hparent
    · rintro (_ | ⟨h, hmem, hlive, hparent⟩)
      exact ⟨_, ih.mpr h, mem_liveChildren.mpr ⟨hmem, hlive, hparent⟩⟩

omit [LinearOrder Uuid] in
theorem entries_unique {items : OrderedMap Uuid (ItemRow Uuid)} (he : e ∈ items.entries)
    (hs : s ∈ items.entries) (h : e.1 = s.1) : e = s :=
  List.inj_on_of_nodup_map items.nodup he hs h

theorem levelRows_nodup (items : Items Uuid) (parentId : Option Uuid) (k : ℕ) :
    (levelRows items parentId k).Nodup := by
  have hchildren : ∀ p, (liveChildren items p).Nodup := fun p => (List.Nodup.of_map _ items.nodup).filter _
  induction k with
  | zero => exact hchildren parentId
  | succ k ih =>
    rw [levelRows, List.nodup_flatMap]
    refine ⟨fun s _ => hchildren (some s.1), ih.imp_of_mem ?_⟩
    intro s s' hs hs' hne e he he'
    have hparent := (mem_liveChildren.mp he).2.2
    rw [(mem_liveChildren.mp he').2.2] at hparent
    have hin : ∀ {s}, s ∈ levelRows items parentId k → s ∈ items.entries := by
      intro s hs
      cases mem_levelRows.mp hs with
      | child hmem => exact hmem
      | deeper _ hmem => exact hmem
    exact hne (entries_unique (hin hs) (hin hs') (Option.some.inj hparent).symm)

theorem Below.mem (h : Below items parentId n e) : e ∈ items.entries := by
  cases h <;> assumption

theorem parentRow_of (he : e ∈ items.entries) {p : Uuid} (h : e.2.parentId = some p) :
    ParentRow items e.1 p :=
  ⟨e.2, (items.mem_entries_iff e.1 e.2).mp he, h⟩

theorem Below.path (h : Below items parentId n e) : ∀ p ∈ parentId, TransGen (ParentRow items) e.1 p := by
  induction h with
  | child hmem _ hparent =>
    intro p hp
    exact .single (parentRow_of hmem (hparent.trans hp))
  | deeper _ hmem _ hparent ih => exact fun p hp => .head (parentRow_of hmem hparent) (ih p hp)

theorem Below.unique (hacyclic : Acyclic items) (h : Below items parentId n e)
    (h' : Below items parentId m e) : n = m := by
  have hnever : ∀ {s : Entry Uuid} {n}, Below items parentId n s → some s.1 ≠ parentId := by
    intro s n hs hp
    exact hacyclic s.1 (hs.path s.1 hp.symm)
  induction h generalizing m with
  | child _ _ hparent =>
    cases h' with
    | child => rfl
    | deeper hs _ _ hparent' => exact absurd (hparent'.symm.trans hparent) (hnever hs)
  | deeper hs hmem _ hparent ih =>
    cases h' with
    | child _ _ hparent' => exact absurd (hparent.symm.trans hparent') (hnever hs)
    | deeper hs' _ _ hparent' =>
      have hsame := entries_unique hs.mem hs'.mem (Option.some.inj (hparent.symm.trans hparent'))
      rw [ih (hsame ▸ hs')]

theorem mem_subtreeFrom {fuel : ℕ} (hfuel : k + fuel = depth + 1) :
    (m, e) ∈ subtreeFrom items depth fuel k (levelRows items parentId k) ↔
    k ≤ m ∧ m ≤ depth ∧ e ∈ levelRows items parentId m := by
  induction fuel generalizing k with
  | zero =>
    simp only [subtreeFrom, List.not_mem_nil, false_iff]
    omega
  | succ fuel ih =>
    have hhead : (m, e) ∈ (levelRows items parentId k).map (fun e => (k, e)) ↔
        k = m ∧ e ∈ levelRows items parentId k := by
      rw [List.mem_map]
      constructor
      · rintro ⟨e', he', heq⟩
        obtain ⟨rfl, rfl⟩ := Prod.mk.inj heq
        exact ⟨rfl, he'⟩
      · rintro ⟨rfl, he⟩
        exact ⟨e, he, rfl⟩
    rw [subtreeFrom, List.mem_append, hhead]
    by_cases hbound : k + 1 ≤ depth
    · rw [if_pos hbound]
      change _ ∨ (m, e) ∈ subtreeFrom items depth fuel (k + 1) (levelRows items parentId (k + 1)) ↔ _
      rw [ih (by omega)]
      constructor
      · rintro (⟨rfl, he⟩ | ⟨hk, hm, he⟩)
        · exact ⟨le_rfl, by omega, he⟩
        · exact ⟨by omega, hm, he⟩
      · rintro ⟨hk, hm, he⟩
        rcases hk.eq_or_lt with rfl | hlt
        · exact Or.inl ⟨rfl, he⟩
        · exact Or.inr ⟨hlt, hm, he⟩
    · rw [if_neg hbound, or_iff_left (List.not_mem_nil)]
      constructor
      · rintro ⟨rfl, he⟩
        exact ⟨le_rfl, by omega, he⟩
      · rintro ⟨hk, hm, he⟩
        obtain rfl : k = m := by omega
        exact ⟨rfl, he⟩

theorem subtreeFrom_nodup {fuel : ℕ} (hacyclic : Acyclic items) (hfuel : k + fuel = depth + 1) :
    ((subtreeFrom items depth fuel k (levelRows items parentId k)).map Prod.snd).Nodup := by
  induction fuel generalizing k with
  | zero => exact List.nodup_nil
  | succ fuel ih =>
    rw [subtreeFrom, List.map_append, List.map_map]
    have hhead : (levelRows items parentId k).map (Prod.snd ∘ fun e => (k, e)) =
        levelRows items parentId k := List.map_id _
    rw [hhead]
    by_cases hbound : k + 1 ≤ depth
    · rw [if_pos hbound]
      change (_ ++
        (subtreeFrom items depth fuel (k + 1) (levelRows items parentId (k + 1))).map Prod.snd).Nodup
      refine List.nodup_append.mpr ⟨levelRows_nodup items parentId k, ih (by omega), ?_⟩
      rintro e he _ he' rfl
      obtain ⟨⟨m, _⟩, hm, rfl⟩ := List.mem_map.mp he'
      obtain ⟨hkm, -, hlevel⟩ := (mem_subtreeFrom (by omega)).mp hm
      have heq := (mem_levelRows.mp he).unique hacyclic (mem_levelRows.mp hlevel)
      omega
    · rw [if_neg hbound, List.map_nil, List.append_nil]
      exact levelRows_nodup items parentId k

theorem mem_getSubtree : e ∈ getSubtree collate items parentId depth ↔
    ∃ n, 1 ≤ n ∧ n ≤ depth + 1 ∧ Below items parentId n e := by
  rw [getSubtree, List.mem_map]
  constructor
  · rintro ⟨⟨m, e⟩, hm, rfl⟩
    obtain ⟨-, hm, he⟩ := (mem_subtreeFrom (by omega)).mp ((List.mem_insertionSort _).mp hm)
    exact ⟨m + 1, by omega, by omega, mem_levelRows.mp he⟩
  · rintro ⟨n, hpos, hn, he⟩
    obtain ⟨m, rfl⟩ : ∃ m, n = m + 1 := ⟨n - 1, by omega⟩
    exact ⟨(m, e), (List.mem_insertionSort _).mpr
      ((mem_subtreeFrom (by omega)).mpr ⟨by omega, by omega, mem_levelRows.mpr he⟩), rfl⟩

theorem getSubtree_exact (hacyclic : Acyclic items) :
    DepthExact collate items parentId (depth + 1) (getSubtree collate items parentId depth) := by
  have hperm := List.perm_insertionSort (fun a b => sortKey collate a ≤ sortKey collate b)
    (subtreeFrom items depth (depth + 1) 0 (liveChildren items parentId))
  have hnd : (getSubtree collate items parentId depth).Nodup :=
    (hperm.map Prod.snd).nodup_iff.mpr (subtreeFrom_nodup (k := 0) hacyclic (by omega))
  refine ⟨hnd, fun e => mem_getSubtree, ?_⟩
  have htotal : Std.Total fun a b : ℕ × Entry Uuid => sortKey collate a ≤ sortKey collate b :=
    ⟨fun a b => le_total _ _⟩
  have htrans : IsTrans (ℕ × Entry Uuid) fun a b => sortKey collate a ≤ sortKey collate b :=
    ⟨fun a b c => le_trans⟩
  have hsorted := List.pairwise_insertionSort (fun a b => sortKey collate a ≤ sortKey collate b)
    (subtreeFrom items depth (depth + 1) 0 (liveChildren items parentId))
  rw [getSubtree, List.pairwise_map]
  rw [getSubtree, List.Nodup, List.pairwise_map] at hnd
  refine (hsorted.and hnd).imp_of_mem ?_
  rintro ⟨i, a⟩ ⟨j, b⟩ ha hb ⟨hle, hne⟩ n m hn hm
  obtain ⟨-, -, ha⟩ := (mem_subtreeFrom (by omega)).mp ((List.mem_insertionSort _).mp ha)
  obtain ⟨-, -, hb⟩ := (mem_subtreeFrom (by omega)).mp ((List.mem_insertionSort _).mp hb)
  obtain rfl := (mem_levelRows.mp ha).unique hacyclic hn
  obtain rfl := (mem_levelRows.mp hb).unique hacyclic hm
  rw [sortKey, sortKey, Prod.Lex.toLex_le_toLex, Prod.Lex.toLex_le_toLex] at hle
  rcases hle with hlt | ⟨rfl, hlt | ⟨hrank, hid⟩⟩
  · exact Or.inl (by dsimp only at hlt; omega)
  · exact Or.inr ⟨rfl, Or.inl hlt⟩
  · refine Or.inr ⟨rfl, Or.inr ⟨hrank, hid.lt_of_ne fun heq => hne ?_⟩⟩
    exact entries_unique hn.mem hm.mem heq

end Query

/-- On a table without cycles the query is exact for its depth if and only if no live chain is longer. -/
theorem getSubtree_exact_iff {Uuid K : Type} [LinearOrder Uuid] [LinearOrder K] (collate : JsString → K)
    {items : Items Uuid} (hacyclic : Acyclic items) (parentId : Option Uuid) (depth : ℕ) :
    DepthExact collate items parentId depth (getSubtree collate items parentId depth) ↔
      ∀ e, ¬ Below items parentId (depth + 1) e := by
  have hnext : DepthExact collate items parentId (depth + 1) (getSubtree collate items parentId depth) :=
    getSubtree_exact hacyclic
  constructor
  · intro h e he
    obtain ⟨n, -, hn, he'⟩ := (h.mem_iff e).mp ((hnext.mem_iff e).mpr ⟨depth + 1, by omega, le_rfl, he⟩)
    have heq := he.unique hacyclic he'
    omega
  · intro hno
    refine ⟨hnext.nodup, fun e => ?_, hnext.sorted⟩
    rw [hnext.mem_iff]
    constructor
    · rintro ⟨n, hpos, hn, he⟩
      refine ⟨n, hpos, ?_, he⟩
      by_contra hlt
      obtain rfl : n = depth + 1 := by omega
      exact hno e he
    · rintro ⟨n, hpos, hn, he⟩
      exact ⟨n, hpos, by omega, he⟩

section Example

def outlineRow (parentId : Option Bool) : ItemRow Bool :=
  ⟨parentId, js ['a', '0'], .bullet, [], none, false, false, none, 1⟩

def rootAndChild : Items Bool := .ofList [(false, outlineRow none), (true, outlineRow (some false))]

theorem rootAndChild_acyclic : Acyclic rootAndChild := by
  have hedge : ∀ {u p}, ParentRow rootAndChild u p → u = true ∧ p = false := by
    rintro u p ⟨row, hrow, hparent⟩
    cases u with
    | false =>
      obtain rfl : outlineRow none = row := Option.some.inj hrow
      cases hparent
    | true =>
      obtain rfl : outlineRow (some false) = row := Option.some.inj hrow
      exact ⟨rfl, (Option.some.inj hparent).symm⟩
  intro u hcyc
  obtain ⟨v, huv, -⟩ := TransGen.head'_iff.mp hcyc
  obtain ⟨w, -, hwu⟩ := TransGen.tail'_iff.mp hcyc
  have hcontra := (hedge huv).1
  rw [(hedge hwu).2] at hcontra
  cases hcontra

theorem getSubtree_too_deep : Acyclic rootAndChild ∧
    ¬ DepthExact id rootAndChild none 1 (getSubtree id rootAndChild none 1) := by
  refine ⟨rootAndChild_acyclic, fun h => ?_⟩
  have hmem : (true, outlineRow (some false)) ∈ getSubtree id rootAndChild none 1 := by decide
  obtain ⟨n, hpos, hn, hbelow⟩ := (h.mem_iff _).mp hmem
  obtain rfl : n = 1 := by omega
  rcases hbelow with ⟨-, -, hparent⟩ | ⟨hs, -⟩
  · cases hparent
  · exact absurd hs.pos (by omega)

theorem getSubtree_exact_iff_rootAndChild :
    DepthExact id rootAndChild none 2 (getSubtree id rootAndChild none 2) := by
  refine (getSubtree_exact_iff id rootAndChild_acyclic none 2).mpr ?_
  rintro e (_ | ⟨_ | ⟨-, hs, -, hroot⟩, he, -, hchild⟩)
  have hrows : ∀ r ∈ rootAndChild.entries, r.2.parentId = none ∨ r.2.parentId = some false ∧
      r.1 = true := by decide
  rcases hrows _ he with hnone | ⟨hparent, -⟩
  · cases hnone.symm.trans hchild
  · rcases hrows _ hs with hnone | ⟨-, hid⟩
    · cases hnone.symm.trans hroot
    · cases (hid.symm.trans (Option.some.inj (hchild.symm.trans hparent)))

end Example

end OpenOutliner
