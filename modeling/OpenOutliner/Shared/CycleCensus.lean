import OpenOutliner.Shared.CycleRepairs
import Mathlib.Data.List.Rotate

namespace OpenOutliner

open Foundations Relation

section Fuel

variable {nodes : List CycleNode} {settled : Finset JsString} {fuel more : ℕ}

theorem tracePath_mono {byId : OrderedMap JsString CycleNode} {path : List JsString} {cur : Option CycleNode}
    {found : List JsString × Option (List JsString)} (hle : fuel ≤ more)
    (h : tracePath byId settled fuel path cur = some found) :
    tracePath byId settled more path cur = some found := by
  induction fuel generalizing more path cur with
  | zero => cases h
  | succ fuel ih =>
    obtain ⟨more, rfl⟩ : ∃ m, more = m + 1 := ⟨more - 1, by omega⟩
    cases cur with
    | none => exact h
    | some cur =>
      rw [tracePath] at h ⊢
      by_cases hs : cur.id ∈ settled
      · rwa [if_pos hs] at h ⊢
      rw [if_neg hs] at h ⊢
      by_cases hp : cur.id ∈ path
      · rwa [if_pos hp] at h ⊢
      rw [if_neg hp] at h ⊢
      by_cases hr : isRootParent cur.parentId = true
      · rwa [if_pos hr] at h ⊢
      rw [if_neg hr] at h ⊢
      exact ih (by omega) h

theorem detectCyclesWithin_mono {cycles : List (List JsString)} (hle : fuel ≤ more)
    (h : detectCyclesWithin fuel nodes = some cycles) : detectCyclesWithin more nodes = some cycles := by
  obtain ⟨acc, hfold, rfl⟩ := Option.map_eq_some_iff.mp h
  refine Option.map_eq_some_iff.mpr ⟨acc, foldlM_mono ?_ hfold, rfl⟩
  intro acc start acc' hstep
  rw [detectFrom] at hstep ⊢
  split at hstep
  · rename_i hs
    rwa [if_pos hs]
  · rename_i hs
    obtain ⟨found, htrace, rfl⟩ := Option.map_eq_some_iff.mp hstep
    rw [if_neg hs, tracePath_mono hle htrace]
    rfl

theorem detectCyclesWithin_eq (hnd : (nodeIds nodes).Nodup) (hfuel : nodes.length < fuel) :
    detectCyclesWithin fuel nodes = some (detectCycles nodes) := by
  obtain ⟨cycles, hcycles, -⟩ := detectCyclesWithin_spec hnd (Nat.lt_succ_self nodes.length)
  rw [detectCycles, hcycles, Option.getD_some]
  exact detectCyclesWithin_mono hfuel hcycles

end Fuel

section Rotation

variable {nodes : List CycleNode} {a d : List JsString} {x : JsString}

theorem IsCycle.in_step (hnd : (nodeIds nodes).Nodup) (hc : IsCycle nodes a) (hd : IsCycle nodes d)
    {i j : ℕ} {x : JsString} (hi : a[i]? = some x) (hj : d[j]? = some x) (k : ℕ) :
    ∃ y, a[(i + k) % a.length]? = some y ∧ d[(j + k) % d.length]? = some y := by
  have hpos : ∀ {l : List JsString} {n : ℕ}, l[n]? = some x → n < l.length :=
    fun h => (List.getElem?_eq_some_iff.mp h).1
  induction k with
  | zero =>
    rw [Nat.add_zero, Nat.add_zero, Nat.mod_eq_of_lt (hpos hi), Nat.mod_eq_of_lt (hpos hj)]
    exact ⟨x, hi, hj⟩
  | succ k ih =>
    obtain ⟨y, hy, hy'⟩ := ih
    have hlt : (i + (k + 1)) % a.length < a.length := Nat.mod_lt _ (by have := hpos hi; omega)
    have hlt' : (j + (k + 1)) % d.length < d.length := Nat.mod_lt _ (by have := hpos hj; omega)
    have hedge :=
      hc.edges _ _ _ hy (by rw [Nat.mod_add_mod, Nat.add_assoc]; exact List.getElem?_eq_getElem hlt)
    have hedge' :=
      hd.edges _ _ _ hy' (by rw [Nat.mod_add_mod, Nat.add_assoc]; exact List.getElem?_eq_getElem hlt')
    exact ⟨_, List.getElem?_eq_getElem hlt,
      parentEdge_unique hnd hedge' hedge ▸ List.getElem?_eq_getElem hlt'⟩

theorem IsCycle.perm (hnd : (nodeIds nodes).Nodup) (hc : IsCycle nodes a) (hd : IsCycle nodes d) (hx : x ∈ a)
    (hx' : x ∈ d) : a.Perm d := by
  apply (List.perm_ext_iff_of_nodup hc.nodup hd.nodup).mpr
  intro y
  rw [hc.mem_iff hnd hx, hd.mem_iff hnd hx']

theorem IsCycle.isRotated (hnd : (nodeIds nodes).Nodup) (hc : IsCycle nodes a) (hd : IsCycle nodes d)
    (hx : x ∈ a) (hx' : x ∈ d) : a.IsRotated d := by
  have hlen : a.length = d.length := (hc.perm hnd hd hx hx').length_eq
  obtain ⟨i, hi⟩ := List.getElem?_of_mem hx
  obtain ⟨j, hj⟩ := List.getElem?_of_mem hx'
  have hsame : a.rotate i = d.rotate j := by
    apply List.ext_getElem
    · rw [List.length_rotate, List.length_rotate, hlen]
    · intro k _ _
      rw [List.getElem_rotate, List.getElem_rotate]
      obtain ⟨y, hy, hy'⟩ := hc.in_step hnd hd hi hj k
      obtain ⟨_, hat⟩ := List.getElem?_eq_some_iff.mp hy
      obtain ⟨_, hat'⟩ := List.getElem?_eq_some_iff.mp hy'
      simp only [Nat.add_comm k]
      exact hat.trans hat'.symm
  have hrot : (a.rotate i).IsRotated d := hsame ▸ List.IsRotated.forall d j
  exact (List.IsRotated.forall a i).symm.trans hrot

end Rotation

/-- The walks finish; what is returned are loops, apart from each other, and each loop is
returned at one place. -/
theorem detectCycles_lists_each_cycle_once (nodes : List CycleNode) (hnd : (nodeIds nodes).Nodup) :
    (∀ fuel, nodes.length < fuel → detectCyclesWithin fuel nodes = some (detectCycles nodes)) ∧
    (∀ c ∈ detectCycles nodes, IsCycle nodes c) ∧
    (∀ c, IsCycle nodes c → ∃! i : ℕ, ∃ d : List JsString, (detectCycles nodes)[i]? = some d ∧
      d.IsRotated c) ∧
    (∀ x, TransGen (ParentEdge nodes) x x ↔ ∃ c ∈ detectCycles nodes, x ∈ c) ∧
    (detectCycles nodes).Pairwise List.Disjoint := by
  obtain ⟨hsound, hcomplete, hdisjoint⟩ := detectCycles_spec hnd
  refine ⟨fun fuel hfuel => detectCyclesWithin_eq hnd hfuel, hsound, ?_, ?_, hdisjoint⟩
  · intro c hc
    obtain ⟨x, hx⟩ := List.exists_mem_of_ne_nil c hc.ne_nil
    obtain ⟨d, hd, hxd⟩ := hcomplete x (hc.connected hx hx)
    obtain ⟨i, hi⟩ := List.getElem?_of_mem hd
    refine ⟨i, ⟨d, hi, (hsound d hd).isRotated hnd hc hxd hx⟩, ?_⟩
    rintro j ⟨e, hj, hrot⟩
    have hxe : x ∈ e := hrot.mem_iff.mpr hx
    by_contra hne
    obtain ⟨hilt, hid⟩ := List.getElem?_eq_some_iff.mp hi
    obtain ⟨hjlt, hje⟩ := List.getElem?_eq_some_iff.mp hj
    have happart := List.pairwise_iff_getElem.mp hdisjoint
    rcases Nat.lt_or_gt_of_ne hne with hlt | hlt
    · exact happart j i hjlt hilt hlt (hje ▸ hxe) (hid ▸ hxd)
    · exact happart i j hilt hjlt hlt (hid ▸ hxd) (hje ▸ hxe)
  · intro x
    constructor
    · exact hcomplete x
    · rintro ⟨c, hc, hx⟩
      exact (hsound c hc).connected hx hx

theorem detectCycles_lists_each_cycle_once_twoLoops :
    (∀ c ∈ detectCycles twoLoops, IsCycle twoLoops c) ∧
      ∃! i : ℕ, ∃ d : List JsString, (detectCycles twoLoops)[i]? = some d ∧
      d.IsRotated [js ['y'], js ['x']] := by
  obtain ⟨-, hsound, honce, -⟩ := detectCycles_lists_each_cycle_once twoLoops (by decide)
  have hfound : IsCycle twoLoops [js ['x'], js ['y']] := hsound _ (by decide)
  obtain ⟨i, ⟨d, hd, hrot⟩, huniq⟩ := honce _ hfound
  have hturn : [js ['x'], js ['y']].IsRotated [js ['y'], js ['x']] := ⟨1, rfl⟩
  refine ⟨hsound, i, ⟨d, hd, hrot.trans hturn⟩, ?_⟩
  rintro j ⟨e, he, hrot'⟩
  exact huniq j ⟨e, he, hrot'.trans hturn.symm⟩

end OpenOutliner
