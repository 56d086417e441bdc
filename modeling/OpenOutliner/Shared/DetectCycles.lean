import OpenOutliner.Foundations.Redirect
import OpenOutliner.Foundations.Walk
import OpenOutliner.Shared.Cycle

namespace OpenOutliner

open Foundations Foundations.RootedOrbit Function Relation

def nodeIds (nodes : List CycleNode) : List JsString := nodes.map CycleNode.id

def ParentEdge (nodes : List CycleNode) (x y : JsString) : Prop :=
  ∃ n ∈ nodes, n.id = x ∧ n.parentId = y ∧ isRootParent y = false ∧ y ∈ nodeIds nodes

structure IsCycle (nodes : List CycleNode) (cycle : List JsString) : Prop where
  ne_nil : cycle ≠ []
  nodup : cycle.Nodup
  edges : ∀ i x y, cycle[i]? = some x → cycle[(i + 1) % cycle.length]? = some y → ParentEdge nodes x y

abbrev nodeMap (nodes : List CycleNode) : OrderedMap JsString CycleNode :=
  .ofList (nodes.map fun n => (n.id, n))

def parentOf (nodes : List CycleNode) (x : JsString) : Option JsString :=
  ((nodeMap nodes).get x).bind fun n =>
    if isRootParent n.parentId then none else ((nodeMap nodes).get n.parentId).map CycleNode.id

def up (nodes : List CycleNode) (o : Option JsString) : Option JsString := o.bind (parentOf nodes)

section Graph

variable {nodes : List CycleNode} {x y : JsString} {n : CycleNode}

theorem nodeMap_get (hnd : (nodeIds nodes).Nodup) : (nodeMap nodes).get x = some n ↔ n ∈ nodes ∧ n.id = x :=
  OrderedMap.get_keyed_iff hnd

theorem parentEdge_iff (hnd : (nodeIds nodes).Nodup) : ParentEdge nodes x y ↔ parentOf nodes x = some y := by
  rw [parentOf, Option.bind_eq_some_iff]
  constructor
  · rintro ⟨n, hn, rfl, rfl, hroot, hy⟩
    obtain ⟨m, hm, hid⟩ := List.mem_map.mp hy
    refine ⟨n, (nodeMap_get hnd).mpr ⟨hn, rfl⟩, ?_⟩
    rw [if_neg (by simp [hroot]), (nodeMap_get hnd).mpr ⟨hm, hid⟩, Option.map_some, hid]
  · rintro ⟨n, hget, hparent⟩
    obtain ⟨hn, rfl⟩ := (nodeMap_get hnd).mp hget
    split at hparent
    · cases hparent
    · rename_i hroot
      obtain ⟨m, hm, rfl⟩ := Option.map_eq_some_iff.mp hparent
      obtain ⟨hm, hid⟩ := (nodeMap_get hnd).mp hm
      rw [hid]
      exact ⟨n, hn, rfl, rfl, by simpa using hroot, hid ▸ List.mem_map_of_mem hm⟩

theorem up_some_iff (hnd : (nodeIds nodes).Nodup) : up nodes (some x) = some y ↔ ParentEdge nodes x y := by
  rw [parentEdge_iff hnd, up, Option.bind_some]

theorem parentEdge_unique (hnd : (nodeIds nodes).Nodup) : Relator.RightUnique (ParentEdge nodes) := by
  intro x y z hy hz
  rw [parentEdge_iff hnd] at hy hz
  exact Option.some.inj (hy.symm.trans hz)

theorem path_iff (hnd : (nodeIds nodes).Nodup) :
    TransGen (ParentEdge nodes) x y ↔ ∃ k, (up nodes)^[k + 1] (some x) = some y := by
  constructor
  · intro h
    induction h with
    | single h => exact ⟨0, (up_some_iff hnd).mpr h⟩
    | tail _ h ih =>
      obtain ⟨k, hk⟩ := ih
      exact ⟨k + 1, by rw [iterate_succ_apply', hk, (up_some_iff hnd).mpr h]⟩
  · rintro ⟨k, hk⟩
    induction k generalizing y with
    | zero => exact .single ((up_some_iff hnd).mp hk)
    | succ k ih =>
      rw [iterate_succ_apply'] at hk
      cases hmid : (up nodes)^[k + 1] (some x) with
      | none =>
        rw [hmid] at hk
        cases hk
      | some z =>
        rw [hmid] at hk
        exact (ih hmid).tail ((up_some_iff hnd).mp hk)

theorem onCycle_iff (hnd : (nodeIds nodes).Nodup) :
    TransGen (ParentEdge nodes) x x ↔ OnCycle (up nodes) none (some x) := by
  rw [path_iff hnd]
  constructor
  · rintro ⟨k, hk⟩
    exact ⟨by simp, k + 1, Nat.succ_pos k, hk⟩
  · rintro ⟨-, p, hp, hper⟩
    exact ⟨p - 1, by rw [Nat.sub_add_cancel hp]; exact hper⟩

end Graph

section Walk

variable {nodes : List CycleNode} {x y : JsString} {settled : Finset JsString} {w : Walk (Option JsString)}
  {c : List JsString}

def halts (settled : Finset JsString) (o : Option JsString) : Bool := o.all fun x => decide (x ∈ settled)

@[simp] theorem halts_none : halts settled none = true := rfl

@[simp] theorem halts_some : halts settled (some x) = true ↔ x ∈ settled := by simp [halts]

theorem tracePath_of_walk (hnd : (nodeIds nodes).Nodup) {fuel : ℕ} {path : List JsString}
    {cur : Option CycleNode} (hcur : ∀ n ∈ cur, n ∈ nodes)
    (h : walk (halts settled) (up nodes) fuel (path.map some) (cur.map CycleNode.id) = some w) :
    ∃ p c, tracePath (nodeMap nodes) settled fuel path cur = some (p, c) ∧ w.path = p.map some ∧
      (w.repeated = false → c = none) ∧ (w.repeated = true → ∃ l, c = some l ∧ w.cycle = l.map some) := by
  induction fuel generalizing path cur with
  | zero => cases h
  | succ fuel ih =>
    cases cur with
    | none =>
      rw [Option.map_none, walk, if_pos halts_none] at h
      obtain rfl := Option.some.inj h
      exact ⟨path, none, rfl, rfl, fun _ => rfl, by simp⟩
    | some n =>
      have hn : n ∈ nodes := hcur n rfl
      rw [Option.map_some, walk] at h
      rw [tracePath]
      by_cases hs : n.id ∈ settled
      · rw [if_pos (halts_some.mpr hs)] at h
        obtain rfl := Option.some.inj h
        rw [if_pos hs]
        exact ⟨path, none, rfl, rfl, fun _ => rfl, by simp⟩
      rw [if_neg fun hh => hs (halts_some.mp hh)] at h
      rw [if_neg hs]
      by_cases hp : n.id ∈ path
      · rw [if_pos (List.mem_map_of_mem hp)] at h
        obtain rfl := Option.some.inj h
        rw [if_pos hp]
        refine ⟨path, _, rfl, rfl, by simp, fun _ => ⟨_, rfl, ?_⟩⟩
        rw [Walk.cycle, List.map_drop]
        dsimp only
        rw [idxOf_map (Option.some_injective _)]
      have hp' : some n.id ∉ path.map some := by simpa using hp
      rw [if_neg hp'] at h
      rw [if_neg hp]
      have hsnoc : path.map some ++ [some n.id] = (path ++ [n.id]).map some := by simp
      rw [hsnoc] at h
      have hget : (nodeMap nodes).get n.id = some n := (nodeMap_get hnd).mpr ⟨hn, rfl⟩
      by_cases hr : isRootParent n.parentId = true
      · rw [if_pos hr]
        have hup : up nodes (some n.id) = none := by
          rw [up, Option.bind_some, parentOf, hget, Option.bind_some, if_pos hr]
        rw [hup] at h
        cases fuel with
        | zero => cases h
        | succ fuel =>
          rw [walk, if_pos halts_none] at h
          obtain rfl := Option.some.inj h
          exact ⟨_, none, rfl, rfl, fun _ => rfl, by simp⟩
      · rw [if_neg hr]
        have hup : up nodes (some n.id) = ((nodeMap nodes).get n.parentId).map CycleNode.id := by
          rw [up, Option.bind_some, parentOf, hget, Option.bind_some, if_neg hr]
        rw [hup] at h
        exact ih (fun m hm => ((nodeMap_get hnd).mp hm).1) h

structure Traced (nodes : List CycleNode) (settled : Finset JsString) (s : JsString) (p : List JsString)
    (c : Option (List JsString)) : Prop where
  start : s ∈ settled ∨ s ∈ p
  listed : ∀ x ∈ p, x ∈ nodeIds nodes
  fresh : ∀ x ∈ p, x ∉ settled
  next : ∀ x ∈ p, ∀ y, ParentEdge nodes x y → y ∈ settled ∨ y ∈ p
  found : ∀ l ∈ c, IsCycle nodes l ∧ ∀ x ∈ l, x ∈ p
  complete : ∀ x ∈ p, TransGen (ParentEdge nodes) x x → ∃ l ∈ c, x ∈ l
  first : s ∈ p → TransGen (ParentEdge nodes) s s → ∃ l ∈ c, l.head? = some s

theorem isCycle_of_iterate (hnd : (nodeIds nodes).Nodup) {cycle : List JsString} {o : Option JsString}
    {m : ℕ} (hm : 0 < m) (hc : cycle.map some = List.iterate (up nodes) o m)
    (hback : (up nodes)^[m] o = o) (hcnd : cycle.Nodup) : IsCycle nodes cycle := by
  have hlen : cycle.length = m := by
    have := congrArg List.length hc
    rwa [List.length_map, List.length_iterate] at this
  have hget : ∀ {i x}, cycle[i]? = some x → (up nodes)^[i] o = some x := by
    intro i x hi
    have hlt := (List.getElem?_eq_some_iff.mp hi).1
    have hat := congrArg (fun l => l[i]?) hc
    simp only [List.getElem?_map, hi, Option.map_some, List.getElem?_iterate _ _ _ _ (hlen ▸ hlt)] at hat
    exact (Option.some.inj hat).symm
  refine ⟨?_, hcnd, ?_⟩
  · rintro rfl
    simp at hlen
    omega
  · intro i x y hx hy
    rw [hlen] at hy
    rw [← up_some_iff hnd, ← hget hx, ← hget hy, ← iterate_succ_apply' (up nodes)]
    have hlt := (List.getElem?_eq_some_iff.mp hx).1
    by_cases hi : i + 1 = m
    · rw [Nat.succ_eq_add_one, hi, Nat.mod_self, hback, iterate_zero, id]
    · rw [Nat.mod_eq_of_lt (by omega)]

section Spec

variable (hnd : (nodeIds nodes).Nodup) {s : JsString} {k : ℕ} {p : List JsString}
  (hw : WalkSpec (halts settled) (up nodes) (some s) k w) (hp : w.path = p.map some)

include hw hp

theorem walked_iff : x ∈ p ↔ ∃ i < k, (up nodes)^[i] (some s) = some x := by
  have hx : x ∈ p ↔ some x ∈ w.path := by simp [hp]
  rw [hx, hw.path_eq, List.mem_iterate]
  simp only [eq_comm]

theorem walked_end (hx : x ∈ p) : ∃ i, (up nodes)^[i] (some x) = w.last := by
  obtain ⟨i, hi, hx⟩ := (walked_iff hw hp).mp hx
  exact ⟨k - i, by rw [← hx, ← iterate_add_apply, Nat.sub_add_cancel hi.le, hw.last_eq]⟩

include hnd

theorem walked_listed (hs : s ∈ nodeIds nodes) (hx : x ∈ p) : x ∈ nodeIds nodes := by
  obtain ⟨i, -, hi⟩ := (walked_iff hw hp).mp hx
  cases i with
  | zero => rwa [← Option.some.inj hi]
  | succ i =>
    obtain ⟨y, -, n, -, -, -, -, hin⟩ := TransGen.tail'_iff.mp ((path_iff hnd).mpr ⟨i, hi⟩)
    exact hin

theorem walked_next (hx : x ∈ p) (hedge : ParentEdge nodes x y) : y ∈ settled ∨ y ∈ p := by
  obtain ⟨i, hi, hx⟩ := (walked_iff hw hp).mp hx
  have hy : (up nodes)^[i + 1] (some s) = some y := by
    rw [iterate_succ_apply', hx, (up_some_iff hnd).mpr hedge]
  by_cases hlt : i + 1 < k
  · exact Or.inr ((walked_iff hw hp).mpr ⟨i + 1, hlt, hy⟩)
  · have hlast : w.last = some y := by rw [hw.last_eq, ← hy, show i + 1 = k by omega]
    cases hrep : w.repeated with
    | false => exact Or.inl (halts_some.mp (hlast ▸ hw.stopped hrep))
    | true =>
      have hin := (hw.looped hrep).2
      rw [hlast, hp] at hin
      exact Or.inr (by simpa using hin)

theorem walked_repeats (hclosed : ∀ x ∈ settled, ∀ y, ParentEdge nodes x y → y ∈ settled) (hx : x ∈ p)
    (hcyc : TransGen (ParentEdge nodes) x x) : w.repeated = true ∧ some x ∈ w.cycle := by
  have hon := (onCycle_iff hnd).mp hcyc
  obtain ⟨i, hi⟩ := walked_end hw hp hx
  cases hrep : w.repeated with
  | false =>
    exfalso
    have hmaps : Set.MapsTo (up nodes) {o | ∀ z, o = some z → z ∈ settled}
        {o | ∀ z, o = some z → z ∈ settled} := by
      intro o ho z hz
      cases o with
      | none => cases hz
      | some v => exact hclosed v (ho v rfl) z ((up_some_iff hnd).mp hz)
    have hin : (up nodes)^[i] (some x) ∈ {o | ∀ z, o = some z → z ∈ settled} := by
      intro z hz
      rw [hi] at hz
      exact halts_some.mp (hz ▸ hw.stopped hrep)
    obtain ⟨j, hj, hjx⟩ := (walked_iff hw hp).mp hx
    have hpushed := hw.pushed j hj
    rw [hjx, ← Bool.not_eq_true, halts_some] at hpushed
    exact hpushed (mem_of_iterate_mem hmaps hon.2 hin x rfl)
  | true =>
    obtain ⟨j, hj, -, hcycle, hback⟩ := hw.cycle hrep
    refine ⟨rfl, ?_⟩
    have hmaps : Set.MapsTo (up nodes) {o | o ∈ w.cycle} {o | o ∈ w.cycle} := by
      intro o ho
      change o ∈ w.cycle at ho
      change up nodes o ∈ w.cycle
      rw [hcycle, List.mem_iterate] at ho ⊢
      obtain ⟨m, hm, rfl⟩ := ho
      by_cases hlt : m + 1 < k - j
      · exact ⟨m + 1, hlt, (iterate_succ_apply' _ _ _).symm⟩
      · exact ⟨0, by omega, by rw [← iterate_succ_apply' (up nodes), Nat.succ_eq_add_one,
          show m + 1 = k - j by omega, hback, iterate_zero, id]⟩
    have hin : (up nodes)^[i] (some x) ∈ {o | o ∈ w.cycle} := by
      change _ ∈ w.cycle
      rw [hi, hcycle, List.mem_iterate]
      exact ⟨0, by omega, rfl⟩
    have hmem : some x ∈ {o | o ∈ w.cycle} := mem_of_iterate_mem hmaps hon.2 hin
    exact hmem

theorem walked_found (hrep : w.repeated = true) {l : List JsString} (hl : w.cycle = l.map some) :
    IsCycle nodes l ∧ ∀ x ∈ l, x ∈ p := by
  obtain ⟨j, hj, -, hcycle, hback⟩ := hw.cycle hrep
  have hsub : ∀ o ∈ w.cycle, o ∈ w.path := fun o ho => List.mem_of_mem_drop ho
  have hlnd : (l.map some).Nodup := hl ▸ hw.nodup.sublist (List.drop_sublist _ _)
  refine ⟨isCycle_of_iterate hnd (by omega) (hl ▸ hcycle) hback (List.Nodup.of_map _ hlnd), ?_⟩
  intro x hx
  have hin := hsub (some x) (hl ▸ List.mem_map_of_mem hx)
  rw [hp] at hin
  simpa using hin

theorem walked_first (hclosed : ∀ x ∈ settled, ∀ y, ParentEdge nodes x y → y ∈ settled) (hs : s ∈ p)
    (hcyc : TransGen (ParentEdge nodes) s s) {l : List JsString} (hl : w.cycle = l.map some) :
    l.head? = some s := by
  obtain ⟨hrep, hin⟩ := walked_repeats hnd hw hp hclosed hs hcyc
  obtain ⟨j, hj, hlast, hcycle, -⟩ := hw.cycle hrep
  rw [hcycle, List.mem_iterate] at hin
  obtain ⟨q, hq, heq⟩ := hin
  rw [hlast, ← iterate_add_apply] at heq
  have hzero : q + j = 0 := by
    have hpath := hw.nodup
    rw [hw.path_eq] at hpath
    have hlen : (List.iterate (up nodes) (some s) k).length = k := List.length_iterate _ _ _
    have hlt : q + j < (List.iterate (up nodes) (some s) k).length := by omega
    have hpos : 0 < (List.iterate (up nodes) (some s) k).length := by omega
    have hsame : (List.iterate (up nodes) (some s) k)[q + j] = (List.iterate (up nodes) (some s) k)[0] := by
      rw [List.getElem_iterate, List.getElem_iterate]
      exact heq.symm
    exact hpath.getElem_inj_iff.mp hsame
  obtain ⟨rfl, rfl⟩ : q = 0 ∧ j = 0 := by omega
  obtain ⟨k, rfl⟩ : ∃ k', k = k' + 1 := ⟨k - 1, by omega⟩
  rw [hcycle, hlast, Nat.sub_zero, List.iterate, iterate_zero, id] at hl
  have hhead := congrArg List.head? hl
  rw [List.head?_cons, List.head?_map] at hhead
  exact (Option.map_injective (Option.some_injective _) hhead.symm)

end Spec

def Closed (nodes : List CycleNode) (settled : Finset JsString) : Prop :=
  ∀ x ∈ settled, ∀ y, ParentEdge nodes x y → y ∈ settled

theorem tracePath_spec (hnd : (nodeIds nodes).Nodup) (hclosed : Closed nodes settled) {fuel : ℕ}
    (hfuel : nodes.length < fuel) {start : CycleNode} (hstart : start ∈ nodes) :
    ∃ p c, tracePath (nodeMap nodes) settled fuel [] (some start) = some (p, c) ∧
    Traced nodes settled start.id p c := by
  have hs : start.id ∈ nodeIds nodes := List.mem_map_of_mem hstart
  obtain ⟨w, hwalk⟩ : ∃ w, walk (halts settled) (up nodes) fuel [] (some start.id) = some w := by
    apply walk_isSome (s := ((nodeIds nodes).map some).toFinset) _
      (Or.inl (by simpa using hs)) List.nodup_nil (by simp)
    · have hcard := List.toFinset_card_le ((nodeIds nodes).map some)
      simp only [nodeIds, List.length_map, List.length_nil] at hcard ⊢
      omega
    · intro o ho _
      cases hup : up nodes o with
      | none => exact Or.inr rfl
      | some y =>
        obtain ⟨x, -, rfl⟩ := List.mem_map.mp (List.mem_toFinset.mp ho)
        obtain ⟨n, -, -, -, -, hy⟩ := (up_some_iff hnd).mp hup
        exact Or.inl (by simpa using hy)
  obtain ⟨p, c, htrace, hp, hnone, hsome⟩ :=
    tracePath_of_walk hnd (by rintro n ⟨⟩; exact hstart)
      (show walk _ _ fuel ([].map some) ((some start).map _) = _ from hwalk)
  obtain ⟨k, hw⟩ := walk_spec hwalk
  refine ⟨p, c, htrace, ?_, ?_, ?_, ?_, ?_, ?_, ?_⟩
  · cases k with
    | zero =>
      cases hrep : w.repeated with
      | false => exact Or.inl (halts_some.mp (by simpa [hw.last_eq] using hw.stopped hrep))
      | true =>
        have hin := (hw.looped hrep).2
        rw [hw.path_eq] at hin
        cases hin
    | succ k => exact Or.inr ((walked_iff hw hp).mpr ⟨0, Nat.succ_pos k, rfl⟩)
  · exact fun x hx => walked_listed hnd hw hp hs hx
  · intro x hx
    obtain ⟨i, hi, hix⟩ := (walked_iff hw hp).mp hx
    have hpushed := hw.pushed i hi
    rwa [hix, ← Bool.not_eq_true, halts_some] at hpushed
  · exact fun x hx y hedge => walked_next hnd hw hp hx hedge
  · rintro l ⟨⟩
    cases hrep : w.repeated with
    | false => cases hnone hrep
    | true =>
      obtain ⟨l', hl', hcycle⟩ := hsome hrep
      obtain rfl := Option.some.inj hl'
      exact walked_found hnd hw hp hrep hcycle
  · intro x hx hcyc
    obtain ⟨hrep, hin⟩ := walked_repeats hnd hw hp hclosed hx hcyc
    obtain ⟨l, hl, hcycle⟩ := hsome hrep
    rw [hcycle] at hin
    exact ⟨l, hl, by simpa using hin⟩
  · intro hx hcyc
    obtain ⟨hrep, -⟩ := walked_repeats hnd hw hp hclosed hx hcyc
    obtain ⟨l, hl, hcycle⟩ := hsome hrep
    exact ⟨l, hl, walked_first hnd hw hp hclosed hx hcyc hcycle⟩

end Walk

section Detection

/-- What is settled so far and the loops in it. -/
structure Detected (nodes : List CycleNode) (acc : Finset JsString × List (List JsString)) : Prop where
  closed : Closed nodes acc.1
  sound : ∀ c ∈ acc.2, IsCycle nodes c ∧ ∀ x ∈ c, x ∈ acc.1
  complete : ∀ x ∈ acc.1, TransGen (ParentEdge nodes) x x → ∃ c ∈ acc.2, x ∈ c
  disjoint : acc.2.Pairwise List.Disjoint

variable {nodes : List CycleNode} {acc : Finset JsString × List (List JsString)} {fuel : ℕ}
  {start : CycleNode}

theorem Detected.empty : Detected nodes (∅, []) :=
  ⟨fun x hx => absurd hx (Finset.notMem_empty x), by simp, by simp, List.Pairwise.nil⟩

theorem Detected.add (h : Detected nodes acc) {p : List JsString} {c : Option (List JsString)}
    (ht : Traced nodes acc.1 start.id p c) : Detected nodes (acc.1 ∪ p.toFinset, acc.2 ++ c.toList) := by
  have hnew : ∀ l ∈ c.toList, IsCycle nodes l ∧ ∀ x ∈ l, x ∈ p :=
    fun l hl => ht.found l (Option.mem_toList.mp hl)
  constructor
  · intro x hx y hedge
    rcases Finset.mem_union.mp hx with hx | hx
    · exact Finset.mem_union_left _ (h.closed x hx y hedge)
    · rcases ht.next x (List.mem_toFinset.mp hx) y hedge with hy | hy
      · exact Finset.mem_union_left _ hy
      · exact Finset.mem_union_right _ (List.mem_toFinset.mpr hy)
  · intro l hl
    rcases List.mem_append.mp hl with hl | hl
    · exact ⟨(h.sound l hl).1, fun x hx => Finset.mem_union_left _ ((h.sound l hl).2 x hx)⟩
    · exact ⟨(hnew l hl).1, fun x hx => Finset.mem_union_right _ (List.mem_toFinset.mpr ((hnew l hl).2 x hx))⟩
  · intro x hx hcyc
    rcases Finset.mem_union.mp hx with hx | hx
    · obtain ⟨l, hl, hxl⟩ := h.complete x hx hcyc
      exact ⟨l, List.mem_append_left _ hl, hxl⟩
    · obtain ⟨l, hl, hxl⟩ := ht.complete x (List.mem_toFinset.mp hx) hcyc
      exact ⟨l, List.mem_append_right _ (Option.mem_toList.mpr hl), hxl⟩
  · apply List.pairwise_append.mpr
    refine ⟨h.disjoint, ?_, ?_⟩
    · cases c with
      | none => exact List.Pairwise.nil
      | some l => exact List.pairwise_singleton _ _
    · intro l hl l' hl' x hx hx'
      exact ht.fresh x ((hnew l' hl').2 x hx') ((h.sound l hl).2 x hx)

theorem detectFrom_spec (hnd : (nodeIds nodes).Nodup) (h : Detected nodes acc) (hfuel : nodes.length < fuel)
    (hstart : start ∈ nodes) : ∃ acc', detectFrom fuel (nodeMap nodes) acc start = some acc' ∧
      Detected nodes acc' ∧ acc.1 ⊆ acc'.1 ∧ start.id ∈ acc'.1 := by
  rw [detectFrom]
  split
  · rename_i hs
    exact ⟨acc, rfl, h, Finset.Subset.refl _, hs⟩
  · rename_i hs
    obtain ⟨p, c, htrace, ht⟩ := tracePath_spec hnd h.closed hfuel hstart
    rw [htrace]
    refine ⟨_, rfl, h.add ht, Finset.subset_union_left, ?_⟩
    exact Finset.mem_union_right _ (List.mem_toFinset.mpr (ht.start.resolve_left hs))

theorem detectCyclesWithin_spec (hnd : (nodeIds nodes).Nodup) (hfuel : nodes.length < fuel) :
    ∃ cycles, detectCyclesWithin fuel nodes = some cycles ∧ (∀ c ∈ cycles, IsCycle nodes c) ∧
      (∀ x, TransGen (ParentEdge nodes) x x → ∃ c ∈ cycles, x ∈ c) ∧ cycles.Pairwise List.Disjoint := by
  obtain ⟨acc, hfold, h, -, hall⟩ := foldlM_settles Prod.fst CycleNode.id
    (fun acc (h : Detected nodes acc) start hstart => detectFrom_spec hnd h hfuel hstart)
    (List.Subset.refl nodes) Detected.empty
  refine ⟨acc.2, by rw [detectCyclesWithin, hfold]; rfl, fun c hc => (h.sound c hc).1, ?_, h.disjoint⟩
  intro x hcyc
  obtain ⟨y, ⟨n, hn, rfl, -⟩, -⟩ := TransGen.head'_iff.mp hcyc
  exact h.complete n.id (hall n hn) hcyc

theorem detectCycles_spec (hnd : (nodeIds nodes).Nodup) : (∀ c ∈ detectCycles nodes, IsCycle nodes c) ∧
    (∀ x, TransGen (ParentEdge nodes) x x → ∃ c ∈ detectCycles nodes, x ∈ c) ∧
      (detectCycles nodes).Pairwise List.Disjoint := by
  obtain ⟨cycles, hcycles, hspec⟩ := detectCyclesWithin_spec hnd (Nat.lt_succ_self nodes.length)
  rw [detectCycles, hcycles]
  exact hspec

theorem detectCycles_head (hnd : (nodeIds nodes).Nodup) {n : CycleNode} {rest : List CycleNode}
    (hnodes : nodes = n :: rest)
    (hcyc : TransGen (ParentEdge nodes) n.id n.id) : ∃ c ∈ detectCycles nodes, c.head? = some n.id := by
  obtain ⟨cycles, hcycles, -⟩ := detectCyclesWithin_spec hnd (Nat.lt_succ_self nodes.length)
  rw [detectCycles, hcycles, Option.getD_some]
  rw [detectCyclesWithin, Option.map_eq_some_iff] at hcycles
  obtain ⟨acc, hfold, rfl⟩ := hcycles
  have hn : n ∈ nodes := by
    rw [hnodes]
    exact List.mem_cons_self ..
  have hempty : Closed nodes ∅ := Detected.empty.closed
  obtain ⟨p, c, htrace, ht⟩ := tracePath_spec hnd hempty (Nat.lt_succ_self nodes.length) hn
  obtain ⟨l, hl, hhead⟩ := ht.first (ht.start.resolve_left (Finset.notMem_empty _)) hcyc
  refine ⟨l, ?_, hhead⟩
  nth_rewrite 3 [hnodes] at hfold
  rw [List.foldlM_cons, detectFrom, if_neg (Finset.notMem_empty _), htrace] at hfold
  refine foldlM_preserves (P := fun acc => l ∈ acc.2) ?_ hfold ?_
  · intro acc start acc' hin hstep
    rw [detectFrom] at hstep
    split at hstep
    · obtain rfl := Option.some.inj hstep
      exact hin
    · obtain ⟨⟨p', c'⟩, -, rfl⟩ := Option.map_eq_some_iff.mp hstep
      exact List.mem_append_left _ hin
  · exact List.mem_append_right _ (Option.mem_toList.mpr hl)

end Detection

section Members

variable {nodes : List CycleNode} {cycle : List JsString} {x y : JsString}

theorem IsCycle.next (h : IsCycle nodes cycle) (hx : x ∈ cycle) : ∃ y ∈ cycle, ParentEdge nodes x y := by
  obtain ⟨i, hi, rfl⟩ := List.getElem_of_mem hx
  have hlt : (i + 1) % cycle.length < cycle.length := Nat.mod_lt _ (by omega)
  exact ⟨cycle[(i + 1) % cycle.length], List.getElem_mem hlt,
    h.edges i _ _ (List.getElem?_eq_getElem hi) (List.getElem?_eq_getElem hlt)⟩

theorem IsCycle.closed (hnd : (nodeIds nodes).Nodup) (h : IsCycle nodes cycle) (hx : x ∈ cycle)
    (hpath : TransGen (ParentEdge nodes) x y) : y ∈ cycle := by
  induction hpath with
  | single hedge =>
    obtain ⟨z, hz, hxz⟩ := h.next hx
    rwa [parentEdge_unique hnd hedge hxz]
  | tail _ hedge ih =>
    obtain ⟨z, hz, hbz⟩ := h.next ih
    rwa [parentEdge_unique hnd hedge hbz]

theorem IsCycle.connected (h : IsCycle nodes cycle) (hx : x ∈ cycle) (hy : y ∈ cycle) :
    TransGen (ParentEdge nodes) x y := by
  obtain ⟨i, hi, rfl⟩ := List.getElem_of_mem hx
  obtain ⟨j, hj, rfl⟩ := List.getElem_of_mem hy
  have hsteps : ∀ k, ∃ z, cycle[(i + 1 + k) % cycle.length]? = some z ∧
      TransGen (ParentEdge nodes) cycle[i] z := by
    intro k
    induction k with
    | zero =>
      have hlt : (i + 1) % cycle.length < cycle.length := Nat.mod_lt _ (by omega)
      exact ⟨_, List.getElem?_eq_getElem hlt,
        .single (h.edges i _ _ (List.getElem?_eq_getElem hi) (List.getElem?_eq_getElem hlt))⟩
    | succ k ih =>
      obtain ⟨z, hz, hpath⟩ := ih
      have hlt : (i + 1 + (k + 1)) % cycle.length < cycle.length := Nat.mod_lt _ (by omega)
      refine ⟨_, List.getElem?_eq_getElem hlt, hpath.tail (h.edges _ z _ hz ?_)⟩
      rw [Nat.mod_add_mod, Nat.add_assoc (i + 1) k 1]
      exact List.getElem?_eq_getElem hlt
  obtain ⟨z, hz, hpath⟩ := hsteps (cycle.length - (i + 1) + j)
  rw [show i + 1 + (cycle.length - (i + 1) + j) = j + cycle.length by omega, Nat.add_mod_right,
    Nat.mod_eq_of_lt hj,
    List.getElem?_eq_getElem hj] at hz
  rwa [Option.some.inj hz]

theorem IsCycle.mem_iff (hnd : (nodeIds nodes).Nodup) (h : IsCycle nodes cycle) (hx : x ∈ cycle) :
    y ∈ cycle ↔ TransGen (ParentEdge nodes) x y :=
  ⟨fun hy => h.connected hx hy, fun hpath => h.closed hnd hx hpath⟩

theorem IsCycle.listed (h : IsCycle nodes cycle) (hx : x ∈ cycle) : x ∈ nodeIds nodes := by
  obtain ⟨y, -, n, hn, rfl, -⟩ := h.next hx
  exact List.mem_map_of_mem hn

end Members

end OpenOutliner
