import OpenOutliner.Shared.EffectiveTree
import Mathlib.Data.Finset.Union

namespace OpenOutliner

open Foundations Foundations.RootedOrbit Function EffectiveTree

section RawNext

variable {nodes : List TreeNode} {rootId x y : JsString}

theorem node_unique (hnd : (ids nodes).Nodup) {m n : TreeNode} (hm : m ∈ nodes) (hn : n ∈ nodes)
    (h : m.id = n.id) : m = n :=
  List.inj_on_of_nodup_map hnd hm hn h

open Classical in
noncomputable def rawNext (nodes : List TreeNode) (rootId x : JsString) : JsString :=
  if h : x ≠ rootId ∧ ¬ Detached nodes rootId x ∧ ∃ n ∈ nodes, n.id = x then
    h.2.2.choose.parentId
  else rootId

theorem rawNext_root : rawNext nodes rootId rootId = rootId := by simp [rawNext]

theorem rawNext_detached (h : Detached nodes rootId x) : rawNext nodes rootId x = rootId := by
  simp [rawNext, h]

theorem rawNext_unlisted (h : x ∉ ids nodes) : rawNext nodes rootId x = rootId := by
  rw [rawNext, dif_neg]
  rintro ⟨-, -, n, hn, rfl⟩
  exact h (List.mem_map_of_mem hn)

theorem rawNext_attached (hnd : (ids nodes).Nodup) {n : TreeNode} (hn : n ∈ nodes)
    (hr : n.id ≠ rootId) (hd : ¬ Detached nodes rootId n.id) :
    rawNext nodes rootId n.id = n.parentId := by
  have h : n.id ≠ rootId ∧ ¬ Detached nodes rootId n.id ∧ ∃ m ∈ nodes, m.id = n.id := ⟨hr, hd, n, hn, rfl⟩
  rw [rawNext, dif_pos h]
  have hspec := h.2.2.choose_spec
  rw [node_unique hnd hspec.1 hn hspec.2]

theorem rawEdge_iff (hnd : (ids nodes).Nodup) (hy : y ≠ rootId) :
    RawEdge nodes rootId x y ↔ rawNext nodes rootId x = y := by
  constructor
  · rintro ⟨hx, hd, n, hn, rfl, rfl⟩
    exact rawNext_attached hnd hn hx hd
  · intro h
    by_cases hc : x ≠ rootId ∧ ¬ Detached nodes rootId x ∧ ∃ n ∈ nodes, n.id = x
    · obtain ⟨hx, hd, n, hn, rfl⟩ := hc
      exact ⟨hx, hd, n, hn, rfl, by rw [← h, rawNext_attached hnd hn hx hd]⟩
    · rw [rawNext, dif_neg hc] at h
      exact absurd h.symm hy

theorem rawNext_mem (hnd : (ids nodes).Nodup) (x : JsString) :
    rawNext nodes rootId x ∈ ids nodes ∨ rawNext nodes rootId x = rootId := by
  by_cases hr : rawNext nodes rootId x = rootId
  · exact Or.inr hr
  · obtain ⟨hx, hd, n, hn, rfl, hp⟩ := (rawEdge_iff hnd hr).mpr rfl
    rw [← hp]
    by_contra hno
    push Not at hno
    exact hd ⟨hx, n, hn, rfl, Or.inr hno.1⟩

theorem rawPath_iff (hnd : (ids nodes).Nodup) (hy : y ≠ rootId) :
    Relation.TransGen (RawEdge nodes rootId) x y ↔ ∃ n, (rawNext nodes rootId)^[n + 1] x = y :=
  transGen_iff_iterate rawNext_root (fun h => h.1) (rawEdge_iff hnd) hy

theorem cycleLeast_iff (hnd : (ids nodes).Nodup) :
    CycleLeast nodes rootId x ↔ Leader (rawNext nodes rootId) rootId x := by
  have hsrc : ∀ {a b}, Relation.TransGen (RawEdge nodes rootId) a b → a ≠ rootId := fun h => by
    rcases Relation.TransGen.head'_iff.mp h with ⟨c, hac, -⟩
    exact hac.1
  constructor
  · rintro ⟨hcyc, hleast⟩
    have hx := hsrc hcyc
    obtain ⟨n, hn⟩ := (rawPath_iff hnd hx).mp hcyc
    have hon : OnCycle (rawNext nodes rootId) rootId x := ⟨hx, n + 1, n.succ_pos, hn⟩
    refine ⟨hon, fun m => ?_⟩
    cases m with
    | zero => exact le_refl x
    | succ m => exact hleast _ ((rawPath_iff hnd (hon.iterate_ne rawNext_root _)).mpr ⟨m, rfl⟩)
  · rintro ⟨hon, hleast⟩
    obtain ⟨p, hp, hper⟩ := hon.2
    refine ⟨(rawPath_iff hnd hon.1).mpr ⟨p - 1, by rw [Nat.sub_add_cancel hp]; exact hper⟩, ?_⟩
    intro y hy
    by_cases hr : y = rootId
    · -- a path from a cycle never reaches the root
      obtain ⟨b, hb, hby⟩ := Relation.TransGen.tail'_iff.mp hy
      have hnext : rawNext nodes rootId b = y := by
        obtain ⟨hbr, hbd, n, hn, rfl, rfl⟩ := hby
        exact rawNext_attached hnd hn hbr hbd
      obtain ⟨n, rfl⟩ : ∃ n, (rawNext nodes rootId)^[n] x = b := by
        rcases Relation.reflTransGen_iff_eq_or_transGen.mp hb with rfl | hb
        · exact ⟨0, rfl⟩
        · obtain ⟨n, hn⟩ := (rawPath_iff hnd hby.1).mp hb
          exact ⟨n + 1, hn⟩
      rw [← iterate_succ_apply' (rawNext nodes rootId)] at hnext
      exact absurd (hnext.trans hr) (hon.iterate_ne rawNext_root _)
    · obtain ⟨n, rfl⟩ := (rawPath_iff hnd hr).mp hy
      exact hleast _

end RawNext

section Attach

variable {nodes : List TreeNode} {rootId x : JsString}

theorem byId_get (hnd : (ids nodes).Nodup) {n : TreeNode} (hn : n ∈ nodes) :
    (OrderedMap.ofList (nodes.map fun n => (n.id, n))).get n.id = some n :=
  (OrderedMap.get_keyed_iff hnd).mpr ⟨hn, rfl⟩

theorem byId_get_none (h : x ∉ ids nodes) :
    (OrderedMap.ofList (nodes.map fun n => (n.id, n))).get x = none := by
  apply OrderedMap.get_ofList_of_notMem
  simpa [List.map_map, Function.comp_def, ids] using h

theorem byId_has (hnd : (ids nodes).Nodup) (x : JsString) :
    (OrderedMap.ofList (nodes.map fun n => (n.id, n))).has x = true ↔ x ∈ ids nodes := by
  rw [OrderedMap.has_iff, ids, List.mem_map]
  exact exists_congr fun n => OrderedMap.get_keyed_iff hnd

theorem initialParents_get (hnd : (ids nodes).Nodup) {n : TreeNode} (hn : n ∈ nodes) :
    (initialParents nodes rootId).get n.id =
      some (if n.id = rootId then ROOT_PARENT_SENTINEL else n.parentId) := by
  apply OrderedMap.get_ofList_of_mem
  · simpa [List.map_map, Function.comp_def, ids] using hnd
  · exact List.mem_map.mpr ⟨n, hn, rfl⟩

theorem initialParents_get_none (h : x ∉ ids nodes) : (initialParents nodes rootId).get x = none := by
  apply OrderedMap.get_ofList_of_notMem
  simpa [List.map_map, Function.comp_def, ids] using h

theorem detached_iff (hnd : (ids nodes).Nodup) {n : TreeNode} (hn : n ∈ nodes) :
    Detached nodes rootId n.id ↔
      n.id ≠ rootId ∧ (n.parentId = ROOT_PARENT_SENTINEL ∨ n.parentId ∉ ids nodes) := by
  constructor
  · rintro ⟨hr, m, hm, he, hp⟩
    rw [node_unique hnd hm hn he] at hp
    exact ⟨hr, hp⟩
  · rintro ⟨hr, hp⟩
    exact ⟨hr, n, hn, rfl, hp⟩

open Classical in
theorem attachOrphans_spec (hnd : (ids nodes).Nodup) (part : List TreeNode) (hpart : part ⊆ nodes)
    (st : Placement) :
    let st' := part.foldl (attachOrphan (.ofList (nodes.map fun n => (n.id, n))) rootId) st
    st'.done = st.done ∧
    (∀ x, x ∈ st'.recovered ↔ x ∈ st.recovered ∨ x ∈ ids part ∧ Detached nodes rootId x) ∧
    ∀ x, st'.parents.get x =
      if x ∈ ids part ∧ Detached nodes rootId x then some rootId else st.parents.get x := by
  induction part generalizing st with
  | nil => simp [ids]
  | cons n part ih =>
    have hn : n ∈ nodes := hpart (by simp)
    have hstep : Detached nodes rootId n.id ↔ ¬ n.id = rootId ∧
        (!(OrderedMap.ofList (nodes.map fun n => (n.id, n))).has n.parentId ||
          decide (n.parentId = ROOT_PARENT_SENTINEL)) = true := by
      rw [detached_iff hnd hn, Bool.or_eq_true, Bool.not_eq_true', decide_eq_true_eq,
        ← Bool.not_eq_true, byId_has hnd, or_comm]
    obtain ⟨hdone, hrec, hpar⟩ := ih (fun m hm => hpart (List.mem_cons_of_mem _ hm))
      (attachOrphan (.ofList (nodes.map fun n => (n.id, n))) rootId st n)
    rw [List.foldl_cons]
    by_cases hd : Detached nodes rootId n.id
    · have hat : attachOrphan (.ofList (nodes.map fun n => (n.id, n))) rootId st n =
          ⟨st.parents.set n.id rootId, insert n.id st.recovered, st.done⟩ := by
        rw [attachOrphan, if_neg (hstep.mp hd).1, if_pos (hstep.mp hd).2]
      rw [hat] at hdone hrec hpar ⊢
      refine ⟨hdone, fun x => ?_, fun x => ?_⟩
      · rw [hrec]
        simp only [Finset.mem_insert, ids, List.map_cons, List.mem_cons]
        by_cases hx : x = n.id
        · simp [hx, hd]
        · simp [hx]
      · rw [hpar, OrderedMap.get_set]
        simp only [ids, List.map_cons, List.mem_cons]
        by_cases hx : x = n.id
        · simp [hx, hd]
        · simp [hx]
    · have hat : attachOrphan (.ofList (nodes.map fun n => (n.id, n))) rootId st n = st := by
        rw [attachOrphan]
        split_ifs with h1 h2
        · rfl
        · exact absurd (hstep.mpr ⟨h1, h2⟩) hd
        · rfl
      rw [hat] at hdone hrec hpar ⊢
      refine ⟨hdone, fun x => ?_, fun x => ?_⟩
      · rw [hrec]
        simp only [ids, List.map_cons, List.mem_cons]
        by_cases hx : x = n.id
        · simp [hx, hd]
        · simp [hx]
      · rw [hpar]
        simp only [ids, List.map_cons, List.mem_cons]
        by_cases hx : x = n.id
        · simp [hx, hd]
        · simp [hx]

end Attach

section Break

variable {nodes : List TreeNode} {rootId : JsString}

theorem head_insertionSort {l : List JsString} (h : l ≠ []) :
    ∃ a, (l.insertionSort (· ≤ ·)).head? = some a ∧ a ∈ l ∧ ∀ b ∈ l, a ≤ b := by
  cases hs : l.insertionSort (· ≤ ·) with
  | nil =>
    have hlen := congrArg List.length hs
    rw [List.length_insertionSort, List.length_nil, List.length_eq_zero_iff] at hlen
    exact absurd hlen h
  | cons a rest =>
    have hpw : (a :: rest).Pairwise (· ≤ ·) := hs ▸ List.pairwise_insertionSort (· ≤ ·) l
    have hmem : ∀ b, b ∈ l ↔ b = a ∨ b ∈ rest := fun b => by
      rw [← List.mem_insertionSort (· ≤ ·), hs, List.mem_cons]
    refine ⟨a, rfl, (hmem a).mpr (Or.inl rfl), fun b hb => ?_⟩
    rcases (hmem b).mp hb with rfl | hb
    · exact le_refl b
    · exact (List.pairwise_cons.mp hpw).1 b hb

/-- Between two turns of the second loop: the settled points are closed under the raw
parents, and exactly the leaders among them have been freed. -/
structure Broken (nodes : List TreeNode) (rootId : JsString) (st : Placement) : Prop where
  root_mem : rootId ∈ st.done
  closed : ∀ x ∈ st.done, rawNext nodes rootId x ∈ st.done
  recovered : ∀ x, x ∈ st.recovered ↔
    Detached nodes rootId x ∨ Leader (rawNext nodes rootId) rootId x ∧ x ∈ st.done
  parents : ∀ n ∈ nodes, n.id ≠ rootId →
    st.parents.get n.id = some (if n.id ∈ st.recovered then rootId else n.parentId)
  root : rootId ∈ ids nodes → st.parents.get rootId = some ROOT_PARENT_SENTINEL
  unlisted : ∀ x, x ∉ ids nodes → st.parents.get x = none

theorem Broken.mapsTo {st : Placement} (h : Broken nodes rootId st) :
    Set.MapsTo (rawNext nodes rootId) (st.done : Set JsString) st.done :=
  fun x hx => h.closed x hx

theorem broken_attached (hnd : (ids nodes).Nodup) :
    Broken nodes rootId (nodes.foldl
      (attachOrphan (.ofList (nodes.map fun n => (n.id, n))) rootId)
      ⟨initialParents nodes rootId, ∅, {rootId}⟩) := by
  obtain ⟨hdone, hrec, hpar⟩ := attachOrphans_spec hnd nodes (fun _ h => h)
    ⟨initialParents nodes rootId, ∅, {rootId}⟩
  have hrec' : ∀ x, x ∈ (nodes.foldl
      (attachOrphan (.ofList (nodes.map fun n => (n.id, n))) rootId)
      ⟨initialParents nodes rootId, ∅, {rootId}⟩).recovered ↔ Detached nodes rootId x := by
    intro x
    rw [hrec]
    simp only [Finset.notMem_empty, false_or, and_iff_right_iff_imp]
    rintro ⟨-, n, hn, rfl, -⟩
    exact List.mem_map_of_mem hn
  have hleader : ¬ Leader (rawNext nodes rootId) rootId rootId := fun h => h.1.1 rfl
  constructor
  · rw [hdone]; simp
  · intro x hx
    rw [hdone] at hx ⊢
    rw [Finset.mem_singleton.mp hx, rawNext_root]
    simp
  · intro x
    rw [hrec', hdone, Finset.mem_singleton]
    constructor
    · exact Or.inl
    · rintro (h | ⟨h, rfl⟩)
      · exact h
      · exact absurd h hleader
  · intro n hn hr
    have hmem : n.id ∈ ids nodes := List.mem_map_of_mem hn
    rw [hpar, initialParents_get hnd hn, if_neg hr]
    by_cases hd : Detached nodes rootId n.id
    · rw [if_pos ⟨hmem, hd⟩, if_pos ((hrec' _).mpr hd)]
    · rw [if_neg (fun h => hd h.2), if_neg (fun h => hd ((hrec' _).mp h))]
  · intro hroot
    obtain ⟨n, hn, he⟩ := List.mem_map.mp hroot
    rw [hpar, if_neg (fun h => h.2.1 rfl)]
    change (initialParents nodes rootId).get rootId = _
    conv_lhs => rw [← he, initialParents_get hnd hn, he, if_pos rfl]
  · intro x hx
    rw [hpar, if_neg (fun h => hx h.1), initialParents_get_none hx]

theorem Broken.parentStep (hnd : (ids nodes).Nodup) {st : Placement} (h : Broken nodes rootId st)
    {x : JsString} (hx : x ∉ st.done) :
    EffectiveTree.parentStep st.parents rootId x = rawNext nodes rootId x := by
  have hr : x ≠ rootId := fun he => hx (he ▸ h.root_mem)
  by_cases hmem : x ∈ ids nodes
  · obtain ⟨n, hn, rfl⟩ := List.mem_map.mp hmem
    rw [EffectiveTree.parentStep, h.parents n hn hr, Option.getD_some]
    by_cases hd : Detached nodes rootId n.id
    · rw [if_pos ((h.recovered _).mpr (Or.inl hd)), rawNext_detached hd]
    · rw [if_neg, rawNext_attached hnd hn hr hd]
      rintro hrec
      rcases (h.recovered _).mp hrec with hd' | ⟨-, hdone⟩
      · exact hd hd'
      · exact hx hdone
  · rw [EffectiveTree.parentStep, h.unlisted x hmem, rawNext_unlisted hmem, Option.getD_none]

theorem Broken.settle {st : Placement} (h : Broken nodes rootId st) {x : JsString} {n : ℕ}
    (hlast : (rawNext nodes rootId)^[n] x ∈ st.done)
    (hpush : ∀ i < n, (rawNext nodes rootId)^[i] x ∉ st.done) :
    Broken nodes rootId
      { st with done := st.done ∪ (List.iterate (rawNext nodes rootId) x n).toFinset } := by
  have hpath : ∀ y, y ∈ (List.iterate (rawNext nodes rootId) x n).toFinset ↔
      ∃ i < n, y = (rawNext nodes rootId)^[i] x := fun y => by rw [List.mem_toFinset, List.mem_iterate]
  refine ⟨by simp [h.root_mem], ?_, ?_, h.parents, h.root, h.unlisted⟩
  · intro y hy
    rw [Finset.mem_union] at hy ⊢
    rcases hy with hy | hy
    · exact Or.inl (h.closed y hy)
    · obtain ⟨i, hi, rfl⟩ := (hpath y).mp hy
      rw [← iterate_succ_apply' (rawNext nodes rootId)]
      rcases Nat.lt_or_ge (i + 1) n with hlt | hge
      · exact Or.inr ((hpath _).mpr ⟨i + 1, hlt, rfl⟩)
      · obtain rfl : n = i.succ := by omega
        exact Or.inl hlast
  · intro y
    rw [h.recovered, Finset.mem_union]
    have hno : y ∈ (List.iterate (rawNext nodes rootId) x n).toFinset →
        ¬ Leader (rawNext nodes rootId) rootId y := by
      rintro hy hl
      obtain ⟨i, hi, rfl⟩ := (hpath y).mp hy
      apply hpush i hi
      apply mem_of_iterate_mem h.mapsTo hl.1.2 (n := n - i)
      rw [← iterate_add_apply, Nat.sub_add_cancel hi.le]
      exact hlast
    tauto

theorem Broken.free {st : Placement} (h : Broken nodes rootId st) {x freed : JsString} {n k : ℕ}
    (hk : k < n) (hpush : ∀ i < n, (rawNext nodes rootId)^[i] x ∉ st.done)
    (hturn : (rawNext nodes rootId)^[n] x = (rawNext nodes rootId)^[k] x)
    (hmem : freed ∈ List.iterate (rawNext nodes rootId) ((rawNext nodes rootId)^[k] x) (n - k))
    (hleast : ∀ y ∈ List.iterate (rawNext nodes rootId) ((rawNext nodes rootId)^[k] x) (n - k),
      freed ≤ y) :
    Broken nodes rootId ⟨st.parents.set freed rootId, insert freed st.recovered,
      st.done ∪ (List.iterate (rawNext nodes rootId) x n).toFinset⟩ := by
  set f := rawNext nodes rootId with hf
  have hpath : ∀ y, y ∈ (List.iterate f x n).toFinset ↔ ∃ i < n, y = f^[i] x :=
    fun y => by rw [List.mem_toFinset, List.mem_iterate]
  have hper : IsPeriodicPt f (n - k) (f^[k] x) := by
    rw [IsPeriodicPt, IsFixedPt, ← iterate_add_apply, Nat.sub_add_cancel hk.le, hturn]
  obtain ⟨j, hj, hfreed⟩ := List.mem_iterate.mp hmem
  have hfreed' : freed = f^[j + k] x := by rw [hfreed, iterate_add_apply]
  have hne : freed ≠ rootId := by
    rw [hfreed']
    exact fun he => hpush (j + k) (by omega) (he ▸ h.root_mem)
  have hleader : Leader f rootId freed := by
    refine ⟨⟨hne, n - k, by omega, hfreed ▸ hper.apply_iterate j⟩, fun m => ?_⟩
    apply hleast
    rw [hfreed, ← iterate_add_apply, ← hper.iterate_mod_apply]
    exact List.mem_iterate.mpr ⟨(m + j) % (n - k), Nat.mod_lt _ (by omega), rfl⟩
  have honly : ∀ y, y ∈ (List.iterate f x n).toFinset → Leader f rootId y → y = freed := by
    intro y hy hl
    obtain ⟨i, hi, rfl⟩ := (hpath y).mp hy
    apply hl.unique hleader (n := j + (n - i))
    rw [iterate_add_apply, ← iterate_add_apply (m := n - i), Nat.sub_add_cancel hi.le, hturn, ← hfreed]
  have hrec : ∀ y, y ∈ insert freed st.recovered ↔ Detached nodes rootId y ∨
      Leader f rootId y ∧ y ∈ st.done ∪ (List.iterate f x n).toFinset := by
    intro y
    rw [Finset.mem_insert, h.recovered, Finset.mem_union]
    constructor
    · rintro (rfl | hd | hl)
      · exact Or.inr ⟨hleader, Or.inr ((hpath _).mpr ⟨j + k, by omega, hfreed'⟩)⟩
      · exact Or.inl hd
      · exact Or.inr ⟨hl.1, Or.inl hl.2⟩
    · rintro (hd | ⟨hl, hy | hy⟩)
      · exact Or.inr (Or.inl hd)
      · exact Or.inr (Or.inr ⟨hl, hy⟩)
      · exact Or.inl (honly y hy hl)
  have hlisted : freed ∈ ids nodes := by
    by_contra hno
    exact hleader.1.iterate_ne rawNext_root 1 (rawNext_unlisted hno)
  refine ⟨by simp [h.root_mem], ?_, hrec, ?_, ?_, ?_⟩
  · intro y hy
    rw [Finset.mem_union] at hy ⊢
    rcases hy with hy | hy
    · exact Or.inl (h.closed y hy)
    · obtain ⟨i, hi, rfl⟩ := (hpath y).mp hy
      rw [← hf, ← iterate_succ_apply' f]
      rcases Nat.lt_or_ge (i + 1) n with hlt | hge
      · exact Or.inr ((hpath _).mpr ⟨i + 1, hlt, rfl⟩)
      · obtain rfl : n = i.succ := by omega
        rw [hturn]
        exact Or.inr ((hpath _).mpr ⟨k, hk, rfl⟩)
  · intro m hm hr
    by_cases he : m.id = freed
    · simp [he]
    · rw [OrderedMap.get_set_of_ne _ _ he, h.parents m hm hr]
      simp [Finset.mem_insert, he]
  · intro hroot
    rw [OrderedMap.get_set_of_ne _ _ hne.symm]
    exact h.root hroot
  · intro y hy
    rw [OrderedMap.get_set_of_ne _ _ (fun he : y = freed => hy (he ▸ hlisted))]
    exact h.unlisted y hy

theorem breakCycle_spec (hnd : (ids nodes).Nodup) {fuel : ℕ} (hfuel : nodes.length < fuel)
    {st : Placement} (h : Broken nodes rootId st) {node : TreeNode} (hnode : node ∈ nodes) :
    ∃ st', breakCycle fuel rootId st node = some st' ∧ Broken nodes rootId st' ∧
      st.done ⊆ st'.done ∧ node.id ∈ st'.done := by
  let stop : JsString → Bool := fun id => decide (id = rootId) || decide (id ∈ st.done)
  have hstop : ∀ y, stop y = true ↔ y ∈ st.done := by
    intro y
    simp only [stop, Bool.or_eq_true, decide_eq_true_eq]
    constructor
    · rintro (rfl | hy)
      · exact h.root_mem
      · exact hy
    · exact Or.inr
  have hrun : ∀ y, stop y = false ↔ y ∉ st.done := fun y => by
    rw [← Bool.not_eq_true, hstop]
  have hcongr := @walk_congr _ stop _ _ _
    (fun y hy => h.parentStep hnd ((hrun y).mp hy)) fuel [] node.id
  obtain ⟨w, hw⟩ : ∃ w, walk stop (rawNext nodes rootId) fuel [] node.id = some w := by
    apply walk_isSome (s := (ids nodes).toFinset)
    · intro y _ _
      rcases (rawNext_mem hnd y : _ ∨ rawNext nodes rootId y = rootId) with hy | hy
      · exact Or.inl (List.mem_toFinset.mpr hy)
      · exact Or.inr ((hstop _).mpr (by rw [hy]; exact h.root_mem))
    · exact Or.inl (List.mem_toFinset.mpr (List.mem_map_of_mem hnode))
    · exact List.nodup_nil
    · simp
    · have := List.toFinset_card_le (ids nodes)
      simp only [ids, List.length_map, List.length_nil, zero_add] at this ⊢
      omega
  obtain ⟨n, hspec⟩ := walk_spec hw
  have hpush : ∀ i < n, (rawNext nodes rootId)^[i] node.id ∉ st.done :=
    fun i hi => (hrun _).mp (hspec.pushed i hi)
  have hdef : breakCycle fuel rootId st node =
      (walk stop (parentStep st.parents rootId) fuel [] node.id).map fun w =>
        let st := if w.repeated then freeLeast rootId w.cycle st else st
        { st with done := st.done ∪ w.path.toFinset } := rfl
  rw [hdef, hcongr, hw, Option.map_some]
  have hstart : node.id ∈ st.done ∪ w.path.toFinset := by
    rw [Finset.mem_union, List.mem_toFinset, hspec.path_eq]
    cases n with
    | zero =>
      cases hrep : w.repeated with
      | false => exact Or.inl (by simpa [hspec.last_eq] using (hstop _).mp (hspec.stopped hrep))
      | true => simpa [hspec.path_eq] using (hspec.looped hrep).2
    | succ n => exact Or.inr (List.mem_iterate.mpr ⟨0, n.succ_pos, rfl⟩)
  cases hrep : w.repeated with
  | false =>
    have hlast := (hstop _).mp (hspec.stopped hrep)
    rw [hspec.last_eq] at hlast
    refine ⟨_, rfl, ?_, by simp, by simpa using hstart⟩
    simpa [hspec.path_eq] using h.settle hlast hpush
  | true =>
    obtain ⟨k, hk, hlast, hcycle, hturn⟩ := hspec.cycle hrep
    obtain ⟨freed, hhead, hmem, hleast⟩ := head_insertionSort (l := w.cycle) (by
      rw [hcycle, Ne, List.iterate_eq_nil]; omega)
    rw [hcycle, hlast] at hmem hleast
    simp only [↓reduceIte, freeLeast, hhead]
    refine ⟨_, rfl, ?_, by simp, hstart⟩
    simp only [hspec.path_eq]
    exact h.free hk hpush (by rw [← hspec.last_eq, hlast]) hmem hleast

theorem breakCycles_spec (hnd : (ids nodes).Nodup) {fuel : ℕ} (hfuel : nodes.length < fuel)
    {st : Placement} (h : Broken nodes rootId st) :
    ∃ st', nodes.foldlM (breakCycle fuel rootId) st = some st' ∧ Broken nodes rootId st' ∧
      st.done ⊆ st'.done ∧ ∀ n ∈ nodes, n.id ∈ st'.done := by
  refine foldlM_settles Placement.done TreeNode.id ?_ (fun _ hn => hn) h
  intro st h n hn
  exact breakCycle_spec hnd hfuel h hn

end Break

end OpenOutliner
