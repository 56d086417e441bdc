import OpenOutliner.Shared.CycleBreaking

namespace OpenOutliner

open Foundations Foundations.RootedOrbit Function EffectiveTree

variable {nodes : List TreeNode} {rootId : JsString}

def upward (parents : OrderedMap JsString JsString) (rootId x : JsString) : JsString :=
  if x = rootId then rootId else parentStep parents rootId x

theorem upward_root (parents : OrderedMap JsString JsString) :
    upward parents rootId rootId = rootId := if_pos rfl

theorem effectiveEdge_iff {t : EffectiveTree} {x y : JsString} (hy : y ≠ rootId) :
    EffectiveEdge rootId t x y ↔ upward t.parents rootId x = y := by
  by_cases hx : x = rootId
  · simp [EffectiveEdge, upward, hx, hy.symm]
  · cases hg : t.parents.get x with
    | none => simp [EffectiveEdge, upward, parentStep, hx, hg, hy.symm]
    | some p => simp [EffectiveEdge, upward, parentStep, hx, hg]

theorem effectivePath_iff {t : EffectiveTree} {x y : JsString} (hy : y ≠ rootId) :
    Relation.TransGen (EffectiveEdge rootId t) x y ↔ ∃ n, (upward t.parents rootId)^[n + 1] x = y :=
  transGen_iff_iterate (upward_root _) (fun h => h.1) effectiveEdge_iff hy

section Settled

variable {st : Placement} (hnd : (ids nodes).Nodup) (h : Broken nodes rootId st)
  (hall : ∀ n ∈ nodes, n.id ∈ st.done)

include hnd h hall

theorem Broken.cutAt : CutAt (rawNext nodes rootId) (upward st.parents rootId) rootId := by
  have hmem : ∀ x, Leader (rawNext nodes rootId) rootId x → ∃ n ∈ nodes, n.id = x := by
    intro x hx
    by_contra hno
    apply hx.1.iterate_ne rawNext_root 1
    apply rawNext_unlisted
    rintro hmem
    obtain ⟨n, hn, rfl⟩ := List.mem_map.mp hmem
    exact hno ⟨n, hn, rfl⟩
  refine ⟨upward_root _, fun x hx => ?_, fun x hx => ?_⟩
  · obtain ⟨n, hn, rfl⟩ := hmem x hx
    rw [upward, if_neg hx.1.1, EffectiveTree.parentStep, h.parents n hn hx.1.1,
      if_pos ((h.recovered _).mpr (Or.inr ⟨hx, hall n hn⟩)), Option.getD_some]
  · by_cases hr : x = rootId
    · rw [hr, upward_root, rawNext_root]
    · rw [upward, if_neg hr, EffectiveTree.parentStep]
      by_cases hlisted : x ∈ ids nodes
      · obtain ⟨n, hn, rfl⟩ := List.mem_map.mp hlisted
        rw [h.parents n hn hr, Option.getD_some]
        by_cases hd : Detached nodes rootId n.id
        · rw [if_pos ((h.recovered _).mpr (Or.inl hd)), rawNext_detached hd]
        · rw [if_neg, rawNext_attached hnd hn hr hd]
          rintro hrec
          rcases (h.recovered _).mp hrec with hd' | ⟨hl, -⟩
          · exact hd hd'
          · exact hx hl
      · rw [h.unlisted x hlisted, rawNext_unlisted hlisted, Option.getD_none]

theorem Broken.upward_mem {x : JsString} :
    upward st.parents rootId x ∈ ids nodes ∨ upward st.parents rootId x = rootId := by
  have hcut := h.cutAt hnd hall
  by_cases hl : Leader (rawNext nodes rootId) rootId x
  · exact Or.inr (hcut.2.1 x hl)
  · rw [hcut.2.2 x hl]
    exact rawNext_mem hnd x

theorem Broken.iterate_mem {x : JsString} (hx : x ∈ ids nodes) (i : ℕ) :
    (upward st.parents rootId)^[i] x ∈ ids nodes ∨ (upward st.parents rootId)^[i] x = rootId := by
  cases i with
  | zero => exact Or.inl hx
  | succ i => rw [iterate_succ_apply']; exact h.upward_mem hnd hall

theorem Broken.reaches {x : JsString} (hx : x ∈ ids nodes) :
    ∃ n, (upward st.parents rootId)^[n] x = rootId := by
  have hfin : ({y | y ∈ ids nodes} ∪ {rootId} : Set JsString).Finite :=
    (List.finite_toSet _).union (Set.finite_singleton _)
  apply (h.cutAt hnd hall).reaches rawNext_root hfin _ (Or.inl hx)
  intro y _
  exact rawNext_mem hnd y

end Settled

section Marking

variable {parents : OrderedMap JsString JsString}

def Hidden (nodes : List TreeNode) (parents : OrderedMap JsString JsString) (rootId x : JsString) : Prop :=
  ∃ n, (upward parents rootId)^[n] x ≠ rootId ∧ FlaggedDeleted nodes ((upward parents rootId)^[n] x)

theorem hidden_root : ¬ Hidden nodes parents rootId rootId := by
  rintro ⟨n, hn, -⟩
  exact hn (iterate_root (upward_root _) n)

theorem hidden_step {x : JsString} (hx : x ≠ rootId) : Hidden nodes parents rootId x ↔
    FlaggedDeleted nodes x ∨ Hidden nodes parents rootId (upward parents rootId x) := by
  constructor
  · rintro ⟨n, hn, hf⟩
    cases n with
    | zero => exact Or.inl hf
    | succ n => exact Or.inr ⟨n, hn, hf⟩
  · rintro (hf | ⟨n, hn, hf⟩)
    · exact ⟨0, hx, hf⟩
    · exact ⟨n + 1, hn, hf⟩

theorem flagged_iff (hnd : (ids nodes).Nodup) (x : JsString) :
    (((OrderedMap.ofList (nodes.map fun n => (n.id, n))).get x).any fun n => n.isDeleted) = true ↔
      FlaggedDeleted nodes x := by
  by_cases hx : x ∈ ids nodes
  · obtain ⟨n, hn, rfl⟩ := List.mem_map.mp hx
    rw [byId_get hnd hn, Option.any_some]
    constructor
    · exact fun hd => ⟨n, hn, rfl, hd⟩
    · rintro ⟨m, hm, he, hd⟩
      rwa [← node_unique hnd hm hn he]
  · rw [byId_get_none hx]
    simp only [Option.any_none, Bool.false_eq_true, false_iff]
    rintro ⟨n, hn, rfl, -⟩
    exact hx (List.mem_map_of_mem hn)

/-- Between two turns of the third loop: the known points are closed under the parents
and the deleted ones are those with a flag on their way up. -/
structure Marked (nodes : List TreeNode) (parents : OrderedMap JsString JsString)
    (rootId : JsString) (st : Marking) : Prop where
  root_mem : rootId ∈ st.known
  closed : ∀ x ∈ st.known, upward parents rootId x ∈ st.known
  deleted : ∀ x, x ∈ st.deleted ↔ x ∈ st.known ∧ Hidden nodes parents rootId x

theorem marked_empty : Marked nodes parents rootId ⟨∅, {rootId}⟩ := by
  refine ⟨by simp, ?_, ?_⟩
  · intro x hx
    rw [Finset.mem_singleton.mp hx, upward_root]
    simp
  · intro x
    simp only [Finset.notMem_empty, Finset.mem_singleton, false_iff, not_and]
    rintro rfl
    exact hidden_root

theorem markChild_spec (hnd : (ids nodes).Nodup) {child : JsString} (hc : child ≠ rootId)
    {acc : Bool × Marking} (h : Marked nodes parents rootId acc.2)
    (hup : upward parents rootId child ∈ acc.2.known)
    (hacc : acc.1 = true ↔ Hidden nodes parents rootId (upward parents rootId child)) :
    let acc' := markChild (.ofList (nodes.map fun n => (n.id, n))) child acc
    Marked nodes parents rootId acc'.2 ∧ (acc'.1 = true ↔ Hidden nodes parents rootId child) ∧
      acc'.2.known = insert child acc.2.known := by
  have hhidden : (markChild (.ofList (nodes.map fun n => (n.id, n))) child acc).1 = true ↔
      Hidden nodes parents rootId child := by
    rw [hidden_step hc, markChild, Bool.or_eq_true, flagged_iff hnd, hacc, or_comm]
  refine ⟨⟨?_, ?_, ?_⟩, hhidden, rfl⟩
  · exact Finset.mem_insert_of_mem h.root_mem
  · intro x hx
    rcases Finset.mem_insert.mp hx with rfl | hx
    · exact Finset.mem_insert_of_mem hup
    · exact Finset.mem_insert_of_mem (h.closed x hx)
  · intro x
    have hdel : x ∈ (markChild (.ofList (nodes.map fun n => (n.id, n))) child acc).2.deleted ↔
        (x = child ∧ Hidden nodes parents rootId child) ∨ x ∈ acc.2.deleted := by
      rw [← hhidden]
      simp only [markChild]
      split_ifs with hh <;> simp [hh]
    rw [hdel, h.deleted]
    change _ ↔ x ∈ insert child acc.2.known ∧ _
    rw [Finset.mem_insert]
    constructor
    · rintro (⟨rfl, hh⟩ | ⟨hk, hh⟩)
      · exact ⟨Or.inl rfl, hh⟩
      · exact ⟨Or.inr hk, hh⟩
    · rintro ⟨rfl | hk, hh⟩
      · exact Or.inl ⟨rfl, hh⟩
      · exact Or.inr ⟨hk, hh⟩

theorem markPath_spec (hnd : (ids nodes).Nodup) {st : Marking} (h : Marked nodes parents rootId st)
    (m : ℕ) (x : JsString) (hlast : (upward parents rootId)^[m] x ∈ st.known)
    (hne : ∀ i < m, (upward parents rootId)^[i] x ≠ rootId) :
    let acc := (List.iterate (upward parents rootId) x m).foldr
      (markChild (.ofList (nodes.map fun n => (n.id, n))))
      (decide ((upward parents rootId)^[m] x ∈ st.deleted), st)
    Marked nodes parents rootId acc.2 ∧ (acc.1 = true ↔ Hidden nodes parents rootId x) ∧
      st.known ⊆ acc.2.known ∧ x ∈ acc.2.known := by
  induction m generalizing x with
  | zero =>
    refine ⟨h, ?_, fun _ hy => hy, hlast⟩
    change decide (x ∈ st.deleted) = true ↔ _
    rw [decide_eq_true_eq, h.deleted]
    exact and_iff_right hlast
  | succ m ih =>
    obtain ⟨hm, hflag, hsub, hup⟩ := ih (upward parents rootId x) hlast
      (fun i hi => hne (i + 1) (by omega))
    have hx : x ≠ rootId := hne 0 (by omega)
    obtain ⟨hm', hflag', hknown⟩ := markChild_spec hnd hx hm hup hflag
    refine ⟨hm', hflag', ?_, ?_⟩
    · apply hsub.trans
      exact (Finset.subset_insert _ _).trans hknown.symm.subset
    · exact hknown.symm.subset (Finset.mem_insert_self x _)

theorem markDeleted_spec (hnd : (ids nodes).Nodup) {fuel : ℕ} (hfuel : nodes.length < fuel)
    (hmem : ∀ x ∈ ids nodes, ∀ i, (upward parents rootId)^[i] x ∈ ids nodes ∨
      (upward parents rootId)^[i] x = rootId)
    (hreach : ∀ x ∈ ids nodes, ∃ n, (upward parents rootId)^[n] x = rootId)
    {st : Marking} (h : Marked nodes parents rootId st) {node : TreeNode} (hnode : node ∈ nodes) :
    ∃ st', markDeleted fuel (.ofList (nodes.map fun n => (n.id, n))) parents rootId st node = some st' ∧
      Marked nodes parents rootId st' ∧ st.known ⊆ st'.known ∧ node.id ∈ st'.known := by
  rw [markDeleted]
  split_ifs with hknown
  · exact ⟨st, rfl, h, fun _ hx => hx, hknown⟩
  let stop : JsString → Bool := fun id => decide (id = rootId) || decide (id ∈ st.known)
  have hstop : ∀ y, stop y = true ↔ y ∈ st.known := by
    intro y
    simp only [stop, Bool.or_eq_true, decide_eq_true_eq]
    constructor
    · rintro (rfl | hy)
      · exact h.root_mem
      · exact hy
    · exact Or.inr
  have hid : node.id ∈ ids nodes := List.mem_map_of_mem hnode
  have hne : ∀ y, stop y = false → y ≠ rootId := by
    rintro y hy rfl
    rw [(hstop y).mpr h.root_mem] at hy
    cases hy
  have hcongr := @climb_congr _ stop (parentStep parents rootId)
    (upward parents rootId) (fun y hy => by rw [upward, if_neg (hne y hy)]) fuel [] node.id
  obtain ⟨path, last, hclimb⟩ : ∃ path y, climb stop (upward parents rootId) fuel [] node.id =
      some (path, y) := by
    apply climb_isSome (s := (ids nodes).toFinset)
    · obtain ⟨n, hn⟩ := hreach _ hid
      exact ⟨n, (hstop _).mpr (by rw [hn]; exact h.root_mem)⟩
    · intro i hi
      exact List.mem_toFinset.mpr ((hmem _ hid i).resolve_right (hne _ hi))
    · have := List.toFinset_card_le (ids nodes)
      simp only [ids, List.length_map] at this ⊢
      omega
  obtain ⟨m, rfl, rfl, hlast, hpush⟩ := climb_spec hclimb
  obtain ⟨hmarked, -, hsub, hx⟩ := markPath_spec hnd h m node.id ((hstop _).mp hlast)
    (fun i hi => hne _ (hpush i hi))
  have hrun : climb (fun id => decide (id = rootId) || decide (id ∈ st.known))
      (parentStep parents rootId) fuel [] node.id = _ := hcongr.trans hclimb
  rw [hrun, Option.map_some]
  exact ⟨_, rfl, hmarked, hsub, hx⟩

theorem markAll_spec (hnd : (ids nodes).Nodup) {fuel : ℕ} (hfuel : nodes.length < fuel)
    (hmem : ∀ x ∈ ids nodes, ∀ i, (upward parents rootId)^[i] x ∈ ids nodes ∨
      (upward parents rootId)^[i] x = rootId)
    (hreach : ∀ x ∈ ids nodes, ∃ n, (upward parents rootId)^[n] x = rootId)
    {st : Marking} (h : Marked nodes parents rootId st) :
    ∃ st', nodes.foldlM (markDeleted fuel (.ofList (nodes.map fun n => (n.id, n))) parents rootId) st =
        some st' ∧ Marked nodes parents rootId st' ∧ st.known ⊆ st'.known ∧
      ∀ n ∈ nodes, n.id ∈ st'.known := by
  refine foldlM_settles Marking.known TreeNode.id ?_ (fun _ hn => hn) h
  intro st h n hn
  exact markDeleted_spec hnd hfuel hmem hreach h hn

theorem hidden_iff {t : EffectiveTree} {x : JsString} (hun : ∀ y, y ∉ ids nodes → t.parents.get y = none) :
    Hidden nodes t.parents rootId x ↔ x ∈ ids nodes ∧ x ≠ rootId ∧ (FlaggedDeleted nodes x ∨
      ∃ y, Relation.TransGen (EffectiveEdge rootId t) x y ∧ y ≠ rootId ∧ FlaggedDeleted nodes y) := by
  constructor
  · rintro ⟨n, hn, hf⟩
    have hx : x ≠ rootId := ne_root_of_le (upward_root _) (Nat.zero_le n) hn
    cases n with
    | zero =>
      have hflag : FlaggedDeleted nodes x := hf
      obtain ⟨m, hm, rfl, -⟩ := hflag
      exact ⟨List.mem_map_of_mem hm, hx, Or.inl hf⟩
    | succ n =>
      refine ⟨?_, hx, Or.inr ⟨_, (effectivePath_iff hn).mpr ⟨n, rfl⟩, hn, hf⟩⟩
      by_contra hno
      have hup : upward t.parents rootId x = rootId := by
        simp [upward, parentStep, hun x hno]
      exact hn (by rw [iterate_succ_apply, hup, iterate_root (upward_root _)])
  · rintro ⟨-, hx, hf | ⟨y, hxy, hy, hf⟩⟩
    · exact ⟨0, hx, hf⟩
    · obtain ⟨n, rfl⟩ := (effectivePath_iff hy).mp hxy
      exact ⟨n + 1, hy, hf⟩

end Marking

theorem effectivePath_root {t : EffectiveTree} (hget : ∀ x ∈ ids nodes, ∃ p, t.parents.get x = some p)
    (hmem : ∀ x ∈ ids nodes, upward t.parents rootId x ∈ ids nodes ∨ upward t.parents rootId x = rootId)
    (n : ℕ) {x : JsString} (hx : x ∈ ids nodes) (hn : (upward t.parents rootId)^[n] x = rootId) :
    Relation.ReflTransGen (EffectiveEdge rootId t) x rootId := by
  induction n generalizing x with
  | zero => rw [← hn]; exact .refl
  | succ n ih =>
    by_cases hr : x = rootId
    · rw [hr]
    · obtain ⟨p, hp⟩ := hget x hx
      have hup : upward t.parents rootId x = p := by
        rw [upward, if_neg hr, parentStep, hp, Option.getD_some]
      have hedge : EffectiveEdge rootId t x p := ⟨hr, hp⟩
      rcases hmem x hx with hm | hm
      · rw [hup] at hm
        exact .head hedge (ih hm (by rw [← hup]; exact hn))
      · rw [hup] at hm
        exact .single (hm ▸ hedge)

theorem deriveEffectiveTreeWithin_spec (rootId : JsString) (hnd : (ids nodes).Nodup) {fuel : ℕ}
    (hfuel : nodes.length < fuel) :
    ∃ t, deriveEffectiveTreeWithin fuel nodes rootId = some t ∧ EffectiveTree.Spec nodes rootId t := by
  obtain ⟨st, hst, hb, -, hall⟩ :=
    breakCycles_spec hnd hfuel (broken_attached hnd)
  obtain ⟨mk, hmk, hm, -, hknown⟩ := markAll_spec hnd hfuel
    (fun x hx i => hb.iterate_mem hnd hall hx i) (fun x hx => hb.reaches hnd hall hx) marked_empty
  have hrec : ∀ x, x ∈ st.recovered ↔ Detached nodes rootId x ∨ CycleLeast nodes rootId x := by
    intro x
    rw [hb.recovered, cycleLeast_iff hnd]
    constructor
    · rintro (hd | ⟨hl, -⟩)
      · exact Or.inl hd
      · exact Or.inr hl
    · rintro (hd | hl)
      · exact Or.inl hd
      · by_cases hx : x ∈ ids nodes
        · obtain ⟨n, hn, rfl⟩ := List.mem_map.mp hx
          exact Or.inr ⟨hl, hall n hn⟩
        · exact absurd (rawNext_unlisted hx) (hl.1.iterate_ne rawNext_root 1)
  refine ⟨⟨st.parents, st.recovered, mk.deleted⟩, ?_, hb.root, hb.parents, hb.unlisted, hrec, ?_, ?_⟩
  · rw [deriveEffectiveTreeWithin]
    simp only [hst, hmk, Option.bind_eq_bind, Option.bind_some, Option.pure_def]
  · intro x
    rw [hm.deleted, hidden_iff (t := ⟨st.parents, st.recovered, mk.deleted⟩) hb.unlisted,
      and_iff_right_iff_imp]
    rintro ⟨hx, -⟩
    obtain ⟨n, hn, rfl⟩ := List.mem_map.mp hx
    exact hknown n hn
  · intro x hx
    obtain ⟨n, hn⟩ := hb.reaches hnd hall hx
    refine effectivePath_root (fun y hy => ?_) (fun y _ => hb.upward_mem hnd hall) n hx hn
    obtain ⟨m, hm, rfl⟩ := List.mem_map.mp hy
    by_cases hr : m.id = rootId
    · exact ⟨_, hr ▸ hb.root (hr ▸ hy)⟩
    · exact ⟨_, hb.parents m hm hr⟩

end OpenOutliner
