import OpenOutliner.Foundations.Redirect
import OpenOutliner.Shared.EffectiveTreeLaws

namespace OpenOutliner

open Foundations Relation

variable {nodes nodes' : List TreeNode} {rootId x y z p : JsString} {t t' : EffectiveTree}

section RawEdges

theorem rawEdge_unique (hnd : (ids nodes).Nodup) : Relator.RightUnique (RawEdge nodes rootId) := by
  rintro x y z ⟨-, -, m, hm, rfl, rfl⟩ ⟨-, -, n, hn, hid, rfl⟩
  rw [node_unique hnd hn hm hid]

theorem rawEdge_of_mem (hnd : (ids nodes).Nodup) {n : TreeNode} (hn : n ∈ nodes) :
    RawEdge nodes rootId n.id y ↔
      n.id ≠ rootId ∧ n.parentId = y ∧ y ≠ ROOT_PARENT_SENTINEL ∧ y ∈ ids nodes := by
  constructor
  · rintro ⟨hne, hattached, m, hm, hid, rfl⟩
    rw [node_unique hnd hm hn hid]
    refine ⟨hne, rfl, ?_, ?_⟩
    · intro hs
      exact hattached ⟨hne, n, hn, rfl, Or.inl hs⟩
    · by_contra hno
      exact hattached ⟨hne, n, hn, rfl, Or.inr hno⟩
  · rintro ⟨hne, rfl, hplain, hin⟩
    refine ⟨hne, ?_, n, hn, rfl, rfl⟩
    rintro ⟨-, m, hm, hid, hcase⟩
    rw [node_unique hnd hm hn hid] at hcase
    exact hcase.elim hplain fun hno => hno hin

theorem rawEdge_source (h : RawEdge nodes rootId x y) : x ∈ ids nodes := by
  obtain ⟨-, -, n, hn, rfl, -⟩ := h
  exact List.mem_map_of_mem hn

theorem rawEdge_target (h : RawEdge nodes rootId x y) : y ∈ ids nodes := by
  obtain ⟨hne, hattached, n, hn, rfl, rfl⟩ := h
  by_contra hno
  exact hattached ⟨hne, n, hn, rfl, Or.inr hno⟩

theorem EffectiveTree.Spec.edge_iff (hspec : EffectiveTree.Spec nodes rootId t) {n : TreeNode}
    (hn : n ∈ nodes) :
    EffectiveEdge rootId t n.id y ↔
      n.id ≠ rootId ∧ (if n.id ∈ t.recovered then rootId else n.parentId) = y := by
  constructor
  · rintro ⟨hne, hy⟩
    rw [hspec.parent n hn hne] at hy
    exact ⟨hne, Option.some.inj hy⟩
  · rintro ⟨hne, hy⟩
    exact ⟨hne, by rw [hspec.parent n hn hne, hy]⟩

theorem EffectiveTree.Spec.edge_source (hspec : EffectiveTree.Spec nodes rootId t)
    (h : EffectiveEdge rootId t x y) :
    x ∈ ids nodes := by
  by_contra hno
  have hy := h.2
  rw [hspec.unlisted x hno] at hy
  cases hy

theorem EffectiveTree.Spec.edge_raw (hspec : EffectiveTree.Spec nodes rootId t)
    (h : EffectiveEdge rootId t x y) (hrec : x ∉ t.recovered) : RawEdge nodes rootId x y := by
  obtain ⟨n, hn, rfl⟩ := List.mem_map.mp (hspec.edge_source h)
  obtain ⟨hne, hy⟩ := (hspec.edge_iff hn).mp h
  rw [if_neg hrec] at hy
  exact ⟨hne, fun hdetached => hrec ((hspec.recovered _).mpr (Or.inl hdetached)), n, hn, rfl, hy⟩

theorem EffectiveTree.Spec.recovered_edge (hspec : EffectiveTree.Spec nodes rootId t)
    (h : EffectiveEdge rootId t x y) (hrec : x ∈ t.recovered) : y = rootId := by
  obtain ⟨n, hn, rfl⟩ := List.mem_map.mp (hspec.edge_source h)
  obtain ⟨-, hy⟩ := (hspec.edge_iff hn).mp h
  rw [if_pos hrec] at hy
  exact hy.symm

theorem exists_node_iff (h : ∀ n : TreeNode, n.id = y → (n ∈ nodes' ↔ n ∈ nodes)) (P : TreeNode → Prop) :
    (∃ n ∈ nodes', n.id = y ∧ P n) ↔ ∃ n ∈ nodes, n.id = y ∧ P n := by
  apply exists_congr
  intro n
  constructor
  · rintro ⟨hn, hid, hP⟩
    exact ⟨(h n hid).mp hn, hid, hP⟩
  · rintro ⟨hn, hid, hP⟩
    exact ⟨(h n hid).mpr hn, hid, hP⟩

theorem EffectiveTree.Spec.parents_congr (ht : EffectiveTree.Spec nodes rootId t)
    (ht' : EffectiveTree.Spec nodes' rootId t')
    (hplaced : ∀ q, (∃ n ∈ nodes', n.id = y ∧ n.parentId = q) ↔ ∃ n ∈ nodes, n.id = y ∧ n.parentId = q)
    (hrec : y ∈ t'.recovered ↔ y ∈ t.recovered) : t'.parents.get y = t.parents.get y := by
  by_cases hin : y ∈ ids nodes
  · obtain ⟨n, hn, rfl⟩ := List.mem_map.mp hin
    obtain ⟨n', hn', hid, hparent⟩ := (hplaced n.parentId).mpr ⟨n, hn, rfl, rfl⟩
    by_cases hroot : n.id = rootId
    · rw [hroot] at hin hid ⊢
      rw [ht.root hin, ht'.root (hid ▸ List.mem_map_of_mem hn')]
    · have hparent' := ht'.parent n' hn' (hid ▸ hroot)
      rw [hid, hparent] at hparent'
      rw [ht.parent n hn hroot, hparent']
      simp only [hrec]
  · have hno : y ∉ ids nodes' := by
      intro hin'
      obtain ⟨n', hn', rfl⟩ := List.mem_map.mp hin'
      obtain ⟨n, hn, hid, -⟩ := (hplaced n'.parentId).mp ⟨n', hn', rfl, rfl⟩
      exact hin (hid ▸ List.mem_map_of_mem hn)
    rw [ht.unlisted y hin, ht'.unlisted y hno]

end RawEdges

section Others

def SameOthers (nodes nodes' : List TreeNode) (x : JsString) : Prop :=
  ∀ n : TreeNode, n.id ≠ x → (n ∈ nodes' ↔ n ∈ nodes)

variable (h : SameOthers nodes nodes' x)

include h

theorem SameOthers.exists_iff (P : TreeNode → Prop) (hy : y ≠ x) :
    (∃ n ∈ nodes', n.id = y ∧ P n) ↔ ∃ n ∈ nodes, n.id = y ∧ P n :=
  exists_node_iff (fun n hn => h n (hn ▸ hy)) P

theorem SameOthers.agree (hdetached : ∀ y, y ≠ x → (Detached nodes' rootId y ↔ Detached nodes rootId y)) :
    AgreeOff x (RawEdge nodes rootId) (RawEdge nodes' rootId) := by
  intro a b ha
  unfold RawEdge
  rw [hdetached a ha, h.exists_iff _ ha]

theorem SameOthers.flagged_iff (hy : y ≠ x) : FlaggedDeleted nodes' y ↔ FlaggedDeleted nodes y :=
  h.exists_iff _ hy

theorem SameOthers.parents_eq (ht : EffectiveTree.Spec nodes rootId t)
    (ht' : EffectiveTree.Spec nodes' rootId t')
    (hrec : ∀ y, y ≠ x → (y ∈ t'.recovered ↔ y ∈ t.recovered)) (hy : y ≠ x) :
    t'.parents.get y = t.parents.get y :=
  ht.parents_congr ht' (fun q => h.exists_iff (fun n => n.parentId = q) hy) (hrec y hy)

end Others

/-- `nodes'` is `nodes` with `x` placed under `p`. -/
structure Reparented (nodes nodes' : List TreeNode) (x p : JsString) : Prop where
  nodup : (ids nodes).Nodup
  nodup' : (ids nodes').Nodup
  listed : ∀ y, y ∈ ids nodes' ↔ y ∈ ids nodes
  others : SameOthers nodes nodes' x
  placed : ∀ n ∈ nodes', n.id = x → n.parentId = p
  flagged : FlaggedDeleted nodes' x ↔ FlaggedDeleted nodes x

namespace Reparented

variable (h : Reparented nodes nodes' x p)

include h

theorem detached_iff (hy : y ≠ x) : Detached nodes' rootId y ↔ Detached nodes rootId y := by
  unfold Detached
  apply and_congr_right
  intro _
  simp only [h.listed]
  exact h.others.exists_iff _ hy

theorem agree (rootId : JsString) : AgreeOff x (RawEdge nodes rootId) (RawEdge nodes' rootId) :=
  h.others.agree fun _ hy => h.detached_iff hy

theorem rawEdge_new (hedge : RawEdge nodes' rootId x z) : z = p := by
  obtain ⟨-, -, n, hn, hid, rfl⟩ := hedge
  exact h.placed n hn hid

theorem flagged_iff (y : JsString) : FlaggedDeleted nodes' y ↔ FlaggedDeleted nodes y := by
  by_cases hy : y = x
  · rw [hy]
    exact h.flagged
  · exact h.others.flagged_iff hy

theorem not_cyclic (hback : ¬ ReflTransGen (RawEdge nodes rootId) p x) :
    ¬ TransGen (RawEdge nodes' rootId) x x := by
  apply (h.agree rootId).not_cycle
  intro b hedge
  rwa [h.rawEdge_new hedge]

section Recovered

variable (ht : EffectiveTree.Spec nodes rootId t) (ht' : EffectiveTree.Spec nodes' rootId t')

include ht ht'

omit ht in
theorem recovered_new (hne : x ≠ rootId) (hx : x ∈ ids nodes) (hacyclic : ¬ CycleLeast nodes' rootId x) :
    x ∈ t'.recovered ↔ p = ROOT_PARENT_SENTINEL ∨ p ∉ ids nodes := by
  obtain ⟨n, hn, hid⟩ := List.mem_map.mp ((h.listed x).mpr hx)
  rw [ht'.recovered, or_iff_left hacyclic, ← h.listed]
  constructor
  · rintro ⟨-, m, hm, he, hcase⟩
    rwa [h.placed m hm he] at hcase
  · intro hcase
    refine ⟨hne, n, hn, hid, ?_⟩
    rwa [h.placed n hn hid]

theorem recovered_iff (hx : ¬ TransGen (RawEdge nodes rootId) x x)
    (hx' : ¬ TransGen (RawEdge nodes' rootId) x x) (hy : y ≠ x) : y ∈ t'.recovered ↔ y ∈ t.recovered := by
  have hcyc := (h.agree rootId).cycle_iff (rawEdge_unique h.nodup) (rawEdge_unique h.nodup') hx hx' (a := y)
  rw [ht.recovered, ht'.recovered, h.detached_iff hy]
  apply or_congr_right
  unfold CycleLeast
  rw [← hcyc]
  apply and_congr_right
  intro hycyc
  have havoids : ¬ ReflTransGen (RawEdge nodes rootId) y x := by
    intro hyx
    exact hx (cycle_forward (rawEdge_unique h.nodup) hycyc hyx)
  apply forall_congr'
  intro z
  rw [(h.agree rootId).trans_iff_of_avoids havoids]

end Recovered

section Frame

variable (ht : EffectiveTree.Spec nodes rootId t) (ht' : EffectiveTree.Spec nodes' rootId t')
  (hrec : ∀ y, y ≠ x → (y ∈ t'.recovered ↔ y ∈ t.recovered))

include ht ht' hrec

theorem parents_eq (hy : y ≠ x) : t'.parents.get y = t.parents.get y :=
  h.others.parents_eq ht ht' hrec hy

theorem edges_agree : AgreeOff x (EffectiveEdge rootId t) (EffectiveEdge rootId t') := by
  intro a b ha
  unfold EffectiveEdge
  rw [h.parents_eq ht ht' hrec ha]

theorem deleted_iff (hy : ¬ ReflTransGen (EffectiveEdge rootId t) y x) : y ∈ t'.deleted ↔ y ∈ t.deleted := by
  rw [ht.deleted, ht'.deleted, h.listed, h.flagged_iff]
  apply and_congr_right
  intro _
  apply and_congr_right
  intro _
  apply or_congr_right
  apply exists_congr
  intro z
  rw [h.flagged_iff, (h.edges_agree ht ht' hrec).trans_iff_of_avoids hy]

end Frame

end Reparented

end OpenOutliner
