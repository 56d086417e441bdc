import OpenOutliner.Shared.DeletionMarking

namespace OpenOutliner

open Foundations EffectiveTree

variable {nodes nodes' : List TreeNode} {rootId : JsString}

section Fuel

variable {fuel fuel' : ℕ} (hf : fuel ≤ fuel')

include hf

theorem breakCycle_mono {st st' : Placement} {node : TreeNode}
    (h : breakCycle fuel rootId st node = some st') : breakCycle fuel' rootId st node = some st' := by
  rw [breakCycle] at h ⊢
  obtain ⟨w, hw, he⟩ := Option.map_eq_some_iff.mp h
  rw [walk_mono hf hw, Option.map_some, he]

theorem markDeleted_mono {byId : OrderedMap JsString TreeNode} {parents : OrderedMap JsString JsString}
    {st st' : Marking} {node : TreeNode} (h : markDeleted fuel byId parents rootId st node = some st') :
    markDeleted fuel' byId parents rootId st node = some st' := by
  rw [markDeleted] at h ⊢
  split_ifs at h ⊢
  · exact h
  · obtain ⟨w, hw, he⟩ := Option.map_eq_some_iff.mp h
    rw [climb_mono hf hw, Option.map_some, he]

theorem deriveEffectiveTreeWithin_mono {t : EffectiveTree}
    (h : deriveEffectiveTreeWithin fuel nodes rootId = some t) :
    deriveEffectiveTreeWithin fuel' nodes rootId = some t := by
  rw [deriveEffectiveTreeWithin] at h ⊢
  simp only [Option.bind_eq_bind, Option.bind_eq_some_iff] at h ⊢
  obtain ⟨broken, hb, marked, hm, he⟩ := h
  refine ⟨broken, ?_, marked, ?_, he⟩
  · exact foldlM_mono (fun st n st' => breakCycle_mono hf) hb
  · exact foldlM_mono (fun st n st' => markDeleted_mono hf) hm

end Fuel

theorem deriveEffectiveTree_terminates (hnd : (ids nodes).Nodup) {fuel : ℕ} (hfuel : nodes.length < fuel) :
    deriveEffectiveTreeWithin fuel nodes rootId = some (deriveEffectiveTree nodes rootId) := by
  obtain ⟨t, ht, -⟩ := deriveEffectiveTreeWithin_spec rootId hnd (Nat.lt_succ_self nodes.length)
  rw [deriveEffectiveTree, ht, Option.getD_some]
  exact deriveEffectiveTreeWithin_mono hfuel ht

theorem deriveEffectiveTree_spec (hnd : (ids nodes).Nodup) :
    EffectiveTree.Spec nodes rootId (deriveEffectiveTree nodes rootId) := by
  obtain ⟨t, ht, hspec⟩ :=
    deriveEffectiveTreeWithin_spec rootId hnd (Nat.lt_succ_self nodes.length)
  rw [deriveEffectiveTree, ht]
  exact hspec

section Order

variable (hperm : nodes.Perm nodes')

include hperm

theorem ids_perm : (ids nodes).Perm (ids nodes') := hperm.map _

theorem detached_perm {x : JsString} : Detached nodes rootId x ↔ Detached nodes' rootId x := by
  simp only [Detached, hperm.mem_iff, (ids_perm hperm).mem_iff]

theorem rawEdge_perm : RawEdge nodes rootId = RawEdge nodes' rootId := by
  funext a b
  simp only [RawEdge, detached_perm hperm, hperm.mem_iff]

theorem cycleLeast_perm {x : JsString} : CycleLeast nodes rootId x ↔ CycleLeast nodes' rootId x := by
  rw [CycleLeast, CycleLeast, rawEdge_perm hperm]

theorem flaggedDeleted_perm {x : JsString} : FlaggedDeleted nodes x ↔ FlaggedDeleted nodes' x := by
  simp only [FlaggedDeleted, hperm.mem_iff]

/-- The specification leaves no choice, and says nothing about the order of the list. -/
theorem EffectiveTree.Spec.unique {t t' : EffectiveTree} (h : EffectiveTree.Spec nodes rootId t)
    (h' : EffectiveTree.Spec nodes' rootId t') :
    (∀ x, t.parents.get x = t'.parents.get x) ∧ t.recovered = t'.recovered ∧ t.deleted = t'.deleted := by
  have hids : ∀ x, x ∈ ids nodes ↔ x ∈ ids nodes' := fun x => (ids_perm hperm).mem_iff
  have hrec : t.recovered = t'.recovered := by
    ext x
    rw [h.recovered, h'.recovered, detached_perm hperm, cycleLeast_perm hperm]
  have hpar : ∀ x, t.parents.get x = t'.parents.get x := by
    intro x
    by_cases hx : x ∈ ids nodes
    · by_cases hr : x = rootId
      · rw [hr] at hx ⊢
        rw [h.root hx, h'.root ((hids _).mp hx)]
      · obtain ⟨n, hn, rfl⟩ := List.mem_map.mp hx
        rw [h.parent n hn hr, h'.parent n (hperm.mem_iff.mp hn) hr, hrec]
    · rw [h.unlisted x hx, h'.unlisted x (fun hx' => hx ((hids x).mpr hx'))]
  refine ⟨hpar, hrec, ?_⟩
  have hedge : EffectiveEdge rootId t = EffectiveEdge rootId t' := by
    funext a b
    rw [EffectiveEdge, EffectiveEdge, hpar]
  ext x
  rw [h.deleted, h'.deleted, hids, hedge]
  simp only [flaggedDeleted_perm hperm]

end Order

section Edges

variable {t : EffectiveTree}

theorem effectiveEdge_unique : Relator.RightUnique (EffectiveEdge rootId t) := by
  rintro x y z ⟨-, hy⟩ ⟨-, hz⟩
  exact Option.some.inj (hy.symm.trans hz)

theorem not_cyclic_of_reaches {x : JsString} (h : Relation.ReflTransGen (EffectiveEdge rootId t) x rootId) :
    ¬ Relation.TransGen (EffectiveEdge rootId t) x x := by
  induction h using Relation.ReflTransGen.head_induction_on with
  | refl =>
    intro hcyc
    obtain ⟨y, hedge, -⟩ := Relation.TransGen.head'_iff.mp hcyc
    exact hedge.1 rfl
  | head hedge _ ih =>
    intro hcyc
    obtain ⟨y, hedge', hback⟩ := Relation.TransGen.head'_iff.mp hcyc
    rw [effectiveEdge_unique hedge' hedge] at hback
    exact ih (Relation.TransGen.tail' hback hedge)

end Edges

/-- For distinct ids, in any order: the loops end, every node reaches the root, the recovered
nodes are the detached ones and the least of each raw cycle, the others keep their parent, and
deletion is inherited from above. -/
theorem deriveEffectiveTree_correct (nodes : List TreeNode) (rootId : JsString) (hnd : (ids nodes).Nodup) :
    let t := deriveEffectiveTree nodes rootId
    (∀ fuel > nodes.length, deriveEffectiveTreeWithin fuel nodes rootId = some t) ∧
    (∀ x ∈ ids nodes, Relation.ReflTransGen (EffectiveEdge rootId t) x rootId) ∧
    (∀ x, x ∈ t.recovered ↔ Detached nodes rootId x ∨ CycleLeast nodes rootId x) ∧
    (∀ n ∈ nodes, n.id ≠ rootId →
      t.parents.get n.id = some (if n.id ∈ t.recovered then rootId else n.parentId)) ∧
    (∀ x, x ∈ t.deleted ↔ x ∈ ids nodes ∧ x ≠ rootId ∧ (FlaggedDeleted nodes x ∨
      ∃ y, Relation.TransGen (EffectiveEdge rootId t) x y ∧ y ≠ rootId ∧ FlaggedDeleted nodes y)) ∧
    (∀ nodes', nodes.Perm nodes' →
      (∀ x, t.parents.get x = (deriveEffectiveTree nodes' rootId).parents.get x) ∧
      t.recovered = (deriveEffectiveTree nodes' rootId).recovered ∧
      t.deleted = (deriveEffectiveTree nodes' rootId).deleted) := by
  intro t
  have hspec : EffectiveTree.Spec nodes rootId t := deriveEffectiveTree_spec hnd
  refine ⟨?_, hspec.reaches, hspec.recovered, hspec.parent, hspec.deleted, ?_⟩
  · intro fuel hfuel
    exact deriveEffectiveTree_terminates hnd hfuel
  · intro nodes' hperm
    have hnd' : (ids nodes').Nodup := (ids_perm hperm).nodup_iff.mp hnd
    exact hspec.unique hperm (deriveEffectiveTree_spec hnd')

def tangled : List TreeNode :=
  [⟨js ['r'], ROOT_PARENT_SENTINEL, false⟩, ⟨js ['b'], js ['a'], false⟩, ⟨js ['a'], js ['b'], false⟩,
    ⟨js ['c'], js ['b'], true⟩, ⟨js ['d'], js ['x'], false⟩]

theorem deriveEffectiveTree_tangled :
    (deriveEffectiveTree tangled (js ['r'])).recovered = {js ['a'], js ['d']} ∧
    (deriveEffectiveTree tangled (js ['r'])).deleted = {js ['c']} ∧
    ∀ x ∈ ids tangled, Relation.ReflTransGen
      (EffectiveEdge (js ['r']) (deriveEffectiveTree tangled (js ['r']))) x (js ['r']) :=
  ⟨by decide, by decide, (deriveEffectiveTree_correct tangled (js ['r']) (by decide)).2.1⟩

end OpenOutliner
