import OpenOutliner.Shared.SiblingMoves

namespace OpenOutliner

open Foundations Relation

/-- `nodes'` is `nodes` with more nodes, which are deleted and no parents of `nodes`. -/
structure Overgrown (nodes nodes' : List TreeNode) : Prop where
  nodup : (ids nodes).Nodup
  nodup' : (ids nodes').Nodup
  kept : ∀ n ∈ nodes, n ∈ nodes'
  unnamed : ∀ n ∈ nodes, n.parentId ∈ ids nodes' → n.parentId ∈ ids nodes
  flagged : ∀ n ∈ nodes', n.id ∉ ids nodes → n.isDeleted = true

namespace Overgrown

variable {nodes nodes' : List TreeNode} {rootId x y : JsString} {t t' : EffectiveTree}
  (h : Overgrown nodes nodes')

include h

theorem ids_subset (hx : x ∈ ids nodes) : x ∈ ids nodes' := by
  obtain ⟨n, hn, rfl⟩ := List.mem_map.mp hx
  exact List.mem_map_of_mem (h.kept n hn)

theorem old {n : TreeNode} (hn : n ∈ nodes') (hid : n.id ∈ ids nodes) : n ∈ nodes := by
  obtain ⟨m, hm, he⟩ := List.mem_map.mp hid
  rwa [← node_unique h.nodup' (h.kept m hm) hn he]

theorem exists_iff (P : TreeNode → Prop) (hx : x ∈ ids nodes) :
    (∃ n ∈ nodes', n.id = x ∧ P n) ↔ ∃ n ∈ nodes, n.id = x ∧ P n := by
  constructor
  · rintro ⟨n, hn, rfl, hP⟩
    exact ⟨n, h.old hn hx, rfl, hP⟩
  · rintro ⟨n, hn, rfl, hP⟩
    exact ⟨n, h.kept n hn, rfl, hP⟩

theorem detached_iff (hx : x ∈ ids nodes) : Detached nodes' rootId x ↔ Detached nodes rootId x := by
  unfold Detached
  apply and_congr_right
  intro _
  constructor
  · rintro ⟨n, hn, rfl, hcase⟩
    exact ⟨n, h.old hn hx, rfl, hcase.imp_right fun hno hp => hno (h.ids_subset hp)⟩
  · rintro ⟨n, hn, rfl, hcase⟩
    exact ⟨n, h.kept n hn, rfl, hcase.imp_right fun hno hp => hno (h.unnamed n hn hp)⟩

theorem rawEdge_iff (hx : x ∈ ids nodes) : RawEdge nodes' rootId x y ↔ RawEdge nodes rootId x y := by
  unfold RawEdge
  rw [h.detached_iff hx, h.exists_iff _ hx]

theorem rawPath_iff (hx : x ∈ ids nodes) : TransGen (RawEdge nodes' rootId) x y ↔
    TransGen (RawEdge nodes rootId) x y :=
  transGen_iff_of_closed (fun _ _ _ => rawEdge_target) (fun _ _ ha => h.rawEdge_iff ha) hx

theorem flagged_iff (hx : x ∈ ids nodes) : FlaggedDeleted nodes' x ↔ FlaggedDeleted nodes x :=
  h.exists_iff _ hx

section Trees

variable (ht : EffectiveTree.Spec nodes rootId t) (ht' : EffectiveTree.Spec nodes' rootId t')

include ht ht'

theorem recovered_iff (hx : x ∈ ids nodes) : x ∈ t'.recovered ↔ x ∈ t.recovered := by
  rw [ht.recovered, ht'.recovered, h.detached_iff hx]
  unfold CycleLeast
  rw [h.rawPath_iff hx]
  simp only [h.rawPath_iff hx]

theorem edge_iff (hx : x ∈ ids nodes) : EffectiveEdge rootId t' x y ↔ EffectiveEdge rootId t x y := by
  obtain ⟨n, hn, rfl⟩ := List.mem_map.mp hx
  rw [ht.edge_iff hn, ht'.edge_iff (h.kept n hn)]
  simp only [h.recovered_iff ht ht' hx]

variable (hroot : rootId ∈ ids nodes)

include hroot

omit h ht' in
theorem edge_target (hx : EffectiveEdge rootId t x y) : y ∈ ids nodes := by
  by_cases hrec : x ∈ t.recovered
  · rwa [ht.recovered_edge hx hrec]
  · exact rawEdge_target (ht.edge_raw hx hrec)

theorem path_iff (hx : x ∈ ids nodes) :
    TransGen (EffectiveEdge rootId t') x y ↔ TransGen (EffectiveEdge rootId t) x y :=
  transGen_iff_of_closed (fun _ _ _ hedge => edge_target ht hroot hedge)
    (fun _ _ ha => h.edge_iff ht ht' ha) hx

theorem live_iff : (EffectiveEdge rootId t' x y ∧ x ∉ t'.deleted) ↔
    EffectiveEdge rootId t x y ∧ x ∉ t.deleted := by
  by_cases hx : x ∈ ids nodes
  · rw [h.edge_iff ht ht' hx]
    apply and_congr_right
    intro hedge
    rw [not_iff_not, ht.deleted, ht'.deleted, h.flagged_iff hx]
    simp only [h.path_iff ht ht' hroot hx, hx, h.ids_subset hx, true_and]
    apply and_congr_right
    intro _
    apply or_congr_right
    apply exists_congr
    intro z
    apply and_congr_right
    intro hpath
    have hz : z ∈ ids nodes := by
      obtain ⟨w, -, hw⟩ := TransGen.tail'_iff.mp hpath
      exact edge_target ht hroot hw
    rw [h.flagged_iff hz]
  · constructor
    · rintro ⟨hedge, hlive⟩
      obtain ⟨n, hn, rfl⟩ := List.mem_map.mp (ht'.edge_source hedge)
      refine absurd ((ht'.deleted _).mpr ⟨List.mem_map_of_mem hn, hedge.1, Or.inl ?_⟩) hlive
      exact ⟨n, hn, rfl, h.flagged n hn hx⟩
    · rintro ⟨hedge, -⟩
      exact absurd (ht.edge_source hedge) hx

end Trees

end Overgrown

end OpenOutliner
