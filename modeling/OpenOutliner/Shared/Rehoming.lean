import OpenOutliner.Shared.SiblingMoves

namespace OpenOutliner

open Foundations Relation

variable {nodes nodes' : List TreeNode} {rootId x y z m p : JsString} {moved : List JsString}
  {t t' : EffectiveTree}

/-- `nodes'` is `nodes` with each of `moved` placed under `p`. -/
structure Rehomed (nodes nodes' : List TreeNode) (moved : List JsString) (p : JsString) : Prop where
  nodup : (ids nodes).Nodup
  nodup' : (ids nodes').Nodup
  listed : ∀ y, y ∈ ids nodes' ↔ y ∈ ids nodes
  others : ∀ n : TreeNode, n.id ∉ moved → (n ∈ nodes' ↔ n ∈ nodes)
  placed : ∀ n ∈ nodes', n.id ∈ moved → n.parentId = p
  flagged : ∀ y, FlaggedDeleted nodes' y ↔ FlaggedDeleted nodes y

structure CanRehome (nodes : List TreeNode) (rootId : JsString) (moved : List JsString)
    (m p : JsString) : Prop where
  under : ∀ c ∈ moved, RawEdge nodes rootId c m
  acyclic : ¬ TransGen (RawEdge nodes rootId) m m
  apart : ¬ ReflTransGen (RawEdge nodes rootId) p m
  plain : ∀ c ∈ moved, p ≠ ROOT_PARENT_SENTINEL
  present : p ∈ ids nodes

theorem EffectiveTree.Spec.deleted_step (ht : EffectiveTree.Spec nodes rootId t)
    (h : EffectiveEdge rootId t y z) :
    y ∈ t.deleted ↔ FlaggedDeleted nodes y ∨ z ∈ t.deleted := by
  constructor
  · intro hdel
    obtain ⟨-, -, hflag | ⟨w, hyw, hw, hflag⟩⟩ := (ht.deleted y).mp hdel
    · exact Or.inl hflag
    · obtain ⟨v, hyv, hvw⟩ := TransGen.head'_iff.mp hyw
      rw [effectiveEdge_unique hyv h] at hvw
      right
      rw [ht.deleted]
      rcases reflTransGen_iff_eq_or_transGen.mp hvw with rfl | hzw
      · obtain ⟨n, hn, rfl, hn'⟩ := hflag
        exact ⟨List.mem_map_of_mem hn, hw, Or.inl ⟨n, hn, rfl, hn'⟩⟩
      · obtain ⟨u, hzu, -⟩ := TransGen.head'_iff.mp hzw
        exact ⟨ht.edge_source hzu, hzu.1, Or.inr ⟨w, hzw, hw, hflag⟩⟩
  · intro hcase
    rw [ht.deleted]
    refine ⟨ht.edge_source h, h.1, ?_⟩
    rcases hcase with hflag | hz
    · exact Or.inl hflag
    · obtain ⟨-, hne, hflag | ⟨w, hzw, hw, hflag⟩⟩ := (ht.deleted z).mp hz
      · exact Or.inr ⟨z, .single h, hne, hflag⟩
      · exact Or.inr ⟨w, .head h hzw, hw, hflag⟩

namespace Rehomed

variable (h : Rehomed nodes nodes' moved p) (hcan : CanRehome nodes rootId moved m p)

include h hcan

theorem edge_moved (hc : x ∈ moved) : RawEdge nodes' rootId x z ↔ z = p := by
  have hedge := hcan.under x hc
  obtain ⟨n, hn, hid⟩ := List.mem_map.mp ((h.listed x).mpr (rawEdge_source hedge))
  have hiff : RawEdge nodes' rootId n.id z ↔ _ := rawEdge_of_mem h.nodup' hn
  rw [hid, h.placed n hn (hid ▸ hc)] at hiff
  rw [hiff]
  constructor
  · rintro ⟨-, he, -⟩
    exact he.symm
  · rintro rfl
    exact ⟨hedge.1, rfl, hcan.plain x hc, (h.listed z).mpr hcan.present⟩

theorem detached_iff : Detached nodes' rootId y ↔ Detached nodes rootId y := by
  by_cases hy : y ∈ moved
  · exact iff_of_false ((h.edge_moved hcan hy).mpr rfl).2.1 (hcan.under y hy).2.1
  · unfold Detached
    apply and_congr_right
    intro _
    simp only [h.listed]
    exact exists_node_iff (fun n hn => h.others n (hn ▸ hy)) _

theorem edge_other (hy : y ∉ moved) : RawEdge nodes' rootId y z ↔ RawEdge nodes rootId y z := by
  unfold RawEdge
  rw [h.detached_iff hcan]
  apply and_congr_right
  intro _
  apply and_congr_right
  intro _
  exact exists_node_iff (fun n hn => h.others n (hn ▸ hy)) _

theorem path_of_apart (hy : ¬ ReflTransGen (RawEdge nodes rootId) y m) :
    TransGen (RawEdge nodes' rootId) y z ↔ TransGen (RawEdge nodes rootId) y z := by
  apply transGen_iff_of_closed (P := fun a => ¬ ReflTransGen (RawEdge nodes rootId) a m) _ _ hy
  · intro a b ha hab hb
    exact ha (.head hab hb)
  · intro a b ha
    apply h.edge_other hcan
    intro hmoved
    exact ha (.single (hcan.under a hmoved))

omit h in
theorem moved_apart (hc : x ∈ moved) : ¬ ReflTransGen (RawEdge nodes rootId) p x :=
  fun hback => hcan.apart (hback.tail (hcan.under x hc))

theorem not_cyclic (hc : x ∈ moved) : ¬ TransGen (RawEdge nodes' rootId) x x := by
  intro hcyc
  obtain ⟨q, hedge, hback⟩ := TransGen.head'_iff.mp hcyc
  obtain rfl := (h.edge_moved hcan hc).mp hedge
  rcases reflTransGen_iff_eq_or_transGen.mp hback with rfl | hback
  · exact moved_apart hcan hc .refl
  · exact moved_apart hcan hc ((h.path_of_apart hcan hcan.apart).mp hback).to_reflTransGen

theorem path_of_cycle (hy : TransGen (RawEdge nodes' rootId) y y) :
    TransGen (RawEdge nodes rootId) y z ↔ TransGen (RawEdge nodes' rootId) y z := by
  have hu : Relator.RightUnique (RawEdge nodes' rootId) := rawEdge_unique h.nodup'
  apply transGen_iff_of_closed (P := fun a => TransGen (RawEdge nodes' rootId) a a) _ _ hy
  · intro a b ha hab
    exact cycle_forward hu ha (.single hab)
  · intro a b ha
    exact (h.edge_other hcan fun hmoved => h.not_cyclic hcan hmoved ha).symm

theorem cycleLeast_iff : CycleLeast nodes' rootId y ↔ CycleLeast nodes rootId y := by
  have hu : Relator.RightUnique (RawEdge nodes rootId) := rawEdge_unique h.nodup
  unfold CycleLeast
  constructor
  · rintro ⟨hcyc, hleast⟩
    refine ⟨(h.path_of_cycle hcan hcyc).mpr hcyc, fun z hz => hleast z ((h.path_of_cycle hcan hcyc).mp hz)⟩
  · rintro ⟨hcyc, hleast⟩
    have hapart : ¬ ReflTransGen (RawEdge nodes rootId) y m :=
      fun hback => hcan.acyclic (cycle_forward hu hcyc hback)
    exact ⟨(h.path_of_apart hcan hapart).mpr hcyc, fun z hz => hleast z ((h.path_of_apart hcan hapart).mp hz)⟩

variable (ht : EffectiveTree.Spec nodes rootId t) (ht' : EffectiveTree.Spec nodes' rootId t')

include ht ht'

theorem recovered_eq : t'.recovered = t.recovered := by
  ext y
  rw [ht'.recovered, ht.recovered, h.detached_iff hcan, h.cycleLeast_iff hcan]

omit ht' in
theorem moved_unrecovered (hc : x ∈ moved) : x ∉ t.recovered := by
  intro hrec
  rcases (ht.recovered x).mp hrec with hdetached | ⟨hcyc, -⟩
  · exact (hcan.under x hc).2.1 hdetached
  · exact hcan.acyclic (cycle_forward (rawEdge_unique h.nodup) hcyc (.single (hcan.under x hc)))

omit ht' in
theorem moved_edge (hc : x ∈ moved) : EffectiveEdge rootId t x m := by
  obtain ⟨hne, -, n, hn, rfl, rfl⟩ := hcan.under x hc
  exact (ht.edge_iff hn).mpr ⟨hne, if_neg (h.moved_unrecovered hcan ht hc)⟩

theorem parents_eq (y : JsString) : t'.parents.get y = if y ∈ moved then some p else t.parents.get y := by
  split_ifs with hy
  · have hedge := hcan.under y hy
    obtain ⟨n, hn, rfl⟩ := List.mem_map.mp ((h.listed y).mpr (rawEdge_source hedge))
    rw [ht'.parent n hn hedge.1, h.recovered_eq hcan ht ht', if_neg (h.moved_unrecovered hcan ht hy),
      h.placed n hn hy]
  · apply ht.parents_congr ht' fun q => exists_node_iff (fun n hn => h.others n (hn ▸ hy)) _
    rw [h.recovered_eq hcan ht ht']

theorem edge_iff : EffectiveEdge rootId t' y z ↔
    (if y ∈ moved then z = p else EffectiveEdge rootId t y z) := by
  unfold EffectiveEdge
  rw [h.parents_eq hcan ht ht']
  split_ifs with hy
  · rw [and_iff_right (hcan.under y hy).1, Option.some.injEq, eq_comm]
  · rfl

section Below

variable (happart : ¬ ReflTransGen (EffectiveEdge rootId t) p m)

include happart

theorem path_of_target : TransGen (EffectiveEdge rootId t') p z ↔ TransGen (EffectiveEdge rootId t) p z := by
  apply transGen_iff_of_closed (P := fun a => ¬ ReflTransGen (EffectiveEdge rootId t) a m) _ _ happart
  · intro a b ha hab hb
    exact ha (.head hab hb)
  · intro a b ha
    rw [h.edge_iff hcan ht ht', if_neg]
    intro hmoved
    exact ha (.single (h.moved_edge hcan ht hmoved))

theorem target_live (hp : p ∉ t.deleted) : p ∉ t'.deleted := by
  intro hdel
  apply hp
  rw [ht'.deleted] at hdel
  rw [ht.deleted]
  simpa only [h.listed, h.flagged, h.path_of_target hcan ht ht' happart] using hdel

theorem target_not_below (hc : x ∈ moved) : ¬ ReflTransGen (EffectiveEdge rootId t') p x := by
  intro hback
  apply happart
  have hedge := h.moved_edge hcan ht hc
  rcases reflTransGen_iff_eq_or_transGen.mp hback with rfl | hback
  · exact .single hedge
  · exact ((h.path_of_target hcan ht ht' happart).mp hback).to_reflTransGen.tail hedge

theorem below_iff (hc : x ∈ moved) : TransGen (EffectiveEdge rootId t') y x ↔
    TransGen (EffectiveEdge rootId t) y x := by
  constructor
  · intro hyx
    induction hyx using TransGen.head_induction_on with
    | @single y hedge =>
      rw [h.edge_iff hcan ht ht'] at hedge
      split_ifs at hedge with hy
      · exact absurd (hedge ▸ .refl) (h.target_not_below hcan ht ht' happart hc)
      · exact .single hedge
    | @head y w hedge hwx ih =>
      rw [h.edge_iff hcan ht ht'] at hedge
      split_ifs at hedge with hy
      · rw [hedge] at hwx
        exact absurd hwx.to_reflTransGen (h.target_not_below hcan ht ht' happart hc)
      · exact .head hedge ih
  · intro hyx
    have hedge_of : ∀ {a b}, EffectiveEdge rootId t a b → ReflTransGen (EffectiveEdge rootId t) b x →
        EffectiveEdge rootId t' a b := by
      intro a b hab hbx
      rw [h.edge_iff hcan ht ht', if_neg]
      · exact hab
      · intro ha
        rw [effectiveEdge_unique hab (h.moved_edge hcan ht ha)] at hbx
        exact ht.not_cyclic m (TransGen.tail' hbx (h.moved_edge hcan ht hc))
    induction hyx using TransGen.head_induction_on with
    | single hedge => exact .single (hedge_of hedge .refl)
    | head hedge hwx ih => exact .head (hedge_of hedge hwx.to_reflTransGen) ih

theorem deleted_eq (hm : m ∉ t.deleted) (hp : p ∉ t.deleted) : t'.deleted = t.deleted := by
  have hp' := h.target_live hcan ht ht' happart hp
  ext y
  by_cases hy : y ∈ ids nodes
  · have hreach := ht.reaches y hy
    clear hy
    induction hreach using ReflTransGen.head_induction_on with
    | refl =>
      rw [ht.deleted, ht'.deleted]
      simp
    | @head y q hedge _ ih =>
      by_cases hmoved : y ∈ moved
      · have hedge' : EffectiveEdge rootId t' y p := by
          rw [h.edge_iff hcan ht ht', if_pos hmoved]
        rw [ht.deleted_step (h.moved_edge hcan ht hmoved), ht'.deleted_step hedge', h.flagged,
          or_iff_left hm, or_iff_left hp']
      · have hedge' : EffectiveEdge rootId t' y q := by
          rw [h.edge_iff hcan ht ht', if_neg hmoved]
          exact hedge
        rw [ht.deleted_step hedge, ht'.deleted_step hedge', h.flagged]
        exact or_congr_right ih
  · rw [ht.deleted, ht'.deleted, h.listed]
    simp [hy]

end Below

end Rehomed

structure Tombstoned (nodes nodes' : List TreeNode) (x : JsString) : Prop where
  nodup : (ids nodes).Nodup
  nodup' : (ids nodes').Nodup
  under : ∀ y q, RawUnder nodes' y q ↔ RawUnder nodes y q
  flagged : ∀ y, FlaggedDeleted nodes' y ↔ FlaggedDeleted nodes y ∨ y = x

namespace Tombstoned

theorem listed_iff_under (nodes : List TreeNode) (y : JsString) : y ∈ ids nodes ↔
    ∃ q, RawUnder nodes y q := by
  constructor
  · intro hy
    obtain ⟨n, hn, hid⟩ := List.mem_map.mp hy
    exact ⟨n.parentId, n, hn, hid, rfl⟩
  · rintro ⟨q, n, hn, rfl, -⟩
    exact List.mem_map_of_mem hn

variable (h : Tombstoned nodes nodes' x)

include h

theorem listed (y : JsString) : y ∈ ids nodes' ↔ y ∈ ids nodes := by
  simp only [listed_iff_under, h.under]

theorem detached_iff : Detached nodes' rootId y ↔ Detached nodes rootId y := by
  have hunder : ∀ ns : List TreeNode, Detached ns rootId y ↔ y ≠ rootId ∧
      ∃ q, RawUnder ns y q ∧ (q = ROOT_PARENT_SENTINEL ∨ q ∉ ids ns) := by
    intro ns
    constructor
    · rintro ⟨hne, n, hn, hid, hcase⟩
      exact ⟨hne, n.parentId, ⟨n, hn, hid, rfl⟩, hcase⟩
    · rintro ⟨hne, q, ⟨n, hn, hid, rfl⟩, hcase⟩
      exact ⟨hne, n, hn, hid, hcase⟩
  simp only [hunder, h.under, h.listed]

theorem rawEdge_eq : RawEdge nodes' rootId = RawEdge nodes rootId := by
  funext a b
  apply propext
  apply and_congr_right
  intro _
  exact and_congr (not_congr h.detached_iff) (h.under a b)

variable (ht : EffectiveTree.Spec nodes rootId t) (ht' : EffectiveTree.Spec nodes' rootId t')

include ht ht'

theorem recovered_eq : t'.recovered = t.recovered := by
  ext y
  rw [ht'.recovered, ht.recovered, h.detached_iff, CycleLeast, CycleLeast, h.rawEdge_eq]

theorem parents_eq (y : JsString) : t'.parents.get y = t.parents.get y := by
  apply ht.parents_congr ht' (h.under y)
  rw [h.recovered_eq ht ht']

theorem edge_eq : EffectiveEdge rootId t' = EffectiveEdge rootId t := by
  funext a b
  rw [EffectiveEdge, EffectiveEdge, h.parents_eq ht ht']

theorem deleted_iff (hx : x ∈ ids nodes) (hne : x ≠ rootId) :
    y ∈ t'.deleted ↔ y ∈ t.deleted ∨ ReflTransGen (EffectiveEdge rootId t) y x := by
  rw [ht'.deleted, ht.deleted, h.edge_eq ht ht', h.listed]
  simp only [h.flagged]
  constructor
  · rintro ⟨hy, hyne, (hflag | rfl) | ⟨z, hyz, hzne, hflag | rfl⟩⟩
    · exact Or.inl ⟨hy, hyne, Or.inl hflag⟩
    · exact Or.inr .refl
    · exact Or.inl ⟨hy, hyne, Or.inr ⟨z, hyz, hzne, hflag⟩⟩
    · exact Or.inr hyz.to_reflTransGen
  · rintro (⟨hy, hyne, hflag | ⟨z, hyz, hzne, hflag⟩⟩ | hyx)
    · exact ⟨hy, hyne, Or.inl (Or.inl hflag)⟩
    · exact ⟨hy, hyne, Or.inr ⟨z, hyz, hzne, Or.inl hflag⟩⟩
    · rcases reflTransGen_iff_eq_or_transGen.mp hyx with rfl | hyx
      · exact ⟨hx, hne, Or.inl (Or.inr rfl)⟩
      · obtain ⟨w, hyw, -⟩ := TransGen.head'_iff.mp hyx
        exact ⟨ht.edge_source hyw, hyw.1, Or.inr ⟨x, hyx, hne, Or.inr rfl⟩⟩

end Tombstoned

theorem raw_path_effective (hnd : (ids nodes).Nodup) (ht : EffectiveTree.Spec nodes rootId t)
    (hx : ¬ TransGen (RawEdge nodes rootId) x x) (h : ReflTransGen (RawEdge nodes rootId) y x) :
    ReflTransGen (EffectiveEdge rootId t) y x := by
  induction h using ReflTransGen.head_induction_on with
  | refl => exact .refl
  | @head y w hedge hwx ih =>
    have hrec : y ∉ t.recovered := by
      intro hrec
      rcases (ht.recovered y).mp hrec with hdetached | ⟨hcyc, -⟩
      · exact hedge.2.1 hdetached
      · exact hx (cycle_forward (rawEdge_unique hnd) hcyc (.head hedge hwx))
    obtain ⟨hne, -, n, hn, rfl, rfl⟩ := hedge
    exact .head ((ht.edge_iff hn).mpr ⟨hne, if_neg hrec⟩) ih

end OpenOutliner
