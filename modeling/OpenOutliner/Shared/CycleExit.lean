import OpenOutliner.Shared.Rehoming

namespace OpenOutliner

open Foundations Relation

variable {nodes nodes' : List TreeNode} {rootId x y z p : JsString} {t t' : EffectiveTree}

/-- `y` is the least member of the raw cycle that `x` lies on. -/
def Heads (nodes : List TreeNode) (rootId x y : JsString) : Prop :=
  CycleLeast nodes rootId y ∧ TransGen (RawEdge nodes rootId) y x

theorem effective_path_raw (ht : EffectiveTree.Spec nodes rootId t) (hx : x ≠ rootId)
    (h : ReflTransGen (EffectiveEdge rootId t) y x) : ReflTransGen (RawEdge nodes rootId) y x := by
  induction h using ReflTransGen.head_induction_on with
  | refl => exact .refl
  | @head y w hedge hwx ih =>
    by_cases hrec : y ∈ t.recovered
    · rw [ht.recovered_edge hedge hrec] at ih
      exact absurd (root_no_path ih) hx
    · exact .head (ht.edge_raw hedge hrec) ih

section Exit

variable (h : Reparented nodes nodes' x p) (hback : ¬ ReflTransGen (RawEdge nodes rootId) p x)

include h

theorem exit_path (hy : ¬ ReflTransGen (RawEdge nodes rootId) y x) :
    TransGen (RawEdge nodes' rootId) y z ↔ TransGen (RawEdge nodes rootId) y z :=
  ((h.agree rootId).trans_iff_of_avoids hy).symm

include hback

theorem exit_avoids (hcyc : TransGen (RawEdge nodes' rootId) y y) :
    ¬ ReflTransGen (RawEdge nodes rootId) y x := by
  intro hyx
  exact h.not_cyclic hback (cycle_forward (rawEdge_unique h.nodup') hcyc ((h.agree rootId).to_point hyx))

theorem exit_cycle_iff : TransGen (RawEdge nodes' rootId) y y ↔
    TransGen (RawEdge nodes rootId) y y ∧ ¬ ReflTransGen (RawEdge nodes rootId) y x := by
  constructor
  · intro hcyc
    have hy := exit_avoids h hback hcyc
    exact ⟨(exit_path h hy).mp hcyc, hy⟩
  · rintro ⟨hcyc, hy⟩
    exact (exit_path h hy).mpr hcyc

theorem exit_least_iff : CycleLeast nodes' rootId y ↔
    CycleLeast nodes rootId y ∧ ¬ ReflTransGen (RawEdge nodes rootId) y x := by
  unfold CycleLeast
  constructor
  · rintro ⟨hcyc, hleast⟩
    obtain ⟨hold, hy⟩ := (exit_cycle_iff h hback).mp hcyc
    exact ⟨⟨hold, fun z hz => hleast z ((exit_path h hy).mpr hz)⟩, hy⟩
  · rintro ⟨⟨hcyc, hleast⟩, hy⟩
    exact ⟨(exit_cycle_iff h hback).mpr ⟨hcyc, hy⟩, fun z hz => hleast z ((exit_path h hy).mp hz)⟩

variable (ht : EffectiveTree.Spec nodes rootId t) (ht' : EffectiveTree.Spec nodes' rootId t')

section Placed

variable (hne : x ≠ rootId) (hx : x ∈ ids nodes) (hplain : p ≠ ROOT_PARENT_SENTINEL)
  (hp : p = rootId ∨ p ∈ ids nodes)

include ht' hne hx hplain hp

theorem exit_recovered_new (hrec : x ∈ t'.recovered) : p = rootId ∧ p ∉ ids nodes := by
  have hnew := (h.recovered_new ht' hne hx fun hleast => h.not_cyclic hback hleast.1).mp hrec
  have hno := hnew.resolve_left hplain
  exact ⟨hp.resolve_right hno, hno⟩

theorem exit_placed : EffectiveEdge rootId t' x p := by
  obtain ⟨n, hn, hid⟩ := List.mem_map.mp ((h.listed x).mpr hx)
  have hedge : EffectiveEdge rootId t' n.id p ↔ n.id ≠ rootId ∧
      (if n.id ∈ t'.recovered then rootId else n.parentId) = p :=
    ht'.edge_iff hn
  rw [hid, h.placed n hn hid] at hedge
  rw [hedge]
  refine ⟨hne, ?_⟩
  split_ifs with hrec
  · exact (exit_recovered_new h hback ht' hne hx hplain hp hrec).1.symm
  · rfl

end Placed

include ht ht'

theorem exit_recovered_iff (hy : y ≠ x) : y ∈ t'.recovered ↔ y ∈ t.recovered ∧ ¬ Heads nodes rootId x y := by
  rw [ht'.recovered, ht.recovered, h.detached_iff hy, exit_least_iff h hback]
  have hpath : ReflTransGen (RawEdge nodes rootId) y x ↔ TransGen (RawEdge nodes rootId) y x := by
    rw [reflTransGen_iff_eq_or_transGen, or_iff_right hy.symm]
  rw [hpath]
  unfold Heads
  constructor
  · rintro (hdetached | ⟨hleast, hno⟩)
    · refine ⟨Or.inl hdetached, fun hheads => ?_⟩
      obtain ⟨w, hw, -⟩ := TransGen.head'_iff.mp hheads.2
      exact hw.2.1 hdetached
    · exact ⟨Or.inr hleast, fun hheads => hno hheads.2⟩
  · rintro ⟨hdetached | hleast, hno⟩
    · exact Or.inl hdetached
    · exact Or.inr ⟨hleast, fun hyx => hno ⟨hleast, hyx⟩⟩

theorem exit_parents (hy : y ≠ x) (hheads : ¬ Heads nodes rootId x y) :
    t'.parents.get y = t.parents.get y := by
  apply ht.parents_congr ht' fun q => h.others.exists_iff (fun n => n.parentId = q) hy
  rw [exit_recovered_iff h hback ht ht' hy, and_iff_left hheads]

theorem exit_edge_iff (hy : y ≠ x) :
    EffectiveEdge rootId t' y p ↔ EffectiveEdge rootId t y p ∧ ¬ Heads nodes rootId x y := by
  by_cases hheads : Heads nodes rootId x y
  · refine iff_of_false (fun hedge => ?_) fun hno => hno.2 hheads
    have hrec : y ∉ t'.recovered := fun hrec => ((exit_recovered_iff h hback ht ht' hy).mp hrec).2 hheads
    have hraw := (h.agree rootId y p hy).mpr (ht'.edge_raw hedge hrec)
    have hu : Relator.RightUnique (RawEdge nodes rootId) := rawEdge_unique h.nodup
    exact hback ((cycle_next hu hheads.1.1 hraw).trans hheads.2.to_reflTransGen)
  · unfold EffectiveEdge
    rw [exit_parents h hback ht ht' hy hheads]
    simp [hheads]

theorem exit_above (hne : x ≠ rootId) : ReflTransGen (EffectiveEdge rootId t') p z →
    ReflTransGen (EffectiveEdge rootId t) p z := by
  have hedge_of : ∀ {a b}, ¬ ReflTransGen (RawEdge nodes rootId) a x → EffectiveEdge rootId t' a b →
      EffectiveEdge rootId t a b := by
    intro a b ha hab
    have hax : a ≠ x := by
      rintro rfl
      exact ha .refl
    unfold EffectiveEdge at hab ⊢
    rwa [exit_parents h hback ht ht' hax fun hheads => ha hheads.2.to_reflTransGen] at hab
  intro hpz
  suffices hboth : ReflTransGen (EffectiveEdge rootId t) p z ∧
      ¬ ReflTransGen (RawEdge nodes rootId) z x from hboth.1
  induction hpz with
  | refl => exact ⟨.refl, hback⟩
  | @tail a b _ hab ih =>
    have hab := hedge_of ih.2 hab
    refine ⟨ih.1.tail hab, fun hbx => ?_⟩
    by_cases hrec : a ∈ t.recovered
    · rw [ht.recovered_edge hab hrec] at hbx
      exact hne (root_no_path hbx)
    · exact ih.2 (.head (ht.edge_raw hab hrec) hbx)

end Exit

end OpenOutliner
