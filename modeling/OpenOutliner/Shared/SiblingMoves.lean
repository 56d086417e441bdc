import OpenOutliner.Shared.TreeEdits

namespace OpenOutliner

open Foundations Relation

variable {nodes nodes' : List TreeNode} {rootId x y z p q s m g : JsString} {t t' : EffectiveTree}

section Live

def AncestorsLive (nodes : List TreeNode) (rootId : JsString) (t : EffectiveTree) (q : JsString) : Prop :=
  ∀ z, ReflTransGen (EffectiveEdge rootId t) q z → z ≠ rootId → ¬ FlaggedDeleted nodes z

variable (ht : EffectiveTree.Spec nodes rootId t)

include ht

theorem EffectiveTree.Spec.live_child (h : EffectiveEdge rootId t y q) (hq : AncestorsLive nodes rootId t q) :
    y ∉ t.deleted ↔ ¬ FlaggedDeleted nodes y := by
  rw [not_iff_not, ht.deleted]
  constructor
  · rintro ⟨-, -, hflag | ⟨z, hyz, hne, hflag⟩⟩
    · exact hflag
    · obtain ⟨w, hyw, hwz⟩ := TransGen.head'_iff.mp hyz
      rw [effectiveEdge_unique hyw h] at hwz
      exact absurd hflag (hq z hwz hne)
  · intro hflag
    exact ⟨ht.edge_source h, h.1, Or.inl hflag⟩

theorem EffectiveTree.Spec.ancestorsLive (h : EffectiveEdge rootId t y q) (hy : y ∉ t.deleted) :
    AncestorsLive nodes rootId t q := by
  intro z hqz hne hflag
  apply hy
  rw [ht.deleted]
  exact ⟨ht.edge_source h, h.1, Or.inr ⟨z, TransGen.head' h hqz, hne, hflag⟩⟩

theorem EffectiveTree.Spec.ancestorsLive_self (h : EffectiveEdge rootId t y q) (hy : y ∉ t.deleted) :
    AncestorsLive nodes rootId t y := by
  intro z hyz hne hflag
  rcases ReflTransGen.cases_head hyz with rfl | ⟨w, hyw, hwz⟩
  · exact hy ((ht.deleted _).mpr ⟨ht.edge_source h, h.1, Or.inl hflag⟩)
  · rw [effectiveEdge_unique hyw h] at hwz
    exact ht.ancestorsLive h hy z hwz hne hflag

theorem EffectiveTree.Spec.not_cyclic (y : JsString) : ¬ TransGen (EffectiveEdge rootId t) y y := by
  intro hcyc
  obtain ⟨w, hyw, -⟩ := TransGen.head'_iff.mp hcyc
  exact not_cyclic_of_reaches (ht.reaches y (ht.edge_source hyw)) hcyc

theorem EffectiveTree.Spec.parent_live (h : EffectiveEdge rootId t y q) (hy : y ∉ t.deleted) :
    q ∉ t.deleted := by
  intro hdel
  obtain ⟨-, hne, hflag⟩ := (ht.deleted q).mp hdel
  have hlive := ht.ancestorsLive h hy
  rcases hflag with hflag | ⟨z, hqz, hz, hflag⟩
  · exact hlive q .refl hne hflag
  · exact hlive z hqz.to_reflTransGen hz hflag

theorem EffectiveTree.Spec.edge_iff_raw (hz : z ≠ rootId) :
    EffectiveEdge rootId t y z ↔ RawEdge nodes rootId y z ∧ y ∉ t.recovered := by
  constructor
  · intro h
    have hrec : y ∉ t.recovered := fun hrec => hz (ht.recovered_edge h hrec)
    exact ⟨ht.edge_raw h hrec, hrec⟩
  · rintro ⟨⟨hne, -, n, hn, rfl, rfl⟩, hrec⟩
    exact (ht.edge_iff hn).mpr ⟨hne, if_neg hrec⟩

end Live

theorem root_no_path (h : ReflTransGen (RawEdge nodes rootId) rootId y) : y = rootId := by
  rcases ReflTransGen.cases_head h with he | ⟨z, hz, -⟩
  · exact he.symm
  · exact absurd rfl hz.1

def RawUnder (nodes : List TreeNode) (x p : JsString) : Prop := ∃ n ∈ nodes, n.id = x ∧ n.parentId = p

theorem rawUnder_edge (hnd : (ids nodes).Nodup) (hp : RawUnder nodes x p) (h : RawEdge nodes rootId x y) :
    y = p := by
  obtain ⟨n, hn, rfl, rfl⟩ := hp
  exact ((rawEdge_of_mem hnd hn).mp h).2.1.symm

theorem Reparented.rawEdge (h : Reparented nodes nodes' x p) (hx : x ∈ ids nodes) (hne : x ≠ rootId)
    (hplain : p ≠ ROOT_PARENT_SENTINEL) (hp : p ∈ ids nodes) : RawEdge nodes' rootId x p := by
  obtain ⟨n, hn, rfl⟩ := List.mem_map.mp ((h.listed x).mpr hx)
  rw [rawEdge_of_mem h.nodup' hn]
  exact ⟨hne, h.placed n hn rfl, hplain, (h.listed p).mpr hp⟩

section Under

variable (h : Reparented nodes nodes' x s) (ht : EffectiveTree.Spec nodes rootId t)
  (ht' : EffectiveTree.Spec nodes' rootId t') (hxp : EffectiveEdge rootId t x p)
  (hsp : EffectiveEdge rootId t s p)
  (hraw : RawUnder nodes x p) (hsx : s ≠ x) (hplain : s ≠ ROOT_PARENT_SENTINEL)

include ht hxp hsp hsx

theorem under_not_below : ¬ ReflTransGen (EffectiveEdge rootId t) s x := by
  intro hback
  obtain ⟨y, hedge, hyx⟩ := (ReflTransGen.cases_head hback).resolve_left hsx
  rw [effectiveEdge_unique hedge hsp] at hyx
  exact ht.not_cyclic x (TransGen.head' hxp hyx)

include h

theorem under_avoids (hx : ¬ TransGen (RawEdge nodes rootId) x x) :
    ¬ ReflTransGen (RawEdge nodes rootId) s x := by
  intro hback
  obtain ⟨y, hedge, hyx⟩ := (ReflTransGen.cases_head hback).resolve_left hsx
  have hs : s ∉ t.recovered := by
    intro hrec
    rcases (ht.recovered _).mp hrec with hdetached | ⟨hcyc, -⟩
    · exact hedge.2.1 hdetached
    · exact hx (cycle_forward (rawEdge_unique h.nodup) hcyc hback)
  rw [rawEdge_unique h.nodup hedge (ht.edge_raw hsp hs)] at hyx
  by_cases hrec : x ∈ t.recovered
  · rw [ht.recovered_edge hxp hrec] at hyx
    exact hxp.1 (root_no_path hyx)
  · exact hx (TransGen.head' (ht.edge_raw hxp hrec) hyx)

include hraw hplain

theorem under_spliced (hx : TransGen (RawEdge nodes rootId) x x) :
    p ≠ rootId ∧ Spliced x s p (RawEdge nodes' rootId) (RawEdge nodes rootId) := by
  obtain ⟨y, hedge, hback⟩ := TransGen.head'_iff.mp hx
  obtain rfl := rawUnder_edge h.nodup hraw hedge
  have hne : y ≠ rootId := by
    rintro rfl
    exact hxp.1 (root_no_path hback)
  obtain ⟨hs, -⟩ := (ht.edge_iff_raw hne).mp hsp
  have hxs : RawEdge nodes' rootId x s := h.rawEdge (ht.edge_source hxp) hxp.1 hplain (ht.edge_source hsp)
  exact ⟨hne, (h.agree rootId).symm, rawEdge_unique h.nodup', rawEdge_unique h.nodup, hsx, hxs,
    (h.agree rootId s y hsx).mp hs, hedge⟩

include ht'

theorem under_recovered : (s ∈ t'.recovered ∧ TransGen (RawEdge nodes rootId) x x) ∨
    ∀ y, y ≠ x → (y ∈ t'.recovered ↔ y ∈ t.recovered) := by
  by_cases hx : TransGen (RawEdge nodes rootId) x x
  · by_cases hs : s ∈ t'.recovered
    · exact Or.inl ⟨hs, hx⟩
    · refine Or.inr fun y hy => ?_
      obtain ⟨hne, hsplice⟩ := under_spliced h ht hxp hsp hraw hsx hplain hx
      by_cases hys : y = s
      · rw [hys]
        exact iff_of_false hs fun hrec => hne (ht.recovered_edge hsp hrec)
      · rw [ht.recovered, ht'.recovered, h.detached_iff hy]
        apply or_congr_right
        have hleast : ¬ LeastOnCycle (RawEdge nodes' rootId) s :=
          fun hleast => hs ((ht'.recovered s).mpr (Or.inr hleast))
        exact ⟨fun hc => hsplice.least_short hys hc, fun hc => hsplice.least_long hleast hc⟩
  · have hx' : ¬ TransGen (RawEdge nodes' rootId) x x := h.not_cyclic (under_avoids h ht hxp hsp hsx hx)
    exact Or.inr fun y hy => h.recovered_iff ht ht' hx hx' hy

theorem under_placed : EffectiveEdge rootId t' x s := by
  have hxs : RawEdge nodes' rootId x s := h.rawEdge (ht.edge_source hxp) hxp.1 hplain (ht.edge_source hsp)
  rw [ht'.edge_iff_raw hsp.1]
  refine ⟨hxs, fun hrec => ?_⟩
  rcases (ht'.recovered x).mp hrec with hdetached | hleast
  · exact hxs.2.1 hdetached
  · by_cases hx : TransGen (RawEdge nodes rootId) x x
    · obtain ⟨hne, hsplice⟩ := under_spliced h ht hxp hsp hraw hsx hplain hx
      have hold : x ∈ t.recovered := (ht.recovered x).mpr (Or.inr (hsplice.least_short hsx.symm hleast))
      exact hne (ht.recovered_edge hxp hold)
    · exact h.not_cyclic (under_avoids h ht hxp hsp hsx hx) hleast.1

theorem under_children (hy : y ≠ x) : EffectiveEdge rootId t' y s ↔ EffectiveEdge rootId t y s := by
  rcases under_recovered h ht ht' hxp hsp hraw hsx hplain with ⟨hs, hx⟩ | hrec
  · obtain ⟨hne, hsplice⟩ := under_spliced h ht hxp hsp hraw hsx hplain hx
    rw [ht.edge_iff_raw hsp.1, ht'.edge_iff_raw hsp.1, ← h.agree rootId y s hy]
    apply and_congr_right
    intro hedge
    have hys : y ≠ s := by
      rintro rfl
      have hself := rawEdge_unique h.nodup hedge ((ht.edge_iff_raw hne).mp hsp).1
      rw [← hself] at hsp
      exact ht.not_cyclic y (.single hsp)
    rw [not_iff_not, ht.recovered, ht'.recovered, h.detached_iff hy]
    apply or_congr_right
    constructor
    · exact fun hc => hsplice.least_short hys hc
    · intro hc
      exact absurd (cycle_forward hsplice.unique' hc.1 (.single hedge)) (hsplice.not_cycle_short hx)
  · exact (h.edges_agree ht ht' hrec y s hy).symm

theorem under_above (hz : ReflTransGen (EffectiveEdge rootId t') s z) :
    ReflTransGen (EffectiveEdge rootId t) s z := by
  rcases under_recovered h ht ht' hxp hsp hraw hsx hplain with ⟨hs, -⟩ | hrec
  · rcases ReflTransGen.cases_head hz with rfl | ⟨w, hsw, hwz⟩
    · exact .refl
    · rw [ht'.recovered_edge hsw hs] at hwz
      rcases ReflTransGen.cases_head hwz with rfl | ⟨v, hv, -⟩
      · exact ht.reaches s (ht.edge_source hsp)
      · exact absurd rfl hv.1
  · have hagree := h.edges_agree ht ht' hrec
    apply hagree.symm.path_of_avoids _ hz
    intro hback
    exact under_not_below ht hxp hsp hsx (hagree.symm.to_point hback)

end Under

section Beside

variable (h : Reparented nodes nodes' x g) (ht : EffectiveTree.Spec nodes rootId t)
  (ht' : EffectiveTree.Spec nodes' rootId t') (hxm : EffectiveEdge rootId t x m) (hm : m ≠ rootId)
  (hmg : EffectiveEdge rootId t m g) (hraw : RawUnder nodes m g) (hplain : g ≠ ROOT_PARENT_SENTINEL)

include ht hxm

theorem beside_apart : m ≠ x := by
  rintro rfl
  exact ht.not_cyclic m (.single hxm)

include hmg

theorem beside_not_below : ¬ ReflTransGen (EffectiveEdge rootId t) g x := by
  intro hback
  exact ht.not_cyclic x (TransGen.head hxm (TransGen.head' hmg hback))

include hm

theorem beside_avoids (hx : ¬ TransGen (RawEdge nodes rootId) x x) :
    ¬ ReflTransGen (RawEdge nodes rootId) g x := by
  intro hback
  obtain ⟨hedge, -⟩ := (ht.edge_iff_raw hm).mp hxm
  by_cases hrec : m ∈ t.recovered
  · rw [ht.recovered_edge hmg hrec] at hback
    exact hxm.1 (root_no_path hback)
  · exact hx (TransGen.head hedge (TransGen.head' (ht.edge_raw hmg hrec) hback))

include h hraw hplain

theorem beside_spliced (hx : TransGen (RawEdge nodes rootId) x x) :
    m ∉ t.recovered ∧ Spliced x m g (RawEdge nodes rootId) (RawEdge nodes' rootId) := by
  obtain ⟨hedge, -⟩ := (ht.edge_iff_raw hm).mp hxm
  have hcyc := cycle_forward (rawEdge_unique h.nodup) hx (.single hedge)
  obtain ⟨y, hout, hback⟩ := TransGen.head'_iff.mp hcyc
  obtain rfl := rawUnder_edge h.nodup hraw hout
  refine ⟨?_, h.agree rootId, rawEdge_unique h.nodup, rawEdge_unique h.nodup', beside_apart ht hxm,
    hedge, hout,
    h.rawEdge (ht.edge_source hxm) hxm.1 hplain (rawEdge_target hout)⟩
  intro hrec
  rw [ht.recovered_edge hmg hrec] at hback
  exact hm (root_no_path hback)

include ht'

theorem beside_recovered (hy : y ≠ x) : y ∈ t'.recovered ↔ y ∈ t.recovered := by
  by_cases hx : TransGen (RawEdge nodes rootId) x x
  · obtain ⟨hrec, hsplice⟩ := beside_spliced h ht hxm hm hmg hraw hplain hx
    have hleast : ¬ LeastOnCycle (RawEdge nodes rootId) m := fun hc => hrec ((ht.recovered m).mpr (Or.inr hc))
    rw [ht.recovered, ht'.recovered, h.detached_iff hy]
    apply or_congr_right
    by_cases hym : y = m
    · rw [hym]
      refine iff_of_false (fun hc => ?_) hleast
      exact hsplice.not_cycle_short (hsplice.cycle_short hsplice.apart.symm hx) hc.1
    · exact ⟨fun hc => hsplice.least_long hleast hc, fun hc => hsplice.least_short hym hc⟩
  · exact h.recovered_iff ht ht' hx (h.not_cyclic (beside_avoids ht hxm hm hmg hx)) hy

theorem beside_placed : EffectiveEdge rootId t' x g := by
  obtain ⟨n, hn, hid⟩ := List.mem_map.mp ((h.listed x).mpr (ht.edge_source hxm))
  have hedge : EffectiveEdge rootId t' n.id g ↔ n.id ≠ rootId ∧
      (if n.id ∈ t'.recovered then rootId else n.parentId) = g :=
    ht'.edge_iff hn
  rw [hid, h.placed n hn hid] at hedge
  rw [hedge]
  refine ⟨hxm.1, ?_⟩
  by_cases hg : g = rootId
  · rw [hg, ite_self]
  · obtain ⟨hout, -⟩ := (ht.edge_iff_raw hg).mp hmg
    have hxg : RawEdge nodes' rootId x g := h.rawEdge (ht.edge_source hxm) hxm.1 hplain (rawEdge_target hout)
    apply if_neg
    intro hrec
    rcases (ht'.recovered x).mp hrec with hdetached | hc
    · exact hxg.2.1 hdetached
    · by_cases hx : TransGen (RawEdge nodes rootId) x x
      · obtain ⟨hm', hsplice⟩ := beside_spliced h ht hxm hm hmg hraw hplain hx
        have hleast : ¬ LeastOnCycle (RawEdge nodes rootId) m :=
          fun hc => hm' ((ht.recovered m).mpr (Or.inr hc))
        exact hm (ht.recovered_edge hxm ((ht.recovered x).mpr (Or.inr (hsplice.least_long hleast hc))))
      · exact h.not_cyclic (beside_avoids ht hxm hm hmg hx) hc.1

theorem beside_edges : AgreeOff x (EffectiveEdge rootId t) (EffectiveEdge rootId t') :=
  h.edges_agree ht ht' fun _ hy => beside_recovered h ht ht' hxm hm hmg hraw hplain hy

theorem beside_above (hz : ReflTransGen (EffectiveEdge rootId t') g z) :
    ReflTransGen (EffectiveEdge rootId t) g z := by
  have hagree := beside_edges h ht ht' hxm hm hmg hraw hplain
  apply hagree.symm.path_of_avoids _ hz
  intro hback
  exact beside_not_below ht hxm hmg (hagree.symm.to_point hback)

end Beside

structure Grown (nodes nodes' : List TreeNode) (x p : JsString) : Prop where
  nodup : (ids nodes).Nodup
  nodup' : (ids nodes').Nodup
  fresh : x ∉ ids nodes
  listed : ∀ y, y ∈ ids nodes' ↔ y = x ∨ y ∈ ids nodes
  others : SameOthers nodes nodes' x
  placed : ∀ n ∈ nodes', n.id = x → n.parentId = p ∧ n.isDeleted = false
  unnamed : ∀ n ∈ nodes, n.parentId ≠ x
  apart : p ≠ x

namespace Grown

variable (h : Grown nodes nodes' x p)

include h

theorem detached_iff (hy : y ≠ x) : Detached nodes' rootId y ↔ Detached nodes rootId y := by
  unfold Detached
  apply and_congr_right
  intro _
  apply exists_congr
  intro n
  constructor
  · rintro ⟨hn, rfl, hcase⟩
    have hn := (h.others n hy).mp hn
    rw [h.listed, or_iff_right (h.unnamed n hn)] at hcase
    exact ⟨hn, rfl, hcase⟩
  · rintro ⟨hn, rfl, hcase⟩
    refine ⟨(h.others n hy).mpr hn, rfl, hcase.imp_right fun hno hin => ?_⟩
    exact ((h.listed _).mp hin).elim (h.unnamed n hn) hno

theorem agree (rootId : JsString) : AgreeOff x (RawEdge nodes rootId) (RawEdge nodes' rootId) :=
  h.others.agree fun _ hy => h.detached_iff hy

theorem no_path (hy : y ≠ x) : ¬ ReflTransGen (RawEdge nodes rootId) y x := by
  intro hyx
  rcases ReflTransGen.cases_tail hyx with he | ⟨w, -, hedge⟩
  · exact hy he.symm
  · exact h.fresh (rawEdge_target hedge)

theorem not_cyclic : ¬ TransGen (RawEdge nodes' rootId) x x := by
  apply (h.agree rootId).not_cycle
  intro b hedge
  obtain ⟨-, -, n, hn, hid, rfl⟩ := hedge
  rw [(h.placed n hn hid).1]
  exact h.no_path h.apart

theorem flagged_iff (y : JsString) : FlaggedDeleted nodes' y ↔ FlaggedDeleted nodes y := by
  by_cases hy : y = x
  · subst hy
    refine iff_of_false ?_ ?_
    · rintro ⟨n, hn, hid, hflag⟩
      rw [(h.placed n hn hid).2] at hflag
      cases hflag
    · rintro ⟨n, hn, hid, -⟩
      exact h.fresh (hid ▸ List.mem_map_of_mem hn)
  · exact h.others.flagged_iff hy

variable (hne : x ≠ rootId) (ht : EffectiveTree.Spec nodes rootId t)
  (ht' : EffectiveTree.Spec nodes' rootId t')

include ht ht'

theorem recovered_iff (hy : y ≠ x) : y ∈ t'.recovered ↔ y ∈ t.recovered := by
  rw [ht.recovered, ht'.recovered, h.detached_iff hy]
  apply or_congr_right
  unfold CycleLeast
  rw [← (h.agree rootId).trans_iff_of_avoids (h.no_path hy)]
  apply and_congr_right
  intro _
  apply forall_congr'
  intro z
  rw [(h.agree rootId).trans_iff_of_avoids (h.no_path hy)]

theorem parents_eq (hy : y ≠ x) : t'.parents.get y = t.parents.get y :=
  h.others.parents_eq ht ht' (fun _ hy => h.recovered_iff ht ht' hy) hy

theorem edges_agree : AgreeOff x (EffectiveEdge rootId t) (EffectiveEdge rootId t') := by
  intro a b ha
  unfold EffectiveEdge
  rw [h.parents_eq ht ht' ha]

include hne

omit ht in
theorem placed_edge : EffectiveEdge rootId t' x y ↔
    (if p = ROOT_PARENT_SENTINEL ∨ p ∉ ids nodes then rootId else p) = y := by
  obtain ⟨n, hn, hid⟩ := List.mem_map.mp ((h.listed x).mpr (Or.inl rfl))
  have hrec : x ∈ t'.recovered ↔ p = ROOT_PARENT_SENTINEL ∨ p ∉ ids nodes := by
    rw [ht'.recovered, or_iff_left fun hc => h.not_cyclic hc.1]
    constructor
    · rintro ⟨-, m, hm, he, hcase⟩
      rw [(h.placed m hm he).1, h.listed, or_iff_right h.apart] at hcase
      exact hcase
    · intro hcase
      refine ⟨hne, n, hn, hid, ?_⟩
      rwa [(h.placed n hn hid).1, h.listed, or_iff_right h.apart]
  have hedge : EffectiveEdge rootId t' n.id y ↔ n.id ≠ rootId ∧
      (if n.id ∈ t'.recovered then rootId else n.parentId) = y :=
    ht'.edge_iff hn
  rw [hid, (h.placed n hn hid).1] at hedge
  rw [hedge, and_iff_right hne]
  simp only [hrec]

end Grown

end OpenOutliner
