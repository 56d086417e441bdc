import OpenOutliner.Shared.CycleRepairs

namespace OpenOutliner

open Foundations Relation

structure Youngest (nodes : List CycleNode) (n : CycleNode) : Prop where
  mem : n ∈ nodes
  onCycle : TransGen (ParentEdge nodes) n.id n.id
  greatest : ∀ s ∈ nodes, TransGen (ParentEdge nodes) n.id s.id → s.hlc ≤ n.hlc

/-- No two nodes of one loop share its greatest stamp. -/
def NoTies (nodes : List CycleNode) : Prop :=
  ∀ a b, Youngest nodes a → Youngest nodes b → TransGen (ParentEdge nodes) a.id b.id → a = b

def placement (r : CycleRepair) : JsString × JsString × JsString := (r.itemId, r.newParentId, r.newRank)

/-- The set of placements that a run returns, or its exception. -/
def outcome (lib : FractionalIndexing) (nodes : List CycleNode) (ctx : ClockContext) :
    Except JsError (Finset (JsString × JsString × JsString)) :=
  (computeCycleRepairs lib nodes ctx).map fun repairs => (repairs.map placement).toFinset

def Converges (lib : FractionalIndexing) (nodes : List CycleNode) : Prop :=
  ∀ nodes' : List CycleNode, nodes.Perm nodes' → ∀ ctx ctx', outcome lib nodes' ctx' = outcome lib nodes ctx

section Orders

variable {nodes nodes' : List CycleNode} {root n : CycleNode} {x y : JsString}

theorem parentEdge_perm (h : nodes.Perm nodes') : ParentEdge nodes = ParentEdge nodes' := by
  funext x y
  have hids : y ∈ nodeIds nodes ↔ y ∈ nodeIds nodes' := (h.map CycleNode.id).mem_iff
  simp only [ParentEdge, h.mem_iff, hids]

theorem isRoot_perm (h : nodes.Perm nodes') (hroot : IsRoot nodes root) : IsRoot nodes' root :=
  ⟨h.mem_iff.mp hroot.mem, hroot.parent, fun n hn => hroot.only n (h.mem_iff.mpr hn)⟩

theorem youngest_perm (h : nodes.Perm nodes') : Youngest nodes n ↔ Youngest nodes' n := by
  have hone : ∀ {l l' : List CycleNode}, l.Perm l' → Youngest l n → Youngest l' n := by
    intro l l' hperm hy
    refine ⟨hperm.mem_iff.mp hy.mem, parentEdge_perm hperm ▸ hy.onCycle, fun s hs hpath => ?_⟩
    exact hy.greatest s (hperm.mem_iff.mpr hs) (by rwa [parentEdge_perm hperm])
  exact ⟨hone h, hone h.symm⟩

theorem noTies_perm (h : nodes.Perm nodes') (hno : NoTies nodes) : NoTies nodes' := by
  intro a b ha hb hpath
  exact hno a b ((youngest_perm h).mpr ha) ((youngest_perm h).mpr hb) (by rwa [parentEdge_perm h])

theorem lastRank_nodes_perm (h : nodes.Perm nodes') :
    lastRank (childRanks nodes root) = lastRank (childRanks nodes' root) :=
  lastRank_perm ((h.filter _).map _)

end Orders

section Keys

variable {lib : FractionalIndexing} {lower : Option JsString}

/-- The key package takes the same bounds for one key and for many. -/
def SameBounds (lib : FractionalIndexing) : Prop :=
  ∀ lower, lib.generateNKeysBetween lower none JITTER_BUCKETS = none ↔
    lib.generateKeyBetween lower none = none

theorem rankAfter_accepts (hlib : SameBounds lib) (h : lib.generateKeyBetween lower none ≠ none)
    (id : JsString) :
    ∃ k, rankAfter lib lower id = .ok k := by
  have hrank : rankAfter lib lower id = jitteredKey lib lower none id := by
    cases lower <;> rfl
  obtain ⟨k, hk⟩ := Option.ne_none_iff_exists'.mp h
  obtain ⟨ks, hks⟩ := Option.ne_none_iff_exists'.mp (mt (hlib lower).mp h)
  rw [hrank, jitteredKey, hk, hks]
  split
  · exact ⟨k, rfl⟩
  · cases hpick : ks[seededBucket id JITTER_BUCKETS]? with
    | some pick => exact ⟨pick, by simp [orThrow, hpick, bind, Except.bind]⟩
    | none => exact ⟨k, by simp [orThrow, hpick, bind, Except.bind]⟩

theorem rankAfter_refuses (hlib : SameBounds lib) (h : lib.generateKeyBetween lower none = none)
    (id : JsString) :
    rankAfter lib lower id = .error .invalidOrderKey := by
  have hrank : rankAfter lib lower id = jitteredKey lib lower none id := by
    cases lower <;> rfl
  rw [hrank, jitteredKey, h, (hlib lower).mpr h]
  split <;> rfl

end Keys

section Outcomes

variable {lib : FractionalIndexing} {nodes nodes' : List CycleNode} {root a b : CycleNode}
  {c : List JsString} {ctx : ClockContext}

theorem Freed.youngest (hnd : (nodeIds nodes).Nodup) (hc : IsCycle nodes c) (h : Freed nodes c a) :
    Youngest nodes a :=
  ⟨h.mem, hc.connected h.onCycle h.onCycle, fun s hs hpath => h.greatest s hs (hc.closed hnd h.onCycle hpath)⟩

theorem outcome_ok (hnd : (nodeIds nodes).Nodup) (hroot : IsRoot nodes root)
    (hrank : ∀ id, ∃ k, rankAfter lib (lastRank (childRanks nodes root)) id = .ok k) (ctx : ClockContext) :
    ∃ repairs, outcome lib nodes ctx = .ok (repairs.map placement).toFinset ∧
    Repaired lib nodes root repairs := by
  obtain ⟨repairs, hrun, hall⟩ : ∃ repairs, computeCycleRepairs lib nodes ctx = .ok repairs ∧ _ :=
    computeCycleRepairs_ok hnd hroot hrank
  refine ⟨repairs, ?_, repaired_of hnd hall⟩
  rw [outcome, hrun]
  rfl

theorem placements_iff (hnd : (nodeIds nodes).Nodup) (hno : NoTies nodes) {repairs : List CycleRepair}
    (h : Repaired lib nodes root repairs) {p : JsString × JsString × JsString} :
    p ∈ (repairs.map placement).toFinset ↔
      ∃ m k, Youngest nodes m ∧ rankAfter lib (lastRank (childRanks nodes root)) m.id = .ok k ∧
      p = (m.id, root.id, k) := by
  obtain ⟨hcycles, hcomplete, -⟩ := detectCycles_spec hnd
  rw [List.mem_toFinset, List.mem_map]
  constructor
  · rintro ⟨r, hr, rfl⟩
    obtain ⟨c, hc, hcr⟩ := h.only r hr
    obtain ⟨m, hm, hid, -⟩ := hcr.freed
    exact ⟨m, r.newRank, hm.youngest hnd (hcycles c hc), hid ▸ hcr.rank, by rw [placement, hid, hcr.parent]⟩
  · rintro ⟨m, k, hm, hk, rfl⟩
    obtain ⟨c, hc, hmc⟩ := hcomplete m.id hm.onCycle
    obtain ⟨r, hr, hcr⟩ := h.each c hc
    obtain ⟨m', hm', hid, -⟩ := hcr.freed
    obtain rfl : m = m' :=
      hno m m' hm (hm'.youngest hnd (hcycles c hc)) ((hcycles c hc).connected hmc hm'.onCycle)
    have hrank := hcr.rank
    rw [hid, hk] at hrank
    exact ⟨r, hr, by rw [placement, hid, hcr.parent, Except.ok.inj hrank]⟩

theorem converges_of_noTies (hlib : SameBounds lib) (hnd : (nodeIds nodes).Nodup) (hroot : IsRoot nodes root)
    (hno : NoTies nodes) (haccept : lib.generateKeyBetween (lastRank (childRanks nodes root)) none ≠ none) :
    Converges lib nodes := by
  intro nodes' hperm ctx ctx'
  have hnd' : (nodeIds nodes').Nodup := (hperm.map CycleNode.id).nodup_iff.mp hnd
  have hrank := rankAfter_accepts hlib haccept
  have hrank' := hrank
  rw [lastRank_nodes_perm hperm] at hrank'
  obtain ⟨repairs, hout, h⟩ := outcome_ok hnd hroot hrank ctx
  obtain ⟨repairs', hout', h'⟩ := outcome_ok hnd' (isRoot_perm hperm hroot) hrank' ctx'
  rw [hout, hout']
  congr 1
  ext p
  rw [placements_iff hnd hno h, placements_iff hnd' (noTies_perm hperm hno) h', ← lastRank_nodes_perm hperm]
  simp only [youngest_perm hperm]

theorem converges_of_refusal (hlib : SameBounds lib) (hnd : (nodeIds nodes).Nodup) (hroot : IsRoot nodes root)
    (hrefuse : lib.generateKeyBetween (lastRank (childRanks nodes root)) none = none) :
    Converges lib nodes := by
  have hthrows : (∃ x, TransGen (ParentEdge nodes) x x) → ∀ nodes', nodes.Perm nodes' → ∀ ctx,
      outcome lib nodes' ctx = .error .invalidOrderKey := by
    rintro ⟨x, hx⟩ nodes' hperm ctx
    have hnd' : (nodeIds nodes').Nodup := (hperm.map CycleNode.id).nodup_iff.mp hnd
    obtain ⟨hcycles, hcomplete, -⟩ := detectCycles_spec hnd'
    obtain ⟨c, hc, -⟩ := hcomplete x (parentEdge_perm hperm ▸ hx)
    have hfail : ∀ c ∈ detectCycles nodes',
        repairForCycle lib (nodeMap nodes') root.id (childRanks nodes' root) ctx c =
        .error .invalidOrderKey := by
      intro c hc
      obtain ⟨m, -, heq⟩ := repairForCycle_eq lib hnd' (hcycles c hc) root.id (childRanks nodes' root) ctx
      rw [heq, ← lastRank_nodes_perm hperm, rankAfter_refuses hlib hrefuse]
      rfl
    rw [outcome, computeCycleRepairs_eq (isRoot_perm hperm hroot),
      mapM_error (fun c hc => Or.inl (hfail c hc)) ⟨c, hc, hfail c hc⟩]
    rfl
  have hnone : (¬ ∃ x, TransGen (ParentEdge nodes) x x) → ∀ nodes', nodes.Perm nodes' → ∀ ctx,
      outcome lib nodes' ctx = .ok ∅ := by
    intro hno nodes' hperm ctx
    have hnd' : (nodeIds nodes').Nodup := (hperm.map CycleNode.id).nodup_iff.mp hnd
    rw [outcome, computeCycleRepairs_nil hnd' fun x hx => hno ⟨x, by rwa [parentEdge_perm hperm]⟩]
    rfl
  intro nodes' hperm ctx ctx'
  by_cases hcyc : ∃ x, TransGen (ParentEdge nodes) x x
  · rw [hthrows hcyc nodes' hperm ctx', hthrows hcyc nodes (List.Perm.refl _) ctx]
  · rw [hnone hcyc nodes' hperm ctx', hnone hcyc nodes (List.Perm.refl _) ctx]

theorem first_freed (hnd : (nodeIds nodes).Nodup) (ha : Youngest nodes a) {rest : List CycleNode}
    (hrest : nodes = a :: rest) :
    ∃ c ∈ detectCycles nodes, a.id ∈ c ∧ ∀ r, Repairs lib nodes root c r → r.itemId = a.id := by
  obtain ⟨c, hc, hfirst⟩ := detectCycles_head hnd hrest ha.onCycle
  have hac : a.id ∈ c := List.mem_of_mem_head? hfirst
  refine ⟨c, hc, hac, fun r hcr => ?_⟩
  obtain ⟨m, hm, hid, -⟩ := hcr.freed
  have hcyc := (detectCycles_spec hnd).1 c hc
  have hle := ha.greatest m hm.mem (hcyc.connected hac hm.onCycle)
  rw [hid, hm.first a ha.mem hfirst (le_antisymm (hm.greatest a ha.mem hac) hle)]

theorem noTies_of_converges (hlib : SameBounds lib) (hnd : (nodeIds nodes).Nodup) (hroot : IsRoot nodes root)
    (haccept : lib.generateKeyBetween (lastRank (childRanks nodes root)) none ≠ none)
    (hconv : Converges lib nodes) :
    NoTies nodes := by
  intro a b ha hb hpath
  have hstart : ∀ n, Youngest nodes n → ∃ nodes' repairs, nodes.Perm nodes' ∧
      outcome lib nodes' ⟨[], 0⟩ = .ok (repairs.map placement).toFinset ∧ Repaired lib nodes' root repairs ∧
      ∃ c ∈ detectCycles nodes', n.id ∈ c ∧ ∀ r, Repairs lib nodes' root c r → r.itemId = n.id := by
    intro n hn
    have hperm := List.perm_cons_erase hn.mem
    have hnd' := (hperm.map CycleNode.id).nodup_iff.mp hnd
    have hrank := rankAfter_accepts hlib haccept
    rw [lastRank_nodes_perm hperm] at hrank
    obtain ⟨repairs, hout, h⟩ := outcome_ok hnd' (isRoot_perm hperm hroot) hrank ⟨[], 0⟩
    exact ⟨_, repairs, hperm, hout, h, first_freed hnd' ((youngest_perm hperm).mp hn) rfl⟩
  obtain ⟨nodesA, repairsA, hpermA, houtA, hA, c, hc, hac, hfreeA⟩ := hstart a ha
  obtain ⟨nodesB, repairsB, hpermB, houtB, hB, d, hd, hbd, hfreeB⟩ := hstart b hb
  -- the order that starts from `a` frees `a`, and so the other one does
  obtain ⟨r, hr, hcr⟩ := hA.each c hc
  have hra := hfreeA r hcr
  have hsets : (repairsA.map placement).toFinset = (repairsB.map placement).toFinset :=
    Except.ok.inj (houtA.symm.trans (((hconv nodesA hpermA ⟨[], 0⟩ ⟨[], 0⟩).trans
      (hconv nodesB hpermB ⟨[], 0⟩ ⟨[], 0⟩).symm).trans houtB))
  have hin : placement r ∈ (repairsB.map placement).toFinset := by
    rw [← hsets, List.mem_toFinset]
    exact List.mem_map_of_mem hr
  obtain ⟨q, hq, hqr⟩ := List.mem_map.mp (List.mem_toFinset.mp hin)
  have hqa : q.itemId = a.id := by rw [← hra]; exact congrArg Prod.fst hqr
  have hndB := (hpermB.map CycleNode.id).nodup_iff.mp hnd
  obtain ⟨hcycles, -, hdisjoint⟩ := detectCycles_spec hndB
  obtain ⟨d', hd', hdq⟩ := hB.only q hq
  have had : a.id ∈ d := by
    have hba := cycle_back (parentEdge_unique hnd) ha.onCycle hpath.to_reflTransGen
    rw [parentEdge_perm hpermB] at hba
    rcases hba.cases_head with heq | ⟨z, hbz, hza⟩
    · rwa [← heq]
    · exact (hcycles d hd).closed hndB hbd (TransGen.head' hbz hza)
  obtain rfl : d = d' := by
    have hsymm : Std.Symm (@List.Disjoint JsString) := ⟨fun _ _ h => h.symm⟩
    by_contra hne
    exact hdisjoint.forall hd hd' hne had (hqa ▸ hdq.item_mem)
  exact listed_unique hnd ha.mem hb.mem (by rw [← hqa, hfreeB q hdq])

end Outcomes

/-- The placements depend neither on the order of the list nor on the replica and its clock if and only
if no loop has two moves with its greatest stamp, or no rank can be found after the root's children. -/
theorem repairs_converge_iff {lib : FractionalIndexing} (hlib : SameBounds lib) {nodes : List CycleNode}
    (hnd : (nodeIds nodes).Nodup) {root : CycleNode} (hroot : IsRoot nodes root) :
    Converges lib nodes ↔
      NoTies nodes ∨ lib.generateKeyBetween (lastRank (childRanks nodes root)) none = none := by
  by_cases haccept : lib.generateKeyBetween (lastRank (childRanks nodes root)) none = none
  · exact iff_of_true (converges_of_refusal hlib hnd hroot haccept) (Or.inr haccept)
  · constructor
    · exact fun hconv => Or.inl (noTies_of_converges hlib hnd hroot haccept hconv)
    · rintro (hno | hrefuse)
      · exact converges_of_noTies hlib hnd hroot hno haccept
      · exact absurd hrefuse haccept

section Example

def tiedLoop : List CycleNode :=
  [outlineRoot, cycleNode (js ['x']) (js ['y']) 5, cycleNode (js ['y']) (js ['x']) 5]

theorem tiedLoop_orders :
    outcome sampleKeys [outlineRoot, cycleNode (js ['y']) (js ['x']) 5, cycleNode (js ['x']) (js ['y']) 5]
      ⟨js ['s'], 9⟩ ≠
      outcome sampleKeys tiedLoop ⟨js ['s'], 9⟩ := by decide

theorem tiedLoop_diverges : (nodeIds tiedLoop).Nodup ∧ IsRoot tiedLoop outlineRoot ∧
    ¬ Converges sampleKeys tiedLoop :=
  ⟨by decide, ⟨by decide, by decide, by decide⟩, fun h => tiedLoop_orders (h _ (by decide) _ _)⟩

theorem sampleKeys_sameBounds : SameBounds sampleKeys := by
  intro lower
  rw [sampleKeys]
  dsimp only
  split_ifs <;> simp

theorem repairs_converge_iff_tiedLoop : ¬ NoTies tiedLoop ∧
    sampleKeys.generateKeyBetween (lastRank (childRanks tiedLoop outlineRoot)) none ≠ none := by
  have hnd : (nodeIds tiedLoop).Nodup := by decide
  have hroot : IsRoot tiedLoop outlineRoot := ⟨by decide, by decide, by decide⟩
  have hiff := repairs_converge_iff sampleKeys_sameBounds hnd hroot
  exact not_or.mp (mt hiff.mpr fun h => tiedLoop_orders (h _ (by decide) _ _))

end Example

end OpenOutliner
