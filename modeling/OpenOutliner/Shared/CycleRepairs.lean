import OpenOutliner.Shared.DetectCycles
import OpenOutliner.Shared.Hlc

namespace OpenOutliner

open Foundations Relation

def writeMove (n : CycleNode) (r : CycleRepair) : CycleNode :=
  if n.id = r.itemId then { n with parentId := r.newParentId, rank := r.newRank, hlc := r.newHlc } else n

def applyRepair (nodes : List CycleNode) (r : CycleRepair) : List CycleNode :=
  nodes.map fun n => writeMove n r

def applyRepairs (nodes : List CycleNode) (repairs : List CycleRepair) : List CycleNode :=
  repairs.foldl applyRepair nodes

structure IsRoot (nodes : List CycleNode) (root : CycleNode) : Prop where
  mem : root ∈ nodes
  parent : isRootParent root.parentId = true
  only : ∀ n ∈ nodes, isRootParent n.parentId = true → n = root

structure MovedLast (nodes : List CycleNode) (root n n' : CycleNode) : Prop where
  id : n'.id = n.id
  away : n.parentId ≠ root.id
  parent : n'.parentId = root.id
  last : ∀ s ∈ nodes, s.parentId = root.id → compareRank s.rank n'.rank < 0

def childRanks (nodes : List CycleNode) (root : CycleNode) : List JsString :=
  (nodes.filter fun n => n.parentId = root.id).map CycleNode.rank

def lastRank : List JsString → Option JsString
  | [] => none
  | r :: rs => some (rs.foldl (fun a b => if 0 ≤ compareRank a b then a else b) r)

section Results

variable {α β ε : Type} {f : α → Except ε β} {R : α → β → Prop} {l : List α}

theorem mapM_ok (h : ∀ a ∈ l, ∃ b, f a = .ok b ∧ R a b) : ∃ bs, l.mapM f = .ok bs ∧ List.Forall₂ R l bs := by
  induction l with
  | nil => exact ⟨[], rfl, .nil⟩
  | cons a l ih =>
    obtain ⟨b, hb, hab⟩ := h a (List.mem_cons_self ..)
    obtain ⟨bs, hbs, hall⟩ := ih fun c hc => h c (List.mem_cons_of_mem _ hc)
    refine ⟨b :: bs, ?_, .cons hab hall⟩
    rw [List.mapM_cons, hb, hbs]
    rfl

theorem mapM_error {e : ε} (h : ∀ a ∈ l, f a = .error e ∨ ∃ b, f a = .ok b) (hex : ∃ a ∈ l, f a = .error e) :
    l.mapM f = .error e := by
  induction l with
  | nil => simp at hex
  | cons a l ih =>
    rw [List.mapM_cons]
    rcases h a (List.mem_cons_self ..) with ha | ⟨b, hb⟩
    · rw [ha]
      rfl
    · have hrest : l.mapM f = .error e := by
        apply ih fun c hc => h c (List.mem_cons_of_mem _ hc)
        obtain ⟨c, hc, hce⟩ := hex
        rcases List.mem_cons.mp hc with rfl | hc
        · rw [hb] at hce
          cases hce
        · exact ⟨c, hc, hce⟩
      rw [hb, hrest]
      rfl

theorem forall₂_left {bs : List β} (h : List.Forall₂ R l bs) : ∀ a ∈ l, ∃ b ∈ bs, R a b := by
  induction h with
  | nil => simp
  | cons hab _ ih =>
    intro a ha
    rcases List.mem_cons.mp ha with rfl | ha
    · exact ⟨_, List.mem_cons_self .., hab⟩
    · obtain ⟨b, hb, hr⟩ := ih a ha
      exact ⟨b, List.mem_cons_of_mem _ hb, hr⟩

theorem forall₂_right {bs : List β} (h : List.Forall₂ R l bs) : ∀ b ∈ bs, ∃ a ∈ l, R a b :=
  forall₂_left h.flip

end Results

section LastRank

variable {ranks : List JsString} {k : JsString}

theorem lastRank_iff : lastRank ranks = some k ↔ k ∈ ranks ∧ ∀ r ∈ ranks, r ≤ k := by
  have hfold : ∀ (rs : List JsString) (r : JsString),
      (rs.foldl (fun a b => if 0 ≤ compareRank a b then a else b) r) ∈ r :: rs ∧
      ∀ s ∈ r :: rs, s ≤ rs.foldl (fun a b => if 0 ≤ compareRank a b then a else b) r := by
    intro rs
    induction rs with
    | nil => intro r; simp
    | cons s rs ih =>
      intro r
      rw [List.foldl_cons]
      by_cases hle : s ≤ r
      · rw [if_pos ((compareRank_nonneg_iff r s).mpr hle)]
        obtain ⟨hmem, hmax⟩ := ih r
        refine ⟨?_, ?_⟩
        · rcases List.mem_cons.mp hmem with h | h
          · rw [h]; exact List.mem_cons_self ..
          · exact List.mem_cons_of_mem _ (List.mem_cons_of_mem _ h)
        · intro t ht
          rcases List.mem_cons.mp ht with rfl | ht
          · exact hmax t (List.mem_cons_self ..)
          · rcases List.mem_cons.mp ht with rfl | ht
            · exact hle.trans (hmax r (List.mem_cons_self ..))
            · exact hmax t (List.mem_cons_of_mem _ ht)
      · rw [if_neg fun h => hle ((compareRank_nonneg_iff r s).mp h)]
        obtain ⟨hmem, hmax⟩ := ih s
        refine ⟨List.mem_cons_of_mem _ hmem, ?_⟩
        intro t ht
        rcases List.mem_cons.mp ht with rfl | ht
        · exact (not_le.mp hle).le.trans (hmax s (List.mem_cons_self ..))
        · exact hmax t ht
  cases ranks with
  | nil => simp [lastRank]
  | cons r rs =>
    obtain ⟨hmem, hmax⟩ := hfold rs r
    rw [lastRank, Option.some.injEq]
    constructor
    · rintro rfl
      exact ⟨hmem, hmax⟩
    · rintro ⟨hk, hk'⟩
      exact le_antisymm (hk' _ hmem) (hmax k hk)

theorem lastRank_perm {ranks' : List JsString} (h : ranks.Perm ranks') :
    lastRank ranks = lastRank ranks' := by
  apply Option.ext
  intro k
  simp only [lastRank_iff, h.mem_iff]

end LastRank

section Freed

variable {nodes : List CycleNode} {c : List JsString} {n m first : CycleNode} {x : JsString}

theorem getNode_ok (hnd : (nodeIds nodes).Nodup) (hn : n ∈ nodes) : getNode (nodeMap nodes) n.id = .ok n := by
  rw [getNode, (nodeMap_get hnd).mpr ⟨hn, rfl⟩]

theorem listed_unique (hnd : (nodeIds nodes).Nodup) (hn : n ∈ nodes) (hm : m ∈ nodes)
    (h : n.id = m.id) : n = m :=
  List.inj_on_of_nodup_map hnd hn hm h

theorem younger_fold (hnd : (nodeIds nodes).Nodup) (hc : ∀ x ∈ c, x ∈ nodeIds nodes) :
    ∃ m, c.foldlM (younger (nodeMap nodes)) first = .ok m ∧ (m = first ∨ m ∈ nodes ∧ m.id ∈ c) ∧
      (∀ n ∈ nodes, n.id ∈ c → n.hlc ≤ m.hlc) ∧ first.hlc ≤ m.hlc ∧ (m.hlc = first.hlc → m = first) := by
  induction c generalizing first with
  | nil => exact ⟨first, rfl, Or.inl rfl, by simp, le_rfl, fun _ => rfl⟩
  | cons x c ih =>
    obtain ⟨n, hn, rfl⟩ := List.mem_map.mp (hc x (List.mem_cons_self ..))
    have hc' : ∀ x ∈ c, x ∈ nodeIds nodes := fun x hx => hc x (List.mem_cons_of_mem _ hx)
    have hstep : younger (nodeMap nodes) first n.id =
        .ok (if 0 < compareHlc n.hlc first.hlc then n else first) := by
      rw [younger, getNode_ok hnd hn]
      rfl
    rw [List.foldlM_cons, hstep]
    change ∃ m, c.foldlM (younger (nodeMap nodes)) (if 0 < compareHlc n.hlc first.hlc then n else first) =
      Except.ok m ∧ _
    have hhead : ∀ {s}, s ∈ nodes → s.id ∈ n.id :: c → s = n ∨ s.id ∈ c := by
      intro s hs hsc
      exact (List.mem_cons.mp hsc).imp_left fun h => listed_unique hnd hs hn h
    by_cases hlt : first.hlc < n.hlc
    · rw [if_pos (compareHlc_pos_iff.mpr hlt)]
      obtain ⟨m, hm, hfrom, hmax, hle, -⟩ := @ih n hc'
      refine ⟨m, hm, Or.inr ?_, ?_, hlt.le.trans hle, ?_⟩
      · rcases hfrom with rfl | ⟨hmn, hmc⟩
        · exact ⟨hn, List.mem_cons_self ..⟩
        · exact ⟨hmn, List.mem_cons_of_mem _ hmc⟩
      · intro s hs hsc
        rcases hhead hs hsc with rfl | hsc
        · exact hle
        · exact hmax s hs hsc
      · intro heq
        exact absurd (heq ▸ hle) (not_le.mpr hlt)
    · rw [if_neg fun h => hlt (compareHlc_pos_iff.mp h)]
      obtain ⟨m, hm, hfrom, hmax, hle, heq⟩ := @ih first hc'
      refine ⟨m, hm, hfrom.imp_right fun ⟨hmn, hmc⟩ => ⟨hmn, List.mem_cons_of_mem _ hmc⟩, ?_, hle, heq⟩
      intro s hs hsc
      rcases hhead hs hsc with rfl | hsc
      · exact (not_lt.mp hlt).trans hle
      · exact hmax s hs hsc

/-- The member of a loop that is freed; among equal stamps the first one listed wins. -/
structure Freed (nodes : List CycleNode) (c : List JsString) (m : CycleNode) : Prop where
  mem : m ∈ nodes
  onCycle : m.id ∈ c
  greatest : ∀ n ∈ nodes, n.id ∈ c → n.hlc ≤ m.hlc
  first : ∀ n ∈ nodes, c.head? = some n.id → n.hlc = m.hlc → n = m

variable (lib : FractionalIndexing)

theorem repairForCycle_eq (hnd : (nodeIds nodes).Nodup) (hc : IsCycle nodes c) (rootId : JsString)
    (ranks : List JsString)
    (ctx : ClockContext) : ∃ m, Freed nodes c m ∧ repairForCycle lib (nodeMap nodes) rootId ranks ctx c =
      (rankAfter lib (lastRank ranks) m.id).map fun k =>
        ⟨m.id, rootId, k, tickHlc (some m.hlc) (max ctx.nowMs m.hlc.wallMs) ctx.replicaId, c⟩ := by
  obtain ⟨x, l, rfl⟩ : ∃ x l, c = x :: l := List.exists_cons_of_ne_nil hc.ne_nil
  obtain ⟨first, hfirst, rfl⟩ := List.mem_map.mp (hc.listed (List.mem_cons_self ..))
  obtain ⟨m, hm, hfrom, hmax, -, heq⟩ :=
    @younger_fold nodes (first.id :: l) first hnd fun x hx => hc.listed hx
  have hmem : m ∈ nodes ∧ m.id ∈ first.id :: l := by
    rcases hfrom with rfl | h
    · exact ⟨hfirst, List.mem_cons_self ..⟩
    · exact h
  refine ⟨m, ⟨hmem.1, hmem.2, hmax, ?_⟩, ?_⟩
  · intro n hn hhead hhlc
    obtain rfl : n = first := listed_unique hnd hn hfirst (Option.some.inj hhead).symm
    exact (heq hhlc.symm).symm
  · unfold repairForCycle
    rw [List.headD_cons, getNode_ok hnd hfirst]
    change Except.bind ((first.id :: l).foldlM (younger (nodeMap nodes)) first) _ = _
    rw [hm]
    change Except.bind (rankAfter lib (lastRank ranks) m.id) _ = _
    cases rankAfter lib (lastRank ranks) m.id <;> rfl

end Freed

section Repairs

variable {lib : FractionalIndexing} {nodes : List CycleNode} {root : CycleNode} {ctx : ClockContext}

structure Repairs (lib : FractionalIndexing) (nodes : List CycleNode) (root : CycleNode) (c : List JsString)
    (r : CycleRepair) : Prop where
  cycle : r.cycle = c
  freed : ∃ m, Freed nodes c m ∧ r.itemId = m.id ∧ m.hlc < r.newHlc
  parent : r.newParentId = root.id
  rank : rankAfter lib (lastRank (childRanks nodes root)) r.itemId = .ok r.newRank

theorem computeCycleRepairs_eq (hroot : IsRoot nodes root) : computeCycleRepairs lib nodes ctx =
    (detectCycles nodes).mapM (repairForCycle lib (nodeMap nodes) root.id (childRanks nodes root) ctx) := by
  have hfind : nodes.find? (fun n => isRootParent n.parentId) = some root := by
    cases h : nodes.find? (fun n => isRootParent n.parentId) with
    | none => exact absurd hroot.parent (by simpa using List.find?_eq_none.mp h root hroot.mem)
    | some n => rw [hroot.only n (List.mem_of_find?_eq_some h) (by simpa using List.find?_some h)]
  rw [computeCycleRepairs, hfind]
  rfl

theorem repairForCycle_ok (hnd : (nodeIds nodes).Nodup)
    (hrank : ∀ id, ∃ k, rankAfter lib (lastRank (childRanks nodes root)) id = .ok k)
    {c : List JsString} (hc : IsCycle nodes c) :
    ∃ r, repairForCycle lib (nodeMap nodes) root.id (childRanks nodes root) ctx c = .ok r ∧
    Repairs lib nodes root c r := by
  obtain ⟨m, hm, heq⟩ := repairForCycle_eq lib hnd hc root.id (childRanks nodes root) ctx
  obtain ⟨k, hk⟩ := hrank m.id
  rw [hk] at heq
  exact ⟨_, heq, rfl, ⟨m, hm, rfl, tickHlc_gt _ _ _⟩, rfl, hk⟩

theorem computeCycleRepairs_ok (hnd : (nodeIds nodes).Nodup) (hroot : IsRoot nodes root)
    (hrank : ∀ id, ∃ k, rankAfter lib (lastRank (childRanks nodes root)) id = .ok k) :
    ∃ repairs, computeCycleRepairs lib nodes ctx = .ok repairs ∧
      List.Forall₂ (Repairs lib nodes root) (detectCycles nodes) repairs := by
  rw [computeCycleRepairs_eq hroot]
  exact mapM_ok fun c hc => repairForCycle_ok hnd hrank ((detectCycles_spec hnd).1 c hc)

end Repairs

section Apply

variable {nodes : List CycleNode} {repairs : List CycleRepair} {n : CycleNode} {r : CycleRepair}

@[simp] theorem writeMove_id (n : CycleNode) (r : CycleRepair) : (writeMove n r).id = n.id := by
  unfold writeMove
  split <;> rfl

theorem applyRepairs_eq (nodes : List CycleNode) (repairs : List CycleRepair) :
    applyRepairs nodes repairs = nodes.map fun n => repairs.foldl writeMove n := by
  induction repairs generalizing nodes with
  | nil => simp [applyRepairs]
  | cons r repairs ih =>
    rw [applyRepairs, List.foldl_cons]
    change applyRepairs (applyRepair nodes r) repairs = _
    rw [ih, applyRepair, List.map_map]
    rfl

theorem writeMoves_id (n : CycleNode) (repairs : List CycleRepair) :
    (repairs.foldl writeMove n).id = n.id := by
  induction repairs generalizing n with
  | nil => rfl
  | cons r repairs ih => rw [List.foldl_cons, ih, writeMove_id]

theorem writeMoves_none (h : n.id ∉ repairs.map CycleRepair.itemId) : repairs.foldl writeMove n = n := by
  induction repairs with
  | nil => rfl
  | cons r repairs ih =>
    rw [List.map_cons, List.mem_cons, not_or] at h
    rw [List.foldl_cons, writeMove, if_neg h.1]
    exact ih h.2

theorem writeMoves_some (hnd : (repairs.map CycleRepair.itemId).Nodup) (hr : r ∈ repairs)
    (hid : n.id = r.itemId) :
    repairs.foldl writeMove n = { n with parentId := r.newParentId, rank := r.newRank, hlc := r.newHlc } := by
  induction repairs with
  | nil => cases hr
  | cons q repairs ih =>
    rw [List.map_cons, List.nodup_cons] at hnd
    rw [List.foldl_cons]
    rcases List.mem_cons.mp hr with rfl | hr
    · rw [writeMove, if_pos hid]
      exact writeMoves_none (by rw [hid]; exact hnd.1)
    · have hne : n.id ≠ q.itemId := by
        intro h
        apply hnd.1
        rw [← h, hid]
        exact List.mem_map_of_mem hr
      rw [writeMove, if_neg hne]
      exact ih hnd.2 hr

theorem applyRepairs_ids (nodes : List CycleNode) (repairs : List CycleRepair) :
    nodeIds (applyRepairs nodes repairs) = nodeIds nodes := by
  rw [applyRepairs_eq, nodeIds, List.map_map]
  exact List.map_congr_left fun n _ => writeMoves_id n repairs

end Apply

section Repaired

variable {lib : FractionalIndexing} {Key : JsString → Prop} {nodes : List CycleNode} {root n m : CycleNode}
  {repairs : List CycleRepair} {c : List JsString} {r : CycleRepair} {x y : JsString} {ctx : ClockContext}

/-- Every loop has a repair, and the repairs free different items. -/
structure Repaired (lib : FractionalIndexing) (nodes : List CycleNode) (root : CycleNode)
    (repairs : List CycleRepair) : Prop where
  each : ∀ c ∈ detectCycles nodes, ∃ r ∈ repairs, Repairs lib nodes root c r
  only : ∀ r ∈ repairs, ∃ c ∈ detectCycles nodes, Repairs lib nodes root c r
  apart : repairs.Pairwise fun r q => ∀ c, IsCycle nodes c → r.itemId ∈ c → q.itemId ∉ c

theorem Repairs.item_mem (h : Repairs lib nodes root c r) : r.itemId ∈ c := by
  obtain ⟨m, hm, hid, -⟩ := h.freed
  rw [hid]
  exact hm.onCycle

theorem repairs_apart (hnd : (nodeIds nodes).Nodup) {cycles : List (List JsString)}
    (hcycles : ∀ c ∈ cycles, IsCycle nodes c)
    (h : List.Forall₂ (Repairs lib nodes root) cycles repairs) (hdisjoint : cycles.Pairwise List.Disjoint) :
    repairs.Pairwise fun r q => ∀ c, IsCycle nodes c → r.itemId ∈ c → q.itemId ∉ c := by
  induction h with
  | nil => exact List.Pairwise.nil
  | @cons d r cycles repairs hdr hrest ih =>
    rw [List.pairwise_cons] at hdisjoint ⊢
    refine ⟨?_, ih (fun c hc => hcycles c (List.mem_cons_of_mem _ hc)) hdisjoint.2⟩
    intro q hq c hc hr hin
    obtain ⟨d', hd', hdq⟩ := forall₂_right hrest q hq
    have hd := hcycles d (List.mem_cons_self ..)
    exact hdisjoint.1 d' hd' (hd.closed hnd hdr.item_mem (hc.connected hr hin)) hdq.item_mem

theorem repaired_of (hnd : (nodeIds nodes).Nodup)
    (h : List.Forall₂ (Repairs lib nodes root) (detectCycles nodes) repairs) :
    Repaired lib nodes root repairs := by
  obtain ⟨hcycles, -, hdisjoint⟩ := detectCycles_spec hnd
  exact ⟨forall₂_left h, forall₂_right h, repairs_apart hnd hcycles h hdisjoint⟩

theorem edge_from (hnd : (nodeIds nodes).Nodup) (hn : n ∈ nodes) :
    ParentEdge nodes n.id y ↔ n.parentId = y ∧ isRootParent y = false ∧ y ∈ nodeIds nodes := by
  constructor
  · rintro ⟨m, hm, hid, hparent, hrest⟩
    obtain rfl := listed_unique hnd hm hn hid
    exact ⟨hparent, hrest⟩
  · rintro ⟨hparent, hrest⟩
    exact ⟨n, hn, rfl, hparent, hrest⟩

theorem root_edge (hnd : (nodeIds nodes).Nodup) (hroot : IsRoot nodes root) :
    ¬ ParentEdge nodes root.id y := by
  rw [edge_from hnd hroot.mem]
  rintro ⟨rfl, hfalse, -⟩
  rw [hroot.parent] at hfalse
  cases hfalse

theorem root_off_cycle (hnd : (nodeIds nodes).Nodup) (hroot : IsRoot nodes root) :
    ¬ TransGen (ParentEdge nodes) root.id y := by
  intro hpath
  obtain ⟨z, hz, -⟩ := TransGen.head'_iff.mp hpath
  exact root_edge hnd hroot hz

section Graph

variable (hnd : (nodeIds nodes).Nodup) (h : Repaired lib nodes root repairs)

include hnd h

theorem Repaired.item_cycle (hr : r ∈ repairs) : TransGen (ParentEdge nodes) r.itemId r.itemId := by
  obtain ⟨c, hc, hcr⟩ := h.only r hr
  exact ((detectCycles_spec hnd).1 c hc).connected hcr.item_mem hcr.item_mem

theorem Repaired.freed (hx : TransGen (ParentEdge nodes) x x) :
    ∃ r ∈ repairs, TransGen (ParentEdge nodes) x r.itemId := by
  obtain ⟨c, hc, hxc⟩ := (detectCycles_spec hnd).2.1 x hx
  obtain ⟨r, hr, hcr⟩ := h.each c hc
  exact ⟨r, hr, ((detectCycles_spec hnd).1 c hc).connected hxc hcr.item_mem⟩

theorem Repaired.distinct : (repairs.map CycleRepair.itemId).Nodup := by
  rw [List.nodup_iff_pairwise_ne, List.pairwise_map]
  apply h.apart.imp_of_mem
  intro r q hr hq hapart heq
  obtain ⟨c, hc, hcr⟩ := h.only r hr
  exact hapart c ((detectCycles_spec hnd).1 c hc) hcr.item_mem (heq ▸ hcr.item_mem)

omit hnd in
theorem Repaired.freed_unique {q : CycleRepair} (hr : r ∈ repairs) (hq : q ∈ repairs) (hc : IsCycle nodes c)
    (hrc : r.itemId ∈ c) (hqc : q.itemId ∈ c) : r = q := by
  by_contra hne
  have hsymm : Std.Symm fun r q : CycleRepair => ∀ c, IsCycle nodes c → r.itemId ∈ c → q.itemId ∉ c :=
    ⟨fun r q hrq c hc hq hr => hrq c hc hr hq⟩
  exact h.apart.forall hr hq hne c hc hrc hqc

theorem Repaired.moved (hr : r ∈ repairs) (hid : n.id = r.itemId) : repairs.foldl writeMove n =
    { n with parentId := root.id, rank := r.newRank, hlc := r.newHlc } := by
  obtain ⟨c, -, hcr⟩ := h.only r hr
  rw [writeMoves_some (h.distinct hnd) hr hid, hcr.parent]

theorem Repaired.edge_moved (hr : r ∈ repairs)
    (hedge : ParentEdge (applyRepairs nodes repairs) r.itemId y) : y = root.id := by
  obtain ⟨n', hn', hid, hy, -⟩ := hedge
  rw [applyRepairs_eq, List.mem_map] at hn'
  obtain ⟨n, hn, rfl⟩ := hn'
  rw [writeMoves_id] at hid
  rw [← hy, h.moved hnd hr hid]

omit hnd h in
theorem edge_kept (hx : x ∉ repairs.map CycleRepair.itemId) :
    ParentEdge (applyRepairs nodes repairs) x y ↔ ParentEdge nodes x y := by
  unfold ParentEdge
  rw [applyRepairs_ids, applyRepairs_eq]
  constructor
  · rintro ⟨n', hn', hid, hrest⟩
    obtain ⟨n, hn, rfl⟩ := List.mem_map.mp hn'
    rw [writeMoves_id] at hid
    rw [writeMoves_none (hid ▸ hx)] at hrest
    exact ⟨n, hn, hid, hrest⟩
  · rintro ⟨n, hn, hid, hrest⟩
    refine ⟨repairs.foldl writeMove n, List.mem_map_of_mem hn, ?_, ?_⟩
    · rwa [writeMoves_id]
    · rwa [writeMoves_none (hid ▸ hx)]

variable (hroot : IsRoot nodes root)

include hroot

theorem Repaired.root_kept : root.id ∉ repairs.map CycleRepair.itemId := by
  intro hin
  obtain ⟨r, hr, hid⟩ := List.mem_map.mp hin
  exact root_off_cycle hnd hroot (hid ▸ h.item_cycle hnd hr)

theorem Repaired.acyclic : ¬ TransGen (ParentEdge (applyRepairs nodes repairs)) x x := by
  intro hx
  have hnd' : (nodeIds (applyRepairs nodes repairs)).Nodup := by rwa [applyRepairs_ids]
  have hunique := parentEdge_unique hnd'
  have hnever : ∀ y, TransGen (ParentEdge (applyRepairs nodes repairs)) y y →
      y ∉ repairs.map CycleRepair.itemId := by
    intro y hy hin
    obtain ⟨r, hr, rfl⟩ := List.mem_map.mp hin
    obtain ⟨z, hz, hback⟩ := TransGen.head'_iff.mp hy
    obtain rfl := h.edge_moved hnd hr hz
    have hon := cycle_forward hunique hy (.single hz)
    obtain ⟨w, hw, -⟩ := TransGen.head'_iff.mp hon
    exact root_edge hnd hroot ((edge_kept (h.root_kept hnd hroot)).mp hw)
  have hsame : ∀ {y}, TransGen (ParentEdge nodes) x y ↔
      TransGen (ParentEdge (applyRepairs nodes repairs)) x y := by
    intro y
    exact transGen_iff_of_closed (P := fun a => TransGen (ParentEdge (applyRepairs nodes repairs)) a a)
      (fun a b ha hab => cycle_forward hunique ha (.single hab))
        (fun a b ha => (edge_kept (hnever a ha)).symm) hx
  obtain ⟨r, hr, hpath⟩ := h.freed hnd (hsame.mpr hx)
  exact hnever r.itemId (cycle_forward hunique hx (hsame.mp hpath).to_reflTransGen) (List.mem_map_of_mem hr)

theorem Repaired.away (hr : r ∈ repairs) (hn : n ∈ nodes) (hid : n.id = r.itemId) : n.parentId ≠ root.id := by
  intro hparent
  obtain ⟨z, hz, hback⟩ := TransGen.head'_iff.mp (h.item_cycle hnd hr)
  rw [← hid, edge_from hnd hn] at hz
  obtain ⟨rfl, -, -⟩ := hz
  rw [hparent] at hback
  rcases hback.cases_head with heq | ⟨w, hw, -⟩
  · exact h.root_kept hnd hroot (List.mem_map.mpr ⟨r, hr, heq.symm⟩)
  · exact root_edge hnd hroot hw

theorem Repaired.movedLast (hlast : ∀ id k, rankAfter lib (lastRank (childRanks nodes root)) id = .ok k →
      ∀ s ∈ nodes, s.parentId = root.id →
      s.rank < k) (hr : r ∈ repairs) (hn : n ∈ nodes) (hid : n.id = r.itemId) :
    MovedLast nodes root n (repairs.foldl writeMove n) := by
  have hmoved := h.moved hnd hr hid
  refine ⟨writeMoves_id n repairs, h.away hnd hroot hr hn hid, by rw [hmoved], ?_⟩
  intro s hs hsr
  obtain ⟨c, -, hcr⟩ := h.only r hr
  rw [hmoved, ← not_le, compareRank_nonneg_iff]
  exact not_le.mpr (hlast r.itemId r.newRank hcr.rank s hs hsr)

theorem Repaired.one_moved (hc : IsCycle nodes c) :
    ∃! n, n ∈ nodes ∧ n.id ∈ c ∧ n ∉ applyRepairs nodes repairs := by
  obtain ⟨x, hx⟩ := List.exists_mem_of_ne_nil c hc.ne_nil
  obtain ⟨r, hr, hpath⟩ := h.freed hnd (hc.connected hx hx)
  have hrc := hc.closed hnd hx hpath
  obtain ⟨n, hn, hid⟩ := List.mem_map.mp (hc.listed hrc)
  rw [applyRepairs_eq]
  refine ⟨n, ⟨hn, hid ▸ hrc, ?_⟩, ?_⟩
  · intro hin
    obtain ⟨m, hm, heq⟩ := List.mem_map.mp hin
    obtain rfl : m = n := listed_unique hnd hm hn (by rw [← heq, writeMoves_id])
    rw [h.moved hnd hr hid] at heq
    exact h.away hnd hroot hr hn hid (congrArg CycleNode.parentId heq).symm
  · rintro m ⟨hm, hmc, hnot⟩
    by_cases hin : m.id ∈ repairs.map CycleRepair.itemId
    · obtain ⟨q, hq, hqid⟩ := List.mem_map.mp hin
      obtain rfl := h.freed_unique hr hq hc hrc (hqid ▸ hmc)
      exact listed_unique hnd hm hn (by rw [hid, hqid])
    · exact absurd (List.mem_map.mpr ⟨m, hm, writeMoves_none hin⟩) hnot

end Graph

theorem detectCycles_nil (hnd : (nodeIds nodes).Nodup) (hno : ∀ x, ¬ TransGen (ParentEdge nodes) x x) :
    detectCycles nodes = [] := by
  apply List.eq_nil_iff_forall_not_mem.mpr
  intro c hc
  have hcyc := (detectCycles_spec hnd).1 c hc
  obtain ⟨x, hx⟩ := List.exists_mem_of_ne_nil c hcyc.ne_nil
  exact hno x (hcyc.connected hx hx)

theorem computeCycleRepairs_nil (hnd : (nodeIds nodes).Nodup) (hno : ∀ x, ¬ TransGen (ParentEdge nodes) x x) :
    computeCycleRepairs lib nodes ctx = .ok [] := by
  rw [computeCycleRepairs, detectCycles_nil hnd hno]
  split <;> rfl

theorem childRanks_key (hranks : ∀ n ∈ nodes, Key n.rank) {k : JsString}
    (hk : lastRank (childRanks nodes root) = some k) : Key k := by
  obtain ⟨n, hn, rfl⟩ := List.mem_map.mp (lastRank_iff.mp hk).1
  exact hranks n (List.mem_filter.mp hn).1

theorem childRanks_le {s : CycleNode} (hs : s ∈ nodes) (hsr : s.parentId = root.id) :
    ∃ k, lastRank (childRanks nodes root) = some k ∧ s.rank ≤ k := by
  have hin : s.rank ∈ childRanks nodes root :=
    List.mem_map_of_mem (List.mem_filter.mpr ⟨hs, by simpa using hsr⟩)
  cases hranks : childRanks nodes root with
  | nil => rw [hranks] at hin; cases hin
  | cons r rs =>
    rw [hranks] at hin
    exact ⟨_, rfl, (lastRank_iff.mp rfl).2 _ hin⟩

end Repaired

/-- The repairs leave no loop: they move one item of each under the root, after its children, with a
stamp greater than the loop's, and leave all else; and there is nothing more to repair. -/
theorem cycle_repair {lib : FractionalIndexing} {Key : JsString → Prop} (hlib : lib.Lawful Key)
    {nodes : List CycleNode} (hnd : (nodeIds nodes).Nodup) (hranks : ∀ n ∈ nodes, Key n.rank)
    {root : CycleNode} (hroot : IsRoot nodes root) (ctx : ClockContext) :
    ∃ repairs, computeCycleRepairs lib nodes ctx = .ok repairs ∧
      (∀ x, ¬ TransGen (ParentEdge (applyRepairs nodes repairs)) x x) ∧
      (∀ c, IsCycle nodes c → ∃! n, n ∈ nodes ∧ n.id ∈ c ∧ n ∉ applyRepairs nodes repairs) ∧
      List.Forall₂ (fun n n' => n' = n ∨ TransGen (ParentEdge nodes) n.id n.id ∧
        MovedLast nodes root n n') nodes (applyRepairs nodes repairs) ∧
      (∀ r ∈ repairs, IsCycle nodes r.cycle ∧ r.itemId ∈ r.cycle ∧
        ∀ n ∈ nodes, n.id ∈ r.cycle → 0 < compareHlc r.newHlc n.hlc) ∧
      ∀ ctx', computeCycleRepairs lib (applyRepairs nodes repairs) ctx' = .ok [] := by
  have hrank : ∀ id, ∃ k, rankAfter lib (lastRank (childRanks nodes root)) id = .ok k ∧ Key k ∧
      Between (lastRank (childRanks nodes root)) k none :=
    fun id => rankAfter_ok hlib (fun k hk => childRanks_key hranks hk) id
  obtain ⟨repairs, hrun, hall⟩ : ∃ repairs, computeCycleRepairs lib nodes ctx = .ok repairs ∧ _ :=
    computeCycleRepairs_ok hnd hroot fun id => (hrank id).imp fun _ hk => hk.1
  have h := repaired_of hnd hall
  have hacyclic : ∀ x, ¬ TransGen (ParentEdge (applyRepairs nodes repairs)) x x :=
    fun x => h.acyclic hnd hroot
  have hlast : ∀ id k, rankAfter lib (lastRank (childRanks nodes root)) id = .ok k →
      ∀ s ∈ nodes, s.parentId = root.id → s.rank < k := by
    intro id k hk s hs hsr
    obtain ⟨k', hk', -, hbetween⟩ := hrank id
    obtain rfl := Except.ok.inj (hk.symm.trans hk')
    obtain ⟨l, hl, hle⟩ := childRanks_le hs hsr
    exact hle.trans_lt (hbetween.1 l hl)
  refine ⟨repairs, hrun, hacyclic, fun c hc => h.one_moved hnd hroot hc, ?_, ?_, ?_⟩
  · rw [applyRepairs_eq, List.forall₂_map_right_iff, List.forall₂_same]
    intro n hn
    by_cases hin : n.id ∈ repairs.map CycleRepair.itemId
    · obtain ⟨r, hr, hid⟩ := List.mem_map.mp hin
      exact Or.inr ⟨hid ▸ h.item_cycle hnd hr, h.movedLast hnd hroot hlast hr hn hid.symm⟩
    · exact Or.inl (writeMoves_none hin)
  · intro r hr
    obtain ⟨c, hc, hcr⟩ := h.only r hr
    obtain ⟨m, hm, -, hlt⟩ := hcr.freed
    rw [hcr.cycle]
    refine ⟨(detectCycles_spec hnd).1 c hc, hcr.item_mem, fun n hn hnc => ?_⟩
    exact compareHlc_pos_iff.mpr ((hm.greatest n hn hnc).trans_lt hlt)
  · intro ctx'
    exact computeCycleRepairs_nil (by rwa [applyRepairs_ids]) hacyclic

section Example

def cycleNode (id parentId : JsString) (wallMs : ℤ) : CycleNode :=
  ⟨id, parentId, js ['a', '0'], ⟨wallMs, 0, js ['r']⟩⟩

def outlineRoot : CycleNode := cycleNode (js ['o']) ROOT_PARENT_SENTINEL 1

def twoLoops : List CycleNode :=
  [cycleNode (js ['t']) (js ['x']) 9, outlineRoot, cycleNode (js ['x']) (js ['y']) 5,
    cycleNode (js ['y']) (js ['x']) 7,
    cycleNode (js ['z']) (js ['z']) 2]

theorem cycle_repair_twoLoops : (detectCycles twoLoops = [[js ['x'], js ['y']], [js ['z']]]) ∧
    ∃ repairs, computeCycleRepairs sampleKeys twoLoops ⟨js ['s'], 3⟩ = .ok repairs ∧
      repairs.map CycleRepair.itemId = [js ['y'], js ['z']] ∧
      (∀ x, ¬ TransGen (ParentEdge (applyRepairs twoLoops repairs)) x x) ∧
      ∀ ctx', computeCycleRepairs sampleKeys (applyRepairs twoLoops repairs) ctx' = .ok [] := by
  have hkey : ∀ n ∈ twoLoops, SampleKey n.rank := by
    intro n hn
    have hrank : n.rank = js ['a'] ++ js ['0'] := by
      revert n
      decide
    exact ⟨js ['a'], _, hrank, by decide⟩
  have hroot : IsRoot twoLoops outlineRoot := ⟨by decide, by decide, by decide⟩
  obtain ⟨repairs, hrun, hacyclic, -, -, -, hnil⟩ :=
    cycle_repair sampleKeys_lawful (by decide) hkey hroot ⟨js ['s'], 3⟩
  refine ⟨by decide, repairs, hrun, ?_, hacyclic, hnil⟩
  have hids : (computeCycleRepairs sampleKeys twoLoops ⟨js ['s'], 3⟩).map (List.map CycleRepair.itemId) =
      .ok [js ['y'], js ['z']] := by decide
  rw [hrun] at hids
  exact Except.ok.inj hids

end Example

end OpenOutliner
