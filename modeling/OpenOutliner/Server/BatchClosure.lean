import OpenOutliner.Server.Projector
import OpenOutliner.Shared.TreeEdits

namespace OpenOutliner

open Foundations Relation

/-- The parent of every row is another row of the batch. -/
def BatchClosed (batch : List ProjectedItem) : Prop :=
  ∀ row ∈ batch, ∀ p ∈ row.parentId, ∃ parent ∈ batch, parent ≠ row ∧ parent.id = p

section Placements

variable (snapshots : List ItemNodeSnapshot) (rootId : Option JsString)

/-- The place of the item leads out of the list: to a parent that is missing, or to a canonical root that
is. -/
def Stranded (s : ItemNodeSnapshot) : Prop :=
  match rootId.filter (· ≠ []) with
  | none => some s.id ≠ rootId ∧ s.move.parentId ≠ ROOT_PARENT_SENTINEL ∧
      s.move.parentId ∉ snapshots.map ItemNodeSnapshot.id
  | some r => r ≠ ROOT_PARENT_SENTINEL ∧ r ∉ snapshots.map ItemNodeSnapshot.id ∧
      (Detached (snapshots.map ItemNodeSnapshot.toTreeNode) r s.id ∨
        CycleLeast (snapshots.map ItemNodeSnapshot.toTreeNode) r s.id)

/-- No item that stays hangs under a stranded one, nor under itself where there is no canonical root. -/
def NothingHangs : Prop :=
  ∀ s ∈ snapshots, some s.id ≠ rootId → s.move.parentId ≠ ROOT_PARENT_SENTINEL →
    ¬ Stranded snapshots rootId s →
    (∀ p ∈ snapshots, p.id = s.move.parentId → ¬ Stranded snapshots rootId p) ∧
      (rootId.filter (· ≠ []) = none → s.move.parentId ≠ s.id)

end Placements

section Rows

variable {lib : FractionalIndexing} {snapshots : List ItemNodeSnapshot} {rootId : Option JsString} {now : ℤ}
  {replicaId : JsString} {result : ProjectionResult} {s : ItemNodeSnapshot}

theorem rowOf_legacy (h : rootId.filter (· ≠ []) = none) : (rowOf snapshots rootId s).parentId =
    if some s.id = rootId ∨ s.move.parentId = ROOT_PARENT_SENTINEL then none else some s.move.parentId := by
  rw [rowOf, projectionTree, h, projectRow]
  simp [isRootParent]

theorem rowOf_effective (hnd : (snapshots.map ItemNodeSnapshot.id).Nodup) {r : JsString}
    (h : rootId.filter (· ≠ []) = some r)
    (hs : s ∈ snapshots) (hr : s.id ≠ r) : ∃ p, (rowOf snapshots rootId s).parentId =
      (if p = ROOT_PARENT_SENTINEL then none else some p) ∧
      (Detached (snapshots.map ItemNodeSnapshot.toTreeNode) r s.id ∨
          CycleLeast (snapshots.map ItemNodeSnapshot.toTreeNode) r s.id → p = r) ∧
      (¬ (Detached (snapshots.map ItemNodeSnapshot.toTreeNode) r s.id ∨
          CycleLeast (snapshots.map ItemNodeSnapshot.toTreeNode) r s.id) → p = s.move.parentId) := by
  have hroot : rootId = some r := by
    obtain ⟨hmem, -⟩ := Option.filter_eq_some_iff.mp h
    exact hmem
  have hspec := snapshotTree_spec r hnd
  have hget : (snapshotTree snapshots r).parents.get s.id =
      some (if s.id ∈ (snapshotTree snapshots r).recovered then r else s.move.parentId) :=
    hspec.parent s.toTreeNode (List.mem_map_of_mem hs) hr
  refine ⟨if s.id ∈ (snapshotTree snapshots r).recovered then r else s.move.parentId, ?_,
    fun hrec => if_pos ((hspec.recovered s.id).mpr hrec),
    fun hrec => if_neg fun hin => hrec ((hspec.recovered s.id).mp hin)⟩
  rw [rowOf, projectionTree, h, Option.map_some, projectRow]
  change (if (some s.id = rootId || isRootParent
    (((snapshotTree snapshots r).parents.get s.id).getD s.move.parentId)) = true
    then none else some (((snapshotTree snapshots r).parents.get s.id).getD s.move.parentId)) = _
  rw [hget, hroot, Option.getD_some]
  simp [isRootParent, hr]

def Stays (snapshots : List ItemNodeSnapshot) (rootId : Option JsString) (s : ItemNodeSnapshot) : Prop :=
  ∀ p ∈ (rowOf snapshots rootId s).parentId, p ∈ snapshots.map ItemNodeSnapshot.id

theorem batchClosed_iff (hnd : (snapshots.map ItemNodeSnapshot.id).Nodup) :
    BatchClosed (projectable (snapshots.map (rowOf snapshots rootId))) ↔
    ∀ s ∈ snapshots, Stays snapshots rootId s →
      ∀ p ∈ (rowOf snapshots rootId s).parentId, ∃ q ∈ snapshots, q.id = p ∧ Stays snapshots rootId q ∧
      q.id ≠ s.id := by
  have hids : (snapshots.map (rowOf snapshots rootId)).map ProjectedItem.id =
      snapshots.map ItemNodeSnapshot.id := by
    rw [List.map_map]
    rfl
  have hmem : ∀ {row}, row ∈ projectable (snapshots.map (rowOf snapshots rootId)) ↔
      ∃ s ∈ snapshots, Stays snapshots rootId s ∧ rowOf snapshots rootId s = row := by
    intro row
    rw [mem_projectable (by rwa [hids]), hids]
    constructor
    · rintro ⟨hrow, hkept⟩
      obtain ⟨s, hs, rfl⟩ := List.mem_map.mp hrow
      exact ⟨s, hs, hkept, rfl⟩
    · rintro ⟨s, hs, hkept, rfl⟩
      exact ⟨List.mem_map_of_mem hs, hkept⟩
  constructor
  · intro h s hs hkept p hp
    obtain ⟨row, hrow, hne, hid⟩ := h _ (hmem.mpr ⟨s, hs, hkept, rfl⟩) p hp
    obtain ⟨q, hq, hkeptq, rfl⟩ := hmem.mp hrow
    refine ⟨q, hq, hid, hkeptq, fun heq => hne ?_⟩
    rw [List.inj_on_of_nodup_map hnd hq hs heq]
  · intro h row hrow p hp
    obtain ⟨s, hs, hkept, rfl⟩ := hmem.mp hrow
    obtain ⟨q, hq, hid, hkeptq, hne⟩ := h s hs hkept p hp
    refine ⟨_, hmem.mpr ⟨q, hq, hkeptq, rfl⟩, fun heq => hne ?_, hid⟩
    exact congrArg ProjectedItem.id heq

theorem canonical_some {r : JsString} (h : rootId.filter (· ≠ []) = some r) : rootId = some r :=
  (Option.filter_eq_some_iff.mp h).1

theorem rowOf_root (h : some s.id = rootId) : (rowOf snapshots rootId s).parentId = none := by
  simp [rowOf, projectRow, h]

theorem placed_listed (hnd : (snapshots.map ItemNodeSnapshot.id).Nodup) {r : JsString} (hs : s ∈ snapshots)
    (hr : s.id ≠ r)
    (hrec : ¬ (Detached (snapshots.map ItemNodeSnapshot.toTreeNode) r s.id ∨
      CycleLeast (snapshots.map ItemNodeSnapshot.toTreeNode) r s.id)) :
    s.move.parentId ≠ ROOT_PARENT_SENTINEL ∧ s.move.parentId ∈ snapshots.map ItemNodeSnapshot.id ∧
    s.move.parentId ≠ s.id := by
  obtain ⟨hdetached, hleast⟩ := not_or.mp hrec
  have hnode : s.toTreeNode ∈ snapshots.map ItemNodeSnapshot.toTreeNode := List.mem_map_of_mem hs
  have hids : ids (snapshots.map ItemNodeSnapshot.toTreeNode) = snapshots.map ItemNodeSnapshot.id := by
    rw [ids, List.map_map]
    rfl
  refine ⟨?_, ?_, ?_⟩
  · exact fun hsent => hdetached ⟨hr, s.toTreeNode, hnode, rfl, Or.inl hsent⟩
  · by_contra hmissing
    exact hdetached ⟨hr, s.toTreeNode, hnode, rfl, Or.inr (by rwa [hids])⟩
  · intro hself
    have hedge : RawEdge (snapshots.map ItemNodeSnapshot.toTreeNode) r s.id s.id :=
      ⟨hr, hdetached, s.toTreeNode, hnode, rfl, hself⟩
    have hstay : ∀ {y}, TransGen (RawEdge (snapshots.map ItemNodeSnapshot.toTreeNode) r) s.id y →
        y = s.id := by
      intro y hy
      induction hy with
      | single hy => exact rawEdge_unique (treeNodes_nodup hnd) hy hedge
      | tail _ hy ih =>
        rw [ih] at hy
        exact rawEdge_unique (treeNodes_nodup hnd) hy hedge
    exact hleast ⟨.single hedge, fun y hy => (hstay hy).ge⟩

theorem stranded_iff (hnd : (snapshots.map ItemNodeSnapshot.id).Nodup) (hs : s ∈ snapshots) :
    Stranded snapshots rootId s ↔ ¬ Stays snapshots rootId s := by
  unfold Stays Stranded
  cases hroot : rootId.filter (· ≠ []) with
  | none =>
    dsimp only
    rw [rowOf_legacy hroot]
    by_cases hnull : some s.id = rootId ∨ s.move.parentId = ROOT_PARENT_SENTINEL
    · rw [if_pos hnull]
      exact iff_of_false (fun h => hnull.elim h.1 h.2.1) (by simp)
    · rw [if_neg hnull]
      simp [not_or.mp hnull]
  | some r =>
    dsimp only
    by_cases hr : s.id = r
    · rw [rowOf_root (by rw [canonical_some hroot, hr])]
      exact iff_of_false (fun h => h.2.1 (hr ▸ List.mem_map_of_mem hs)) (by simp)
    obtain ⟨p, hrow, hrecovered, hplaced⟩ := rowOf_effective hnd hroot hs hr
    rw [hrow]
    by_cases hrec : Detached (snapshots.map ItemNodeSnapshot.toTreeNode) r s.id ∨
        CycleLeast (snapshots.map ItemNodeSnapshot.toTreeNode) r s.id
    · obtain rfl := hrecovered hrec
      by_cases hsent : p = ROOT_PARENT_SENTINEL
      · rw [if_pos hsent]
        exact iff_of_false (fun h => h.1 hsent) (by simp)
      · rw [if_neg hsent]
        simp only [Option.mem_def, Option.some.injEq, forall_eq']
        exact ⟨fun h => h.2.1, fun h => ⟨hsent, h, hrec⟩⟩
    · obtain rfl := hplaced hrec
      obtain ⟨hsent, hlisted, -⟩ := placed_listed hnd hs hr hrec
      rw [if_neg hsent]
      refine iff_of_false (fun h => hrec h.2.2) ?_
      simpa using hlisted

theorem hangs_of_closed (hnd : (snapshots.map ItemNodeSnapshot.id).Nodup)
    (h : BatchClosed (projectable (snapshots.map (rowOf snapshots rootId)))) :
    NothingHangs snapshots rootId := by
  rw [batchClosed_iff hnd] at h
  intro s hs hne hsent hstays
  have hkept : Stays snapshots rootId s := not_not.mp fun hno => hstays ((stranded_iff hnd hs).mpr hno)
  have hunder : (rowOf snapshots rootId s).parentId = some s.move.parentId →
      (∀ p ∈ snapshots, p.id = s.move.parentId → ¬ Stranded snapshots rootId p) ∧ s.move.parentId ≠ s.id := by
    intro hrow
    obtain ⟨q, hq, hid, hkeptq, hself⟩ := h s hs hkept _ hrow
    refine ⟨fun p hp hpid => ?_, hid ▸ hself⟩
    rw [List.inj_on_of_nodup_map hnd hp hq (hpid.trans hid.symm), stranded_iff hnd hq]
    exact not_not.mpr hkeptq
  cases hroot : rootId.filter (· ≠ []) with
  | none =>
    obtain ⟨hparent, hself⟩ := hunder (by rw [rowOf_legacy hroot, if_neg (not_or.mpr ⟨hne, hsent⟩)])
    exact ⟨hparent, fun _ => hself⟩
  | some r =>
    refine ⟨?_, fun hnone => by cases hnone⟩
    have hr : s.id ≠ r := fun heq => hne (by rw [canonical_some hroot, heq])
    obtain ⟨p, hrow, -, hplaced⟩ := rowOf_effective hnd hroot hs hr
    by_cases hrec : Detached (snapshots.map ItemNodeSnapshot.toTreeNode) r s.id ∨
        CycleLeast (snapshots.map ItemNodeSnapshot.toTreeNode) r s.id
    -- what is recovered stays only if the root is listed, and then everything stays
    · intro q hq _ hstranded
      unfold Stranded at hstranded hstays
      rw [hroot] at hstranded hstays
      exact hstays ⟨hstranded.1, hstranded.2.1, hrec⟩
    · rw [hplaced hrec, if_neg hsent] at hrow
      exact (hunder hrow).1

theorem closed_of_hangs (hnd : (snapshots.map ItemNodeSnapshot.id).Nodup)
    (h : NothingHangs snapshots rootId) :
    BatchClosed (projectable (snapshots.map (rowOf snapshots rootId))) := by
  rw [batchClosed_iff hnd]
  intro s hs hkept p hp
  have hstays : ¬ Stranded snapshots rootId s := fun hno => (stranded_iff hnd hs).mp hno hkept
  have hne : some s.id ≠ rootId := by
    intro heq
    rw [rowOf_root heq] at hp
    cases hp
  obtain ⟨q, hq, hid⟩ := List.mem_map.mp (hkept p hp)
  have hunder : p = s.move.parentId → p ≠ ROOT_PARENT_SENTINEL → Stays snapshots rootId q := by
    rintro rfl hsent
    exact not_not.mp fun hno => (h s hs hne hsent hstays).1 q hq hid ((stranded_iff hnd hq).mpr hno)
  cases hroot : rootId.filter (· ≠ []) with
  | none =>
    rw [rowOf_legacy hroot] at hp
    split at hp
    · cases hp
    · rename_i hnot
      have hsent := (not_or.mp hnot).2
      obtain rfl := Option.some.inj hp
      refine ⟨q, hq, hid, hunder rfl hsent, ?_⟩
      rw [hid]
      exact (h s hs hne hsent hstays).2 hroot
  | some r =>
    have hr : s.id ≠ r := fun heq => hne (by rw [canonical_some hroot, heq])
    obtain ⟨p', hrow, hrecovered, hplaced⟩ := rowOf_effective hnd hroot hs hr
    rw [hrow] at hp
    split at hp
    · cases hp
    · obtain rfl := Option.some.inj hp
      by_cases hrec : Detached (snapshots.map ItemNodeSnapshot.toTreeNode) r s.id ∨
          CycleLeast (snapshots.map ItemNodeSnapshot.toTreeNode) r s.id
      · obtain rfl := hrecovered hrec
        refine ⟨q, hq, hid, ?_, by rw [hid]; exact Ne.symm hr⟩
        unfold Stays
        rw [rowOf_root (by rw [canonical_some hroot, hid])]
        simp
      · obtain rfl := hplaced hrec
        obtain ⟨hsent, -, hself⟩ := placed_listed hnd hs hr hrec
        exact ⟨q, hq, hid, hunder rfl hsent, by rwa [hid]⟩

end Rows

/-- The batch of a projection without repairs holds the parent of each of its rows if and only if nothing that
stays hangs under an item whose own place leads out of the document. -/
theorem projected_batch_closed_iff {lib : FractionalIndexing} {snapshots : List ItemNodeSnapshot}
    {rootId : Option JsString} {now : ℤ} {replicaId : JsString} {rows : List ProjectedItem}
    (hnd : (snapshots.map ItemNodeSnapshot.id).Nodup)
    (h : projectSnapshots lib snapshots now replicaId rootId = .ok ⟨rows, []⟩) :
    BatchClosed (projectable rows) ↔ NothingHangs snapshots rootId := by
  rw [show rows = snapshots.map (rowOf snapshots rootId) from projectSnapshots_rowOf h]
  exact ⟨hangs_of_closed hnd, closed_of_hangs hnd⟩

section Example

def snapshotUnder (id parentId : JsString) : ItemNodeSnapshot :=
  ⟨id, ⟨parentId, js ['a', '0'], ⟨1, 0, js ['r']⟩⟩, ⟨false, ⟨0, 0, []⟩⟩, .bullet, [], false, false, none⟩

def orphanChain : List ItemNodeSnapshot :=
  [snapshotUnder (js ['o']) ROOT_PARENT_SENTINEL, snapshotUnder (js ['x']) (js ['g']),
    snapshotUnder (js ['y']) (js ['x'])]

theorem orphanChain_projects : ∃ rows, projectSnapshots sampleKeys orphanChain 0 [] none = .ok ⟨rows, []⟩ ∧
    (projectable rows).map (fun row => (row.id, row.parentId)) =
    [(js ['o'], none), (js ['y'], some (js ['x']))] ∧
    upsertProjectedItemsBatch ⟨some, id, fun _ => rfl⟩ (fun _ => false) 0 .empty (projectable rows) = none :=
  ⟨_, rfl, by decide, by decide⟩

theorem orphanChain_batch_open : (orphanChain.map ItemNodeSnapshot.id).Nodup ∧
    ∃ rows, projectSnapshots sampleKeys orphanChain 0 [] none = .ok ⟨rows, []⟩ ∧
    ¬ BatchClosed (projectable rows) ∧
      upsertProjectedItemsBatch ⟨some, id, fun _ => rfl⟩ (fun _ => false) 0 .empty (projectable rows) =
      none := by
  obtain ⟨rows, hrows, hbatch, hfails⟩ := orphanChain_projects
  refine ⟨by decide, rows, hrows, fun hclosed => ?_, hfails⟩
  have hin : (js ['y'], some (js ['x'])) ∈ (projectable rows).map fun row => (row.id, row.parentId) := by
    rw [hbatch]
    decide
  obtain ⟨row, hrow, heq⟩ := List.mem_map.mp hin
  obtain ⟨parent, hparent, -, hid⟩ := hclosed row hrow (js ['x']) (Prod.mk.inj heq).2
  have hnot : js ['x'] ∉ ((projectable rows).map fun row => (row.id, row.parentId)).map Prod.fst := by
    rw [hbatch]
    decide
  apply hnot
  rw [List.map_map]
  exact List.mem_map.mpr ⟨parent, hparent, hid⟩

theorem projected_batch_closed_iff_orphan :
    ∃ rows, projectSnapshots sampleKeys (orphanChain.take 2) 0 [] none = .ok ⟨rows, []⟩ ∧
    (projectable rows).length = 1 ∧ NothingHangs (orphanChain.take 2) none := by
  have hrun : ∃ rows, projectSnapshots sampleKeys (orphanChain.take 2) 0 [] none = .ok ⟨rows, []⟩ ∧
      (projectable rows).length = 1 ∧ ∀ row ∈ projectable rows, row.parentId = none :=
    ⟨_, rfl, by decide, by decide⟩
  obtain ⟨rows, hrows, hlength, hnull⟩ := hrun
  refine ⟨rows, hrows, hlength, (projected_batch_closed_iff (by decide) hrows).mp fun row hrow p hp => ?_⟩
  rw [hnull row hrow] at hp
  cases hp

end Example

end OpenOutliner
