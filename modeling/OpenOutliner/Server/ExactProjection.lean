import OpenOutliner.Server.ServerInvariants

namespace OpenOutliner

open Foundations

namespace Server

variable {T S P Uuid : Type} [DecidableEq T] [SemilatticeSup S] [OrderBot S] [DecidableEq P]
  [DecidableEq Uuid] {docs : YjsDocs S P} {lib : FractionalIndexing} {uuids : UuidText Uuid}
  {replicaId : JsString} {threshold batchSize : ℕ} {σ τ : Server T S P Uuid} {a : ServerAction T S P Uuid}

theorem step_unprojected (hstep : σ.step docs lib uuids replicaId threshold batchSize a = some τ)
    (ha : ∀ p now foreign, a ≠ .project p now foreign) :
    τ.projectedRev = σ.projectedRev ∧ ((∀ t, a ≠ .gcDelete t) → τ.items = σ.items) := by
  obtain hquiet | ⟨t, rfl⟩ | ⟨p, now, foreign, rfl⟩ := step_cases hstep
  · exact ⟨hquiet.projectedRev, fun _ => hquiet.items⟩
  · obtain ⟨ids, room, rev, -, rfl⟩ := gcDelete_cases hstep
    exact ⟨rfl, fun hdel => absurd rfl (hdel t)⟩
  · exact absurd rfl (ha p now foreign)

omit [DecidableEq P] in
theorem project_applies (h : σ.Inv docs uuids) {p : T} {now : ℤ} {foreign : Uuid → Bool}
    (hstep : σ.projectStep docs lib uuids replicaId p now foreign = some τ) :
    τ.projectedRev = σ.projectedRev ∧ τ.items = σ.items ∨
      σ.projectedRev < τ.projectedRev ∧ (∃ s, σ.passes p = some (s, τ.projectedRev)) ∧ ∃ after,
        Upserted uuids now σ.items (projectable (σ.docUpTo docs τ.projectedRev).projectedRows) after ∧
        τ.items = markMissing uuids now
          ((σ.docUpTo docs τ.projectedRev).projectedRows.map ProjectedItem.id) after := by
  obtain ⟨s, r, items, projectedRev, hpass, -, htx, rfl⟩ := project_cases hstep
  obtain ⟨-, rfl⟩ := h.passes p s r hpass
  by_cases hguard : σ.log.rev ≤ σ.projectedRev ∨ r ≤ σ.projectedRev
  · obtain ⟨hitems, hrev⟩ := projectTx_refused htx hguard
    exact Or.inl ⟨hrev, hitems⟩
  · obtain ⟨rfl, hafter⟩ := projectTx_applied htx hguard
    rw [not_or, not_le, not_le] at hguard
    exact Or.inr ⟨hguard.2, ⟨_, hpass⟩, hafter⟩

end Server

/-- In every interleaving `projected_rev` grows up to `source_rev`; a committed pass leaves exactly the live
items of its revision, if and only if each has a row of its own. -/
theorem projectDocument_exact_iff {T S P Uuid : Type} [DecidableEq T] [SemilatticeSup S] [OrderBot S]
    [DecidableEq P] [DecidableEq Uuid] {docs : YjsDocs S P} {lib : FractionalIndexing} {uuids : UuidText Uuid}
    {replicaId : JsString} {threshold batchSize : ℕ} {seed : Option ℕ} {items : Items Uuid}
    {σ : Server T S P Uuid} (h : Runs (Server.step docs lib uuids replicaId threshold batchSize)
      (fun _ _ => True) (Server.initial seed items) σ) :
    σ.projectedRev ≤ σ.log.rev ∧
      ∀ a τ, σ.step docs lib uuids replicaId threshold batchSize a = some τ →
        σ.projectedRev ≤ τ.projectedRev ∧
        ((∀ p now foreign, a ≠ .project p now foreign) →
          τ.projectedRev = σ.projectedRev ∧ ((∀ t, a ≠ .gcDelete t) → τ.items = σ.items)) ∧
        ∀ p now foreign, a = .project p now foreign →
          τ.projectedRev = σ.projectedRev ∧ τ.items = σ.items ∨
          σ.projectedRev < τ.projectedRev ∧ ∀ root, (σ.docUpTo docs τ.projectedRev).Rooted root →
            (Exact uuids τ.items ((σ.docUpTo docs τ.projectedRev).liveItems root) ↔
              OwnRows uuids (σ.docUpTo docs τ.projectedRev) root σ.items) := by
  have hinv := Server.runs_inv h
  refine ⟨hinv.projected, ?_⟩
  intro a τ hstep
  by_cases ha : ∀ p now foreign, a ≠ .project p now foreign
  · have hsame := Server.step_unprojected hstep ha
    refine ⟨hsame.1.ge, fun _ => hsame, ?_⟩
    intro p now foreign he
    exact absurd he (ha p now foreign)
  · simp only [not_forall, not_not] at ha
    obtain ⟨p, now, foreign, rfl⟩ := ha
    have hcases := Server.project_applies hinv hstep
    refine ⟨?_, fun hne => absurd rfl (hne p now foreign), ?_⟩
    · cases hcases with
      | inl hsame => exact hsame.1.ge
      | inr happ => exact happ.1.le
    · intro _ _ _ _
      cases hcases with
      | inl hsame => exact Or.inl hsame
      | inr happ =>
        obtain ⟨hlt, -, after, hafter, hitems⟩ := happ
        refine Or.inr ⟨hlt, fun root hroot => ?_⟩
        rw [hitems]
        exact applied_exact_iff hroot hafter

section Examples

instance hexDigits_neZero : @NeZero ℕ Zero.ofOfNat0 16 := ⟨Nat.succ_ne_zero _⟩

def hexDigits : UuidText (Fin 16) where
  parse
    | [c] =>
      if 0x30 ≤ c.val ∧ c.val < 0x3A then some (Fin.ofNat 16 (c.val - 0x30))
      else if 0x61 ≤ c.val ∧ c.val < 0x67 then some (Fin.ofNat 16 (c.val - 0x61 + 10))
      else if 0x41 ≤ c.val ∧ c.val < 0x47 then some (Fin.ofNat 16 (c.val - 0x41 + 10))
      else none
    | _ => none
  text u := [Fin.ofNat 65536 (if u.val < 10 then u.val + 0x30 else u.val - 10 + 0x61)]
  parse_text := by decide

def growingDocs (root : JsString) : YjsDocs (Finset ℕ) (Option (Finset ℕ)) :=
  { setCodec with
    doc := fun s => placedDoc root
      ((if 1 ∈ s then [(root, ROOT_PARENT_SENTINEL)] else []) ++ if 2 ∈ s then [(js ['b'], root)] else [])
    removal := fun _ _ => ∅ }

def appendUpdate (t id : ℕ) (update : Finset ℕ) :
    List (ServerAction ℕ (Finset ℕ) (Option (Finset ℕ)) (Fin 16)) :=
  [.log (.insertUpdate t id (some update)), .log (.advanceRev t), .log (.commit t)]

def latePass : List (ServerAction ℕ (Finset ℕ) (Option (Finset ℕ)) (Fin 16)) :=
  appendUpdate 1 1 {1} ++ [.load 7] ++ appendUpdate 2 2 {2}

theorem projectDocument_exact_latePass :
    ∃ σ τ, execute (Server.step (growingDocs (js ['a'])) sampleKeys hexDigits [] 0 10)
        (Server.initial none .empty) latePass = some σ ∧
      σ.step (growingDocs (js ['a'])) sampleKeys hexDigits [] 0 10 (.project 7 0 fun _ => false) = some τ ∧
      τ.projectedRev = 1 ∧
      Exact hexDigits τ.items ((σ.docUpTo (growingDocs (js ['a'])) 1).liveItems (js ['a'])) := by
  have hrun : ∃ σ τ, execute (Server.step (growingDocs (js ['a'])) sampleKeys hexDigits [] 0 10)
        (Server.initial none .empty) latePass = some σ ∧
      σ.step (growingDocs (js ['a'])) sampleKeys hexDigits [] 0 10 (.project 7 0 fun _ => false) = some τ ∧
      σ.projectedRev = 0 ∧ τ.projectedRev = 1 ∧
      σ.docUpTo (growingDocs (js ['a'])) 1 = placedDoc (js ['a']) [(js ['a'], ROOT_PARENT_SENTINEL)] :=
    ⟨_, _, rfl, rfl, rfl, rfl, rfl⟩
  obtain ⟨σ, τ, hσ, hτ, hbefore, hafter, hdoc⟩ := hrun
  obtain ⟨-, hstep⟩ := projectDocument_exact_iff (execute_runs hσ)
  obtain ⟨hsame, -⟩ | ⟨-, hexact⟩ := (hstep _ τ hτ).2.2 7 0 _ rfl
  · omega
  · rw [hafter, hdoc] at hexact
    refine ⟨σ, τ, hσ, hτ, hafter, ?_⟩
    rw [hdoc]
    have hrooted : (placedDoc (js ['a']) [(js ['a'], ROOT_PARENT_SENTINEL)]).Rooted (js ['a']) :=
      ⟨rfl, rfl, by decide, by decide, by decide⟩
    have hcanon :
        Canonical hexDigits (placedDoc (js ['a']) [(js ['a'], ROOT_PARENT_SENTINEL)]).projectedRows := by
      unfold Canonical
      decide
    exact (hexact (js ['a']) hrooted).mpr (hrooted.ownRows hcanon)

/-- The root's id is a UUID in upper case: its row is written and marked deleted in one pass. -/
theorem projectDocument_deletes_live_root :
    ∃ σ τ, execute (Server.step (growingDocs (js ['A'])) sampleKeys hexDigits [] 0 10)
        (Server.initial none .empty) (appendUpdate 1 1 {1} ++ [.load 7]) = some σ ∧
      σ.step (growingDocs (js ['A'])) sampleKeys hexDigits [] 0 10 (.project 7 0 fun _ => false) = some τ ∧
      τ.projectedRev = 1 ∧ (∀ r, 1 ≤ r → (σ.docUpTo (growingDocs (js ['A'])) r).Rooted (js ['A'])) ∧
      ¬ Exact hexDigits τ.items ((σ.docUpTo (growingDocs (js ['A'])) 1).liveItems (js ['A'])) := by
  have hrun : ∃ σ τ, execute (Server.step (growingDocs (js ['A'])) sampleKeys hexDigits [] 0 10)
        (Server.initial none .empty) (appendUpdate 1 1 {1} ++ [.load 7]) = some σ ∧
      σ.step (growingDocs (js ['A'])) sampleKeys hexDigits [] 0 10 (.project 7 0 fun _ => false) = some τ ∧
      τ.projectedRev = 1 ∧ σ.log.committed = {(1, some {1})} ∧
      (∀ e ∈ τ.items.entries, e.2.deletedAt ≠ none) ∧
      σ.docUpTo (growingDocs (js ['A'])) 1 = placedDoc (js ['A']) [(js ['A'], ROOT_PARENT_SENTINEL)] :=
    ⟨_, _, rfl, rfl, rfl, rfl, by decide, rfl⟩
  obtain ⟨σ, τ, hσ, hτ, hrev, hcommitted, hdeleted, hdoc⟩ := hrun
  refine ⟨σ, τ, hσ, hτ, hrev, ?_, ?_⟩
  · intro r hr
    have hall : σ.docUpTo (growingDocs (js ['A'])) r = σ.docUpTo (growingDocs (js ['A'])) 1 := by
      simp only [Server.docUpTo, Log.mergeUpTo, hcommitted]
      rw [Finset.filter_true_of_mem (by simpa using hr), Finset.filter_true_of_mem (by simp)]
    rw [hall, hdoc]
    exact ⟨rfl, rfl, by decide, by decide, by decide⟩
  · rw [hdoc]
    intro hexact
    have hlive : ∃ item, item ∈ (placedDoc (js ['A']) [(js ['A'], ROOT_PARENT_SENTINEL)]).liveItems
        (js ['A']) :=
      ⟨_, List.mem_of_mem_head? rfl⟩
    obtain ⟨item, hitem⟩ := hlive
    obtain ⟨u, row, hget, -, parentId, version, -, hrow⟩ := hexact.item_row item hitem
    have hrow' := hdeleted (u, row) ((OrderedMap.mem_entries_iff _ _ _).mpr hget)
    rw [hrow] at hrow'
    exact hrow' rfl

end Examples

end OpenOutliner
