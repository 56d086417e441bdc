import OpenOutliner.Server.ExportRoundTrip

namespace OpenOutliner

open Foundations

variable {T S P Uuid : Type} [DecidableEq T] [SemilatticeSup S] [OrderBot S] [DecidableEq P]
  [DecidableEq Uuid]

/-- The snapshot has the item of the row `u`, and no deleted item that the database takes for it. -/
def Doc.Spares (uuids : UuidText Uuid) (doc : Doc) (u : Uuid) : Prop :=
  uuids.text u ∈ doc.projectedRows.map ProjectedItem.id ∧
    ∀ item ∈ projectable doc.projectedRows, uuids.parse item.id = some u → item.deleted = false

/-- Every pass that applies its snapshot finds the imported items in it; no garbage collection. -/
def SparesImported (docs : YjsDocs S P) (uuids : UuidText Uuid) (imported : Items Uuid)
    (σ : Server T S P Uuid) :
    ServerAction T S P Uuid → Prop
  | .project p _ _ => ∀ s revision, σ.passes p = some (s, revision) →
      σ.projectedRev < σ.log.rev → σ.projectedRev < revision →
      ∀ u ∈ imported.keys, (docs.doc s).Spares uuids u
  | .gcDelete _ => False
  | _ => True

def LiveAt (items : Items Uuid) (u : Uuid) : Prop := ∃ row, items.get u = some row ∧ row.deletedAt = none

def AllLive (imported items : Items Uuid) : Prop := ∀ u ∈ imported.keys, LiveAt items u

section Import

variable {lib : FractionalIndexing} {documentId : Uuid} {minted : List Uuid} {data : ExportedDocument}
  {items : Items Uuid}

theorem set_allLive {id : Uuid} {row : ItemRow Uuid} (h : AllLive items items) (hrow : row.deletedAt = none) :
    AllLive (items.set id row) (items.set id row) := by
  intro u hu
  by_cases he : u = id
  · subst he
    exact ⟨row, OrderedMap.get_set_self _ _ _, hrow⟩
  · rw [OrderedMap.mem_keys_iff, OrderedMap.get_set_of_ne _ _ he] at hu
    obtain ⟨old, hget, hlive⟩ := h u ((OrderedMap.mem_keys_iff _ _).mpr hu)
    exact ⟨old, by rw [OrderedMap.get_set_of_ne _ _ he, hget], hlive⟩

theorem insertRow_allLive {items' : Items Uuid} {id : Uuid} {row : ItemRow Uuid} (h : AllLive items items)
    (hrow : row.deletedAt = none) (hinsert : insertRow items id row = some items') :
    AllLive items' items' := by
  unfold insertRow at hinsert
  split at hinsert
  · cases hinsert
    exact h
  · split at hinsert
    · split at hinsert
      · cases hinsert
      · cases hinsert
        exact set_allLive h hrow
    · split at hinsert
      · cases hinsert
        exact set_allLive h hrow
      · cases hinsert

theorem importDocument_allLive (h : importDocument lib documentId minted data = some items) :
    AllLive items items := by
  unfold importDocument at h
  split at h
  · cases h
  · rename_i freshRank hrank
    obtain ⟨inserted, hfold, rfl⟩ := Option.map_eq_some_iff.mp h
    have hstart : AllLive (createdItems documentId freshRank) (createdItems documentId freshRank) :=
      set_allLive (by simp [AllLive, OrderedMap.mem_keys_iff]) rfl
    have hloop : ∀ (todo : List ExportedItem) (start final : Items Uuid), AllLive start start →
        todo.foldlM (importItem (idMap documentId minted data) freshRank) start = some final →
        AllLive final final := by
      intro todo
      induction todo with
      | nil =>
        intro start final hs hf
        cases hf
        exact hs
      | cons item todo ih =>
        intro start final hs hf
        obtain ⟨mid, hmid, hf⟩ := Option.bind_eq_some_iff.mp hf
        obtain ⟨newId, -, hinsert⟩ := Option.bind_eq_some_iff.mp hmid
        exact ih mid final (insertRow_allLive hs rfl hinsert) hf
    have hall := hloop _ _ _ hstart hfold
    split
    · split
      · rename_i row hget
        obtain ⟨row', hget', hlive⟩ := hall _ ((OrderedMap.mem_keys_iff _ _).mpr ⟨row, hget⟩)
        obtain rfl := Option.some.inj (hget.symm.trans hget')
        exact set_allLive hall hlive
      · exact hall
    · exact hall

end Import

section Pass

variable {uuids : UuidText Uuid} {doc : Doc} {now : ℤ} {items after : Items Uuid} {u : Uuid}

theorem applied_live_iff (h : Upserted uuids now items (projectable doc.projectedRows) after)
    (hlive : LiveAt items u) :
    LiveAt (markMissing uuids now (doc.projectedRows.map ProjectedItem.id) after) u ↔ doc.Spares uuids u := by
  obtain ⟨old, hold, holdlive⟩ := hlive
  -- the row between the upsert and the sweep
  have hafter : ∃ row, after.get u = some row ∧ (row.deletedAt = none ↔
      ∀ item ∈ projectable doc.projectedRows, uuids.parse item.id = some u → item.deleted = false) := by
    by_cases hitem : ∃ item ∈ projectable doc.projectedRows, uuids.parse item.id = some u
    · obtain ⟨winner, hwinner, ⟨hu, parent, -, hget⟩, hothers⟩ := h.row u hitem
      refine ⟨_, hget, ?_⟩
      rw [upsertRow_live]
      constructor
      · intro hlive item hitem hu'
        obtain rfl | ⟨-, parent', -, hsame⟩ := hothers item hitem hu'
        · exact hlive
        · -- the row was live and stayed as it was
          obtain rfl := Option.some.inj (hold.symm.trans hsame)
          exact upsertRow_live.mp holdlive
      · exact fun hall => hall winner hwinner hu
    · refine ⟨old, ?_, iff_of_true holdlive fun item hi hu => absurd ⟨item, hi, hu⟩ hitem⟩
      rw [h.kept u fun item hi hu => hitem ⟨item, hi, hu⟩, hold]
  obtain ⟨row, hget, hrow⟩ := hafter
  unfold LiveAt Doc.Spares
  rw [markMissing_get, hget, Option.map_some, ← hrow]
  by_cases hpresent : uuids.text u ∈ doc.projectedRows.map ProjectedItem.id
  · rw [if_pos (Or.inl hpresent)]
    constructor
    · rintro ⟨row', he, hlive⟩
      obtain rfl := Option.some.inj he
      exact ⟨hpresent, hlive⟩
    · exact fun hlive => ⟨row, rfl, hlive.2⟩
  · refine iff_of_false ?_ fun hspares => hpresent hspares.1
    rintro ⟨row', he, hlive⟩
    obtain rfl := Option.some.inj he
    split at hlive
    · rename_i hor
      rw [hlive] at hor
      cases hor.resolve_left hpresent
    · cases hlive

end Pass

section Runs

variable {docs : YjsDocs S P} {lib : FractionalIndexing} {uuids : UuidText Uuid} {replicaId : JsString}
  {threshold batchSize : ℕ} {σ τ : Server T S P Uuid} {a : ServerAction T S P Uuid} {imported : Items Uuid}

theorem project_live_iff {p : T} {now : ℤ} {foreign : Uuid → Bool} {s : S} {revision : ℕ} {u : Uuid}
    (hpass : σ.passes p = some (s, revision)) (hsource : σ.projectedRev < σ.log.rev)
    (hrevision : σ.projectedRev < revision) (hlive : LiveAt σ.items u)
    (hstep : σ.step docs lib uuids replicaId threshold batchSize (.project p now foreign) = some τ) :
    LiveAt τ.items u ↔ (docs.doc s).Spares uuids u := by
  obtain ⟨s', r, items, projectedRev, hpass', -, htx, rfl⟩ := Server.project_cases hstep
  obtain ⟨rfl, rfl⟩ := Prod.mk.inj (Option.some.inj (hpass.symm.trans hpass'))
  obtain ⟨-, after, hafter, rfl⟩ := projectTx_applied htx (by omega)
  exact applied_live_iff hafter hlive

theorem survives_step (h : AllLive imported σ.items) (hok : SparesImported docs uuids imported σ a)
    (hstep : σ.step docs lib uuids replicaId threshold batchSize a = some τ) : AllLive imported τ.items := by
  intro u hu
  by_cases hproject : ∃ p now foreign, a = .project p now foreign
  · obtain ⟨p, now, foreign, rfl⟩ := hproject
    have hcases := hstep
    obtain ⟨s, r, items, projectedRev, hpass, -, htx, rfl⟩ := Server.project_cases hcases
    by_cases hguard : σ.log.rev ≤ σ.projectedRev ∨ r ≤ σ.projectedRev
    · obtain ⟨rfl, -⟩ := projectTx_refused htx hguard
      exact h u hu
    · rw [not_or, not_le, not_le] at hguard
      exact (project_live_iff hpass hguard.1 hguard.2 (h u hu) hstep).mpr
        (hok s r hpass hguard.1 hguard.2 u hu)
  · have hkeep := (Server.step_unprojected hstep fun p now foreign he => hproject ⟨p, now, foreign, he⟩).2
    rw [hkeep fun t he => by rw [he] at hok; exact hok]
    exact h u hu

theorem survives_runs (h : AllLive imported σ.items)
    (hrun : Runs (Server.step docs lib uuids replicaId threshold batchSize)
      (SparesImported docs uuids imported) σ τ) :
    AllLive imported τ.items := by
  induction hrun with
  | refl => exact h
  | step a _ hok hstep ih => exact survives_step ih hok hstep

end Runs

/-- Imported rows stay live as long as each applied snapshot has their items; and a pass that applies a
snapshot leaves a live row live exactly if the snapshot spares it. -/
theorem importDocument_survives {T S P Uuid : Type} [DecidableEq T] [SemilatticeSup S] [OrderBot S]
    [DecidableEq P] [DecidableEq Uuid] (docs : YjsDocs S P) (lib : FractionalIndexing)
    (uuids : UuidText Uuid) (replicaId : JsString) (threshold batchSize : ℕ) (seed : Option ℕ)
    {documentId : Uuid} {minted : List Uuid} {data : ExportedDocument} {items : Items Uuid}
    (himport : importDocument lib documentId minted data = some items) :
    (∀ σ : Server T S P Uuid, Runs (Server.step docs lib uuids replicaId threshold batchSize)
        (SparesImported docs uuids items) (.initial seed items) σ → AllLive items σ.items) ∧
    ∀ (σ τ : Server T S P Uuid) (p : T) (now : ℤ) (foreign : Uuid → Bool) (s : S) (revision : ℕ) (u : Uuid),
      σ.passes p = some (s, revision) → σ.projectedRev < σ.log.rev → σ.projectedRev < revision →
      LiveAt σ.items u →
        σ.step docs lib uuids replicaId threshold batchSize (.project p now foreign) = some τ →
          (LiveAt τ.items u ↔ (docs.doc s).Spares uuids u) := by
  constructor
  · exact fun σ hrun => survives_runs (importDocument_allLive himport) hrun
  · exact fun σ τ p now foreign s revision u => project_live_iff

section Example

def exportChild : ExportedDocument :=
  ⟨1, [], [exampleRoot.exported, (exampleChild '2' (js ['a', '1'])).exported]⟩

def putImported : List (ServerAction ℕ (Finset ℕ) (Option (Finset ℕ)) (Fin 16)) :=
  appendUpdate 1 1 {1} ++ appendUpdate 1 2 {2} ++ [.load 7]

theorem importDocument_survives_child :
    ∃ items σ, importDocument sampleKeys (0 : Fin 16) [11] exportChild = some items ∧ items.keys = [0, 11] ∧
      execute (Server.step (growingDocs (js ['0'])) sampleKeys hexDigits [] 0 10) (.initial (some 0) items)
        (putImported ++ [.project 7 0 fun _ => false]) = some σ ∧
      σ.projectedRev = 2 ∧ AllLive items σ.items := by
  have hrun : ∃ items σ τ, importDocument sampleKeys (0 : Fin 16) [11] exportChild = some items ∧
      execute (Server.step (growingDocs (js ['0'])) sampleKeys hexDigits [] 0 10) (.initial (some 0) items)
        putImported = some σ ∧
      σ.step (growingDocs (js ['0'])) sampleKeys hexDigits [] 0 10 (.project 7 0 fun _ => false) = some τ ∧
      σ.passes 7 = some ({1, 2}, 2) ∧ items.keys = [0, 11] ∧ τ.projectedRev = 2 :=
    ⟨_, _, _, rfl, rfl, rfl, by decide, rfl, rfl⟩
  obtain ⟨items, σ, τ, himport, hσ, hstep, hpass, hkeys, hrev⟩ := hrun
  refine ⟨items, τ, himport, hkeys, execute_trans hσ (execute_cons hstep rfl), hrev, ?_⟩
  have hbefore : Runs _ (SparesImported (growingDocs (js ['0'])) hexDigits items) _ σ :=
    execute_runs_of (by simp [putImported, appendUpdate, SparesImported]) hσ
  refine (importDocument_survives (growingDocs (js ['0'])) sampleKeys hexDigits [] 0 10 (some 0) himport).1 τ
    (hbefore.trans (.single ?_ hstep))
  intro s revision hpass' _ _ u hu
  obtain ⟨rfl, rfl⟩ := Prod.mk.inj (Option.some.inj (hpass.symm.trans hpass'))
  rw [hkeys, List.mem_pair] at hu
  unfold Doc.Spares
  obtain rfl | rfl := hu <;> decide

theorem growingDocs_undeleted (s : Finset ℕ) :
    ∀ item ∈ ((growingDocs (js ['0'])).doc s).projectedRows, item.deleted = false := by
  by_cases h₁ : 1 ∈ s <;> by_cases h₂ : 2 ∈ s <;>
    · simp only [growingDocs, h₁, h₂, if_true, if_false]
      decide

/-- The client makes the root and nothing else, deletes nothing, and the pass deletes the imported children.
-/
theorem importDocument_swept :
    ∃ data items σ, serializeJson [] (twoChildren (js ['a', '1']) (js ['a', '2'])) = some data ∧
      importDocument sampleKeys (0 : Fin 16) [5, 6] data = some items ∧
      execute (Server.step (growingDocs (js ['0'])) sampleKeys hexDigits [] 0 10) (.initial (some 0) items)
        (appendUpdate 1 1 {1} ++ [.load 7, .project 7 0 fun _ => false]) = some σ ∧
      (∀ s, ∀ item ∈ ((growingDocs (js ['0'])).doc s).projectedRows, item.deleted = false) ∧
      LiveAt items 5 ∧ ¬ LiveAt σ.items 5 := by
  have hrun : ∃ data items σ row gone, serializeJson [] (twoChildren (js ['a', '1']) (js ['a', '2'])) =
      some data ∧
      importDocument sampleKeys (0 : Fin 16) [5, 6] data = some items ∧
      execute (Server.step (growingDocs (js ['0'])) sampleKeys hexDigits [] 0 10) (.initial (some 0) items)
        (appendUpdate 1 1 {1} ++ [.load 7, .project 7 0 fun _ => false]) = some σ ∧
      items.get 5 = some row ∧ row.deletedAt = none ∧ σ.items.get 5 = some gone ∧ gone.deletedAt = some 0 :=
    ⟨_, _, _, _, _, rfl, rfl, rfl, rfl, rfl, rfl, rfl⟩
  obtain ⟨data, items, σ, row, gone, hdata, himport, hσ, hrow, hlive, hgone, hdead⟩ := hrun
  refine ⟨data, items, σ, hdata, himport, hσ, growingDocs_undeleted, ⟨row, hrow, hlive⟩, ?_⟩
  rintro ⟨row', hrow', hlive'⟩
  obtain rfl := Option.some.inj (hgone.symm.trans hrow')
  rw [hdead] at hlive'
  cases hlive'

end Example

end OpenOutliner
