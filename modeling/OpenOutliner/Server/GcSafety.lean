import OpenOutliner.Server.ExactProjection

namespace OpenOutliner

open Foundations

namespace Server

variable {T S P Uuid : Type} [DecidableEq T] [SemilatticeSup S] [OrderBot S] [DecidableEq P]
  [DecidableEq Uuid] {docs : YjsDocs S P} {lib : FractionalIndexing} {uuids : UuidText Uuid}
  {replicaId : JsString} {threshold batchSize : ℕ} {σ τ : Server T S P Uuid} {a : ServerAction T S P Uuid}

def currentDoc (docs : YjsDocs S P) (σ : Server T S P Uuid) : Doc :=
  docs.doc (mergeRows docs.toCodec σ.log.rows)

/-- The document of a pass that is applied has the parent of each live item, and its deleted items spare the
live ones; and at a removal no update after the projected revision has revived the item of a row that is
marked as deleted. -/
def Unrevived (docs : YjsDocs S P) (uuids : UuidText Uuid) (σ : Server T S P Uuid) :
    ServerAction T S P Uuid → Prop
  | .project p _ _ => ∀ s r, σ.passes p = some (s, r) → σ.projectedRev < σ.log.rev → σ.projectedRev < r →
      (docs.doc s).ParentClosed ∧ SparesLive uuids (projectable (docs.doc s).projectedRows) σ.items
  | .gcRemove _ _ _ => ∀ u row, σ.items.get u = some row → row.deletedAt ≠ none →
      (σ.currentDoc docs).Live (uuids.text u) → (σ.docUpTo docs σ.projectedRev).Live (uuids.text u)
  | _ => True

structure Tombstones (docs : YjsDocs S P) (uuids : UuidText Uuid) (σ : Server T S P Uuid) : Prop
    extends Inv docs uuids σ where
  dead : ∀ u row, σ.items.get u = some row → row.deletedAt ≠ none →
    ¬ (σ.docUpTo docs σ.projectedRev).Live (uuids.text u)
  eligible : ∀ t ids, σ.gc t = .eligible ids → ∀ u ∈ ids, ∃ row, σ.items.get u = some row ∧
    row.deletedAt ≠ none

theorem quiet_extends (h : σ.Inv docs uuids) (hq : Quiet docs threshold a σ τ) : Log.Extends σ.log τ.log := by
  cases hq.log with
  | inl he => rw [he]; exact Log.Extends.refl _
  | inr hb =>
    obtain ⟨b, hlog⟩ := hb
    exact Log.step_extends h.log hlog

omit [DecidableEq T] in
theorem docUpTo_eq (hext : Log.Extends σ.log τ.log) {r : ℕ} (hr : r ≤ σ.log.rev) :
    τ.docUpTo docs r = σ.docUpTo docs r := by
  rw [docUpTo, docUpTo, hext.mergeUpTo hr]

omit [DecidableEq T] [DecidableEq P] in
theorem eligible_lock (h : σ.Inv docs uuids) {t : T} {ids : List Uuid} (hg : σ.gc t = .eligible ids) :
    σ.log.documentLock = some t := by
  have hgc := h.gc t
  rw [hg] at hgc
  have htx := h.log.tx t
  rwa [show σ.log.txs t = .holding from hgc] at htx

omit [DecidableEq T] [DecidableEq P] in
theorem removed_lock (h : σ.Inv docs uuids) {t : T} {ids : List Uuid} {room : S} {rev : ℕ}
    (hg : σ.gc t = .removed ids room rev) : σ.log.documentLock = some t := by
  have hgc := h.gc t
  rw [hg] at hgc
  have htx := h.log.tx t
  rwa [hgc.1] at htx

theorem tombstones_quiet (h : σ.Tombstones docs uuids) (hi : τ.Inv docs uuids)
    (hq : Quiet docs threshold a σ τ) :
    τ.Tombstones docs uuids := by
  refine ⟨hi, ?_, ?_⟩
  · intro u row hget hdel
    rw [hq.projectedRev, docUpTo_eq (quiet_extends h.toInv hq) h.projected]
    exact h.dead u row (hq.items ▸ hget) hdel
  · intro t ids hg
    rw [hq.items]
    cases hq.eligible t ids hg with
    | inl hold => exact h.eligible t ids hold
    | inr hnew => exact hnew

omit [DecidableEq P] in
theorem tombstones_project (h : σ.Tombstones docs uuids) {p : T} {now : ℤ} {foreign : Uuid → Bool}
    (hok : Unrevived docs uuids σ (.project p now foreign))
    (hstep : σ.projectStep docs lib uuids replicaId p now foreign = some τ) : τ.Tombstones docs uuids := by
  have happ := project_applies h.toInv hstep
  have hinv := inv_project h.toInv hstep
  obtain ⟨s, r, items, projectedRev, -, hfree, -, rfl⟩ := project_cases hstep
  refine ⟨hinv, ?_, ?_⟩
  · intro u row hget hdel
    change ¬ (σ.docUpTo docs projectedRev).Live (uuids.text u)
    obtain ⟨hrev, hitems⟩ | ⟨hlt, ⟨s', hpass'⟩, after, hafter, hitems⟩ := happ
    · obtain rfl : projectedRev = σ.projectedRev := hrev
      exact h.dead u row (hitems ▸ hget) hdel
    · obtain ⟨hr, hs⟩ := h.passes p s' projectedRev hpass'
      obtain ⟨hclosed, hspares⟩ := hok s' projectedRev hpass' (hlt.trans_le hr) hlt
      rw [hs] at hclosed hspares
      dsimp only at hitems hget
      rw [hitems] at hget
      exact applied_deleted hafter hclosed hspares hget hdel
  · intro t ids hg
    rw [eligible_lock h.toInv hg] at hfree
    cases hfree

theorem tombstones_gcDelete (h : σ.Tombstones docs uuids) {t : T}
    (hstep : σ.step docs lib uuids replicaId threshold batchSize (.gcDelete t) = some τ) :
    τ.Tombstones docs uuids := by
  have hinv := inv_step h.toInv hstep
  obtain ⟨ids, room, rev, hg, rfl⟩ := gcDelete_cases hstep
  refine ⟨hinv, ?_, ?_⟩
  · intro u row hget hdel
    refine h.dead u row ?_ hdel
    have hkept : (ids.foldl OrderedMap.delete σ.items).get u = some row := hget
    rw [OrderedMap.get_foldl_delete] at hkept
    split at hkept
    · cases hkept
    · exact hkept
  · intro t' ids' hg'
    have ht : t' ≠ t := by
      rintro rfl
      simp [gcEnd, setGc] at hg'
    simp only [gcEnd, setGc, Function.update_of_ne ht] at hg'
    have hl := eligible_lock h.toInv hg'
    rw [removed_lock h.toInv hg] at hl
    exact absurd (Option.some.inj hl).symm ht

theorem tombstones_step (h : σ.Tombstones docs uuids) (hok : Unrevived docs uuids σ a)
    (hstep : σ.step docs lib uuids replicaId threshold batchSize a = some τ) : τ.Tombstones docs uuids := by
  obtain hquiet | ⟨t, rfl⟩ | ⟨p, now, foreign, rfl⟩ := step_cases hstep
  · exact tombstones_quiet h (inv_step h.toInv hstep) hquiet
  · exact tombstones_gcDelete h hstep
  · exact tombstones_project h hok hstep

omit [DecidableEq T] [DecidableEq P] in
theorem tombstones_initial {seed : Option ℕ} {items : Items Uuid}
    (hitems : ∀ u row, items.get u = some row → row.deletedAt = none) :
    (initial seed items : Server T S P Uuid).Tombstones docs uuids where
  toInv := inv_initial docs uuids seed items
  dead u row hget hdel := absurd (hitems u row hget) hdel
  eligible t ids hg := by cases hg

theorem gcRemove_ids {t w : T} {id : ℕ} {ids : List Uuid} {room : S} {row : ℕ × P}
    (hstep : σ.step docs lib uuids replicaId threshold batchSize (.gcRemove t w id) = some τ)
    (hremove : τ.gc t = .removing ids room w row) : σ.gc t = .eligible ids := by
  simp only [step] at hstep
  split at hstep
  · rename_i hg
    split at hstep
    · cases hstep
      simp [gcEnd, setGc] at hremove
    · obtain ⟨log, -, rfl⟩ := Option.map_eq_some_iff.mp hstep
      simp only [setGc, Function.update_self, GcTx.removing.injEq] at hremove
      rw [hg, hremove.1]
  · cases hstep

end Server

/-- In every run in which no update revives an item between its projection as deleted and its removal,
what a pass removes is deleted in the merge of the log. -/
theorem gcDocument_removes_deleted {T S P Uuid : Type} [DecidableEq T] [SemilatticeSup S] [OrderBot S]
    [DecidableEq P] [DecidableEq Uuid] {docs : YjsDocs S P} {lib : FractionalIndexing} {uuids : UuidText Uuid}
    {replicaId : JsString} {threshold batchSize : ℕ} {seed : Option ℕ} {items : Items Uuid}
    {σ τ : Server T S P Uuid} (hitems : ∀ u row, items.get u = some row → row.deletedAt = none)
    (h : Runs (Server.step docs lib uuids replicaId threshold batchSize) (Server.Unrevived docs uuids)
      (Server.initial seed items) σ) {t w : T} {id : ℕ}
    (hok : Server.Unrevived docs uuids σ (.gcRemove t w id))
    (hstep : σ.step docs lib uuids replicaId threshold batchSize (.gcRemove t w id) = some τ)
    {ids : List Uuid} {room : S} {row : ℕ × P} (hremove : τ.gc t = .removing ids room w row) :
    ∀ u ∈ ids, ¬ (σ.currentDoc docs).Live (uuids.text u) := by
  have hinv : σ.Tombstones docs uuids := h.invariant
    (fun hi hok hstep => Server.tombstones_step hi hok hstep) (Server.tombstones_initial hitems)
  have hg := Server.gcRemove_ids hstep hremove
  intro u hu hlive
  obtain ⟨row, hget, hdel⟩ := hinv.eligible t ids hg u hu
  exact hinv.dead u row hget hdel (hok u row hget hdel hlive)

section Examples

inductive MapEvent
  | made (key : JsString) (n : ℕ)
  | erased (key : JsString) (n : ℕ)
  | deleted (key : JsString) (n : ℕ)
  | restored (key : JsString) (n : ℕ)
deriving DecidableEq

def MapEvent.isUnder (ids : List JsString) : MapEvent → Bool
  | made key _ => decide (key ∈ ids)
  | _ => false

def MapEvent.erase : MapEvent → MapEvent
  | made key n => erased key n
  | event => event

def entryNode (s : Finset MapEvent) (parentId key : JsString) (n : ℕ) : Option (JsString × Node) :=
  if .made key n ∈ s ∧ .erased key n ∉ s then
    some (key, { freshNode with
      move := some ⟨parentId, js ['a', '0'], noHlc⟩
      deleteRecords := some (if .deleted key n ∈ s then {js ['x']} else ∅)
      restoreRecords := some (if .restored key n ∈ s then {js ['x']} else ∅) })
  else none

def mapDocs : YjsDocs (Finset MapEvent) (Option (Finset MapEvent)) where
  decode := id
  encode := some
  decode_encode _ := rfl
  doc s := ⟨some 2, some (js ['a']), .ofList
    ([(ROOT_PARENT_SENTINEL, js ['a']), (js ['a'], js ['b']), (js ['a'], js ['c'])].filterMap
      fun (parentId, key) =>
      (entryNode s parentId key 1).or (entryNode s parentId key 0))⟩
  removal room ids := (room.filter fun event => event.isUnder ids = true).image MapEvent.erase

abbrev MapServer := Server ℕ (Finset MapEvent) (Option (Finset MapEvent)) (Fin 16)

abbrev MapAction := ServerAction ℕ (Finset MapEvent) (Option (Finset MapEvent)) (Fin 16)

abbrev mapStep : MapServer → MapAction → Option MapServer :=
  Server.step mapDocs sampleKeys hexDigits [] 100 10

def itemMade : Finset MapEvent := {.made (js ['a']) 0, .made (js ['b']) 0}

def itemDeleted : Finset MapEvent := {.deleted (js ['b']) 0}

def appendEvents (t id : ℕ) (update : Finset MapEvent) : List MapAction :=
  [.log (.insertUpdate t id (some update)), .log (.advanceRev t), .log (.commit t)]

def deleteLoaded : List MapAction :=
  appendEvents 1 1 itemMade ++ appendEvents 1 2 itemDeleted ++ [.room (itemMade ∪ itemDeleted), .load 7]

def collect : List MapAction := [.gcPrepare 3 10, .gcLock 3, .gcCheck 3]

theorem gcDocument_removes_deleted_collected :
    ∃ σ τ room row, execute mapStep (Server.initial none .empty)
        (deleteLoaded ++ .project 7 5 (fun _ => false) :: collect) = some σ ∧
      mapStep σ (.gcRemove 3 4 3) = some τ ∧ τ.gc 3 = .removing [11] room 4 row ∧
      ¬ (σ.currentDoc mapDocs).Live (js ['b']) := by
  have hload : ∃ σ₁, execute mapStep (Server.initial none .empty) deleteLoaded = some σ₁ ∧
      σ₁.passes 7 = some (itemMade ∪ itemDeleted, 2) ∧
      ∃ σ₂, mapStep σ₁ (.project 7 5 fun _ => false) = some σ₂ ∧
      ∃ σ, execute mapStep σ₂ collect = some σ ∧ execute mapStep (Server.initial none .empty)
        (deleteLoaded ++ .project 7 5 (fun _ => false) :: collect) = some σ ∧
      ∃ τ, mapStep σ (.gcRemove 3 4 3) = some τ ∧ (∃ room row, τ.gc 3 = .removing [11] room 4 row) ∧
        σ.docUpTo mapDocs σ.projectedRev = σ.currentDoc mapDocs :=
    ⟨_, rfl, by decide, _, rfl, _, rfl, rfl, _, rfl, ⟨_, _, rfl⟩, rfl⟩
  obtain ⟨σ₁, h₁, hpass, σ₂, h₂, σ, h₃, hσ, τ, hτ, ⟨room, row, hremove⟩, hdoc⟩ := hload
  have hrun₁ : Runs mapStep (Server.Unrevived mapDocs hexDigits) (Server.initial none .empty) σ₁ := by
    refine execute_runs_of ?_ h₁
    simp [deleteLoaded, appendEvents, Server.Unrevived]
  have hrun₃ : Runs mapStep (Server.Unrevived mapDocs hexDigits) σ₂ σ := by
    refine execute_runs_of ?_ h₃
    simp [collect, Server.Unrevived]
  have hclosed : Server.Unrevived mapDocs hexDigits σ₁ (.project 7 5 fun _ => false) := by
    intro s r hs _ _
    rw [hpass] at hs
    cases hs
    have hrooted : (mapDocs.doc (itemMade ∪ itemDeleted)).Rooted (js ['a']) :=
      ⟨rfl, rfl, by decide, by decide, by decide⟩
    refine ⟨hrooted.parentClosed, distinct_spares ?_⟩
    unfold DistinctUuids
    decide
  have hrun := (Runs.step _ hrun₁ hclosed h₂).trans hrun₃
  refine ⟨σ, τ, room, row, hσ, hτ, hremove, ?_⟩
  refine gcDocument_removes_deleted (fun u row hget => ?_) hrun ?_ hτ hremove 11 (List.mem_singleton.mpr rfl)
  · cases hget
  · intro u row _ _ hlive
    rwa [hdoc]

/-- The restore of `b` is in the log before the pass begins, and not projected. -/
theorem gcDocument_removes_restored :
    ∃ σ τ room row, execute mapStep (Server.initial none .empty) (deleteLoaded ++
        .project 7 5 (fun _ => false) :: appendEvents 1 3 {.restored (js ['b']) 0} ++ collect) = some σ ∧
      mapStep σ (.gcRemove 3 4 4) = some τ ∧ τ.gc 3 = .removing [11] room 4 row ∧
      (σ.currentDoc mapDocs).Live (js ['b']) :=
  ⟨_, _, _, _, rfl, rfl, rfl, by unfold Doc.Live; decide⟩

end Examples

end OpenOutliner
