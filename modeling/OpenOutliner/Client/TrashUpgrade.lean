import OpenOutliner.Client.SessionStart
import OpenOutliner.Crdt.DeletionRecords
import Mathlib.Tactic.FinCases

/-!
Deletions of one item across the step to version 2. A replica holds the updates of transactions; it starts
from a cache of the time before versions, may merge what others hold, and initialises in the state that it
has then.
-/

namespace OpenOutliner

open Foundations

instance : Fintype RecordKey := ⟨{.deleteRecords, .restoreRecords}, by rintro (_ | _) <;> decide⟩

/-- The settings of an item's `deleted` register: which of them is shown, what each sets, and those that its
author held. -/
structure LegacyRegister (ι : Type) where
  winner : Winner ι
  register : ι → DeletedRegister
  seen : ι → Finset ι

/-- The update of a transaction: a setting of the legacy register, or the records that it adds and whether
it sets the version. -/
inductive TrashUpdate (ι Inst : Type)
  | legacy (write : ι)
  | records (version : Bool) (delta : Records Inst)

instance {ι Inst : Type} [DecidableEq ι] [DecidableEq Inst] : DecidableEq (TrashUpdate ι Inst)
  | .legacy w, .legacy w' => decidable_of_iff (w = w') (by simp)
  | .legacy _, .records _ _ => isFalse nofun
  | .records _ _, .legacy _ => isFalse nofun
  | .records v d, .records v' d' => decidable_of_iff (v = v' ∧ d = d') (by simp)

/-- `map` is the identity of the record map if the initialisation has to create it. -/
inductive TrashEvent (ι Inst : Type)
  | load (cache : Option ι)
  | initialise (map : Inst)
  | edit (ev : DeletionEvent Inst)

abbrev TrashState (ι Inst : Type) := Finset (TrashUpdate ι Inst)

section State

variable {ι Inst : Type} [DecidableEq ι] [DecidableEq Inst]

namespace TrashUpdate

def writes : TrashUpdate ι Inst → Finset ι
  | legacy write => {write}
  | records _ _ => ∅

def delta : TrashUpdate ι Inst → Records Inst
  | legacy _ => ⊥
  | records _ delta => delta

def setsVersion : TrashUpdate ι Inst → Bool
  | legacy _ => false
  | records version _ => version

end TrashUpdate

namespace TrashState

variable (W : Winner Inst) (V : LegacyRegister ι) (s : TrashState ι Inst)

def writes : Finset ι := s.biUnion TrashUpdate.writes

def records : Records Inst := s.sup TrashUpdate.delta

def versioned : Bool := decide (∃ u ∈ s, u.setsVersion = true)

def register : Option DeletedRegister := (V.winner.pick s.writes).map V.register

def Active (r : Records Inst) : Prop :=
  ∃ token ∈ W.content (r .deleteRecords), token ∉ W.content (r .restoreRecords)

instance (r : Records Inst) : Decidable (Active W r) :=
  inferInstanceAs (Decidable (∃ token ∈ W.content (r .deleteRecords), token ∉ W.content (r .restoreRecords)))

def reads : Bool :=
  if s.versioned then decide (Active W s.records) else (register V s).any DeletedRegister.isDeleted

def migrates : Bool := !s.versioned && (register V s).any DeletedRegister.isDeleted

end TrashState

namespace TrashEvent

variable (W : Winner Inst) (V : LegacyRegister ι) (id : JsString)

def plan (s : TrashState ι Inst) : TrashEvent ι Inst → RecordKey → Option (Inst × Finset JsString)
  | initialise map, .deleteRecords => if s.migrates V then some (map, {legacyToken id}) else none
  | edit ev, k => DeletionEvent.plan W ev s.records k
  | _, _ => none

def exec (ev : TrashEvent ι Inst) (s : TrashState ι Inst) : TrashState ι Inst :=
  match ev with
  | load cache => s ∪ cache.toFinset.image .legacy
  | initialise map => insert (.records true (deltaOf W (plan W V id s (initialise map)) s.records)) s
  | edit ev => insert (.records false (deltaOf W (DeletionEvent.plan W ev s.records) s.records)) s

end TrashEvent

end State

section Runs

variable {R ι Inst : Type} [DecidableEq R] [DecidableEq ι] [DecidableEq Inst]

abbrev TrashSystem (R ι Inst : Type) := System R (TrashState ι Inst) (TrashEvent ι Inst)

variable (W : Winner Inst) (V : LegacyRegister ι) (id rootId : JsString) (caches : R → Option ι)

def CacheLoaded (σ : TrashSystem R ι Inst) (r : R) : Prop :=
  ∃ o ∈ σ.history, o.replica = r ∧ o.event = .load (caches r)

def Initialised (σ : TrashSystem R ι Inst) (r : R) : Prop :=
  ∃ o ∈ σ.history, o.replica = r ∧ ∃ map, o.event = .initialise map

/-- A replica loads its cache, initialises, and then runs commands on the item, which do nothing to the
root. New maps are not maps that the replica already has entries of. -/
def SessionStep (σ : TrashSystem R ι Inst) (r : R) : TrashEvent ι Inst → Prop
  | .load cache => cache = caches r
  | .initialise map => CacheLoaded caches σ r ∧ ∀ e ∈ ((σ.state r).records .deleteRecords).2, e.1 ≠ map
  | .edit ev => Initialised σ r ∧ id ≠ rootId ∧ ev.Mints (σ.state r).records

def TrashedBy (r : R) (w : ι) : Prop := caches r = some w ∧ (V.register w).isDeleted = true

/-- Some replica restored the item over a document that held the setting. -/
def Restored (σ : TrashSystem R ι Inst) (w : ι) : Prop :=
  (∃ o ∈ σ.history, (∃ maps, o.event = .edit (.undeleteItem maps)) ∧ w ∈ o.before.writes) ∨
    ∃ r, ∃ w' ∈ caches r, (V.register w').isDeleted = false ∧ w ∈ V.seen w'

/-- An initialisation meets the item as deleted, if the cache had it so and it was not restored. A restore
meets each legacy deletion that is not restored already. -/
def KeepsTrash (σ : TrashSystem R ι Inst) (r : R) : TrashEvent ι Inst → Prop
  | .load _ => True
  | .initialise _ => ∀ w, TrashedBy V caches r w → (σ.state r).reads W V = true ∨ Restored V caches σ w
  | .edit (.deleteItem _ _) => True
  | .edit (.undeleteItem _) =>
    ∀ r' w, TrashedBy V caches r' w → w ∈ (σ.state r).writes ∨ Restored V caches σ w

abbrev UpgradeRun (ok : TrashSystem R ι Inst → R → TrashEvent ι Inst → Prop) : TrashSystem R ι Inst → Prop :=
  System.Run ∅ (TrashEvent.exec W V id) fun σ r ev => SessionStep id rootId caches σ r ev ∧ ok σ r ev

end Runs

section Docs

variable {ι Inst : Type} [DecidableEq ι] [DecidableEq Inst]

structure ShowsTrash (W : Winner Inst) (V : LegacyRegister ι) (id rootId : JsString) (s : TrashState ι Inst)
    (doc : Doc) : Prop where
  schemaVersion : doc.schemaVersion = if s.versioned then some 2 else none
  root : s.versioned = true → doc.rootId = some rootId
  node : ∃ node, doc.items.get id = some node ∧ node.deleted = s.register V ∧
    node.deleteRecords = W.view (s.records .deleteRecords) ∧
    node.restoreRecords = W.view (s.records .restoreRecords)

def ReportedDeleted (doc : Doc) (id : JsString) : Prop :=
  ∃ node ∈ doc.items.get id, (readDeleted doc.schemaVersion node).isDeleted = true

variable {R : Type} [DecidableEq R] (W : Winner Inst) (V : LegacyRegister ι) (id rootId : JsString)
  (caches : R → Option ι) (σ : TrashSystem R ι Inst)

/-- The session start and the commands act on every replica's document as the events do. -/
def ActsOnDocs : Prop :=
  ∀ o ∈ σ.history, ∀ doc, ShowsTrash W V id rootId o.before doc → ∀ actor,
    match o.event with
    | .load _ => True
    | .initialise map =>
      ∀ lib newId, ShowsTrash W V id rootId (TrashEvent.exec W V id (.initialise map) o.before)
        (whenReady lib doc rootId actor newId).2
    | .edit ev => (ev.onDoc id actor doc).1 = .ok () ∧
        ShowsTrash W V id rootId (TrashEvent.exec W V id (.edit ev) o.before) (ev.onDoc id actor doc).2

/-- A legacy deletion of a cache is reported, there and after all merges everywhere, unless it was restored;
nothing else is reported that no command deleted. -/
structure TrashSurvives : Prop where
  kept : ∀ r w, Initialised σ r → TrashedBy V caches r w → Restored V caches σ w ∨
    ∀ doc, ShowsTrash W V id rootId (σ.state r) doc → ReportedDeleted doc id
  merged : σ.Converged → ∀ r w, Initialised σ r → TrashedBy V caches r w → Restored V caches σ w ∨
    ∀ r' doc, ShowsTrash W V id rootId (σ.state r') doc → ReportedDeleted doc id
  only : ∀ r doc, (σ.state r).versioned = true → ShowsTrash W V id rootId (σ.state r) doc →
    ReportedDeleted doc id →
    (∃ r' w, TrashedBy V caches r' w) ∨ ∃ o ∈ σ.history, ∃ token maps,
    o.event = .edit (.deleteItem token maps)

end Docs

section Exec

variable {ι Inst : Type} [DecidableEq ι] [DecidableEq Inst] {W : Winner Inst} {V : LegacyRegister ι}
  {id : JsString} {s t : TrashState ι Inst} {u : TrashUpdate ι Inst}

namespace TrashState

theorem records_insert : TrashState.records (insert u s) = u.delta ⊔ s.records := Finset.sup_insert

theorem writes_insert : TrashState.writes (insert u s) = u.writes ∪ s.writes := Finset.biUnion_insert

theorem versioned_insert : TrashState.versioned (insert u s) = (u.setsVersion || s.versioned) := by
  rw [Bool.eq_iff_iff]
  simp [versioned]

omit [DecidableEq Inst] in
theorem mem_writes {w : ι} : w ∈ s.writes ↔ .legacy w ∈ s := by
  constructor
  · intro h
    obtain ⟨u, hu, hw⟩ := Finset.mem_biUnion.mp h
    cases u with
    | legacy write =>
      rw [Finset.mem_singleton.mp hw]
      exact hu
    | records version delta => exact absurd hw (Finset.notMem_empty _)
  · intro h
    exact Finset.mem_biUnion.mpr ⟨_, h, Finset.mem_singleton_self _⟩

omit [DecidableEq ι] [DecidableEq Inst] in
theorem versioned_mono (h : s ≤ t) (hs : s.versioned = true) : t.versioned = true := by
  obtain ⟨u, hu, hset⟩ := of_decide_eq_true hs
  exact decide_eq_true ⟨u, h hu, hset⟩

omit [DecidableEq ι] in
theorem records_mono (h : s ≤ t) : s.records ≤ t.records := Finset.sup_mono h

theorem records_load (cache : Finset ι) : TrashState.records (s ∪ cache.image .legacy) = s.records := by
  have hbot : (cache.image TrashUpdate.legacy).sup TrashUpdate.delta = (⊥ : Records Inst) := by
    rw [Finset.sup_image]
    exact Finset.sup_bot _
  unfold records
  rw [Finset.sup_union, hbot, sup_bot_eq]

end TrashState

open TrashState

theorem le_exec (ev : TrashEvent ι Inst) (s : TrashState ι Inst) : s ≤ ev.exec W V id s := by
  cases ev with
  | load cache => exact Finset.subset_union_left
  | initialise map => exact Finset.subset_insert _ _
  | edit ev => exact Finset.subset_insert _ _

theorem records_initialise (map : Inst) (k : RecordKey) :
    (TrashEvent.exec W V id (.initialise map) s).records k =
    s.records k ⊔ deltaOf W (TrashEvent.plan W V id s (.initialise map)) s.records k := by
  change TrashState.records (insert _ s) k = _
  rw [records_insert, sup_comm]
  rfl

theorem deletes_initialise (map : Inst) :
    (TrashEvent.exec W V id (.initialise map) s).records .deleteRecords =
    if s.migrates V = true then W.edit {legacyToken id} (W.ensure map (s.records .deleteRecords))
    else s.records .deleteRecords := by
  rw [records_initialise]
  unfold deltaOf TrashEvent.plan
  split_ifs
  · exact W.sup_delta _ _ _
  · exact sup_bot_eq _

theorem restores_initialise (map : Inst) :
    (TrashEvent.exec W V id (.initialise map) s).records .restoreRecords =
    s.records .restoreRecords := by
  rw [records_initialise]
  exact sup_bot_eq _

theorem records_edit (ev : DeletionEvent Inst) :
    (TrashEvent.exec W V id (.edit ev) s).records = ev.exec W s.records := by
  change TrashState.records (insert _ s) = _
  rw [records_insert, sup_comm]
  exact sup_deltaOf W (DeletionEvent.plan W) ev s.records

theorem writes_initialise (map : Inst) : (TrashEvent.exec W V id (.initialise map) s).writes = s.writes :=
  writes_insert.trans (Finset.empty_union _)

theorem writes_edit (ev : DeletionEvent Inst) : (TrashEvent.exec W V id (.edit ev) s).writes = s.writes :=
  writes_insert.trans (Finset.empty_union _)

theorem versioned_initialise (map : Inst) :
    (TrashEvent.exec W V id (.initialise map) s).versioned = true := by
  change TrashState.versioned (insert _ s) = true
  rw [versioned_insert]
  rfl

theorem versioned_edit (ev : DeletionEvent Inst) :
    (TrashEvent.exec W V id (.edit ev) s).versioned = s.versioned := by
  change TrashState.versioned (insert _ s) = _
  rw [versioned_insert]
  rfl

end Exec

section Shows

variable {ι Inst : Type} [DecidableEq ι] [DecidableEq Inst] {W : Winner Inst} {V : LegacyRegister ι}
  {id rootId : JsString} {s : TrashState ι Inst} {doc doc' : Doc}

open TrashState

theorem ShowsTrash.placed (h : ShowsTrash W V id rootId s doc) (hplaced : Placed doc doc') :
    ShowsTrash W V id rootId s doc' := by
  induction hplaced with
  | refl => exact h
  | @move doc' x move _ ih =>
    refine ⟨by rw [Doc.writeMove_schemaVersion, ih.schemaVersion],
      fun hv => by rw [Doc.writeMove_rootId, ih.root hv], ?_⟩
    obtain ⟨node, hget, hnode⟩ := ih.node
    unfold Doc.writeMove
    split_ifs
    · exact ⟨node, hget, hnode⟩
    · rw [Doc.setNode_get]
      split_ifs with hx
      · subst hx
        rw [hget]
        exact ⟨_, rfl, hnode⟩
      · exact ⟨node, hget, hnode⟩

theorem ShowsTrash.initialization (h : ShowsTrash W V id rootId s doc) {map : Inst}
    (hmap : ∀ e ∈ (s.records .deleteRecords).2, e.1 ≠ map) :
    ShowsTrash W V id rootId (TrashEvent.exec W V id (.initialise map) s) (doc.initialization rootId) := by
  obtain ⟨node, hget, hdeleted, hdeletes, hrestores⟩ := h.node
  refine ⟨by rw [versioned_initialise]; rfl, fun _ => rfl, preserveTrash doc.schemaVersion id node, ?_, ?_⟩
  · exact (OrderedMap.get_mapEntries _ _ _).trans (by rw [hget]; rfl)
  have hmigrates : s.migrates V = true ↔ doc.schemaVersion = none ∧
      node.deleted.any DeletedRegister.isDeleted = true := by
    rw [h.schemaVersion, hdeleted, migrates]
    cases s.versioned <;> simp
  rw [register, writes_initialise, deletes_initialise, restores_initialise]
  unfold preserveTrash
  by_cases hm : s.migrates V = true
  · rw [if_pos (hmigrates.mp hm), if_pos hm]
    refine ⟨hdeleted, ?_, hrestores⟩
    rw [W.view_edit_ensure hmap, hdeletes, Finset.insert_eq, Finset.union_comm]
  · rw [if_neg fun hc => hm (hmigrates.mpr hc), if_neg hm]
    exact ⟨hdeleted, hdeletes, hrestores⟩

theorem ShowsTrash.whenReady (h : ShowsTrash W V id rootId s doc) {map : Inst}
    (hmap : ∀ e ∈ (s.records .deleteRecords).2, e.1 ≠ map) (lib : FractionalIndexing) (actor : Actor)
    (newId : JsString) :
    ShowsTrash W V id rootId (TrashEvent.exec W V id (.initialise map) s)
      (whenReady lib doc rootId actor newId).2 := by
  apply (h.initialization hmap).placed
  apply whenReady_placed
  rw [h.schemaVersion]
  cases s.versioned <;> simp

omit [DecidableEq ι] [DecidableEq Inst] in
theorem onDoc_deleted {node : Node} (hget : doc.items.get id = some node) (ev : DeletionEvent Inst)
    (actor : Actor)
    (hversion : doc.schemaVersion = some 2) : (ev.onDoc id actor doc).2.rootId = doc.rootId ∧
      ∀ node', (ev.onDoc id actor doc).2.items.get id = some node' → node'.deleted = node.deleted := by
  have hwrite : ∀ del token, (doc.writeDeleted id del token).rootId = doc.rootId ∧
      ∀ node', (doc.writeDeleted id del token).items.get id = some node' → node'.deleted = node.deleted := by
    intro del token
    refine ⟨doc.writeDeleted_rootId id del token, ?_⟩
    intro node' hget'
    rw [Doc.writeDeleted, if_pos hversion] at hget'
    split_ifs at hget' with hroot
    · rw [hget] at hget'
      rw [Option.some.inj hget']
    · rw [Doc.updateNode_get, if_pos rfl, hget] at hget'
      rw [← Option.some.inj hget']
      unfold Doc.writeRecords
      split <;> rfl
  cases ev with
  | deleteItem token maps =>
    unfold DeletionEvent.onDoc deleteItem
    rw [hget]
    exact hwrite _ _
  | undeleteItem maps =>
    unfold DeletionEvent.onDoc undeleteItem
    rw [hget]
    exact hwrite _ _

theorem ShowsTrash.onDoc (h : ShowsTrash W V id rootId s doc) (hversioned : s.versioned = true)
    (hroot : id ≠ rootId) {ev : DeletionEvent Inst} (hmint : ev.Mints s.records) (actor : Actor) :
    (ev.onDoc id actor doc).1 = .ok () ∧
      ShowsTrash W V id rootId (TrashEvent.exec W V id (.edit ev) s) (ev.onDoc id actor doc).2 := by
  obtain ⟨node, hget, hdeleted, hdeletes, hrestores⟩ := h.node
  have hversion : doc.schemaVersion = some 2 := by rw [h.schemaVersion, if_pos hversioned]
  have hnotRoot : doc.rootId ≠ some id := by
    rw [h.root hversioned]
    exact fun heq => hroot (Option.some.inj heq).symm
  obtain ⟨hok, hshows⟩ :=
    DeletionEvent.onDoc_shows ⟨hversion, hnotRoot, node, hget, hdeletes, hrestores⟩ hmint actor
  obtain ⟨node', hget', hdeletes', hrestores'⟩ := hshows.node
  obtain ⟨hrootId, hsame⟩ := onDoc_deleted hget ev actor hversion
  refine ⟨hok, ?_, ?_, node', hget', ?_, ?_, ?_⟩
  · rw [versioned_edit, hversioned]
    exact hshows.schemaVersion
  · intro _
    rw [hrootId, h.root hversioned]
  · rw [hsame node' hget', register, writes_edit]
    exact hdeleted
  · rw [records_edit]
    exact hdeletes'
  · rw [records_edit]
    exact hrestores'

theorem ShowsTrash.reported_iff (h : ShowsTrash W V id rootId s doc) :
    ReportedDeleted doc id ↔ s.reads W V = true := by
  obtain ⟨node, hget, hdeleted, hdeletes, hrestores⟩ := h.node
  have hread : (readDeleted doc.schemaVersion node).isDeleted = s.reads W V := by
    rw [h.schemaVersion, readDeleted, reads]
    cases s.versioned with
    | false =>
      rw [hdeleted]
      cases register V s <;> rfl
    | true =>
      rw [Bool.eq_iff_iff]
      simp only [if_true, decide_eq_true_iff, Node.hasActiveDelete_iff, hdeletes, hrestores, W.view_getD]
      rfl
  unfold ReportedDeleted
  rw [hget]
  simp [hread]

end Shows

section Tame

variable {ι Inst : Type} [DecidableEq ι] [DecidableEq Inst] {W : Winner Inst} {V : LegacyRegister ι}
  {id : JsString} {s t : TrashState ι Inst} {u : TrashUpdate ι Inst} {k : RecordKey}

open TrashState

namespace TrashState

theorem mem_instances {i : Inst} : i ∈ (s.records k).1 ↔ ∃ u ∈ s, i ∈ (u.delta k).1 := by
  induction s using Finset.induction_on with
  | empty => simp [records]
  | insert u s _ ih =>
    rw [records_insert]
    simp [ih]

theorem mem_edits {e : Inst × JsString} : e ∈ (s.records k).2 ↔ ∃ u ∈ s, e ∈ (u.delta k).2 := by
  induction s using Finset.induction_on with
  | empty => simp [records]
  | insert u s _ ih =>
    rw [records_insert]
    simp [ih]

end TrashState

structure TameUpdate (u : TrashUpdate ι Inst) : Prop where
  restores : (u.delta .restoreRecords).2 = ∅
  filled : ∀ i ∈ (u.delta .deleteRecords).1, ∃ token, (i, token) ∈ (u.delta .deleteRecords).2

def Tame (s : TrashState ι Inst) : Prop := ∀ u ∈ s, TameUpdate u

theorem Tame.active_iff (h : Tame s) : Active W s.records ↔ (s.records .deleteRecords).1.Nonempty := by
  constructor
  · rintro ⟨token, htoken, -⟩
    exact W.nonempty_of_content htoken
  · intro hne
    obtain ⟨i, hi⟩ := W.pick_isSome hne
    obtain ⟨u, hu, hiu⟩ := mem_instances.mp (W.pick_mem hi)
    obtain ⟨token, htoken⟩ := (h u hu).filled i hiu
    refine ⟨token, W.mem_content.mpr ⟨i, hi, mem_edits.mpr ⟨u, hu, htoken⟩⟩, ?_⟩
    intro hrestored
    obtain ⟨j, -, hj⟩ := W.mem_content.mp hrestored
    obtain ⟨u', hu', he⟩ := mem_edits.mp hj
    rw [(h u' hu').restores] at he
    exact Finset.notMem_empty _ he

theorem Tame.persists (ht : Tame t) (hle : s ≤ t) (hversioned : s.versioned = true)
    (hreads : s.reads W V = true) :
    t.versioned = true ∧ t.reads W V = true := by
  have hs : Tame s := fun u hu => ht u (hle hu)
  have ht' := versioned_mono hle hversioned
  refine ⟨ht', ?_⟩
  rw [reads, if_pos hversioned, decide_eq_true_iff, hs.active_iff] at hreads
  rw [reads, if_pos ht', decide_eq_true_iff, ht.active_iff]
  exact hreads.mono (records_mono hle .deleteRecords).1

theorem delta_filled {fresh i : Inst} {es : Finset JsString} {n : Nested Inst JsString} (hes : es.Nonempty)
    (hi : i ∈ (W.delta fresh es n).1) : ∃ token, (i, token) ∈ (W.delta fresh es n).2 := by
  obtain ⟨token, htoken⟩ := hes
  unfold Winner.delta at hi ⊢
  cases hp : W.pick n.1 with
  | some j => simp [hp] at hi
  | none =>
    simp only [hp, Finset.mem_singleton] at hi ⊢
    exact ⟨token, Finset.mem_image.mpr ⟨token, htoken, by rw [hi]⟩⟩

theorem delta_empty {fresh : Inst} {n : Nested Inst JsString} : (W.delta fresh ∅ n).2 = ∅ := by
  unfold Winner.delta
  split <;> rfl

theorem tame_insert (hu : TameUpdate u) (hs : Tame s) : Tame (insert u s) := by
  intro v hv
  cases Finset.mem_insert.mp hv with
  | inl heq => exact heq ▸ hu
  | inr hv => exact hs v hv

theorem tame_load (cache : Option ι) (hs : Tame s) :
    Tame (TrashEvent.exec W V id (.load cache) s) := by
  intro u hu
  cases Finset.mem_union.mp hu with
  | inl hu => exact hs u hu
  | inr hu =>
    obtain ⟨w, -, rfl⟩ := Finset.mem_image.mp hu
    exact ⟨rfl, nofun⟩

theorem tame_initialise (map : Inst) (hs : Tame s) : Tame (TrashEvent.exec W V id (.initialise map) s) := by
  apply tame_insert _ hs
  refine ⟨rfl, ?_⟩
  intro i hi
  simp only [TrashUpdate.delta, deltaOf, TrashEvent.plan] at hi ⊢
  by_cases hm : s.migrates V = true
  · simp only [hm, if_true] at hi ⊢
    exact delta_filled (Finset.singleton_nonempty _) hi
  · simp [hm] at hi

theorem tame_deleteItem (token : JsString) (maps : RecordKey → Inst) (hs : Tame s) :
    Tame (TrashEvent.exec W V id (.edit (.deleteItem token maps)) s) := by
  apply tame_insert _ hs
  exact ⟨delta_empty, fun i hi => delta_filled (Finset.singleton_nonempty _) hi⟩

theorem reads_initialise (map : Inst) (hs : Tame s) (hreads : s.reads W V = true) :
    (TrashEvent.exec W V id (.initialise map) s).reads W V = true := by
  rw [reads, if_pos (versioned_initialise map), decide_eq_true_iff, (tame_initialise map hs).active_iff,
    deletes_initialise]
  by_cases hm : s.migrates V = true
  · rw [if_pos hm, W.edit_fst]
    exact W.ensure_nonempty _ _
  · rw [if_neg hm, ← hs.active_iff (W := W)]
    rw [reads] at hreads
    rw [migrates] at hm
    cases hv : s.versioned with
    | true =>
      rw [hv, if_pos rfl] at hreads
      exact of_decide_eq_true hreads
    | false =>
      rw [hv] at hreads hm
      rw [if_neg (by decide)] at hreads
      simp [hreads] at hm

end Tame

section Survive

variable {R ι Inst : Type} [DecidableEq R] [DecidableEq ι] [DecidableEq Inst] {W : Winner Inst}
  {V : LegacyRegister ι} {id rootId : JsString} {caches : R → Option ι} {σ : TrashSystem R ι Inst}

open TrashState

theorem Restored.act {w : ι} (h : Restored V caches σ w) (r : R) (ev : TrashEvent ι Inst) :
    Restored V caches (σ.act (TrashEvent.exec W V id) r ev) w := by
  apply h.imp_left
  rintro ⟨o, ho, hw⟩
  exact ⟨o, List.mem_cons_of_mem _ ho, hw⟩

def Kept (W : Winner Inst) (V : LegacyRegister ι) (caches : R → Option ι) (σ : TrashSystem R ι Inst) : Prop :=
  (∀ r w, TrashedBy V caches r w → Restored V caches σ w) ∨
    (∀ r, Tame (σ.state r)) ∧ ∀ r w, Initialised σ r → TrashedBy V caches r w →
      Restored V caches σ w ∨ (σ.state r).versioned = true ∧ (σ.state r).reads W V = true

theorem kept_act (h : Kept W V caches σ) {r : R} {ev : TrashEvent ι Inst}
    (hok : KeepsTrash W V caches σ r ev) :
    Kept W V caches (σ.act (TrashEvent.exec W V id) r ev) := by
  cases h with
  | inl hall => exact Or.inl fun r' w hw => (hall r' w hw).act r ev
  | inr h =>
    obtain ⟨htame, hreads⟩ := h
    have hkeep : Tame (ev.exec W V id (σ.state r)) →
        (∀ map, ev = .initialise map → ∀ w, TrashedBy V caches r w → Restored V caches σ w ∨
          (ev.exec W V id (σ.state r)).versioned = true ∧ (ev.exec W V id (σ.state r)).reads W V = true) →
        Kept W V caches (σ.act (TrashEvent.exec W V id) r ev) := by
      intro hnew hinit
      have htame' : ∀ r', Tame ((σ.act (TrashEvent.exec W V id) r ev).state r') :=
        System.act_forall htame hnew
      refine Or.inr ⟨htame', ?_⟩
      rintro r' w ⟨o, ho, hr', map, hmap⟩ hw
      cases ho with
      | head =>
        obtain rfl : r = r' := hr'
        apply (hinit map hmap w hw).imp (·.act r ev)
        rw [System.act_state_self]
        exact fun h => h
      | tail _ ho =>
        apply (hreads r' w ⟨o, ho, hr', map, hmap⟩ hw).imp (·.act r ev)
        rintro ⟨hversioned, hold⟩
        exact (htame' r').persists (System.act_le le_exec r ev r') hversioned hold
    cases ev with
    | load cache => exact hkeep (tame_load cache (htame r)) nofun
    | initialise map =>
      apply hkeep (tame_initialise map (htame r))
      intro _ _ w hw
      cases hok w hw with
      | inl hdeleted => exact Or.inr ⟨versioned_initialise map, reads_initialise map (htame r) hdeleted⟩
      | inr hrestored => exact Or.inl hrestored
    | edit ev =>
      cases ev with
      | deleteItem token maps => exact hkeep (tame_deleteItem token maps (htame r)) nofun
      | undeleteItem maps =>
        left
        intro r' w hw
        cases hok r' w hw with
        | inl hmerged => exact Or.inl ⟨_, List.mem_cons_self .., ⟨maps, rfl⟩, hmerged⟩
        | inr hrestored => exact hrestored.act r _

theorem run_kept (h : UpgradeRun W V id rootId caches (KeepsTrash W V caches) σ) : Kept W V caches σ := by
  induction h with
  | start =>
    exact Or.inr ⟨fun r u hu => absurd hu (Finset.notMem_empty u),
      fun r w hinit => absurd hinit (by simp [Initialised])⟩
  | act r ev _ hok ih => exact kept_act ih hok.2
  | @receive σ r r' part _ hpart ih =>
    apply ih.imp_right
    rintro ⟨htame, hreads⟩
    have htame' : ∀ q, Tame ((σ.receive r part).state q) := by
      apply System.receive_forall htame
      intro u hu
      cases Finset.mem_union.mp hu with
      | inl hu => exact htame r u hu
      | inr hu => exact htame r' u (hpart hu)
    refine ⟨htame', ?_⟩
    intro q w hinit hw
    apply (hreads q w hinit hw).imp_right
    rintro ⟨hversioned, hold⟩
    exact (htame' q).persists (System.receive_le r part q) hversioned hold

section Sources

variable {ok : TrashSystem R ι Inst → R → TrashEvent ι Inst → Prop} (h : UpgradeRun W V id rootId caches ok σ)

include h

theorem before_le {o : Occurrence R (TrashState ι Inst) (TrashEvent ι Inst)} (ho : o ∈ σ.history) :
    o.before ≤ σ.state o.replica :=
  (le_exec o.event o.before).trans (h.kept le_exec ho)

theorem writes_cached {r : R} {w : ι} (hw : w ∈ (σ.state r).writes) : ∃ r', caches r' = some w := by
  have hmono : ∀ {s t : TrashState ι Inst}, s ≤ t → w ∈ s.writes → w ∈ t.writes :=
    fun hle hw => mem_writes.mpr (hle (mem_writes.mp hw))
  have hjoin : ∀ {s t : TrashState ι Inst}, w ∈ (s ⊔ t).writes → w ∈ s.writes ∨ w ∈ t.writes := by
    intro s t hw
    rw [mem_writes, mem_writes]
    exact Finset.mem_union.mp (mem_writes.mp hw)
  have hcached := h.history (Q := fun _ ev => ∀ cache, ev = .load cache → ∃ r, cache = caches r)
    fun σ r ev hok cache hev => by
      subst hev
      exact ⟨r, hok.1⟩
  cases System.Run.origin (P := fun s => w ∈ s.writes) hmono hjoin h hw with
  | inl hempty => exact absurd hempty (by simp [writes])
  | inr ho =>
    obtain ⟨o, ho, hnew, hold⟩ := ho
    cases hev : o.event with
    | load cache =>
      rw [hev] at hnew
      obtain ⟨r', rfl⟩ := hcached o ho cache hev
      cases Finset.mem_union.mp (mem_writes.mp hnew) with
      | inl hin => exact absurd (mem_writes.mpr hin) hold
      | inr hin =>
        obtain ⟨w', hw', heq⟩ := Finset.mem_image.mp hin
        cases heq
        exact ⟨r', Option.mem_toFinset.mp hw'⟩
    | initialise map =>
      rw [hev, writes_initialise] at hnew
      exact absurd hnew hold
    | edit ev =>
      rw [hev, writes_edit] at hnew
      exact absurd hnew hold

theorem reads_source {r : R} (hversioned : (σ.state r).versioned = true)
    (hreads : (σ.state r).reads W V = true) :
    (∃ r' w, TrashedBy V caches r' w) ∨ ∃ o ∈ σ.history, ∃ token maps, o.event = .edit
    (.deleteItem token maps) := by
  rw [reads, if_pos hversioned, decide_eq_true_iff] at hreads
  obtain ⟨token, htoken, -⟩ := hreads
  obtain ⟨i, -, he⟩ := W.mem_content.mp htoken
  have hjoin : ∀ {s t : TrashState ι Inst}, (i, token) ∈ ((s ⊔ t).records .deleteRecords).2 →
      (i, token) ∈ (s.records .deleteRecords).2 ∨ (i, token) ∈ (t.records .deleteRecords).2 := by
    intro s t he
    obtain ⟨u, hu, hd⟩ := mem_edits.mp he
    apply (Finset.mem_union.mp hu).imp <;> exact fun hu => mem_edits.mpr ⟨u, hu, hd⟩
  cases System.Run.origin (P := fun s : TrashState ι Inst => (i, token) ∈ (s.records .deleteRecords).2)
    (fun hle hp => (records_mono hle .deleteRecords).2 hp) hjoin h he with
  | inl hempty => exact absurd hempty (by simp [records])
  | inr ho =>
    obtain ⟨o, ho, hnew, hold⟩ := ho
    cases hev : o.event with
    | load cache =>
      rw [hev] at hnew
      change (i, token) ∈ (TrashState.records (o.before ∪ cache.toFinset.image .legacy) .deleteRecords).2
        at hnew
      rw [records_load] at hnew
      exact absurd hnew hold
    | initialise map =>
      rw [hev, deletes_initialise] at hnew
      by_cases hm : o.before.migrates V = true
      · obtain ⟨-, hdeleted⟩ := Bool.and_eq_true_iff.mp hm
        obtain ⟨register, hregister, hdel⟩ := (Option.any_eq_true _ _).mp hdeleted
        obtain ⟨w, hw, rfl⟩ := Option.map_eq_some_iff.mp hregister
        have hin : w ∈ (σ.state o.replica).writes :=
          mem_writes.mpr (before_le h ho (mem_writes.mp (V.winner.pick_mem hw)))
        obtain ⟨r', hcache⟩ := writes_cached h hin
        exact Or.inl ⟨r', w, hcache, hdel⟩
      · rw [if_neg hm] at hnew
        exact absurd hnew hold
    | edit ev =>
      cases ev with
      | deleteItem token maps => exact Or.inr ⟨o, ho, token, maps, hev⟩
      | undeleteItem maps =>
        rw [hev, records_edit] at hnew
        simp only [DeletionEvent.exec, execPlan, DeletionEvent.plan, W.edit_empty, W.ensure_snd] at hnew
        exact absurd hnew hold

theorem run_versioned : (∀ r, Initialised σ r → (σ.state r).versioned = true) ∧
    ∀ o ∈ σ.history, ∀ ev, o.event = .edit ev → o.before.versioned = true := by
  induction h with
  | start => exact ⟨fun r hr => absurd hr (by simp [Initialised]), by simp⟩
  | @act σ r ev _ hok ih =>
    obtain ⟨hstate, hedit⟩ := ih
    refine ⟨?_, ?_⟩
    · rintro r' ⟨o, ho, hr', map, hmap⟩
      cases ho with
      | head =>
        obtain rfl : r = r' := hr'
        obtain rfl : ev = .initialise map := hmap
        rw [System.act_state_self]
        exact versioned_initialise map
      | tail _ ho => exact versioned_mono (System.act_le le_exec r ev r') (hstate r' ⟨o, ho, hr', map, hmap⟩)
    · intro o ho ev' hev
      cases ho with
      | head =>
        obtain rfl : ev = .edit ev' := hev
        exact hstate r hok.1.1
      | tail _ ho => exact hedit o ho ev' hev
  | @receive σ r r' part _ _ ih =>
    exact ⟨fun q hq => versioned_mono (System.receive_le r part q) (ih.1 q hq), ih.2⟩

theorem run_actsOnDocs : ActsOnDocs W V id rootId σ := by
  have hfresh := h.history
    (Q := fun s ev => match ev with
      | .load _ => True
      | .initialise map => ∀ e ∈ (s.records .deleteRecords).2, e.1 ≠ map
      | .edit ev => id ≠ rootId ∧ ev.Mints s.records)
    fun σ r ev hok => by
      cases ev with
      | load cache => trivial
      | initialise map => exact hok.1.2
      | edit ev => exact hok.1.2
  intro o ho doc hdoc actor
  have hfresh := hfresh o ho
  cases hev : o.event with
  | load cache => trivial
  | initialise map =>
    rw [hev] at hfresh
    exact fun lib newId => hdoc.whenReady hfresh lib actor newId
  | edit ev =>
    rw [hev] at hfresh
    exact hdoc.onDoc ((run_versioned h).2 o ho ev hev) hfresh.1 hfresh.2 actor

end Sources

theorem whenReady_keepsTrash (W : Winner Inst) (V : LegacyRegister ι) (id rootId : JsString)
    (caches : R → Option ι)
    (σ : TrashSystem R ι Inst) (hrun : UpgradeRun W V id rootId caches (KeepsTrash W V caches) σ) :
    ActsOnDocs W V id rootId σ ∧ TrashSurvives W V id rootId caches σ := by
  have hkept := run_kept hrun
  refine ⟨run_actsOnDocs hrun, ?_, ?_, ?_⟩
  · intro r w hinit hw
    cases hkept with
    | inl hall => exact Or.inl (hall r w hw)
    | inr h => exact (h.2 r w hinit hw).imp_right fun hr doc hdoc => hdoc.reported_iff.mpr hr.2
  · intro hconv r w hinit hw
    cases hkept with
    | inl hall => exact Or.inl (hall r w hw)
    | inr h =>
      apply (h.2 r w hinit hw).imp_right
      rintro ⟨hversioned, hreads⟩ r' doc hdoc
      exact hdoc.reported_iff.mpr ((h.1 r').persists (hconv r' r) hversioned hreads).2
  · intro r doc hversioned hdoc hreported
    exact reads_source hrun hversioned (hdoc.reported_iff.mp hreported)

end Survive

section Examples

def deletedOnce : LegacyRegister ℕ := ⟨greatest, fun _ => ⟨true, noHlc⟩, fun _ => ∅⟩

def itemI : JsString := js ['i']

def oneTrashed (r : Bool) : Option ℕ := if r then none else some 1

def nobody : TrashSystem Bool ℕ ℕ := ⟨fun _ => ∅, []⟩

def actTrash (r : Bool) (ev : TrashEvent ℕ ℕ) (σ : TrashSystem Bool ℕ ℕ) : TrashSystem Bool ℕ ℕ :=
  σ.act (TrashEvent.exec greatest deletedOnce itemI) r ev

def firstStarted : TrashSystem Bool ℕ ℕ := actTrash true (.initialise 1) (actTrash true (.load none) nobody)

def mergedFirst : TrashSystem Bool ℕ ℕ :=
  actTrash false (.initialise 2)
    ((actTrash false (.load (some 1)) firstStarted).receive false (firstStarted.state true))

def startedApart : TrashSystem Bool ℕ ℕ :=
  (actTrash false (.initialise 2) (actTrash false (.load (some 1)) firstStarted)).exchange

def trashDoc (s : TrashState ℕ ℕ) : Doc :=
  ⟨some 2, some (js ['r']), OrderedMap.empty.set itemI
    { freshNode with
      deleted := s.register deletedOnce
      deleteRecords := greatest.view (s.records .deleteRecords)
      restoreRecords := greatest.view (s.records .restoreRecords) }⟩

theorem trashDoc_shows {s : TrashState ℕ ℕ} (h : s.versioned = true) :
    ShowsTrash greatest deletedOnce itemI (js ['r']) s (trashDoc s) :=
  ⟨by rw [h]; rfl, fun _ => rfl, _, OrderedMap.get_set_self _ _ _, rfl, rfl, rfl⟩

theorem loaded_run : UpgradeRun greatest deletedOnce itemI (js ['r']) oneTrashed
    (KeepsTrash greatest deletedOnce oneTrashed) (actTrash false (.load (some 1)) firstStarted) := by
  refine .act _ _ (.act _ _ (.act _ _ .start ⟨rfl, trivial⟩) ⟨⟨⟨_, .head _, rfl, rfl⟩, by decide⟩, ?_⟩)
    ⟨rfl, trivial⟩
  intro w hw
  cases hw.1

theorem startedApart_run :
    UpgradeRun greatest deletedOnce itemI (js ['r']) oneTrashed (KeepsTrash greatest deletedOnce oneTrashed)
    startedApart := by
  refine System.Run.exchange (.act _ _ loaded_run ⟨⟨⟨_, .head _, rfl, rfl⟩, by decide⟩, ?_⟩)
  intro w hw
  cases hw.1
  exact Or.inl (by decide)

theorem whenReady_keepsTrash_startedApart : ActsOnDocs greatest deletedOnce itemI (js ['r']) startedApart ∧
    TrashSurvives greatest deletedOnce itemI (js ['r']) oneTrashed startedApart :=
  whenReady_keepsTrash _ _ _ _ _ _ startedApart_run

theorem mergedFirst_losesTrash :
    UpgradeRun greatest deletedOnce itemI (js ['r']) oneTrashed (fun _ _ _ => True) mergedFirst ∧
    Initialised mergedFirst false ∧ TrashedBy deletedOnce oneTrashed false 1 ∧
    ¬ Restored deletedOnce oneTrashed mergedFirst 1 ∧
    ShowsTrash greatest deletedOnce itemI (js ['r']) (mergedFirst.state false)
      (trashDoc (mergedFirst.state false)) ∧
    ¬ ReportedDeleted (trashDoc (mergedFirst.state false)) itemI ∧
    ¬ TrashSurvives greatest deletedOnce itemI (js ['r']) oneTrashed mergedFirst := by
  have hrun : UpgradeRun greatest deletedOnce itemI (js ['r']) oneTrashed (fun _ _ _ => True) mergedFirst :=
    .act _ _ (.receive false true _ (loaded_run.mono fun _ _ _ hok => ⟨hok.1, trivial⟩) (by decide))
      ⟨⟨⟨_, .head _, rfl, rfl⟩, by decide⟩, trivial⟩
  have hinit : Initialised mergedFirst false := ⟨_, .head _, rfl, 2, rfl⟩
  have hshows := trashDoc_shows (s := mergedFirst.state false) (by decide)
  have hunread : ¬ ReportedDeleted (trashDoc (mergedFirst.state false)) itemI := by
    rw [hshows.reported_iff]
    decide
  have hunrestored : ¬ Restored deletedOnce oneTrashed mergedFirst 1 := by
    rintro (⟨o, ho, ⟨maps, hev⟩, -⟩ | ⟨r, w, -, hdel, -⟩)
    · fin_cases ho <;> cases hev
    · cases hdel
  refine ⟨hrun, hinit, ⟨rfl, rfl⟩, hunrestored, hshows, hunread, ?_⟩
  intro h
  cases h.kept false 1 hinit ⟨rfl, rfl⟩ with
  | inl hrestored => exact hunrestored hrestored
  | inr hall => exact hunread (hall _ hshows)

end Examples

end OpenOutliner
