import OpenOutliner.Crdt.CommandOutcome
import OpenOutliner.Foundations.LazyNested

/-!
Deleting and restoring one item on many replicas: the two record maps are nested shared maps that
the first delete or restore creates.
-/

namespace OpenOutliner

open Foundations

inductive RecordKey
  | deleteRecords | restoreRecords
deriving DecidableEq, Repr

/-- `maps` are the identities that the `Y.Map`s get if this transaction has to create them. -/
inductive DeletionEvent (Inst : Type)
  | deleteItem (token : JsString) (maps : RecordKey → Inst)
  | undeleteItem (maps : RecordKey → Inst)

abbrev Records (Inst : Type) := RecordKey → Nested Inst JsString

namespace DeletionEvent

variable {Inst : Type}

def maps : DeletionEvent Inst → RecordKey → Inst
  | deleteItem _ maps => maps
  | undeleteItem maps => maps

def token : DeletionEvent Inst → Option JsString
  | deleteItem token _ => some token
  | undeleteItem _ => none

variable [DecidableEq Inst] (W : Winner Inst)

def plan : Plan RecordKey Inst JsString (DeletionEvent Inst)
  | deleteItem token maps, _, .deleteRecords => some (maps .deleteRecords, {token})
  | deleteItem _ maps, _, .restoreRecords => some (maps .restoreRecords, ∅)
  | undeleteItem maps, _, .deleteRecords => some (maps .deleteRecords, ∅)
  | undeleteItem maps, s, .restoreRecords =>
    some (maps .restoreRecords, W.content (W.ensure (maps .deleteRecords) (s .deleteRecords)))

def exec (ev : DeletionEvent Inst) (s : Records Inst) : Records Inst := execPlan W (plan W) ev s

def onDoc (id : JsString) (actor : Actor) (doc : Doc) : DeletionEvent Inst → Except JsError Unit × Doc
  | deleteItem token _ => OpenOutliner.deleteItem doc id token actor 0
  | undeleteItem _ => OpenOutliner.undeleteItem doc id [] actor

def Mints (ev : DeletionEvent Inst) (s : Records Inst) : Prop := ∀ k, ∀ e ∈ (s k).2, e.1 ≠ ev.maps k

end DeletionEvent

section Show

variable {Inst : Type} [DecidableEq Inst] {W : Winner Inst}

/-- The document shows these records on its item `id`, which is not the root. -/
structure ShowsRecords (W : Winner Inst) (id : JsString) (s : Records Inst) (doc : Doc) : Prop where
  schemaVersion : doc.schemaVersion = some 2
  notRoot : doc.rootId ≠ some id
  node : ∃ node, doc.items.get id = some node ∧ node.deleteRecords = W.view (s .deleteRecords) ∧
    node.restoreRecords = W.view (s .restoreRecords)

theorem ShowsRecords.writeDeleted {id : JsString} {s t : Records Inst} {doc : Doc}
    (h : ShowsRecords W id s doc) (del : DeletedRegister) (token : JsString)
    (hwrite : ∀ node : Node, node.deleteRecords = W.view (s .deleteRecords) →
      node.restoreRecords = W.view (s .restoreRecords) →
      (Doc.writeRecords del.isDeleted token node).deleteRecords = W.view (t .deleteRecords) ∧
        (Doc.writeRecords del.isDeleted token node).restoreRecords = W.view (t .restoreRecords)) :
    ShowsRecords W id t (doc.writeDeleted id del token) := by
  obtain ⟨node, hget, hdel, hres⟩ := h.node
  refine ⟨by simp [h.schemaVersion], by simp [h.notRoot], Doc.writeRecords del.isDeleted token node, ?_,
    hwrite node hdel hres⟩
  unfold Doc.writeDeleted
  rw [if_pos h.schemaVersion, if_neg h.notRoot, Doc.updateNode_get, if_pos rfl, hget]
  rfl

theorem DeletionEvent.onDoc_shows {id : JsString} {s : Records Inst} {doc : Doc}
    (h : ShowsRecords W id s doc) {ev : DeletionEvent Inst} (hmint : ev.Mints s) (actor : Actor) :
    (ev.onDoc id actor doc).1 = .ok () ∧ ShowsRecords W id (ev.exec W s) (ev.onDoc id actor doc).2 := by
  obtain ⟨node, hget, -, -⟩ := h.node
  cases ev with
  | deleteItem token maps =>
    unfold DeletionEvent.onDoc OpenOutliner.deleteItem
    rw [hget]
    refine ⟨rfl, h.writeDeleted _ _ ?_⟩
    intro node hdel hres
    have hd : ∀ e ∈ (s .deleteRecords).2, e.1 ≠ maps .deleteRecords := hmint .deleteRecords
    have hr : ∀ e ∈ (s .restoreRecords).2, e.1 ≠ maps .restoreRecords := hmint .restoreRecords
    simp only [DeletionEvent.exec, execPlan, DeletionEvent.plan]
    rw [W.view_edit_ensure hd, W.view_edit_ensure hr, ← hdel, ← hres]
    simp [Doc.writeRecords, buildDelete]
  | undeleteItem maps =>
    unfold DeletionEvent.onDoc OpenOutliner.undeleteItem
    rw [hget]
    refine ⟨rfl, h.writeDeleted _ _ ?_⟩
    intro node hdel hres
    have hd : ∀ e ∈ (s .deleteRecords).2, e.1 ≠ maps .deleteRecords := hmint .deleteRecords
    have hr : ∀ e ∈ (s .restoreRecords).2, e.1 ≠ maps .restoreRecords := hmint .restoreRecords
    simp only [DeletionEvent.exec, execPlan, DeletionEvent.plan]
    rw [W.view_edit_ensure hd, W.view_edit_ensure hr, W.content_ensure hd, ← W.view_getD, ← hdel, ← hres]
    simp [Doc.writeRecords, buildUndelete]

theorem Node.hasActiveDelete_iff {node : Node} :
    node.hasActiveDelete = true ↔ ∃ token ∈ node.deleteRecords.getD ∅,
    token ∉ node.restoreRecords.getD ∅ := by
  unfold Node.hasActiveDelete
  cases node.deleteRecords with
  | none => simp
  | some deletes => simp

/-- An item is deleted when a visible delete token has no visible restore. -/
theorem ShowsRecords.isDeleted_iff {id : JsString} {s : Records Inst} {doc : Doc}
    (h : ShowsRecords W id s doc) :
    (∃ node ∈ doc.items.get id, (readDeleted doc.schemaVersion node).isDeleted = true) ↔
      ∃ token ∈ W.content (s .deleteRecords), token ∉ W.content (s .restoreRecords) := by
  obtain ⟨node, hget, hdel, hres⟩ := h.node
  have hread : (readDeleted doc.schemaVersion node).isDeleted = node.hasActiveDelete := by
    unfold readDeleted
    rw [if_pos h.schemaVersion]
  rw [hget]
  simp only [Option.mem_def, Option.some.injEq, exists_eq_left', hread, Node.hasActiveDelete_iff, hdel, hres,
    W.view_getD]

end Show

section Runs

variable {R Inst : Type} [DecidableEq R] [DecidableEq Inst] {W : Winner Inst}

def NoRecords (init : Records Inst) : Prop := ∀ k, (init k).2 = ∅

def mergedDeletes (s : Records Inst) : Finset JsString := (s .deleteRecords).2.image Prod.snd

/-- Some executed delete had not been merged into any replica when that replica restored the item. -/
def UnobservedDelete (σ : System R (Records Inst) (DeletionEvent Inst)) : Prop :=
  ∃ token, (∃ o ∈ σ.history, o.event.token = some token) ∧
    ∀ o ∈ σ.history, o.event.token = none → token ∉ mergedDeletes o.before

/-- No replica creates a record map that it cannot see another replica has created. -/
def SharesRecords (W : Winner Inst) (σ : System R (Records Inst) (DeletionEvent Inst)) (r : R)
    (ev : DeletionEvent Inst) : Prop :=
  ∀ k, SharesKey (DeletionEvent.plan W) k σ r ev

abbrev DeletionRun (W : Winner Inst) (init : Records Inst)
    (ok : System R (Records Inst) (DeletionEvent Inst) → R → DeletionEvent Inst → Prop) :
    System R (Records Inst) (DeletionEvent Inst) → Prop :=
  System.Run init (DeletionEvent.exec W) fun σ r ev => ev.Mints (σ.state r) ∧ ok σ r ev

variable [Inhabited Inst] {init : Records Inst} {σ : System R (Records Inst) (DeletionEvent Inst)}

theorem records_content (hinit : NoRecords init) (hrun : DeletionRun W init (SharesRecords W) σ)
    (hconv : σ.Converged) (k : RecordKey) (r : R) (token : JsString) :
    token ∈ W.content (σ.state r k) ↔
      ∃ o ∈ σ.history, ∃ fresh es, DeletionEvent.plan W o.event o.before k = some (fresh, es) ∧
      token ∈ es := by
  obtain ⟨H, hH⟩ := run_keyShared (k := k) (fun _ => hinit k) (fun _ _ _ hok => hok.2 k) hrun
  rw [hH.content_iff (fun _ => hinit k) hrun hconv, or_iff_right]
  intro hstart
  obtain ⟨i, -, hi⟩ := W.mem_content.mp hstart
  rw [hinit k] at hi
  exact absurd hi (Finset.notMem_empty _)

theorem deletes_content (hinit : NoRecords init) (hrun : DeletionRun W init (SharesRecords W) σ)
    (hconv : σ.Converged) (r : R) (token : JsString) :
    token ∈ W.content (σ.state r .deleteRecords) ↔ ∃ o ∈ σ.history, o.event.token = some token := by
  rw [records_content hinit hrun hconv]
  constructor
  · rintro ⟨o, ho, fresh, es, hplan, he⟩
    refine ⟨o, ho, ?_⟩
    cases hev : o.event with
    | deleteItem token' maps =>
      simp only [hev, DeletionEvent.plan, Option.some.injEq, Prod.mk.injEq] at hplan
      rw [← hplan.2, Finset.mem_singleton] at he
      rw [he]
      rfl
    | undeleteItem maps =>
      simp only [hev, DeletionEvent.plan, Option.some.injEq, Prod.mk.injEq] at hplan
      rw [← hplan.2] at he
      exact absurd he (Finset.notMem_empty _)
  · rintro ⟨o, ho, htoken⟩
    refine ⟨o, ho, ?_⟩
    cases hev : o.event with
    | deleteItem token' maps =>
      rw [hev] at htoken
      obtain rfl := Option.some.inj htoken
      exact ⟨_, _, rfl, Finset.mem_singleton_self _⟩
    | undeleteItem maps =>
      rw [hev] at htoken
      cases htoken

theorem restores_content (hinit : NoRecords init) (hrun : DeletionRun W init (SharesRecords W) σ)
    (hconv : σ.Converged) (r : R) (token : JsString) :
    token ∈ W.content (σ.state r .restoreRecords) ↔
      ∃ o ∈ σ.history, o.event.token = none ∧ token ∈ mergedDeletes o.before := by
  obtain ⟨D, hD⟩ := run_keyShared (k := .deleteRecords) (fun _ => hinit .deleteRecords)
    (fun _ _ _ hok => hok.2 .deleteRecords) hrun
  have hseen : ∀ o ∈ σ.history, ∀ maps, o.event = .undeleteItem maps →
      (token ∈ W.content (W.ensure (maps .deleteRecords) (o.before .deleteRecords)) ↔
        token ∈ mergedDeletes o.before) := by
    intro o ho maps hev
    have hholds := hD.before o ho (maps .deleteRecords) ∅ (by rw [hev]; rfl)
    rw [hholds.content_iff (W.ensure_nonempty _ _), W.ensure_snd, mergedDeletes, Finset.mem_image]
    constructor
    · intro h
      exact ⟨_, h, rfl⟩
    · rintro ⟨⟨i, t⟩, h, rfl⟩
      have hi := hholds.edits (i, t) (by rwa [W.ensure_snd])
      rw [hinit .deleteRecords] at hi
      obtain rfl := hi.resolve_right (Finset.notMem_empty _)
      exact h
  rw [records_content hinit hrun hconv]
  constructor
  · rintro ⟨o, ho, fresh, es, hplan, he⟩
    refine ⟨o, ho, ?_⟩
    cases hev : o.event with
    | deleteItem token' maps =>
      simp only [hev, DeletionEvent.plan, Option.some.injEq, Prod.mk.injEq] at hplan
      rw [← hplan.2] at he
      exact absurd he (Finset.notMem_empty _)
    | undeleteItem maps =>
      simp only [hev, DeletionEvent.plan, Option.some.injEq, Prod.mk.injEq] at hplan
      rw [← hplan.2] at he
      exact ⟨rfl, (hseen o ho maps hev).mp he⟩
  · rintro ⟨o, ho, htoken, hmerged⟩
    refine ⟨o, ho, ?_⟩
    cases hev : o.event with
    | deleteItem token' maps =>
      rw [hev] at htoken
      cases htoken
    | undeleteItem maps => exact ⟨_, _, rfl, (hseen o ho maps hev).mpr hmerged⟩

/-- While the record maps are shared, the commands act on every replica's document as the events do,
and once all is merged an item reads as deleted exactly when some delete went unobserved. -/
theorem readDeleted_observedRemove (hinit : NoRecords init)
    (hrun : DeletionRun W init (SharesRecords W) σ) (id : JsString) (actor : Actor) :
    (∀ o ∈ σ.history, ∀ doc, ShowsRecords W id o.before doc →
      (o.event.onDoc id actor doc).1 = .ok () ∧
        ShowsRecords W id (o.event.exec W o.before) (o.event.onDoc id actor doc).2) ∧
      (σ.Converged → ∀ r doc, ShowsRecords W id (σ.state r) doc →
        ((∃ node ∈ doc.items.get id, (readDeleted doc.schemaVersion node).isDeleted = true) ↔
          UnobservedDelete σ)) := by
  constructor
  · intro o ho doc hdoc
    have hmint := hrun.history (Q := fun s ev => ev.Mints s) (fun _ _ _ hok => hok.1) o ho
    exact DeletionEvent.onDoc_shows hdoc hmint actor
  · intro hconv r doc hdoc
    rw [hdoc.isDeleted_iff]
    simp only [deletes_content hinit hrun hconv, restores_content hinit hrun hconv, UnobservedDelete,
      not_exists, not_and]

end Runs

section Examples

def greatest : Winner ℕ where
  pick s := if h : s.Nonempty then some (s.max' h) else none
  pick_mem := by
    intro s i h
    split at h
    · rename_i hne
      rw [← Option.some.inj h]
      exact s.max'_mem hne
    · cases h
  pick_isSome := by
    intro s h
    exact ⟨s.max' h, dif_pos h⟩

def noRecords : Records ℕ := fun _ => (∅, ∅)

def start : System Bool (Records ℕ) (DeletionEvent ℕ) := ⟨fun _ => noRecords, []⟩

def deleteA : DeletionEvent ℕ := .deleteItem (js ['a']) fun _ => 2

def restoreA : DeletionEvent ℕ := .undeleteItem fun _ => 3

def deleteB : DeletionEvent ℕ := .deleteItem (js ['b']) fun _ => 1

def deletedApart : System Bool (Records ℕ) (DeletionEvent ℕ) :=
  ((start.act (DeletionEvent.exec greatest) true deleteA).act (DeletionEvent.exec greatest) true restoreA).act
    (DeletionEvent.exec greatest) false deleteB

def recordedDoc (s : Records ℕ) : Doc :=
  (newDoc (js ['r'])).setNode (js ['i'])
    { freshNode with
      deleteRecords := greatest.view (s .deleteRecords), restoreRecords := greatest.view (s .restoreRecords) }

theorem recordedDoc_get (s : Records ℕ) : (recordedDoc s).items.get (js ['i']) =
    some { freshNode with
      deleteRecords := greatest.view (s .deleteRecords), restoreRecords :=
  greatest.view (s .restoreRecords) } := by
  unfold recordedDoc
  rw [Doc.setNode_get, if_pos rfl]

theorem recordedDoc_shows (s : Records ℕ) : ShowsRecords greatest (js ['i']) s (recordedDoc s) :=
  ⟨rfl, (by decide : some (js ['r']) ≠ some (js ['i'])), _, (recordedDoc_get s), rfl, rfl⟩

theorem deletedApart_run :
    DeletionRun greatest noRecords (fun _ _ _ => True) deletedApart := by
  refine .act _ _ (.act _ _ (.act _ _ .start ⟨?_, trivial⟩) ⟨?_, trivial⟩) ⟨?_, trivial⟩
  all_goals
    intro k
    cases k <;> decide

/-- The second device's delete is lost although no restore ever saw it. -/
theorem unobserved_delete_lost :
    DeletionRun greatest noRecords (fun _ _ _ => True) deletedApart.exchange ∧
      deletedApart.exchange.Converged ∧ UnobservedDelete deletedApart.exchange ∧
      ShowsRecords greatest (js ['i']) (deletedApart.exchange.state true)
        (recordedDoc (deletedApart.exchange.state true)) ∧
      ¬ ∃ node ∈ (recordedDoc (deletedApart.exchange.state true)).items.get (js ['i']),
        (readDeleted (some 2) node).isDeleted = true :=
  ⟨deletedApart_run.exchange, System.exchange_converged, ⟨js ['b'], by decide, by decide⟩,
    recordedDoc_shows _, by decide⟩

def deletedShared : System Bool (Records ℕ) (DeletionEvent ℕ) :=
  let deleted := start.act (DeletionEvent.exec greatest) true deleteA
  ((deleted.receive false (deleted.state true)).act (DeletionEvent.exec greatest) true restoreA).act
    (DeletionEvent.exec greatest) false deleteB

theorem deletedShared_run : DeletionRun greatest noRecords (SharesRecords greatest) deletedShared := by
  refine .act _ _ (.act _ _ (.receive _ true _ (.act _ _ .start ⟨?_, ?first⟩) le_rfl)
    ⟨?_, fun k _ => Or.inl ?_⟩) ⟨?_, fun k _ => Or.inl ?_⟩
  case first => exact fun k _ => Or.inr fun _ => rfl
  all_goals first | cases k <;> decide | exact fun k => by cases k <;> decide

theorem readDeleted_observedRemove_shared :
    ((∃ node ∈ (recordedDoc (deletedShared.exchange.state false)).items.get (js ['i']),
        (readDeleted (some 2) node).isDeleted = true) ↔ UnobservedDelete deletedShared.exchange) ∧
      UnobservedDelete deletedShared.exchange :=
  ⟨(readDeleted_observedRemove (fun _ => rfl) deletedShared_run.exchange (js ['i']) deviceA).2
    System.exchange_converged false _ (recordedDoc_shows _), js ['b'], by decide, by decide⟩

end Examples

end OpenOutliner
