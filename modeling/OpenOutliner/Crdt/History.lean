import OpenOutliner.Crdt.ItemChanges

/-!
The undo history of an outline: its own two stacks of actions, beside the two stacks of the text
manager, whose items it counts. A structural action is undone by writing registers.
-/

namespace OpenOutliner

open Foundations

inductive Side
  | before | after
deriving DecidableEq

def Change.state (c : Change) : Side → Option ItemNodeSnapshot
  | .before => c.before
  | .after => c.after

def Change.keeps {α : Type} [DecidableEq α] (c : Change) (f : ItemNodeSnapshot → α) : Bool :=
  match c.before, c.after with
  | some a, some b => f a = f b
  | _, _ => false

/-- What `apply` writes for an item that is there; `token` is the UUID of a delete. -/
def Change.writes (side : Side) (token : JsString) (c : Change) : List Write :=
  match c.state side with
  | none => [.deleted c.id ⟨true, noHlc⟩ token]
  | some state =>
    (if c.keeps ItemNodeSnapshot.move then [] else [.move c.id state.move]) ++
    (if c.keeps fun s => s.deleted.isDeleted then [] else [.deleted c.id state.deleted token]) ++
    if c.before.map ItemNodeSnapshot.isCompleted ≠ c.after.map ItemNodeSnapshot.isCompleted then
      [.field c.id (.isCompleted state.isCompleted)]
    else []

def replay (side : Side) (mint : JsString → JsString) (doc : Doc) (changes : List Change) : Doc :=
  changes.foldl (fun doc c => if doc.items.has c.id then runWrites doc (c.writes side (mint c.id))
    else doc) doc

inductive Action
  | text
  | structural (changes : List Change) (textSteps : ℕ)

structure UndoManager (K : Type) where
  undoStack : List K
  redoStack : List K

/-- What undoing a stack item does: none without an effect, else the state and the item that takes it back. -/
abbrev Invert (D K : Type) := K → D → Option (D × K)

section Manager

variable {D K : Type} (invert : Invert D K)

/-- `popStackItem`: items without an effect are dropped, until one has an effect. -/
def popStackItem : List K → D → Option (D × K × List K)
  | [], _ => none
  | k :: stack, d =>
    match invert k d with
    | some (d, inverse) => some (d, inverse, stack)
    | none => popStackItem stack d

def UndoManager.undo (m : UndoManager K) (d : D) : UndoManager K × D :=
  match popStackItem invert m.undoStack d with
  | some (d, inverse, stack) => (⟨stack, inverse :: m.redoStack⟩, d)
  | none => (⟨[], m.redoStack⟩, d)

def UndoManager.redo (m : UndoManager K) (d : D) : UndoManager K × D :=
  match popStackItem invert m.redoStack d with
  | some (d, inverse, stack) => (⟨inverse :: m.undoStack, stack⟩, d)
  | none => (⟨m.undoStack, []⟩, d)

def UndoManager.step (side : Side) (st : UndoManager K × D) : UndoManager K × D :=
  match side with
  | .before => st.1.undo invert st.2
  | .after => st.1.redo invert st.2

def UndoManager.push (m : UndoManager K) (k : K) : UndoManager K := ⟨k :: m.undoStack, []⟩

end Manager

/-- `X` is what the document holds of texts beside its items. -/
structure OutlineHistory (X K : Type) where
  doc : Doc
  texts : X
  manager : UndoManager K
  undo : List Action
  redo : List Action

namespace OutlineHistory

variable {X K : Type}

def create (doc : Doc) (texts : X) : OutlineHistory X K := ⟨doc, texts, ⟨[], []⟩, [], []⟩

def recordText (h : OutlineHistory X K) (doc : Doc) (texts : X) (k : K) : OutlineHistory X K :=
  ⟨doc, texts, h.manager.push k, .text :: h.undo, []⟩

def recordStructure (h : OutlineHistory X K) (writes : List Write) (texts : X) (k : Option K) :
    OutlineHistory X K :=
  let changes := recordChanges h.doc writes
  let manager := match k with
    | some k => h.manager.push k
    | none => h.manager
  if changes = [] then { h with doc := runWrites h.doc writes, texts, manager }
  else ⟨runWrites h.doc writes, texts, manager,
    .structural changes (manager.undoStack.length - h.manager.undoStack.length) :: h.undo, []⟩

def textSteps : Action → ℕ
  | .text => 1
  | .structural _ n => n

def changes : Action → List Change
  | .text => []
  | .structural changes _ => changes

def apply (invert : Invert (Doc × X) K) (mint : JsString → JsString) (h : OutlineHistory X K) (a : Action)
    (side : Side) : OutlineHistory X K :=
  let doc := replay side mint h.doc (changes a)
  let (manager, d) := (UndoManager.step invert side)^[textSteps a] (h.manager, (doc, h.texts))
  { h with doc := d.1, texts := d.2, manager }

def undoOnce (invert : Invert (Doc × X) K) (mint : JsString → JsString) (h : OutlineHistory X K) :
    OutlineHistory X K :=
  match h.undo with
  | [] => h
  | a :: rest =>
    let h := apply invert mint { h with undo := rest } a .before
    { h with redo := a :: h.redo }

def redoOnce (invert : Invert (Doc × X) K) (mint : JsString → JsString) (h : OutlineHistory X K) :
    OutlineHistory X K :=
  match h.redo with
  | [] => h
  | a :: rest =>
    let h := apply invert mint { h with redo := rest } a .after
    { h with undo := a :: h.undo }

end OutlineHistory

inductive Register
  | move | deletion | completion
deriving DecidableEq

def Write.target : Write → Option (JsString × Register)
  | move id _ => some (id, .move)
  | deleted id _ _ => some (id, .deletion)
  | field id (.isCompleted _) => some (id, .completion)
  | _ => none

def SameRegister (doc doc' : Doc) (x : JsString) : Register → Prop
  | .move => (doc.items.get x).map Node.move = (doc'.items.get x).map Node.move
  | .deletion => (doc.items.get x).map (fun n => (n.deleteRecords, n.restoreRecords, n.deleted)) =
      (doc'.items.get x).map fun n => (n.deleteRecords, n.restoreRecords, n.deleted)
  | .completion => (doc.items.get x).map Node.isCompleted = (doc'.items.get x).map Node.isCompleted

/-- A transaction from `doc` to `after` inserts the item, or changes the register's value. -/
def ChangedBy (doc after : Doc) (x : JsString) (r : Register) : Prop :=
  doc.snapshot x = none ∧ after.snapshot x ≠ none ∨
    match r with
    | .move => (doc.snapshot x).map ItemNodeSnapshot.move ≠ (after.snapshot x).map ItemNodeSnapshot.move
    | .deletion => (doc.snapshot x).map (fun s => s.deleted.isDeleted) ≠
        (after.snapshot x).map fun s => s.deleted.isDeleted
    | .completion => (doc.snapshot x).map ItemNodeSnapshot.isCompleted ≠
        (after.snapshot x).map ItemNodeSnapshot.isCompleted

section Frame

variable {doc cur : Doc} {writes : List Write} {c : Change} {side : Side} {token x : JsString} {w : Write}
  {r : Register}

theorem map_of_registers {α : Type} (f : MoveRegister × Bool × Bool → α) {a b : Option ItemNodeSnapshot}
    (h : a.map ItemNodeSnapshot.registers = b.map ItemNodeSnapshot.registers) :
    a.map (fun s => f s.registers) = b.map fun s => f s.registers := by
  have hmap := congrArg (Option.map f) h
  rwa [Option.map_map, Option.map_map] at hmap

theorem Recorded.inserted (h : Recorded doc writes c) (hbefore : c.before = none) (r : Register) :
    ChangedBy doc (runWrites doc writes) c.id r := by
  have hb := h.before
  rw [hbefore, Option.map_none, eq_comm, Option.map_eq_none_iff] at hb
  exact Or.inl ⟨hb, h.after ▸ h.present⟩

theorem not_keeps {α : Type} [DecidableEq α] {f : ItemNodeSnapshot → α} (h : c.keeps f = false)
    (hafter : c.after ≠ none) : c.before = none ∨ c.before.map f ≠ c.after.map f := by
  obtain ⟨b, hb⟩ := Option.ne_none_iff_exists'.mp hafter
  cases ha : c.before with
  | none => exact Or.inl rfl
  | some a =>
    rw [Change.keeps, ha, hb] at h
    rw [hb]
    exact Or.inr (by simpa using h)

theorem Recorded.target (h : Recorded doc writes c) (hw : w ∈ c.writes side token) :
    ∃ r, w.target = some (c.id, r) ∧ ChangedBy doc (runWrites doc writes) c.id r := by
  unfold Change.writes at hw
  split at hw
  · rename_i hstate
    obtain rfl := List.mem_singleton.mp hw
    cases side with
    | before => exact ⟨.deletion, rfl, h.inserted hstate _⟩
    | after => exact absurd hstate h.present
  · rename_i state hstate
    rw [List.mem_append, List.mem_append] at hw
    obtain (hw | hw) | hw := hw
    · split at hw
      · cases hw
      · rename_i hkeeps
        obtain rfl := List.mem_singleton.mp hw
        refine ⟨.move, rfl, ?_⟩
        cases not_keeps (Bool.eq_false_iff.mpr hkeeps) h.present with
        | inl hnone => exact h.inserted hnone _
        | inr hne =>
          have hmove : c.before.map ItemNodeSnapshot.move = (doc.snapshot c.id).map ItemNodeSnapshot.move :=
            map_of_registers Prod.fst h.before
          rw [h.after, hmove] at hne
          exact Or.inr hne
    · split at hw
      · cases hw
      · rename_i hkeeps
        obtain rfl := List.mem_singleton.mp hw
        refine ⟨.deletion, rfl, ?_⟩
        cases not_keeps (Bool.eq_false_iff.mpr hkeeps) h.present with
        | inl hnone => exact h.inserted hnone _
        | inr hne =>
          have hdeleted : c.before.map (fun s => s.deleted.isDeleted) =
              (doc.snapshot c.id).map fun s => s.deleted.isDeleted :=
            map_of_registers (fun q => q.2.1) h.before
          rw [h.after, hdeleted] at hne
          exact Or.inr hne
    · split at hw
      · rename_i hne
        obtain rfl := List.mem_singleton.mp hw
        refine ⟨.completion, rfl, ?_⟩
        have hcompleted : c.before.map ItemNodeSnapshot.isCompleted =
            (doc.snapshot c.id).map ItemNodeSnapshot.isCompleted := map_of_registers (fun q => q.2.2) h.before
        rw [h.after, hcompleted] at hne
        exact Or.inr hne
      · cases hw

def Node.rest (node : Node) : Option JsString × Option JsString × Option ItemType × Option Bool :=
  (node.content, node.note, node.type, node.isCollapsed)

structure Frame (P : JsString → Register → Prop) (doc doc' : Doc) : Prop where
  keys : doc'.items.keys = doc.items.keys
  rest : ∀ x, (doc.items.get x).map Node.rest = (doc'.items.get x).map Node.rest
  registers : ∀ x r, ¬ P x r → SameRegister doc doc' x r

variable {P : JsString → Register → Prop}

theorem sameRegister_of_get {doc doc' : Doc} (h : doc.items.get x = doc'.items.get x) (r : Register) :
    SameRegister doc doc' x r := by
  cases r <;> simp only [SameRegister, h]

theorem SameRegister.trans {a b d : Doc} (h : SameRegister a b x r) (h' : SameRegister b d x r) :
    SameRegister a d x r := by
  cases r <;> exact Eq.trans h h'

theorem Frame.refl (doc : Doc) : Frame P doc doc :=
  ⟨rfl, fun _ => rfl, fun _ r _ => sameRegister_of_get rfl r⟩

theorem Frame.trans {a b d : Doc} (h : Frame P a b) (h' : Frame P b d) : Frame P a d :=
  ⟨h'.keys.trans h.keys, fun x => (h.rest x).trans (h'.rest x),
    fun x r hP => (h.registers x r hP).trans (h'.registers x r hP)⟩

theorem frame_updateNode (id : JsString) {f : Node → Node} {allowed : Register} (hP : P id allowed)
    (hrest : ∀ node, (f node).rest = node.rest)
    (hregs : ∀ r ≠ allowed, SameRegister cur (cur.updateNode id f) id r) :
    Frame P cur (cur.updateNode id f) := by
  refine ⟨?_, ?_, ?_⟩
  · unfold Doc.updateNode
    split
    · rfl
    · rename_i node hget
      rw [Doc.setNode, OrderedMap.keys_set, if_pos ((OrderedMap.mem_keys_iff _ _).mpr ⟨node, hget⟩)]
  · intro x
    rw [Doc.updateNode_get]
    split
    · rw [Option.map_map]
      congr 1
      funext node
      exact (hrest node).symm
    · rfl
  · intro x r hnot
    by_cases hx : x = id
    · subst hx
      apply hregs
      rintro rfl
      exact hnot hP
    · exact sameRegister_of_get (updateNode_other f hx).symm r

theorem same_updateNode {f : Node → Node} {α : Type} (g : Node → α) (hg : ∀ node, g (f node) = g node) :
    (cur.items.get x).map g = ((cur.updateNode x f).items.get x).map g := by
  rw [Doc.updateNode_get, if_pos rfl, Option.map_map]
  congr 1
  funext node
  exact (hg node).symm

theorem frame_run {id : JsString} (hhas : cur.items.has id = true) (htarget : w.target = some (id, r))
    (hP : P id r) :
    Frame P cur (w.run cur) := by
  cases w with
  | move id' m =>
    cases htarget
    have hupdate : cur.writeMove id m = cur ∨
        cur.writeMove id m = cur.updateNode id fun node => { node with move := some m } := by
      obtain ⟨node, hget⟩ := (cur.items.has_iff id).mp hhas
      unfold Doc.writeMove Doc.updateNode
      rw [hget]
      split
      · exact Or.inl rfl
      · exact Or.inr rfl
    cases hupdate with
    | inl hsame =>
      rw [Write.run, hsame]
      exact Frame.refl _
    | inr hsame =>
      rw [Write.run, hsame]
      refine frame_updateNode id hP (fun _ => rfl) ?_
      intro r hr
      cases r with
      | move => exact absurd rfl hr
      | deletion => exact same_updateNode _ fun _ => rfl
      | completion => exact same_updateNode _ fun _ => rfl
  | deleted id' del token =>
    cases htarget
    have hrecords : ∀ f : Node → Node, (∀ node, (f node).rest = node.rest ∧ (f node).move = node.move ∧
        (f node).isCompleted = node.isCompleted) → Frame P cur (cur.updateNode id f) := by
      intro f hf
      refine frame_updateNode id hP (fun node => (hf node).1) ?_
      intro r hr
      cases r with
      | move => exact same_updateNode _ fun node => (hf node).2.1
      | deletion => exact absurd rfl hr
      | completion => exact same_updateNode _ fun node => (hf node).2.2
    simp only [Write.run, Doc.writeDeleted]
    split
    · split
      · exact Frame.refl _
      · apply hrecords
        intro node
        unfold Doc.writeRecords
        split <;> exact ⟨rfl, rfl, rfl⟩
    · exact hrecords _ fun _ => ⟨rfl, rfl, rfl⟩
  | field id' f =>
    cases f with
    | isCompleted value =>
      cases htarget
      refine frame_updateNode id hP (fun _ => rfl) ?_
      intro r hr
      cases r with
      | move => exact same_updateNode _ fun _ => rfl
      | deletion => exact same_updateNode _ fun _ => rfl
      | completion => exact absurd rfl hr
    | isCollapsed value => cases htarget
    | type value => cases htarget
  | ensureContent id' => cases htarget
  | editContent id' f => cases htarget

theorem frame_runWrites {id : JsString} {ws : List Write} (hhas : cur.items.has id = true)
    (hws : ∀ w ∈ ws, ∃ r, w.target = some (id, r) ∧ P id r) : Frame P cur (runWrites cur ws) := by
  induction ws generalizing cur with
  | nil => exact Frame.refl _
  | cons w ws ih =>
    obtain ⟨r, htarget, hP⟩ := hws w List.mem_cons_self
    have hstep : Frame P cur (w.run cur) := frame_run hhas htarget hP
    have hhas' : (w.run cur).items.has id = true := by
      rw [OrderedMap.has_iff, ← OrderedMap.mem_keys_iff, hstep.keys, OrderedMap.mem_keys_iff,
        ← OrderedMap.has_iff]
      exact hhas
    exact hstep.trans (ih hhas' fun w hw => hws w (List.mem_cons_of_mem _ hw))

theorem frame_replay {mint : JsString → JsString} {changes : List Change}
    (hchanges : ∀ c ∈ changes, ∀ w ∈ c.writes side (mint c.id), ∃ r, w.target = some (c.id, r) ∧ P c.id r) :
    Frame P cur (replay side mint cur changes) := by
  induction changes generalizing cur with
  | nil => exact Frame.refl _
  | cons c changes ih =>
    have hrest := fun c' (hc' : c' ∈ changes) => hchanges c' (List.mem_cons_of_mem _ hc')
    rw [replay, List.foldl_cons]
    split
    · rename_i hhas
      exact (frame_runWrites hhas (hchanges c List.mem_cons_self)).trans (ih hrest)
    · exact ih hrest

end Frame

/-- Undoing or redoing a recorded action on any document writes only registers that the action changed;
no item comes or goes, and all else stays. -/
theorem createOutlineHistory_frame {X K : Type} (h : OutlineHistory X K) (writes : List Write) (texts : X)
    (k : Option K) :
    let A := recordChanges h.doc writes
    ((h.recordStructure writes texts k).undo = h.undo ∨
      ∃ n, (h.recordStructure writes texts k).undo = .structural A n :: h.undo) ∧
    ∀ (side : Side) (mint : JsString → JsString) (cur : Doc),
      (∀ c ∈ A, ∀ w ∈ c.writes side (mint c.id), ∃ r, w.target = some (c.id, r) ∧
        ChangedBy h.doc (runWrites h.doc writes) c.id r) ∧
      Frame (ChangedBy h.doc (runWrites h.doc writes)) cur (replay side mint cur A) := by
  intro A
  constructor
  · unfold OutlineHistory.recordStructure
    dsimp only
    split
    · exact Or.inl rfl
    · exact Or.inr ⟨_, rfl⟩
  · intro side mint cur
    have htargets : ∀ c ∈ A, ∀ w ∈ c.writes side (mint c.id), ∃ r, w.target = some (c.id, r) ∧
        ChangedBy h.doc (runWrites h.doc writes) c.id r := fun c hc w hw => (mem_recordChanges hc).target hw
    exact ⟨htargets, frame_replay htargets⟩

end OpenOutliner
