import OpenOutliner.Crdt.Replicas

namespace OpenOutliner

open Foundations

inductive Field
  | isCompleted (value : Bool)
  | isCollapsed (value : Bool)
  | type (value : ItemType)
deriving DecidableEq

def Field.set : Field → Node → Node
  | isCompleted value, node => { node with isCompleted := some value }
  | isCollapsed value, node => { node with isCollapsed := some value }
  | type value, node => { node with type := some value }

/-- `editContent` stands for any edit of an item's text. -/
inductive Write
  | move (id : JsString) (move : MoveRegister)
  | deleted (id : JsString) (del : DeletedRegister) (token : JsString)
  | field (id : JsString) (field : Field)
  | ensureContent (id : JsString)
  | editContent (id : JsString) (f : JsString → JsString)

def Doc.writeField (doc : Doc) (id : JsString) (field : Field) : Doc := doc.updateNode id field.set

def Write.run (doc : Doc) : Write → Doc
  | move id m => doc.writeMove id m
  | deleted id del token => doc.writeDeleted id del token
  | field id f => doc.writeField id f
  | ensureContent id => doc.ensureContent id
  | editContent id f => doc.editContent id f

def runWrites (doc : Doc) (writes : List Write) : Doc := writes.foldl Write.run doc

/-- The id that a writer passes to `beforeItemChange`; edits of a text pass none. -/
def Write.announces (doc : Doc) : Write → Option JsString
  | move id m => if doc.rootId = some id ∧ m.parentId ≠ ROOT_PARENT_SENTINEL then none else some id
  | deleted id _ _ => if doc.schemaVersion = some 2 ∧ doc.rootId = some id then none else some id
  | field id _ => some id
  | ensureContent _ | editContent _ _ => none

def Doc.snapshot (doc : Doc) (id : JsString) : Option ItemNodeSnapshot :=
  (doc.items.get id).bind (readNodeSnapshot doc.schemaVersion id)

abbrev Before := OrderedMap JsString (Option ItemNodeSnapshot)

/-- The recorder: only the first announcement of an item counts. -/
def noteBefore (doc : Doc) (before : Before) (id : JsString) : Before :=
  if before.has id then before else before.set id (doc.snapshot id)

def trackWrite (st : Doc × Before) (w : Write) : Doc × Before :=
  (w.run st.1, ((w.announces st.1).map (noteBefore st.1 st.2)).getD st.2)

def trackWrites (doc : Doc) (writes : List Write) : Doc × Before := writes.foldl trackWrite (doc, .empty)

structure Change where
  id : JsString
  before : Option ItemNodeSnapshot
  after : Option ItemNodeSnapshot
deriving DecidableEq

def changesOf (before : Before) (after : Doc) : List Change :=
  before.entries.filterMap fun e => if e.2 = after.snapshot e.1 then none
    else some ⟨e.1, e.2, after.snapshot e.1⟩

def recordChanges (doc : Doc) (writes : List Write) : List Change :=
  changesOf (trackWrites doc writes).2 (trackWrites doc writes).1

section Registers

def Node.registers (node : Node) :
    Option MoveRegister × Option (Finset JsString) × Option
      (Finset JsString) × Option DeletedRegister × Option Bool :=
  (node.move, node.deleteRecords, node.restoreRecords, node.deleted, node.isCompleted)

def ItemNodeSnapshot.registers (s : ItemNodeSnapshot) : MoveRegister × Bool × Bool :=
  (s.move, s.deleted.isDeleted, s.isCompleted)

variable {doc : Doc} {x : JsString}

theorem snapshot_registers {doc doc' : Doc} (hv : doc'.schemaVersion = doc.schemaVersion)
    (h : (doc'.items.get x).map Node.registers = (doc.items.get x).map Node.registers) :
    (doc'.snapshot x).map ItemNodeSnapshot.registers = (doc.snapshot x).map ItemNodeSnapshot.registers := by
  unfold Doc.snapshot
  rw [hv]
  cases hget : doc.items.get x with
  | none =>
    rw [hget, Option.map_none, Option.map_eq_none_iff] at h
    rw [h]
  | some node =>
    rw [hget, Option.map_some, Option.map_eq_some_iff] at h
    obtain ⟨node', hget', he⟩ := h
    simp only [Node.registers, Prod.mk.injEq] at he
    obtain ⟨hmove, hdeletes, hrestores, hdel, hcompleted⟩ := he
    rw [hget', Option.bind_some, Option.bind_some, readNodeSnapshot, readNodeSnapshot, hmove,
      Option.map_map, Option.map_map]
    simp only [Function.comp_def, ItemNodeSnapshot.registers,
      Doc.readDeleted_congr _ hdeletes hrestores hdel, hcompleted]

theorem run_schemaVersion (w : Write) : (w.run doc).schemaVersion = doc.schemaVersion := by
  cases w with
  | move id m => exact doc.writeMove_schemaVersion id m
  | deleted id del token => exact doc.writeDeleted_schemaVersion id del token
  | field id f => exact doc.updateNode_schemaVersion id _
  | ensureContent id => exact doc.updateNode_schemaVersion id _
  | editContent id f => exact doc.updateNode_schemaVersion id _

theorem run_rootId (w : Write) : (w.run doc).rootId = doc.rootId := by
  cases w with
  | move id m => exact doc.writeMove_rootId id m
  | deleted id del token => exact doc.writeDeleted_rootId id del token
  | field id f => exact doc.updateNode_rootId id _
  | ensureContent id => exact doc.updateNode_rootId id _
  | editContent id f => exact doc.updateNode_rootId id _

theorem updateNode_registers (id : JsString) {f : Node → Node}
    (hf : ∀ node, (f node).registers = node.registers) :
    ((doc.updateNode id f).items.get x).map Node.registers = (doc.items.get x).map Node.registers := by
  rw [Doc.updateNode_get]
  split
  · rw [Option.map_map]
    congr 1
    funext node
    exact hf node
  · rfl

theorem updateNode_other {id : JsString} (f : Node → Node) (hx : x ≠ id) :
    (doc.updateNode id f).items.get x = doc.items.get x := by
  rw [Doc.updateNode_get, if_neg hx]

theorem run_unannounced {w : Write} (h : w.announces doc ≠ some x) :
    ((w.run doc).items.get x).map Node.registers = (doc.items.get x).map Node.registers := by
  cases w with
  | move id m =>
    simp only [Write.announces] at h
    simp only [Write.run, Doc.writeMove]
    split
    · rfl
    · rename_i hroot
      rw [if_neg hroot] at h
      rw [Doc.setNode_get, if_neg fun he => h (congrArg some he.symm)]
  | deleted id del token =>
    simp only [Write.announces] at h
    simp only [Write.run, Doc.writeDeleted]
    split
    · rename_i hv
      split
      · rfl
      · rename_i hroot
        rw [if_neg fun he => hroot he.2] at h
        rw [updateNode_other _ fun he => h (congrArg some he.symm)]
    · rename_i hv
      rw [if_neg fun he => hv he.1] at h
      rw [updateNode_other _ fun he => h (congrArg some he.symm)]
  | field id f =>
    have hx : x ≠ id := fun he => h (congrArg some he.symm)
    rw [Write.run, Doc.writeField, updateNode_other _ hx]
  | ensureContent id => exact updateNode_registers id fun _ => rfl
  | editContent id f => exact updateNode_registers id fun _ => rfl

theorem run_moveOf_isSome (w : Write) (h : (doc.moveOf x).isSome = true) :
    ((w.run doc).moveOf x).isSome = true := by
  cases w with
  | move id m =>
    cases doc.writeMove_moveOf id x m with
    | inl he => rwa [Write.run, he]
    | inr he => rw [Write.run, he.2]; rfl
  | deleted id del token => rwa [Write.run, Doc.writeDeleted_moveOf]
  | field id f =>
    rw [Write.run, Doc.writeField, Doc.updateNode_moveOf]
    · exact h
    · intro node
      cases f <;> rfl
  | ensureContent id => rwa [Write.run, Doc.ensureContent_moveOf]
  | editContent id f => rwa [Write.run, Doc.editContent_moveOf]

theorem snapshot_isSome : (doc.snapshot x).isSome = (doc.moveOf x).isSome := by
  unfold Doc.snapshot Doc.moveOf
  cases doc.items.get x with
  | none => rfl
  | some node => exact Option.isSome_map

end Registers

section Tracking

variable {doc : Doc} {x : JsString}

theorem noteBefore_get (cur : Doc) (before : Before) (id : JsString) :
    (noteBefore cur before id).get x = (before.get x).or
    (if x = id then some (cur.snapshot id) else none) := by
  unfold noteBefore
  split
  · rename_i hhas
    obtain ⟨v, hv⟩ := (before.has_iff id).mp hhas
    by_cases hx : x = id
    · rw [hx, hv, Option.some_or]
    · rw [if_neg hx, Option.or_none]
  · rename_i hhas
    have hnone : before.get id = none := by
      rw [Bool.not_eq_true, OrderedMap.has, Option.isSome_eq_false_iff, Option.isNone_iff_eq_none] at hhas
      exact hhas
    rw [OrderedMap.get_set]
    by_cases hx : x = id
    · rw [if_pos hx, if_pos hx, hx, hnone, Option.none_or]
    · rw [if_neg hx, if_neg hx, Option.or_none]

structure Tracked (doc : Doc) (st : Doc × Before) : Prop where
  schemaVersion : st.1.schemaVersion = doc.schemaVersion
  rootId : st.1.rootId = doc.rootId
  announced : ∀ x a, st.2.get x = some a →
    a.map ItemNodeSnapshot.registers = (doc.snapshot x).map ItemNodeSnapshot.registers
  unannounced : ∀ x, st.2.get x = none →
    (st.1.items.get x).map Node.registers = (doc.items.get x).map Node.registers
  placed : ∀ x, (doc.moveOf x).isSome = true → (st.1.moveOf x).isSome = true

theorem tracked_step {st : Doc × Before} (h : Tracked doc st) (w : Write) :
    Tracked doc (trackWrite st w) := by
  refine ⟨(run_schemaVersion w).trans h.schemaVersion, (run_rootId w).trans h.rootId, ?_, ?_, ?_⟩
  · intro x a hget
    cases hw : w.announces st.1 with
    | none =>
      rw [trackWrite, hw] at hget
      exact h.announced x a hget
    | some id =>
      rw [trackWrite, hw, Option.map_some, Option.getD_some, noteBefore_get] at hget
      cases hold : st.2.get x with
      | some b =>
        rw [hold, Option.some_or] at hget
        exact h.announced x a (hold.trans hget)
      | none =>
        rw [hold, Option.none_or] at hget
        split at hget
        · rename_i hx
          subst hx
          obtain rfl := Option.some.inj hget
          exact snapshot_registers h.schemaVersion (h.unannounced x hold)
        · cases hget
  · intro x hget
    have hold : st.2.get x = none ∧ w.announces st.1 ≠ some x := by
      cases hw : w.announces st.1 with
      | none =>
        rw [trackWrite, hw] at hget
        exact ⟨hget, by simp⟩
      | some id =>
        rw [trackWrite, hw, Option.map_some, Option.getD_some, noteBefore_get, Option.or_eq_none_iff] at hget
        refine ⟨hget.1, ?_⟩
        rintro ⟨⟩
        rw [if_pos rfl] at hget
        cases hget.2
    exact (run_unannounced hold.2).trans (h.unannounced x hold.1)
  · intro x hx
    exact run_moveOf_isSome w (h.placed x hx)

theorem trackWrites_spec (doc : Doc) (writes : List Write) : Tracked doc (trackWrites doc writes) := by
  have hfold : ∀ st, Tracked doc st → Tracked doc (writes.foldl trackWrite st) := by
    induction writes with
    | nil => exact fun st h => h
    | cons w writes ih => exact fun st h => ih _ (tracked_step h w)
  exact hfold _ ⟨rfl, rfl, by simp, fun _ _ => rfl, fun _ h => h⟩

theorem trackWrites_doc (doc : Doc) (writes : List Write) :
    (trackWrites doc writes).1 = runWrites doc writes := by
  have hfold : ∀ st : Doc × Before, (writes.foldl trackWrite st).1 = writes.foldl Write.run st.1 := by
    induction writes with
    | nil => exact fun _ => rfl
    | cons w writes ih => exact fun st => ih (trackWrite st w)
  exact hfold _

structure Recorded (doc : Doc) (writes : List Write) (c : Change) : Prop where
  before : c.before.map ItemNodeSnapshot.registers = (doc.snapshot c.id).map ItemNodeSnapshot.registers
  after : c.after = (runWrites doc writes).snapshot c.id
  present : c.after ≠ none

theorem mem_recordChanges {writes : List Write} {c : Change} (h : c ∈ recordChanges doc writes) :
    Recorded doc writes c := by
  have hspec := trackWrites_spec doc writes
  obtain ⟨⟨id, a⟩, hmem, hc⟩ := List.mem_filterMap.mp h
  split at hc
  · cases hc
  · rename_i hne
    obtain rfl := Option.some.inj hc
    have hbefore := hspec.announced id a ((OrderedMap.mem_entries_iff _ _ _).mp hmem)
    refine ⟨hbefore, by rw [← trackWrites_doc], ?_⟩
    intro hnone
    dsimp only at hnone hne
    have hgone : ((trackWrites doc writes).1.moveOf id).isSome = false := by
      rw [← snapshot_isSome, hnone]; rfl
    have hplaced : (doc.snapshot id).isSome = false := by
      rw [snapshot_isSome, ← Bool.not_eq_true]
      intro hsome
      rw [hspec.placed id hsome] at hgone
      cases hgone
    rw [Option.isSome_eq_false_iff, Option.isNone_iff_eq_none] at hplaced
    rw [hplaced, Option.map_none, Option.map_eq_none_iff] at hbefore
    exact hne (hbefore.trans hnone.symm)

end Tracking

end OpenOutliner
