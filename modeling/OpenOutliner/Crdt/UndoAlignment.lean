import OpenOutliner.Crdt.History
import OpenOutliner.Foundations.Machine
import Mathlib.Data.Finset.Lattice.Basic

/-!
One call of undo reverts one action as long as the stack items of the text manager that it pops
still have an effect: only then do the two pairs of stacks stay aligned.
-/

namespace OpenOutliner

open Foundations

/-- The text manager of a document, and what it is assumed to do; `U` are the units of text. -/
structure TextManager (X K U : Type) where
  invert : Invert (Doc × X) K
  shows : Doc × X → U → Bool
  wrote : K → U → Prop
  shows_congr : ∀ {doc doc' : Doc} (texts : X),
    (∀ id, (doc.items.get id).map Node.rest = (doc'.items.get id).map Node.rest) →
      shows (doc, texts) = shows (doc', texts)
  inverts : ∀ {k k' : K} {d d' : Doc × X}, invert k d = some (d', k') →
    (∀ u, ¬ wrote k u → shows d' u = shows d u) ∧ (∀ x r, SameRegister d.1 d'.1 x r) ∧
      ∀ u, wrote k' u → wrote k u

/-- What one local action wrote. -/
structure Footprint (U : Type) where
  register : JsString → Register → Prop
  unit : U → Prop

def UndoManager.stack {K : Type} (m : UndoManager K) : Side → List K
  | .before => m.undoStack
  | .after => m.redoStack

def Side.flip : Side → Side
  | before => after
  | after => before

/-- The next `n` items of a stack each have an effect when their turn comes. -/
def Effective {D K : Type} (invert : Invert D K) : ℕ → List K → D → Prop
  | 0, _, _ => True
  | _ + 1, [], _ => False
  | n + 1, k :: stack, d => ∃ d' k', invert k d = some (d', k') ∧ Effective invert n stack d'

namespace TextManager

variable {X K U : Type} (M : TextManager X K U)

def footprint (d d' : Doc × X) : Footprint U := ⟨ChangedBy d.1 d'.1, fun u => M.shows d u ≠ M.shows d' u⟩

def Captured (d d' : Doc × X) (k : K) : Prop := ∀ u, M.wrote k u → M.shows d u ≠ M.shows d' u

structure Within (f : Option (Footprint U)) (d d' : Doc × X) : Prop where
  registers : ∀ x r, (∀ g ∈ f, ¬ g.register x r) → SameRegister d.1 d'.1 x r
  units : ∀ u, (∀ g ∈ f, ¬ g.unit u) → M.shows d' u = M.shows d u

end TextManager

structure Session (X K U : Type) where
  history : OutlineHistory X K
  past : List (Footprint U)
  future : List (Footprint U)

inductive SessionAct (X K : Type)
  | editText (doc : Doc) (texts : X) (k : K)
  | transact (writes : List Write) (texts : X) (k : Option K)
  | remote (doc : Doc) (texts : X)
  | undo (mint : JsString → JsString)
  | redo (mint : JsString → JsString)

namespace Session

variable {X K U : Type} (M : TextManager X K U)

def create (doc : Doc) (texts : X) : Session X K U := ⟨.create doc texts, [], []⟩

def content (s : Session X K U) : Doc × X := (s.history.doc, s.history.texts)

def step (s : Session X K U) : SessionAct X K → Option (Session X K U)
  | .editText doc texts k =>
    some ⟨s.history.recordText doc texts k, M.footprint s.content (doc, texts) :: s.past, []⟩
  | .transact writes texts k =>
    let history := s.history.recordStructure writes texts k
    if recordChanges s.history.doc writes = [] ∧ k = none then some { s with history }
    else some ⟨history, M.footprint s.content (runWrites s.history.doc writes, texts) :: s.past, []⟩
  | .remote doc texts => some { s with history := { s.history with doc, texts } }
  | .undo mint =>
    some ⟨s.history.undoOnce M.invert mint, s.past.tail, s.past.head?.toList ++ s.future⟩
  | .redo mint =>
    some ⟨s.history.redoOnce M.invert mint, s.future.head?.toList ++ s.past, s.future.tail⟩

/-- What the manager is assumed to put on its stack. -/
def Captures (s : Session X K U) : SessionAct X K → Prop
  | .editText doc texts k => M.Captured s.content (doc, texts) k
  | .transact writes texts k => ∀ k' ∈ k, M.Captured s.content (runWrites s.history.doc writes, texts) k'
  | _ => True

/-- The stack items that one action needs each have an effect. -/
def Ready (s : Session X K U) (side : Side) (mint : JsString → JsString) (actions : List Action) : Prop :=
  ∀ a ∈ actions.head?, Effective M.invert (OutlineHistory.textSteps a) (s.history.manager.stack side)
    (replay side mint s.history.doc (OutlineHistory.changes a), s.history.texts)

/-- The steps on which undo goes by actions. -/
def Orderly (s : Session X K U) : SessionAct X K → Prop
  | .transact writes _ k => recordChanges s.history.doc writes = [] → k = none
  | .undo mint => s.Ready M .before mint s.history.undo
  | .redo mint => s.Ready M .after mint s.history.redo
  | _ => True

end Session

section Alignment

variable {X K U : Type} {M : TextManager X K U}

structure Covers (M : TextManager X K U) (f : Footprint U) (a : Action) (segment : List K) : Prop where
  length : segment.length = OutlineHistory.textSteps a
  units : ∀ k ∈ segment, ∀ u, M.wrote k u → f.unit u
  registers : ∀ c ∈ OutlineHistory.changes a, ∀ side token, ∀ w ∈ c.writes side token,
    ∃ r, w.target = some (c.id, r) ∧ f.register c.id r

inductive Aligned (M : TextManager X K U) : List (Footprint U) → List Action → List K → Prop
  | nil (stack : List K) : Aligned M [] [] stack
  | cons {f : Footprint U} {a : Action} {segment stack : List K} {fs : List (Footprint U)}
      {actions : List Action} :
      Covers M f a segment → Aligned M fs actions stack →
      Aligned M (f :: fs) (a :: actions) (segment ++ stack)

structure Popped (M : TextManager X K U) (side : Side) (P : U → Prop) (n : ℕ) (rest : List K)
    (st st' : UndoManager K × Doc × X) (segment : List K) : Prop where
  stack : st'.1.stack side = rest
  other : st'.1.stack side.flip = segment ++ st.1.stack side.flip
  length : segment.length = n
  units : ∀ k ∈ segment, ∀ u, M.wrote k u → P u
  shows : ∀ u, ¬ P u → M.shows st'.2 u = M.shows st.2 u
  registers : ∀ x r, SameRegister st.2.1 st'.2.1 x r

theorem step_effective {D : Type} {invert : Invert D K} {m : UndoManager K} {d d' : D} {side : Side}
    {k k' : K} {rest : List K} (hstack : m.stack side = k :: rest) (hk : invert k d = some (d', k')) :
    (UndoManager.step invert side (m, d)).2 = d' ∧
    (UndoManager.step invert side (m, d)).1.stack side = rest ∧
    (UndoManager.step invert side (m, d)).1.stack side.flip = k' :: m.stack side.flip := by
  cases side with
  | before =>
    rw [UndoManager.stack] at hstack
    simp only [UndoManager.step, UndoManager.undo, hstack, popStackItem, hk]
    exact ⟨trivial, rfl, rfl⟩
  | after =>
    rw [UndoManager.stack] at hstack
    simp only [UndoManager.step, UndoManager.redo, hstack, popStackItem, hk]
    exact ⟨trivial, rfl, rfl⟩

theorem pops_effective {side : Side} {P : U → Prop} {rest : List K} (n : ℕ) (m : UndoManager K) (d : Doc × X)
    (segment : List K) (hlength : segment.length = n) (hstack : m.stack side = segment ++ rest)
    (heffective : Effective M.invert n (segment ++ rest) d)
    (hunits : ∀ k ∈ segment, ∀ u, M.wrote k u → P u) :
    ∃ segment', Popped M side P n rest (m, d) ((UndoManager.step M.invert side)^[n] (m, d)) segment' := by
  induction n generalizing m d segment with
  | zero =>
    obtain rfl := List.length_eq_zero_iff.mp hlength
    exact ⟨[], hstack, rfl, rfl, by simp, fun _ _ => rfl, fun _ r => sameRegister_of_get rfl r⟩
  | succ n ih =>
    obtain ⟨k, segment, rfl⟩ := List.exists_cons_of_length_eq_add_one hlength
    obtain ⟨d', k', hk, hrest⟩ := heffective
    obtain ⟨hd, hside, hother⟩ := step_effective hstack hk
    obtain ⟨hshows, hregisters, hwrote⟩ := M.inverts hk
    have hk_units := hunits k List.mem_cons_self
    rw [Function.iterate_succ_apply]
    generalize UndoManager.step M.invert side (m, d) = st at hd hside hother
    obtain ⟨m', d''⟩ := st
    obtain rfl : d'' = d' := hd
    obtain ⟨segment', h⟩ := ih m' d'' segment (Nat.succ.inj hlength) hside hrest
      fun k hk => hunits k (List.mem_cons_of_mem _ hk)
    refine ⟨segment' ++ [k'], h.stack, ?_, ?_, ?_, ?_, ?_⟩
    · rw [h.other, hother, List.append_assoc, List.singleton_append]
    · rw [List.length_append, h.length, List.length_singleton]
    · intro x hx u hu
      cases List.mem_append.mp hx with
      | inl hx => exact h.units x hx u hu
      | inr hx =>
        obtain rfl := List.mem_singleton.mp hx
        exact hk_units u (hwrote u hu)
    · intro u hu
      exact (h.shows u hu).trans (hshows u fun hw => hu (hk_units u hw))
    · intro x r
      exact (hregisters x r).trans (h.registers x r)

theorem apply_within {h : OutlineHistory X K} {mint : JsString → JsString} (side : Side) {f : Footprint U}
    {a : Action}
    {segment rest : List K} (hcovers : Covers M f a segment) (hstack : h.manager.stack side = segment ++ rest)
    (heffective : Effective M.invert (OutlineHistory.textSteps a) (h.manager.stack side)
      (replay side mint h.doc (OutlineHistory.changes a), h.texts)) :
    let h' := OutlineHistory.apply M.invert mint h a side
    (h'.undo = h.undo ∧ h'.redo = h.redo) ∧ M.Within (some f) (h.doc, h.texts) (h'.doc, h'.texts) ∧
      ∃ segment', Covers M f a segment' ∧ h'.manager.stack side = rest ∧
        h'.manager.stack side.flip = segment' ++ h.manager.stack side.flip := by
  intro h'
  rw [hstack] at heffective
  obtain ⟨segment', hpop⟩ := pops_effective _ _ _ segment hcovers.length hstack heffective hcovers.units
  have hreplay : Frame f.register h.doc (replay side mint h.doc (OutlineHistory.changes a)) :=
    frame_replay fun c hc => hcovers.registers c hc side (mint c.id)
  refine ⟨⟨rfl, rfl⟩, ⟨?_, ?_⟩, segment', ⟨hpop.length, hpop.units, hcovers.registers⟩,
    hpop.stack, hpop.other⟩
  · intro x r hnot
    exact (hreplay.registers x r (hnot f rfl)).trans (hpop.registers x r)
  · intro u hnot
    exact (hpop.shows u (hnot f rfl)).trans (congrFun (M.shows_congr h.texts hreplay.rest) u).symm

structure SessionInv (M : TextManager X K U) (s : Session X K U) : Prop where
  undo : Aligned M s.past s.history.undo s.history.manager.undoStack
  redo : Aligned M s.future s.history.redo s.history.manager.redoStack

variable {s t : Session X K U} {mint : JsString → JsString}

theorem undo_within (hs : SessionInv M s) (hready : s.Ready M .before mint s.history.undo)
    (hstep : s.step M (.undo mint) = some t) :
    SessionInv M t ∧ M.Within s.past.head? s.content t.content := by
  obtain ⟨h, past, future⟩ := s
  obtain rfl := Option.some.inj hstep
  obtain ⟨doc, texts, ⟨undoStack, redoStack⟩, undo, redo⟩ := h
  have hundo : Aligned M past undo undoStack := hs.undo
  cases hundo with
  | nil stack => exact ⟨hs, fun _ r _ => sameRegister_of_get rfl r, fun _ _ => rfl⟩
  | cons hcovers halign =>
    rename_i f a segment stack fs actions
    obtain ⟨-, hwithin, segment', hcovers', hside, hother⟩ :=
      apply_within (h := ⟨doc, texts, ⟨segment ++ stack, redoStack⟩, actions, redo⟩) .before hcovers rfl
        (hready a rfl)
    refine ⟨⟨?_, ?_⟩, hwithin⟩
    · exact (congrArg (Aligned M fs actions) hside).mpr halign
    · exact (congrArg (Aligned M (f :: future) (a :: redo)) hother).mpr (.cons hcovers' hs.redo)

theorem redo_within (hs : SessionInv M s) (hready : s.Ready M .after mint s.history.redo)
    (hstep : s.step M (.redo mint) = some t) :
    SessionInv M t ∧ M.Within s.future.head? s.content t.content := by
  obtain ⟨h, past, future⟩ := s
  obtain rfl := Option.some.inj hstep
  obtain ⟨doc, texts, ⟨undoStack, redoStack⟩, undo, redo⟩ := h
  have hredo : Aligned M future redo redoStack := hs.redo
  cases hredo with
  | nil stack => exact ⟨hs, fun _ r _ => sameRegister_of_get rfl r, fun _ _ => rfl⟩
  | cons hcovers halign =>
    rename_i f a segment stack fs actions
    obtain ⟨-, hwithin, segment', hcovers', hside, hother⟩ :=
      apply_within (h := ⟨doc, texts, ⟨undoStack, segment ++ stack⟩, undo, actions⟩) .after hcovers rfl
        (hready a rfl)
    refine ⟨⟨?_, ?_⟩, hwithin⟩
    · exact (congrArg (Aligned M (f :: past) (a :: undo)) hother).mpr (.cons hcovers' hs.undo)
    · exact (congrArg (Aligned M fs actions) hside).mpr halign

theorem transact_inv {writes : List Write} {texts : X} {k : Option K} (hs : SessionInv M s)
    (hcaptured : s.Captures M (.transact writes texts k)) (horderly : s.Orderly M (.transact writes texts k))
    (hstep : s.step M (.transact writes texts k) = some t) : SessionInv M t := by
  obtain ⟨h, past, future⟩ := s
  simp only [Session.Captures, Session.Orderly, Session.content] at hcaptured horderly
  simp only [Session.step, OutlineHistory.recordStructure] at hstep
  by_cases hnone : recordChanges h.doc writes = []
  · obtain rfl := horderly hnone
    simp only [hnone, and_self, if_true] at hstep
    obtain rfl := Option.some.inj hstep
    exact ⟨hs.undo, hs.redo⟩
  · simp only [hnone, false_and, if_false] at hstep
    obtain rfl := Option.some.inj hstep
    have hregisters : ∀ c ∈ recordChanges h.doc writes, ∀ side token, ∀ w ∈ c.writes side token,
        ∃ r, w.target = some (c.id, r) ∧ ChangedBy h.doc (runWrites h.doc writes) c.id r :=
      fun c hc _ _ w hw => (mem_recordChanges hc).target hw
    cases k with
    | none =>
      have hcovers : Covers M (M.footprint (h.doc, h.texts) (runWrites h.doc writes, texts))
          (.structural (recordChanges h.doc writes)
            (h.manager.undoStack.length - h.manager.undoStack.length)) [] :=
        ⟨by simp [OutlineHistory.textSteps], by simp, hregisters⟩
      exact ⟨.cons hcovers hs.undo, .nil _⟩
    | some k =>
      have hcovers : Covers M (M.footprint (h.doc, h.texts) (runWrites h.doc writes, texts))
          (.structural (recordChanges h.doc writes)
            ((h.manager.push k).undoStack.length - h.manager.undoStack.length)) [k] := by
        refine ⟨by simp [OutlineHistory.textSteps, UndoManager.push], ?_, hregisters⟩
        intro k' hk'
        obtain rfl := List.mem_singleton.mp hk'
        exact hcaptured k' rfl
      exact ⟨.cons hcovers hs.undo, .nil _⟩

theorem session_inv {a : SessionAct X K} (hs : SessionInv M s) (hok : s.Captures M a ∧ s.Orderly M a)
    (hstep : s.step M a = some t) : SessionInv M t := by
  cases a with
  | editText doc texts k =>
    obtain rfl := Option.some.inj hstep
    have hcovers : Covers M (M.footprint s.content (doc, texts)) .text [k] := by
      refine ⟨rfl, ?_, fun c hc => absurd hc (by simp [OutlineHistory.changes])⟩
      intro k' hk'
      obtain rfl := List.mem_singleton.mp hk'
      exact hok.1
    exact ⟨.cons hcovers hs.undo, .nil _⟩
  | transact writes texts k => exact transact_inv hs hok.1 hok.2 hstep
  | remote doc texts =>
    obtain rfl := Option.some.inj hstep
    exact ⟨hs.undo, hs.redo⟩
  | undo mint => exact (undo_within hs hok.2 hstep).1
  | redo mint => exact (redo_within hs hok.2 hstep).1

end Alignment

section Units

structure UnitItem where
  inserted : Finset ℕ
  erased : Finset ℕ
deriving DecidableEq

def UnitItem.invert : Invert (Doc × Finset ℕ) UnitItem := fun k d =>
  let erased := k.inserted ∩ d.2
  let revived := (k.erased \ k.inserted) \ d.2
  if erased = ∅ ∧ revived = ∅ then none else some ((d.1, (d.2 \ erased) ∪ revived), ⟨revived, erased⟩)

def unitManager : TextManager (Finset ℕ) UnitItem ℕ where
  invert := UnitItem.invert
  shows d u := u ∈ d.2
  wrote k u := u ∈ k.inserted ∪ k.erased
  shows_congr _ _ := rfl
  inverts := by
    intro k k' d d' h
    unfold UnitItem.invert at h
    dsimp only at h
    split at h
    · cases h
    · cases h
      refine ⟨?_, fun _ r => sameRegister_of_get rfl r, ?_⟩
      · intro u hu
        simp only [Finset.mem_union, not_or] at hu
        simp [hu.1, hu.2]
      · intro u hu
        simp only [Finset.mem_union, Finset.mem_inter, Finset.mem_sdiff] at hu ⊢
        tauto

def noItems : Doc := ⟨some 2, some [], .empty⟩

/-- Two edits, of one unit and of two; then a collaborator erases one of the two units and inserts another. -/
def sharedEdits : List (SessionAct (Finset ℕ) UnitItem) :=
  [.editText noItems {1} ⟨{1}, ∅⟩, .editText noItems {1, 2, 3} ⟨{2, 3}, ∅⟩, .remote noItems {1, 3, 9}]

def erasedByOther : List (SessionAct (Finset ℕ) UnitItem) :=
  [.editText noItems {1} ⟨{1}, ∅⟩, .editText noItems {1, 2} ⟨{2}, ∅⟩, .remote noItems {1}]

end Units

/-- In a run whose steps are all orderly, each undo reverts within the latest action that is not undone, and
each redo within the action that was undone last. -/
theorem undo_one_action {X K U : Type} (M : TextManager X K U) (doc : Doc) (texts : X) {s t : Session X K U}
    (hrun : Runs (Session.step M) (fun s a => s.Captures M a ∧ s.Orderly M a) (.create doc texts) s)
    (mint : JsString → JsString) :
    (s.Orderly M (.undo mint) → s.step M (.undo mint) = some t → M.Within s.past.head? s.content t.content) ∧
    (s.Orderly M (.redo mint) → s.step M (.redo mint) = some t →
      M.Within s.future.head? s.content t.content) := by
  have hinv : SessionInv M s := hrun.invariant session_inv ⟨.nil _, .nil _⟩
  exact ⟨fun h hstep => (undo_within hinv h hstep).2, fun h hstep => (redo_within hinv h hstep).2⟩

/-- The collaborator has erased one of the two units of the second edit and typed one of their own: the undo
takes the other unit and leaves the first edit alone. -/
theorem undo_one_action_shared :
    ∃ s t : Session (Finset ℕ) UnitItem ℕ,
    execute (Session.step unitManager) (.create noItems ∅) sharedEdits = some s ∧
      s.content = (noItems, {1, 3, 9}) ∧ s.step unitManager (.undo id) = some t ∧
      t.content = (noItems, {1, 9}) ∧
      unitManager.Within s.past.head? s.content t.content := by
  have hsteps : ∃ s₁ s₂ s t : Session (Finset ℕ) UnitItem ℕ,
      (Session.create noItems ∅).step unitManager (.editText noItems {1} ⟨{1}, ∅⟩) = some s₁ ∧
      s₁.step unitManager (.editText noItems {1, 2, 3} ⟨{2, 3}, ∅⟩) = some s₂ ∧ s₁.content = (noItems, {1}) ∧
      s₂.step unitManager (.remote noItems {1, 3, 9}) = some s ∧
      s.content = (noItems, {1, 3, 9}) ∧ s.step unitManager (.undo id) = some t ∧
      t.content = (noItems, {1, 9}) ∧
      s.history.undo = [.text, .text] ∧ s.history.manager.undoStack = [⟨{2, 3}, ∅⟩, ⟨{1}, ∅⟩] :=
    ⟨_, _, _, _, rfl, rfl, rfl, rfl, rfl, rfl, Prod.ext rfl (by decide), rfl, rfl⟩
  obtain ⟨s₁, s₂, s, t, h₁, h₂, hcontent, h₃, hbefore, hundo, hafter, hactions, hstack⟩ := hsteps
  have hfirst : Session.Captures unitManager (.create noItems ∅) (.editText noItems {1} ⟨{1}, ∅⟩) := by
    intro u hu
    simp_all [unitManager, Session.create, Session.content, OutlineHistory.create]
  have hsecond : s₁.Captures unitManager (.editText noItems {1, 2, 3} ⟨{2, 3}, ∅⟩) := by
    intro u hu
    rw [hcontent]
    simp only [unitManager, Finset.union_empty, Finset.mem_insert, Finset.mem_singleton] at hu
    obtain rfl | rfl := hu <;> decide
  have hrun : Runs (Session.step unitManager) (fun s a => s.Captures unitManager a ∧ s.Orderly unitManager a)
      (.create noItems ∅) s :=
    .step (.remote noItems {1, 3, 9}) (.step _ (.step _ .refl ⟨hfirst, trivial⟩ h₁) ⟨hsecond, trivial⟩ h₂)
      ⟨trivial, trivial⟩ h₃
  have hready : s.Orderly unitManager (.undo id) := by
    intro a ha
    rw [hactions] at ha
    obtain rfl := Option.some.inj ha
    have htexts : s.history.texts = {1, 3, 9} := congrArg Prod.snd hbefore
    rw [UndoManager.stack, hstack, htexts]
    exact ⟨_, _, rfl, trivial⟩
  exact ⟨s, t, execute_cons h₁ (execute_cons h₂ (execute_cons h₃ rfl)), hbefore, hundo, hafter,
    (undo_one_action unitManager noItems ∅ hrun id).1 hready hundo⟩

theorem undo_two_actions :
    ¬ ∀ (doc : Doc) (texts : Finset ℕ) (s t : Session (Finset ℕ) UnitItem ℕ) (mint : JsString → JsString),
      Runs (Session.step unitManager) (Session.Captures unitManager) (.create doc texts) s →
        s.step unitManager (.undo mint) = some t → unitManager.Within s.past.head? s.content t.content := by
  intro h
  have hrun : Runs (Session.step unitManager) (Session.Captures unitManager) (.create noItems ∅)
      ((execute (Session.step unitManager) (.create noItems ∅) erasedByOther).get rfl) := by
    refine .step (.remote noItems {1}) (.step (.editText noItems {1, 2} ⟨{2}, ∅⟩)
      (.step (.editText noItems {1} ⟨{1}, ∅⟩) .refl ?_ rfl) ?_ rfl) trivial rfl
    · intro u hu
      simp_all [unitManager, Session.create, Session.content, OutlineHistory.create]
    · intro u hu
      simp_all [unitManager, Session.create, Session.content, OutlineHistory.create,
        OutlineHistory.recordText]
  have hwithin := (h noItems ∅ _ _ id hrun rfl).units 1 ?_
  · exact absurd hwithin (by decide)
  · intro g hg hunit
    obtain rfl := Option.some.inj hg
    exact hunit rfl

end OpenOutliner
