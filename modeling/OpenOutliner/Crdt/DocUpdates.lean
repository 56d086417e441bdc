import OpenOutliner.Crdt.ItemChanges
import OpenOutliner.Crdt.TextEdits

/-!
The document as the updates that a replica holds: nodes set under a key, settings of a node's placement and
operations on its content. Every write of a transaction adds what it does in Yjs.
-/

namespace OpenOutliner

open Foundations

/-- `initialised` sets the version and the root; a node is named with the key that it was set under. -/
inductive DocOp (Inst M U : Type)
  | initialised
  | node (id : JsString) (i : Inst)
  | move (id : JsString) (i : Inst) (m : M)
  | text (id : JsString) (i : Inst) (op : TextOp U)
deriving DecidableEq

def DocOp.key {Inst M U : Type} : DocOp Inst M U → Option JsString
  | initialised => none
  | node id _ | move id _ _ | text id _ _ => some id

abbrev DocLog (Inst M U : Type) := Finset (DocOp Inst M U)

/-- What Yjs shows of the updates that it holds: one of the nodes set under a key, one setting of a
placement, and the text; `register` is what each setting says. -/
structure Reading (Inst M U : Type) where
  node : Winner Inst
  move : Winner M
  register : M → MoveRegister
  text : YText U

section Log

variable {Inst M U : Type} [DecidableEq Inst] [DecidableEq M] [DecidableEq U]

namespace DocLog

variable (Y : Reading Inst M U) (s t : DocLog Inst M U) (id : JsString) (i : Inst)

def instances : Finset Inst := s.biUnion fun
  | .node x i => if x = id then {i} else ∅
  | _ => ∅

def moves : Finset M := s.biUnion fun
  | .move x j m => if x = id ∧ j = i then {m} else ∅
  | _ => ∅

def texts : Finset (TextOp U) := s.biUnion fun
  | .text x j op => if x = id ∧ j = i then {op} else ∅
  | _ => ∅

def nodeAt : Option Inst := Y.node.pick (s.instances id)

def moveAt : Option MoveRegister := (Y.move.pick (s.moves id i)).map Y.register

def contentAt : JsString := Y.text.toString (s.texts id i)

def shownAt : Option (Option MoveRegister × Option JsString) :=
  (s.nodeAt Y id).map fun i => (s.moveAt Y id i, some (s.contentAt Y id i))

variable {s t id i}

theorem mem_biUnion_of_shows {α β : Type} [DecidableEq β] {s : Finset α} {f : α → Finset β} {b : β} (a : α)
    (h : ∀ op, b ∈ f op ↔ op = a) : b ∈ s.biUnion f ↔ a ∈ s := by
  simp only [Finset.mem_biUnion, h]
  exact exists_eq_right

omit [DecidableEq M] [DecidableEq U] in
@[simp] theorem mem_instances : i ∈ s.instances id ↔ .node id i ∈ s := by
  apply mem_biUnion_of_shows
  intro op
  cases op with
  | node x j =>
    by_cases hx : x = id
    · simp [hx, eq_comm]
    · simp [hx]
  | _ => simp

omit [DecidableEq U] in
@[simp] theorem mem_moves {m : M} : m ∈ s.moves id i ↔ .move id i m ∈ s := by
  apply mem_biUnion_of_shows
  intro op
  cases op with
  | move x j m =>
    by_cases hx : x = id ∧ j = i
    · simp [hx, eq_comm]
    · simp only [if_neg hx, Finset.notMem_empty, false_iff]
      rintro ⟨⟩
      exact hx ⟨rfl, rfl⟩
  | _ => simp

omit [DecidableEq M] in
@[simp] theorem mem_texts {op : TextOp U} : op ∈ s.texts id i ↔ .text id i op ∈ s := by
  apply mem_biUnion_of_shows
  intro op'
  cases op' with
  | text x j op' =>
    by_cases hx : x = id ∧ j = i
    · simp [hx, eq_comm]
    · simp only [if_neg hx, Finset.notMem_empty, false_iff]
      rintro ⟨⟩
      exact hx ⟨rfl, rfl⟩
  | _ => simp

section

omit [DecidableEq M] [DecidableEq U]

theorem nodeAt_mem (h : s.nodeAt Y id = some i) : .node id i ∈ s := mem_instances.mp (Y.node.pick_mem h)

theorem nodeAt_isSome (h : .node id i ∈ s) : ∃ j, s.nodeAt Y id = some j :=
  Y.node.pick_isSome ⟨i, mem_instances.mpr h⟩

theorem nodeAt_none (h : s.nodeAt Y id = none) (i : Inst) : .node id i ∉ s := by
  intro hi
  obtain ⟨j, hj⟩ := nodeAt_isSome Y hi
  rw [h] at hj
  cases hj

theorem nodeAt_congr (h : ∀ i, .node id i ∈ t ↔ .node id i ∈ s) : t.nodeAt Y id = s.nodeAt Y id := by
  unfold nodeAt
  congr 1
  ext i
  rw [mem_instances, mem_instances, h]

end

omit [DecidableEq M] in
theorem contentAt_congr (h : ∀ op, .text id i op ∈ t ↔ .text id i op ∈ s) :
    t.contentAt Y id i = s.contentAt Y id i := by
  unfold contentAt
  congr 1
  ext op
  rw [mem_texts, mem_texts, h]

theorem shownAt_congr (h : ∀ op : DocOp Inst M U, op.key = some id → (op ∈ t ↔ op ∈ s)) :
    t.shownAt Y id = s.shownAt Y id := by
  have hmoves : ∀ i, t.moves id i = s.moves id i := by
    intro i
    ext m
    rw [mem_moves, mem_moves, h _ rfl]
  unfold shownAt moveAt
  rw [nodeAt_congr Y fun i => h (.node id i) rfl]
  congr 1
  funext i
  rw [hmoves, contentAt_congr Y fun op => h (.text id i op) rfl]

end DocLog

/-- The document reads as these updates; its root id is `rootId` once some update sets it. -/
structure ShowsLog (Y : Reading Inst M U) (rootId : JsString) (s : DocLog Inst M U) (doc : Doc) : Prop where
  schemaVersion : doc.schemaVersion = if .initialised ∈ s then some 2 else none
  rootId : doc.rootId = if .initialised ∈ s then some rootId else none
  items : ∀ id, (doc.items.get id).map (fun node => (node.move, node.content)) = s.shownAt Y id

section Docs

variable (Y : Reading Inst M U) (rootId : JsString) (s : DocLog Inst M U)

def logItems : List JsString → OrderedMap JsString Node
  | [] => .empty
  | id :: keys =>
    match s.shownAt Y id with
    | none => logItems keys
    | some core => (logItems keys).set id { freshNode with move := core.1, content := core.2 }

def logDoc (keys : List JsString) : Doc where
  schemaVersion := if .initialised ∈ s then some 2 else none
  rootId := if .initialised ∈ s then some rootId else none
  items := logItems Y s keys

theorem logItems_get (keys : List JsString) (x : JsString) :
    ((logItems Y s keys).get x).map (fun node => (node.move, node.content)) = if x ∈ keys then s.shownAt Y x
    else none := by
  induction keys with
  | nil => rfl
  | cons id keys ih =>
    unfold logItems
    by_cases hx : x = id
    · subst hx
      rw [if_pos List.mem_cons_self]
      cases hshown : s.shownAt Y x with
      | none =>
        rw [ih, hshown]
        split <;> rfl
      | some core =>
        dsimp only
        rw [OrderedMap.get_set_self]
        rfl
    · have hmem : (x ∈ id :: keys) = (x ∈ keys) := by simp [hx]
      simp only [hmem, ← ih]
      cases s.shownAt Y id with
      | none => rfl
      | some core =>
        dsimp only
        rw [OrderedMap.get_set_of_ne _ _ hx]

variable {s} in
theorem logDoc_shows (keys : List JsString) (hkeys : ∀ op ∈ s, ∀ id ∈ op.key, id ∈ keys) :
    ShowsLog Y rootId s (logDoc Y rootId s keys) := by
  refine ⟨rfl, rfl, fun id => ?_⟩
  rw [logDoc, logItems_get]
  split_ifs with hid
  · rfl
  · cases hshown : s.shownAt Y id with
    | none => rfl
    | some core =>
      obtain ⟨i, hi, -⟩ := Option.map_eq_some_iff.mp hshown
      exact absurd (hkeys _ (DocLog.nodeAt_mem Y hi) id rfl) hid

end Docs

section Writes

variable (Y : Reading Inst M U) (cuts : Prop)

def LogsMove (s : DocLog Inst M U) (id : JsString) (move : MoveRegister) (t : DocLog Inst M U) : Prop :=
  ∃ i m, (s.nodeAt Y id = some i ∧ t = insert (.move id i m) s ∨
      s.nodeAt Y id = none ∧ s.moves id i = ∅ ∧ s.texts id i = ∅ ∧
        t = insert (.node id i) (insert (.move id i m) s)) ∧
    Y.move.pick (t.moves id i) = some m ∧ Y.register m = move

def LogsEdit (s : DocLog Inst M U) (id : JsString) (f : JsString → JsString) (t : DocLog Inst M U) : Prop :=
  match s.nodeAt Y id with
  | none => t = s
  | some i => ∃ es : Finset (TextOp U), t = s ∪ es.image (.text id i) ∧
      t.contentAt Y id i = f (s.contentAt Y id i) ∧
      ∀ u, .replace u ∈ es → cuts

/-- The content is set with the node, so `ensureContent` finds it; of the other fields no updates are kept
here. -/
def LogsWrite (doc : Doc) (s : DocLog Inst M U) (w : Write) (t : DocLog Inst M U) : Prop :=
  match w with
  | .move id move =>
    if doc.rootId = some id ∧ move.parentId ≠ ROOT_PARENT_SENTINEL then t = s else LogsMove Y s id move t
  | .editContent id f => LogsEdit Y cuts s id f t
  | .deleted _ _ _ | .field _ _ | .ensureContent _ => t = s

def LogsWrites : Doc → DocLog Inst M U → List Write → DocLog Inst M U → Prop
  | _, s, [], t => t = s
  | doc, s, w :: ws, t => ∃ s', LogsWrite Y cuts doc s w s' ∧ LogsWrites (w.run doc) s' ws t

variable {Y cuts} {rootId id x : JsString} {s t : DocLog Inst M U} {doc : Doc} {w : Write}

section Move

variable {move : MoveRegister} (h : LogsMove Y s id move t)

include h

theorem LogsMove.initialised_iff : .initialised ∈ t ↔ .initialised ∈ s := by
  obtain ⟨i, m, ⟨-, rfl⟩ | ⟨-, -, -, rfl⟩, -, -⟩ := h
  · simp
  · simp

theorem LogsMove.frame (hx : x ≠ id) : t.shownAt Y x = s.shownAt Y x := by
  obtain ⟨i, m, ⟨-, rfl⟩ | ⟨-, -, -, rfl⟩, -, -⟩ := h
  all_goals
    apply DocLog.shownAt_congr
    intro op hop
    cases op <;> simp_all [DocOp.key]

theorem LogsMove.shown :
    t.shownAt Y id = some (some move, ((s.shownAt Y id).map Prod.snd).getD (some [])) := by
  obtain ⟨i, m, hcase, hpick, hregister⟩ := h
  have hmove : t.moveAt Y id i = some move := by rw [DocLog.moveAt, hpick, Option.map_some, hregister]
  unfold DocLog.shownAt
  rcases hcase with ⟨hnode, ht⟩ | ⟨hnode, -, htexts, ht⟩
  · have hnode' : t.nodeAt Y id = some i := by
      rw [← hnode]
      exact DocLog.nodeAt_congr Y (by simp [ht])
    have hcontent : t.contentAt Y id i = s.contentAt Y id i := DocLog.contentAt_congr Y (by simp [ht])
    rw [hnode', hnode, Option.map_some, hmove, hcontent]
    rfl
  · have hone : t.instances id = {i} := by
      ext j
      have hno := DocLog.nodeAt_none Y hnode j
      simp [ht, hno]
    have hempty : t.texts id i = ∅ := by
      rw [← htexts]
      ext op
      simp [ht]
    have hnode' : t.nodeAt Y id = some i := by rw [DocLog.nodeAt, hone, Y.node.pick_singleton]
    have hcontent : t.contentAt Y id i = [] := by rw [DocLog.contentAt, hempty, Y.text.toString_empty]
    rw [hnode', hnode, Option.map_some, hmove, hcontent]
    rfl

theorem LogsMove.shows (hs : ShowsLog Y rootId s doc) :
    ShowsLog Y rootId t (doc.setNode id { (doc.items.get id).getD freshNode with move := some move }) := by
  refine ⟨by simp only [h.initialised_iff]; exact hs.schemaVersion,
    by simp only [h.initialised_iff]; exact hs.rootId,
    fun x => ?_⟩
  rw [Doc.setNode_get]
  split_ifs with hx
  · rw [hx, h.shown, ← hs.items id]
    cases doc.items.get id with
    | none => rfl
    | some node => rfl
  · rw [h.frame hx, hs.items x]

end Move

section Edit

variable {f : JsString → JsString} (h : LogsEdit Y cuts s id f t)

include h

theorem LogsEdit.shows (hs : ShowsLog Y rootId s doc) : ShowsLog Y rootId t (doc.editContent id f) := by
  unfold LogsEdit at h
  unfold Doc.editContent
  cases hnode : s.nodeAt Y id with
  | none =>
    rw [hnode] at h
    have hnone := hs.items id
    rw [DocLog.shownAt, hnode, Option.map_none, Option.map_eq_none_iff] at hnone
    unfold Doc.updateNode
    rw [h, hnone]
    exact hs
  | some i =>
    rw [hnode] at h
    obtain ⟨es, rfl, hcontent, -⟩ := h
    refine ⟨by simpa using hs.schemaVersion, by simpa using hs.rootId, fun x => ?_⟩
    rw [Doc.updateNode_get]
    split_ifs with hx
    · subst hx
      have hnode' : (s ∪ es.image (.text x i)).nodeAt Y x = some i := by
        rw [← hnode]
        exact DocLog.nodeAt_congr Y (by simp)
      have hitems := hs.items x
      rw [DocLog.shownAt, hnode, Option.map_some, Option.map_eq_some_iff] at hitems
      obtain ⟨node, hget, he⟩ := hitems
      have hmove : (s ∪ es.image (.text x i)).moveAt Y x i = s.moveAt Y x i := by
        unfold DocLog.moveAt
        congr 2
        ext e
        simp
      rw [Prod.mk.injEq] at he
      rw [DocLog.shownAt, hnode', hget, Option.map_some, Option.map_some, Option.map_some, hmove,
        hcontent, he.1, he.2]
      rfl
    · rw [hs.items x]
      symm
      apply DocLog.shownAt_congr
      intro op hop
      cases op with
      | text y j op' =>
        obtain rfl := Option.some.inj hop
        simp [Ne.symm hx]
      | _ => simp

end Edit

theorem updateNode_map {α : Type} {g : Node → α} {f : Node → Node}
    (hf : ∀ node, doc.items.get id = some node → g (f node) = g node) :
    ((doc.updateNode id f).items.get x).map g = (doc.items.get x).map g := by
  rw [Doc.updateNode_get]
  split_ifs with hx
  · subst hx
    cases hget : doc.items.get x with
    | none => rfl
    | some node => simp [hf node hget]
  · rfl

theorem LogsMove.write {move : MoveRegister} (h : LogsMove Y s id move t)
    (hroot : ¬ (doc.rootId = some id ∧ move.parentId ≠ ROOT_PARENT_SENTINEL)) :
    LogsWrite Y cuts doc s (.move id move) t := by
  simp only [LogsWrite]
  rwa [if_neg hroot]

theorem LogsWrite.shows (h : LogsWrite Y cuts doc s w t) (hs : ShowsLog Y rootId s doc) :
    ShowsLog Y rootId t (w.run doc) := by
  cases w with
  | move id move =>
    simp only [LogsWrite] at h
    simp only [Write.run, Doc.writeMove]
    split_ifs at h ⊢ with hroot
    · rwa [h]
    · exact h.shows hs
  | editContent id f => exact LogsEdit.shows h hs
  | deleted id del token =>
    obtain rfl : t = s := h
    refine ⟨by simp [Write.run, hs.schemaVersion], by simp [Write.run, hs.rootId], fun x => ?_⟩
    rw [← hs.items x]
    simp only [Write.run, Doc.writeDeleted]
    split_ifs
    · rfl
    · apply updateNode_map
      intro node _
      unfold Doc.writeRecords
      split <;> rfl
    · exact updateNode_map fun node _ => rfl
  | field id f =>
    obtain rfl : t = s := h
    refine ⟨(run_schemaVersion (.field id f)).trans hs.schemaVersion,
      (run_rootId (.field id f)).trans hs.rootId, fun x => ?_⟩
    rw [← hs.items x]
    apply updateNode_map
    intro node _
    cases f <;> rfl
  | ensureContent id =>
    obtain rfl : t = s := h
    refine ⟨(run_schemaVersion (.ensureContent id)).trans hs.schemaVersion,
      (run_rootId (.ensureContent id)).trans hs.rootId, fun x => ?_⟩
    rw [← hs.items x]
    apply updateNode_map
    intro node hget
    -- the content was set with the node
    have hcontent := hs.items id
    rw [hget, Option.map_some, DocLog.shownAt, eq_comm, Option.map_eq_some_iff] at hcontent
    obtain ⟨i, -, he⟩ := hcontent
    rw [Prod.mk.injEq] at he
    rw [← he.2]
    rfl

theorem LogsWrites.shows {ws : List Write} (h : LogsWrites Y cuts doc s ws t) (hs : ShowsLog Y rootId s doc) :
    ShowsLog Y rootId t (runWrites doc ws) := by
  induction ws generalizing doc s with
  | nil =>
    obtain rfl : t = s := h
    exact hs
  | cons w ws ih =>
    obtain ⟨s', hw, hws⟩ := h
    exact ih hws (hw.shows hs)

structure Extended (cuts : Prop) (s t : DocLog Inst M U) : Prop where
  le : s ≤ t
  created : ∀ x i, .node x i ∈ t → .node x i ∈ s ∨ (∀ j, .node x j ∉ s) ∧ ∀ j, .node x j ∈ t → j = i
  placed : ∀ x i, .node x i ∈ t → .node x i ∈ s ∨ ∃ m, .move x i m ∈ t
  replaced : ∀ x i u, .text x i (.replace u) ∈ t → .text x i (.replace u) ∈ s ∨ cuts

namespace Extended

variable {r : DocLog Inst M U}

section

omit [DecidableEq Inst] [DecidableEq M] [DecidableEq U]

theorem refl (s : DocLog Inst M U) : Extended cuts s s :=
  ⟨le_rfl, fun _ _ h => Or.inl h, fun _ _ h => Or.inl h, fun _ _ _ h => Or.inl h⟩

theorem trans (h : Extended cuts r s) (h' : Extended cuts s t) : Extended cuts r t := by
  refine ⟨h.le.trans h'.le, ?_, ?_, ?_⟩
  · intro x i hi
    rcases h'.created x i hi with hs | ⟨hnone, hone⟩
    · refine (h.created x i hs).imp_right fun ⟨hnone, hone⟩ => ⟨hnone, fun j hj => ?_⟩
      rcases h'.created x j hj with hj | ⟨hno, -⟩
      · exact hone j hj
      · exact absurd hs (hno i)
    · exact Or.inr ⟨fun j hj => hnone j (h.le hj), hone⟩
  · intro x i hi
    rcases h'.placed x i hi with hs | hmove
    · exact (h.placed x i hs).imp_right fun ⟨m, hm⟩ => ⟨m, h'.le hm⟩
    · exact Or.inr hmove
  · intro x i u hu
    rcases h'.replaced x i u hu with hs | hcuts
    · exact h.replaced x i u hs
    · exact Or.inr hcuts

theorem imp {cuts' : Prop} (hcuts : cuts → cuts') (h : Extended cuts s t) : Extended cuts' s t :=
  ⟨h.le, h.created, h.placed, fun x i u hu => (h.replaced x i u hu).imp_right hcuts⟩

theorem of_no_nodes (hle : s ≤ t) (hnodes : ∀ x i, .node x i ∈ t → .node x i ∈ s)
    (hreplaced : ∀ x i u, .text x i (.replace u) ∈ t → .text x i (.replace u) ∈ s ∨ cuts) :
    Extended cuts s t :=
  ⟨hle, fun x i h => Or.inl (hnodes x i h), fun x i h => Or.inl (hnodes x i h), hreplaced⟩

end

end Extended

theorem LogsMove.extended {move : MoveRegister} (h : LogsMove Y s id move t) : Extended cuts s t := by
  obtain ⟨i, m, ⟨-, rfl⟩ | ⟨hnode, -, -, rfl⟩, -, -⟩ := h
  · exact Extended.of_no_nodes (Finset.subset_insert _ _) (by simp) (by simp +contextual)
  · have hnone := DocLog.nodeAt_none Y hnode
    refine ⟨(Finset.subset_insert _ _).trans (Finset.subset_insert _ _), ?_, ?_, by simp +contextual⟩
    · intro x j hj
      by_cases hx : x = id
      · subst hx
        have hone : ∀ k, DocOp.node x k ∈ insert (.node x i) (insert (.move x i m) s) → k = i := by
          intro k hk
          simpa [hnone k] using hk
        refine Or.inr ⟨hnone, fun k hk => (hone k hk).trans (hone j hj).symm⟩
      · exact Or.inl (by simpa [hx] using hj)
    · intro x j hj
      rcases Finset.mem_insert.mp hj with he | hj
      · cases he
        exact Or.inr ⟨m, by simp⟩
      · exact Or.inl (by simpa using hj)

theorem extended_texts {i : Inst} {es : Finset (TextOp U)} (hreplaced : ∀ u, .replace u ∈ es → cuts) :
    Extended cuts s (s ∪ es.image (.text id i)) := by
  refine Extended.of_no_nodes Finset.subset_union_left (by simp) ?_
  intro x j u hu
  rcases Finset.mem_union.mp hu with hu | hu
  · exact Or.inl hu
  · obtain ⟨op, hop, he⟩ := Finset.mem_image.mp hu
    cases he
    exact Or.inr (hreplaced u hop)

theorem LogsWrite.extended (h : LogsWrite Y cuts doc s w t) : Extended cuts s t := by
  cases w with
  | move id move =>
    simp only [LogsWrite] at h
    split_ifs at h
    · rw [h]
      exact .refl s
    · exact h.extended
  | editContent id f =>
    simp only [LogsWrite, LogsEdit] at h
    split at h
    · rw [h]
      exact .refl s
    · obtain ⟨es, rfl, -, hreplaced⟩ := h
      exact extended_texts hreplaced
  | _ =>
    obtain rfl : t = s := h
    exact .refl t

theorem LogsWrites.extended {ws : List Write} (h : LogsWrites Y cuts doc s ws t) : Extended cuts s t := by
  induction ws generalizing doc s with
  | nil =>
    obtain rfl : t = s := h
    exact .refl t
  | cons w ws ih =>
    obtain ⟨s', hw, hws⟩ := h
    exact hw.extended.trans (ih hws)

end Writes

end Log

end OpenOutliner
