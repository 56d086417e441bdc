import OpenOutliner.Crdt.UndoExact

namespace OpenOutliner

open Foundations OutlineHistory

/-- A call of a writer; `token` is the UUID of a delete. -/
inductive WriterCall
  | writeMove (id : JsString) (move : MoveRegister)
  | writeDeleted (id : JsString) (del : DeletedRegister) (token : JsString)
  | toggleCompleted (id : JsString)
  | setIsCollapsed (id : JsString) (value : Bool)
  | setItemType (id : JsString) (type : ItemType)

namespace WriterCall

def id : WriterCall → JsString
  | writeMove id _ | writeDeleted id _ _ | toggleCompleted id | setIsCollapsed id _ | setItemType id _ => id

def run (doc : Doc) : WriterCall → Doc
  | writeMove id move => doc.writeMove id move
  | writeDeleted id del token => doc.writeDeleted id del token
  | toggleCompleted id => OpenOutliner.toggleCompleted doc id
  | setIsCollapsed id value => OpenOutliner.setIsCollapsed doc id value
  | setItemType id type => OpenOutliner.setItemType doc id type

def write (doc : Doc) : WriterCall → Write
  | writeMove id move => .move id move
  | writeDeleted id del token => .deleted id del token
  | toggleCompleted id => .field id (.isCompleted (!((doc.items.get id).bind Node.isCompleted).getD false))
  | setIsCollapsed id value => .field id (.isCollapsed value)
  | setItemType id type => .field id (.type type)

theorem run_eq (doc : Doc) (call : WriterCall) : call.run doc = (call.write doc).run doc := by
  cases call with
  | toggleCompleted id => exact toggleCompleted_writes doc id
  | writeMove id move => rfl
  | writeDeleted id del token => rfl
  | setIsCollapsed id value => rfl
  | setItemType id type => rfl

def writes (doc : Doc) : List WriterCall → List Write
  | [] => []
  | call :: calls => call.write doc :: writes (call.run doc) calls

def replayable : WriterCall → Bool
  | setIsCollapsed _ _ | setItemType _ _ => false
  | _ => true

end WriterCall

def OutlineHistory.transact {X K : Type} (h : OutlineHistory X K) (calls : List WriterCall) :
    OutlineHistory X K :=
  h.recordStructure (WriterCall.writes h.doc calls) h.texts none

structure StructuralFields where
  move : Option MoveRegister
  isDeleted : Bool
  isCompleted : Bool
  isCollapsed : Bool
  type : ItemType
deriving DecidableEq

def Node.fields (schemaVersion : Option ℕ) (node : Node) : StructuralFields :=
  ⟨node.move, (readDeleted schemaVersion node).isDeleted, node.isCompleted.getD false,
    node.isCollapsed.getD false,
    readType node⟩

def Doc.fields (doc : Doc) (x : JsString) : Option StructuralFields :=
  (doc.items.get x).map (Node.fields doc.schemaVersion)

def Side.pick {α : Type} (before after : α) : Side → α
  | .before => before
  | .after => after

/-- From `doc` to `after` no collapse flag and no type changes, an item without a placement stays as it is,
and so does the placement of the root, unless it is under the sentinel. -/
structure Undoable (doc after : Doc) : Prop where
  isCollapsed : ∀ x, (after.fields x).map StructuralFields.isCollapsed =
    (doc.fields x).map StructuralFields.isCollapsed
  type : ∀ x, (after.fields x).map StructuralFields.type = (doc.fields x).map StructuralFields.type
  unplaced : ∀ x, doc.moveOf x = none → after.fields x = doc.fields x
  root : ∀ x move, doc.rootId = some x → doc.moveOf x = some move → move.parentId ≠ ROOT_PARENT_SENTINEL →
    after.moveOf x = some move

section Fields

variable {doc doc' : Doc} {x : JsString}

theorem moveOf_eq_fields : doc.moveOf x = (doc.fields x).bind StructuralFields.move := by
  unfold Doc.moveOf Doc.fields
  cases doc.items.get x <;> rfl

theorem registersOf_eq_fields :
    doc.registersOf x = (doc.fields x).bind fun f => f.move.map fun move =>
    (move, f.isDeleted, f.isCompleted) := by
  unfold Doc.registersOf Doc.snapshot readNodeSnapshot Doc.fields
  cases doc.items.get x with
  | none => rfl
  | some node =>
    rw [Option.bind_some, Option.map_map, Option.map_some, Option.bind_some]
    rfl

theorem fields_of_get (hv : doc'.schemaVersion = doc.schemaVersion) (h : doc'.items.get x = doc.items.get x) :
    doc'.fields x = doc.fields x := by
  rw [Doc.fields, Doc.fields, hv, h]

theorem fields_of_registers (hplaced : doc.moveOf x ≠ none) (h : doc'.registersOf x = doc.registersOf x)
    (hcollapsed : (doc'.fields x).map StructuralFields.isCollapsed =
      (doc.fields x).map StructuralFields.isCollapsed)
    (htype : (doc'.fields x).map StructuralFields.type = (doc.fields x).map StructuralFields.type) :
    doc'.fields x = doc.fields x := by
  have hsome : doc.registersOf x ≠ none := registersOf_ne_none.mpr (Option.isSome_iff_ne_none.mpr hplaced)
  obtain ⟨r, hr⟩ := Option.ne_none_iff_exists'.mp hsome
  rw [hr] at h
  obtain ⟨node, hget, hmove, hdel, hcompleted⟩ := registersOf_iff.mp hr
  obtain ⟨node', hget', hmove', hdel', hcompleted'⟩ := registersOf_iff.mp h
  simp only [Doc.fields, hget, hget', Option.map_some, Option.some.injEq, Node.fields] at hcollapsed htype ⊢
  rw [hmove, hmove', hdel, hdel', hcompleted, hcompleted', hcollapsed, htype]

theorem flag_of_rest {α : Type} {g : StructuralFields → α}
    {q : Option JsString × Option JsString × Option ItemType × Option Bool → α}
    (hg : ∀ v node, g (Node.fields v node) = q node.rest)
    (h : (doc.items.get x).map Node.rest = (doc'.items.get x).map Node.rest) :
    (doc'.fields x).map g = (doc.fields x).map g := by
  have hq : ∀ v, g ∘ Node.fields v = q ∘ Node.rest := fun v => funext (hg v)
  rw [Doc.fields, Doc.fields, Option.map_map, Option.map_map, hq, hq, ← Option.map_map, ← Option.map_map, h]

theorem isCollapsed_of_rest (h : (doc.items.get x).map Node.rest = (doc'.items.get x).map Node.rest) :
    (doc'.fields x).map StructuralFields.isCollapsed = (doc.fields x).map StructuralFields.isCollapsed :=
  flag_of_rest (q := fun r => r.2.2.2.getD false) (fun _ _ => rfl) h

theorem type_of_rest (h : (doc.items.get x).map Node.rest = (doc'.items.get x).map Node.rest) :
    (doc'.fields x).map StructuralFields.type = (doc.fields x).map StructuralFields.type :=
  flag_of_rest (q := fun r => r.2.2.1.getD ItemType.bullet) (fun _ _ => rfl) h

end Fields

section Transaction

variable {doc : Doc} {x : JsString} {writes : List Write} {c : Change} {side : Side}
  {mint : JsString → JsString}

theorem runWrites_moveOf_isSome (writes : List Write) (h : (doc.moveOf x).isSome = true) :
    ((runWrites doc writes).moveOf x).isSome = true := by
  induction writes generalizing doc with
  | nil => exact h
  | cons w writes ih => exact ih (run_moveOf_isSome w h)

theorem replay_moveOf_isSome {changes : List Change} (h : (doc.moveOf x).isSome = true) :
    ((replay side mint doc changes).moveOf x).isSome = true := by
  refine replay_induction (P := fun d => (d.moveOf x).isSome = true) h ?_
  intro d hd c _
  exact runWrites_moveOf_isSome _ hd

theorem unplaced_not_recorded (h : (runWrites doc writes).moveOf x = none) :
    x ∉ (recordChanges doc writes).map Change.id := by
  intro hx
  obtain ⟨c, hc, rfl⟩ := List.mem_map.mp hx
  have hrec := mem_recordChanges hc
  apply hrec.present
  rw [hrec.after, ← Option.not_isSome_iff_eq_none, snapshot_isSome, h]
  exact Bool.false_ne_true

theorem run_root_move (hroot : doc.rootId = some x) {w : Write}
    (hw : ∀ m, w = .move x m → m.parentId ≠ ROOT_PARENT_SENTINEL) : (w.run doc).moveOf x = doc.moveOf x := by
  cases w with
  | move id m =>
    rcases Doc.writeMove_moveOf doc id x m with hsame | ⟨rfl, -⟩
    · exact hsame
    · rw [Write.run, Doc.writeMove, if_pos ⟨hroot, hw m rfl⟩]
  | deleted id del token => exact Doc.writeDeleted_moveOf _ _ _ _ _
  | field id f =>
    apply Doc.updateNode_moveOf
    intro node
    cases f <;> rfl
  | ensureContent id => exact Doc.ensureContent_moveOf _ _ _
  | editContent id f => exact Doc.editContent_moveOf _ _ _ _

theorem runWrites_root_move (hroot : doc.rootId = some x)
    (hwrites : ∀ m, .move x m ∈ writes → m.parentId ≠ ROOT_PARENT_SENTINEL) :
    (runWrites doc writes).moveOf x = doc.moveOf x := by
  induction writes generalizing doc with
  | nil => rfl
  | cons w writes ih =>
    have hrest := ih ((run_rootId w).trans hroot) fun m hm => hwrites m (List.mem_cons_of_mem _ hm)
    exact hrest.trans (run_root_move hroot fun m hm => hwrites m (hm ▸ List.mem_cons_self))

theorem move_mem_writes {id token : JsString} {m : MoveRegister} (h : .move id m ∈ c.writes side token) :
    id = c.id ∧ ∃ state, c.state side = some state ∧ m = state.move := by
  unfold Change.writes at h
  split at h
  · cases List.mem_singleton.mp h
  · rename_i state hstate
    rw [List.mem_append, List.mem_append] at h
    obtain (h | h) | h := h <;> split_ifs at h
    · cases h
    · cases List.mem_singleton.mp h
      exact ⟨rfl, state, hstate, rfl⟩
    · cases h
    · cases List.mem_singleton.mp h
    · cases List.mem_singleton.mp h
    · cases h

theorem replay_root_move {changes : List Change} (hroot : doc.rootId = some x)
    (h : ∀ c ∈ changes, c.id = x → ∀ state, c.state side = some state →
      state.move.parentId ≠ ROOT_PARENT_SENTINEL) :
    (replay side mint doc changes).moveOf x = doc.moveOf x := by
  refine (replay_induction (P := fun d => d.rootId = some x ∧ d.moveOf x = doc.moveOf x) ⟨hroot, rfl⟩ ?_).2
  rintro d ⟨hd, hmove⟩ c hc
  have hwrites : ∀ m, .move x m ∈ c.writes side (mint c.id) → m.parentId ≠ ROOT_PARENT_SENTINEL := by
    intro m hm
    obtain ⟨hid, state, hstate, rfl⟩ := move_mem_writes hm
    exact h c hc hid.symm state hstate
  exact ⟨(runWrites_rootId _ _).trans hd, (runWrites_root_move hd hwrites).trans hmove⟩

end Transaction

section Undo

variable {doc : Doc} {writes : List Write} {undoMint redoMint : JsString → JsString}

theorem Undoable.recorded (h : Undoable doc (runWrites doc writes)) {c : Change}
    (hc : c ∈ recordChanges doc writes) :
    ∃ b a, c.before = some b ∧ c.after = some a ∧ doc.registersOf c.id = some b.registers ∧
      (runWrites doc writes).registersOf c.id = some a.registers := by
  have htakes := takesTo_record doc writes 0
  obtain ⟨a, hafter, ha⟩ := htakes.after c hc
  cases hb : c.before with
  | some b => exact ⟨b, a, rfl, hafter, htakes.before c hc b hb, ha⟩
  | none =>
    exfalso
    have hsnapshot := (mem_recordChanges hc).before
    rw [hb, Option.map_none, eq_comm, Option.map_eq_none_iff] at hsnapshot
    have hunplaced : doc.moveOf c.id = none := by
      rw [moveOf_eq, Doc.registersOf, hsnapshot]
      rfl
    have hafterMove : (runWrites doc writes).moveOf c.id = none := by
      rw [moveOf_eq_fields, h.unplaced c.id hunplaced, ← moveOf_eq_fields, hunplaced]
    rw [moveOf_eq, ha] at hafterMove
    cases hafterMove

theorem Undoable.root_kept (h : Undoable doc (runWrites doc writes)) {c : Change} {b a : ItemNodeSnapshot}
    (hb : c.before = some b) (ha : c.after = some a) (hbefore : doc.registersOf c.id = some b.registers)
    (hafter : (runWrites doc writes).registersOf c.id = some a.registers) (hroot : doc.rootId = some c.id) :
    (c.keeps ItemNodeSnapshot.move = true ∨ b.move.parentId = ROOT_PARENT_SENTINEL) ∧
    (c.keeps ItemNodeSnapshot.move = true ∨ a.move.parentId = ROOT_PARENT_SENTINEL) ∧
    (doc.schemaVersion = some 2 → c.keeps (fun s => s.deleted.isDeleted) = true) := by
  obtain ⟨r', hr', hmove, hdel⟩ := runWrites_root writes hroot hbefore
  rw [hafter] at hr'
  obtain rfl := Option.some.inj hr'
  rw [keeps_some hb ha, keeps_some hb ha]
  refine ⟨?_, hmove.imp_left Eq.symm, fun hv => (hdel hv).symm⟩
  by_cases hunder : b.move.parentId = ROOT_PARENT_SENTINEL
  · exact Or.inr hunder
  · left
    have hplace : doc.moveOf c.id = some b.move := by
      rw [moveOf_eq, hbefore]
      rfl
    have hstays := h.root c.id b.move hroot hplace hunder
    rw [moveOf_eq, hafter] at hstays
    exact (Option.some.inj hstays).symm

theorem Undoable.replay_change (h : Undoable doc (runWrites doc writes)) {cur : Doc} {c : Change}
    {token : JsString} (hc : c ∈ recordChanges doc writes) (hv : cur.schemaVersion = doc.schemaVersion)
    (hroot : cur.rootId = doc.rootId)
    (hcur : cur.registersOf c.id = doc.registersOf c.id ∨
      cur.registersOf c.id = (runWrites doc writes).registersOf c.id)
    (hfresh : FreshToken cur c.id token) (side : Side) :
    (runWrites cur (c.writes side token)).registersOf c.id =
      (side.pick doc (runWrites doc writes)).registersOf c.id := by
  obtain ⟨b, a, hb, ha, hbefore, hafter⟩ := h.recorded hc
  have hrooted := fun hid => h.root_kept hb ha hbefore hafter (hroot.symm.trans hid)
  rw [hbefore, hafter] at hcur
  have hkept : ∀ r state, (r = b.registers ∨ r = a.registers) → (state = b ∨ state = a) →
      (c.keeps ItemNodeSnapshot.move = true → r.1 = state.move) ∧
      (c.keeps (fun s => s.deleted.isDeleted) = true → r.2.1 = state.deleted.isDeleted) ∧
      (c.before.map ItemNodeSnapshot.isCompleted = c.after.map ItemNodeSnapshot.isCompleted →
        r.2.2 = state.isCompleted) := by
    intro r state hr hstate
    rw [keeps_some hb ha, keeps_some hb ha, hb, ha, Option.map_some, Option.map_some, Option.some.injEq]
    rcases hr with rfl | rfl <;> rcases hstate with rfl | rfl
    · exact ⟨fun _ => rfl, fun _ => rfl, fun _ => rfl⟩
    · exact ⟨id, id, id⟩
    · exact ⟨Eq.symm, Eq.symm, Eq.symm⟩
    · exact ⟨fun _ => rfl, fun _ => rfl, fun _ => rfl⟩
  obtain ⟨r, hr, hone⟩ : ∃ r, cur.registersOf c.id = some r ∧ (r = b.registers ∨ r = a.registers) := by
    rcases hcur with he | he
    · exact ⟨_, he, Or.inl rfl⟩
    · exact ⟨_, he, Or.inr rfl⟩
  cases side with
  | before =>
    rw [Side.pick, hbefore]
    refine replay_state hr hb (hkept r b hone (Or.inl rfl)) ?_ hfresh
    intro hid
    obtain ⟨hmove, -, hdel⟩ := hrooted hid
    exact ⟨hmove, fun hv' => hdel (hv.symm.trans hv')⟩
  | after =>
    rw [Side.pick, hafter]
    refine replay_state hr ha (hkept r a hone (Or.inr rfl)) ?_ hfresh
    intro hid
    obtain ⟨-, hmove, hdel⟩ := hrooted hid
    exact ⟨hmove, fun hv' => hdel (hv.symm.trans hv')⟩

theorem Undoable.replay_registers (h : Undoable doc (runWrites doc writes)) {cur : Doc}
    {mint : JsString → JsString}
    (hv : cur.schemaVersion = doc.schemaVersion) (hroot : cur.rootId = doc.rootId)
    (hcur : ∀ x, cur.registersOf x = doc.registersOf x ∨
      cur.registersOf x = (runWrites doc writes).registersOf x)
    (hfresh : ∀ x, FreshToken cur x (mint x)) (side : Side) (x : JsString) :
    (replay side mint cur (recordChanges doc writes)).registersOf x =
      (side.pick doc (runWrites doc writes)).registersOf x := by
  have htakes := takesTo_record doc writes 0
  by_cases hx : x ∈ (recordChanges doc writes).map Change.id
  · have hnodup : ((recordChanges doc writes).map Change.id).Nodup := htakes.nodup
    have hnamed : ∀ c ∈ recordChanges doc writes,
        (replay side mint cur (recordChanges doc writes)).registersOf c.id =
        (side.pick doc (runWrites doc writes)).registersOf c.id := by
      refine replay_each hnodup ?_ ?_
      · intro c hc
        obtain ⟨b, a, -, -, hbefore, hafter⟩ := h.recorded hc
        obtain ⟨r, hr⟩ : ∃ r, cur.registersOf c.id = some r := by
          rcases hcur c.id with he | he
          · exact ⟨_, he.trans hbefore⟩
          · exact ⟨_, he.trans hafter⟩
        obtain ⟨node, hget, -⟩ := registersOf_iff.mp hr
        exact (cur.items.has_iff c.id).mpr ⟨node, hget⟩
      · intro c hc d hdv hdroot hdget
        have hd : d.registersOf c.id = cur.registersOf c.id := registersOf_ext hdv (by rw [hdget])
        refine h.replay_change hc (hdv.trans hv) (hdroot.trans hroot) ?_ ?_ side
        · rw [hd]
          exact hcur c.id
        · intro node hnode
          exact hfresh c.id node (hdget ▸ hnode)
    obtain ⟨c, hc, rfl⟩ := List.mem_map.mp hx
    exact hnamed c hc
  · have hother : (replay side mint cur (recordChanges doc writes)).registersOf x = cur.registersOf x :=
      registersOf_ext (replay_schemaVersion _ _ _ _) (by rw [replay_other hx])
    have hsame := htakes.others x hx
    rw [hother]
    cases side with
    | before => exact (hcur x).elim id fun he => he.trans hsame.symm
    | after => exact (hcur x).elim (fun he => he.trans hsame) id

theorem Undoable.replay_fields (h : Undoable doc (runWrites doc writes)) {cur : Doc}
    {mint : JsString → JsString}
    (hv : cur.schemaVersion = doc.schemaVersion) (hroot : cur.rootId = doc.rootId)
    (hcur : ∀ x, cur.fields x = doc.fields x ∨ cur.fields x = (runWrites doc writes).fields x)
    (hfresh : ∀ x, FreshToken cur x (mint x)) (side : Side) (x : JsString) :
    (replay side mint cur (recordChanges doc writes)).fields x =
    (side.pick doc (runWrites doc writes)).fields x := by
  by_cases hplaced : doc.moveOf x = none
  · have hsame := h.unplaced x hplaced
    have hunplaced : (runWrites doc writes).moveOf x = none := by
      rw [moveOf_eq_fields, hsame, ← moveOf_eq_fields, hplaced]
    have hget : (replay side mint cur (recordChanges doc writes)).items.get x = cur.items.get x :=
      replay_other (unplaced_not_recorded hunplaced)
    have hdoc : cur.fields x = doc.fields x := (hcur x).elim id fun he => he.trans hsame
    rw [fields_of_get (replay_schemaVersion _ _ _ _) hget, hdoc]
    cases side with
    | before => rfl
    | after => exact hsame.symm
  · have hregisters : ∀ y, cur.registersOf y = doc.registersOf y ∨
        cur.registersOf y = (runWrites doc writes).registersOf y := by
      intro y
      rw [registersOf_eq_fields, registersOf_eq_fields, registersOf_eq_fields]
      exact (hcur y).imp (fun he => by rw [he]) fun he => by rw [he]
    have hrest := (replay_frame side mint cur (recordChanges doc writes)).rest x
    refine fields_of_registers ?_ (h.replay_registers hv hroot hregisters hfresh side x) ?_ ?_
    · cases side with
      | before => exact hplaced
      | after =>
        exact Option.isSome_iff_ne_none.mp
          (runWrites_moveOf_isSome writes (Option.isSome_iff_ne_none.mpr hplaced))
    · rw [isCollapsed_of_rest hrest]
      cases side with
      | before =>
        exact (hcur x).elim (fun he => by rw [he, Side.pick]) fun he => by rw [he, Side.pick, h.isCollapsed]
      | after =>
        exact (hcur x).elim (fun he => by rw [he, Side.pick, h.isCollapsed]) fun he => by rw [he, Side.pick]
    · rw [type_of_rest hrest]
      cases side with
      | before =>
        exact (hcur x).elim (fun he => by rw [he, Side.pick]) fun he => by rw [he, Side.pick, h.type]
      | after => exact (hcur x).elim (fun he => by rw [he, Side.pick, h.type]) fun he => by rw [he, Side.pick]

theorem undoable_of_undone
    (h : ∀ x, (replay .before undoMint (runWrites doc writes) (recordChanges doc writes)).fields x =
    doc.fields x) : Undoable doc (runWrites doc writes) := by
  have hrest := (replay_frame .before undoMint (runWrites doc writes) (recordChanges doc writes)).rest
  have hmove : ∀ x, (replay .before undoMint (runWrites doc writes) (recordChanges doc writes)).moveOf x =
      doc.moveOf x := by
    intro x
    rw [moveOf_eq_fields, h, ← moveOf_eq_fields]
  refine ⟨?_, ?_, ?_, ?_⟩
  · intro x
    rw [← h x, isCollapsed_of_rest (hrest x)]
  · intro x
    rw [← h x, type_of_rest (hrest x)]
  · intro x hplaced
    have hunplaced : (runWrites doc writes).moveOf x = none := by
      by_contra hne
      have hsome :
          ((replay .before undoMint (runWrites doc writes) (recordChanges doc writes)).moveOf x).isSome =
          true :=
        replay_moveOf_isSome (Option.isSome_iff_ne_none.mpr hne)
      rw [hmove, hplaced] at hsome
      cases hsome
    rw [← h x]
    exact (fields_of_get (replay_schemaVersion _ _ _ _) (replay_other (unplaced_not_recorded hunplaced))).symm
  · intro x move hroot hplace hunder
    rw [← hplace, ← hmove x]
    refine (replay_root_move ((runWrites_rootId doc writes).trans hroot) ?_).symm
    intro c hc hid state hstate
    have hbefore := (takesTo_record doc writes 0).before c hc state hstate
    rw [moveOf_eq, ← hid, hbefore] at hplace
    rwa [show state.move = move from Option.some.inj hplace]

end Undo

section Replayable

variable {doc cur : Doc} {x : JsString} {calls : List WriterCall} {P : JsString → Register → Prop}

theorem WriterCall.write_target {call : WriterCall} (h : call.replayable = true) :
    ∃ r, (call.write doc).target = some (call.id, r) := by
  cases call with
  | writeMove id move => exact ⟨.move, rfl⟩
  | writeDeleted id del token => exact ⟨.deletion, rfl⟩
  | toggleCompleted id => exact ⟨.completion, rfl⟩
  | setIsCollapsed id value => cases h
  | setItemType id type => cases h

theorem frame_writes (hreplayable : ∀ call ∈ calls, call.replayable = true)
    (hhas : ∀ call ∈ calls, cur.items.has call.id = true) (hP : ∀ call ∈ calls, ∀ r, P call.id r) :
    Frame P cur (runWrites cur (WriterCall.writes cur calls)) := by
  induction calls generalizing cur with
  | nil => exact Frame.refl cur
  | cons call calls ih =>
    obtain ⟨r, htarget⟩ : ∃ r, (call.write cur).target = some (call.id, r) :=
      WriterCall.write_target (hreplayable call List.mem_cons_self)
    have hfirst : Frame P cur (call.run cur) := by
      rw [call.run_eq]
      exact frame_run (hhas call List.mem_cons_self) htarget (hP call List.mem_cons_self r)
    have hhas' : ∀ call' ∈ calls, (call.run cur).items.has call'.id = true := by
      intro call' hcall'
      rw [OrderedMap.has_iff, ← OrderedMap.mem_keys_iff, hfirst.keys, OrderedMap.mem_keys_iff,
        ← OrderedMap.has_iff]
      exact hhas call' (List.mem_cons_of_mem _ hcall')
    have hrest := ih (fun call' h => hreplayable call' (List.mem_cons_of_mem _ h)) hhas' fun call' h =>
      hP call' (List.mem_cons_of_mem _ h)
    rw [WriterCall.writes, runWrites, List.foldl_cons, ← WriterCall.run_eq]
    exact hfirst.trans hrest

theorem Frame.fields_eq {doc' : Doc} (h : Frame P doc doc') (hv : doc'.schemaVersion = doc.schemaVersion)
    (hP : ∀ r, ¬ P x r) : doc'.fields x = doc.fields x := by
  have hmove := h.registers x .move (hP .move)
  have hdeletion := h.registers x .deletion (hP .deletion)
  have hcompletion := h.registers x .completion (hP .completion)
  have hrest := h.rest x
  simp only [SameRegister] at hmove hdeletion hcompletion
  unfold Doc.fields
  cases hget : doc.items.get x with
  | none =>
    rw [hget, Option.map_none, eq_comm, Option.map_eq_none_iff] at hmove
    rw [hmove]
    rfl
  | some node =>
    rw [hget, Option.map_some, eq_comm, Option.map_eq_some_iff] at hmove
    obtain ⟨node', hget', hmove⟩ := hmove
    rw [hget, hget', Option.map_some, Option.map_some, Option.some.injEq] at hdeletion hcompletion hrest
    simp only [Node.rest, Prod.mk.injEq] at hdeletion hrest
    obtain ⟨hdeletes, hrestores, hdeleted⟩ := hdeletion
    obtain ⟨-, -, htype, hcollapsed⟩ := hrest
    rw [hget', Option.map_some, Option.map_some, hv]
    simp only [Node.fields, readType, hmove, hcompletion, htype, hcollapsed,
      Doc.readDeleted_congr doc.schemaVersion hdeletes.symm hrestores.symm hdeleted.symm]

theorem undoable_of_calls (hreplayable : ∀ call ∈ calls, call.replayable = true)
    (hplaced : ∀ call ∈ calls, (doc.moveOf call.id).isSome = true)
    (hroot : ∀ x move, doc.rootId = some x → doc.moveOf x = some move →
      move.parentId = ROOT_PARENT_SENTINEL) :
    Undoable doc (runWrites doc (WriterCall.writes doc calls)) := by
  have hhas : ∀ call ∈ calls, doc.items.has call.id = true := by
    intro call hcall
    obtain ⟨move, hmove⟩ := Option.isSome_iff_exists.mp (hplaced call hcall)
    obtain ⟨node, hget, -⟩ := Option.bind_eq_some_iff.mp hmove
    exact (doc.items.has_iff _).mpr ⟨node, hget⟩
  have hframe : Frame (fun x _ => (doc.moveOf x).isSome = true) doc
      (runWrites doc (WriterCall.writes doc calls)) :=
    frame_writes hreplayable hhas fun call hcall _ => hplaced call hcall
  refine ⟨fun x => isCollapsed_of_rest (hframe.rest x), fun x => type_of_rest (hframe.rest x), ?_, ?_⟩
  · intro x hnone
    apply hframe.fields_eq (runWrites_schemaVersion _ _)
    rw [hnone]
    exact fun _ => Bool.false_ne_true
  · intro x move hx hmove hne
    exact absurd (hroot x move hx hmove) hne

end Replayable

section History

variable {X K : Type} {invert : Invert (Doc × X) K} {h : OutlineHistory X K} {calls : List WriterCall}
  {undoMint redoMint : JsString → JsString}

theorem transact_doc (h : OutlineHistory X K) (calls : List WriterCall) :
    (h.transact calls).doc = runWrites h.doc (WriterCall.writes h.doc calls) := by
  unfold OutlineHistory.transact recordStructure
  dsimp only
  split_ifs <;> rfl

theorem transact_eq (hrecorded : (h.transact calls).undo ≠ h.undo) : h.transact calls =
    ⟨runWrites h.doc (WriterCall.writes h.doc calls), h.texts, h.manager,
      .structural (recordChanges h.doc (WriterCall.writes h.doc calls)) 0 :: h.undo, []⟩ := by
  unfold OutlineHistory.transact recordStructure at hrecorded ⊢
  dsimp only at hrecorded ⊢
  split_ifs at hrecorded ⊢ with hchanges
  · exact absurd rfl hrecorded
  · rw [Nat.sub_self]

theorem undoOnce_transact (hrecorded : (h.transact calls).undo ≠ h.undo) :
    (h.transact calls).undoOnce invert undoMint =
      ⟨replay .before undoMint (h.transact calls).doc (recordChanges h.doc (WriterCall.writes h.doc calls)),
        h.texts, h.manager,
        h.undo, [.structural (recordChanges h.doc (WriterCall.writes h.doc calls)) 0]⟩ := by
  rw [transact_eq hrecorded]
  rfl

theorem redoOnce_transact (hrecorded : (h.transact calls).undo ≠ h.undo) :
    (((h.transact calls).undoOnce invert undoMint).redoOnce invert redoMint).doc =
      replay .after redoMint ((h.transact calls).undoOnce invert undoMint).doc
        (recordChanges h.doc (WriterCall.writes h.doc calls)) := by
  rw [undoOnce_transact hrecorded]
  rfl

end History

/-- An undo right after a recorded transaction of writers brings all structural fields back, and the redo
after it those of the transaction, just where the transaction is undoable. -/
theorem undo_restores_fields_iff {X K : Type} (invert : Invert (Doc × X) K) (h : OutlineHistory X K)
    (calls : List WriterCall) (undoMint redoMint : JsString → JsString)
    (hrecorded : (h.transact calls).undo ≠ h.undo)
    (hundo : ∀ x, FreshToken (h.transact calls).doc x (undoMint x))
    (hredo : ∀ x, FreshToken ((h.transact calls).undoOnce invert undoMint).doc x (redoMint x)) :
    ((∀ x, ((h.transact calls).undoOnce invert undoMint).doc.fields x = h.doc.fields x) ∧
      ∀ x, (((h.transact calls).undoOnce invert undoMint).redoOnce invert redoMint).doc.fields x =
        (h.transact calls).doc.fields x) ↔
      Undoable h.doc (h.transact calls).doc := by
  rw [redoOnce_transact hrecorded]
  have hundone : ((h.transact calls).undoOnce invert undoMint).doc =
      replay .before undoMint (h.transact calls).doc
      (recordChanges h.doc (WriterCall.writes h.doc calls)) := by rw [undoOnce_transact hrecorded]
  rw [hundone] at hredo ⊢
  rw [transact_doc] at hundo hredo ⊢
  constructor
  · rintro ⟨hback, -⟩
    exact undoable_of_undone hback
  · intro hundoable
    have hback :=
      hundoable.replay_fields (runWrites_schemaVersion _ _) (runWrites_rootId _ _)
        (fun _ => Or.inr rfl) hundo .before
    refine ⟨hback, hundoable.replay_fields ?_ ?_ (fun x => Or.inl (hback x)) hredo .after⟩
    · rw [replay_schemaVersion, runWrites_schemaVersion]
    · rw [replay_rootId, runWrites_rootId]

section Examples

def finishA : List WriterCall :=
  [.toggleCompleted (js ['a']), .writeDeleted (js ['a']) ⟨true, noHlc⟩ (js ['t'])]

def bulletHistory : OutlineHistory Unit TextItem := .create oneBullet ()

theorem undo_restores_fields_finished :
    (∀ x, ((bulletHistory.transact finishA).undoOnce wholeTexts.invert token).doc.fields x =
      bulletHistory.doc.fields x) ∧
    ∀ x, (((bulletHistory.transact finishA).undoOnce wholeTexts.invert token).redoOnce
        wholeTexts.invert token).doc.fields x =
      (bulletHistory.transact finishA).doc.fields x := by
  have hrecorded : (bulletHistory.transact finishA).undo ≠ bulletHistory.undo :=
    fun he => absurd (congrArg List.length he) (by decide +kernel)
  refine (undo_restores_fields_iff wholeTexts.invert bulletHistory finishA token token hrecorded
    (freshToken_of_entries (by decide +kernel)) (freshToken_of_entries (by decide +kernel))).mpr ?_
  rw [transact_doc]
  apply undoable_of_calls
  · decide
  · decide +kernel
  · intro x move hroot hmove
    have hx : x = js ['r'] := by
      have hid : oneBullet.rootId = some (js ['r']) := by decide +kernel
      exact (Option.some.inj (hid.symm.trans hroot)).symm
    subst hx
    have hplace : (oneBullet.moveOf (js ['r'])).map MoveRegister.parentId = some ROOT_PARENT_SENTINEL := by
      decide +kernel
    rw [show oneBullet.moveOf (js ['r']) = some move from hmove] at hplace
    exact Option.some.inj hplace

def foldA : List WriterCall := [.setIsCollapsed (js ['a']) true, .setItemType (js ['a']) .task]

/-- The transaction is recorded as one action; an undo pops it and leaves the bullet as it is. -/
theorem undo_keeps_flags : oneBullet.items.has (js ['a']) = true ∧
    (∃ action, (bulletHistory.transact foldA).undo = [action]) ∧
    (∀ x, FreshToken (bulletHistory.transact foldA).doc x (token x)) ∧
    ((bulletHistory.transact foldA).undoOnce wholeTexts.invert token).doc.fields (js ['a']) =
      (bulletHistory.transact foldA).doc.fields (js ['a']) ∧
    (bulletHistory.transact foldA).doc.fields (js ['a']) ≠ bulletHistory.doc.fields (js ['a']) ∧
    ((bulletHistory.transact foldA).undoOnce wholeTexts.invert token).undo = [] := by
  refine ⟨by decide +kernel, ⟨_, rfl⟩, freshToken_of_entries (by decide +kernel), ?_, ?_, ?_⟩
    <;> decide +kernel

end Examples

end OpenOutliner
