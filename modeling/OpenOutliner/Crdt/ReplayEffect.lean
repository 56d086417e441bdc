import OpenOutliner.Crdt.History
import OpenOutliner.Crdt.OutlineView

namespace OpenOutliner

open Foundations

/-- No restore of the item holds the token of a delete, which is a new UUID. -/
def FreshToken (doc : Doc) (x token : JsString) : Prop :=
  ∀ node, doc.items.get x = some node → token ∉ node.restoreRecords.getD ∅

def Change.shownAfter (c : Change) (side : Side) (r : MoveRegister × Bool × Bool) :
    MoveRegister × Bool × Bool :=
  match c.state side with
  | none => (r.1, true, r.2.2)
  | some state => state.registers

section Registers

variable {doc : Doc} {x token : JsString} {r : MoveRegister × Bool × Bool}

theorem registersOf_iff : doc.registersOf x = some r ↔
    ∃ node, doc.items.get x = some node ∧ node.move = some r.1 ∧
    (readDeleted doc.schemaVersion node).isDeleted = r.2.1 ∧ node.isCompleted.getD false = r.2.2 := by
  unfold Doc.registersOf Doc.snapshot readNodeSnapshot
  cases hget : doc.items.get x with
  | none => simp
  | some node =>
    cases hmove : node.move with
    | none => simp [hmove]
    | some move =>
      simp only [Option.bind_some, hmove, Option.map_some, Option.some.injEq, exists_eq_left',
        ItemNodeSnapshot.registers]
      rw [Prod.ext_iff, Prod.ext_iff]

theorem registersOf_writeMove (m : MoveRegister) (h : doc.registersOf x = some r)
    (hroot : doc.rootId = some x → m.parentId = ROOT_PARENT_SENTINEL) :
    (doc.writeMove x m).registersOf x = some (m, r.2) := by
  obtain ⟨node, hget, hmove, hdel, hcompleted⟩ := registersOf_iff.mp h
  rw [registersOf_iff]
  unfold Doc.writeMove
  rw [if_neg fun hskip => hskip.2 (hroot hskip.1)]
  refine ⟨{ node with move := some m }, ?_, rfl, ?_, hcompleted⟩
  · rw [Doc.setNode_get, if_pos rfl, hget, Option.getD_some]
  · rw [← hdel]
    exact congrArg DeletedRegister.isDeleted (Doc.readDeleted_congr _ rfl rfl rfl)

theorem freshToken_writeMove (m : MoveRegister) (hx : doc.registersOf x ≠ none) (h : FreshToken doc x token) :
    FreshToken (doc.writeMove x m) x token := by
  obtain ⟨r, hr⟩ := Option.ne_none_iff_exists'.mp hx
  obtain ⟨node, hget, -⟩ := registersOf_iff.mp hr
  intro node' hget'
  unfold Doc.writeMove at hget'
  split_ifs at hget'
  · exact h node' hget'
  · rw [Doc.setNode_get, if_pos rfl, hget, Option.getD_some] at hget'
    rw [← Option.some.inj hget']
    exact h node hget

theorem registersOf_writeDeleted (del : DeletedRegister) (h : doc.registersOf x = some r)
    (hroot : doc.schemaVersion = some 2 → doc.rootId ≠ some x) (hfresh : FreshToken doc x token) :
    (doc.writeDeleted x del token).registersOf x = some (r.1, del.isDeleted, r.2.2) := by
  obtain ⟨node, hget, hmove, -, hcompleted⟩ := registersOf_iff.mp h
  rw [registersOf_iff, Doc.writeDeleted_schemaVersion]
  unfold Doc.writeDeleted
  by_cases hv : doc.schemaVersion = some 2
  · have hnew := hfresh node hget
    rw [if_pos hv, if_neg (hroot hv)]
    refine ⟨Doc.writeRecords del.isDeleted token node, ?_, ?_, ?_, ?_⟩
    · rw [Doc.updateNode_get, if_pos rfl, hget, Option.map_some]
    · unfold Doc.writeRecords
      split_ifs <;> exact hmove
    · rw [hv, readDeleted, if_pos rfl]
      unfold Doc.writeRecords Node.hasActiveDelete
      split_ifs with hd
      · simp only [hd, decide_eq_true_eq]
        exact ⟨token, Finset.mem_insert_self _ _, hnew⟩
      · simp only [Bool.not_eq_true] at hd
        simp only [hd, decide_eq_false_iff_not, not_exists, not_and, not_not]
        intro t ht
        exact Finset.mem_union_right _ ht
    · unfold Doc.writeRecords
      split_ifs <;> exact hcompleted
  · rw [if_neg hv]
    refine ⟨{ node with deleted := some del }, ?_, hmove, ?_, hcompleted⟩
    · rw [Doc.updateNode_get, if_pos rfl, hget, Option.map_some]
    · rw [readDeleted, if_neg hv]
      rfl

theorem registersOf_writeCompleted (value : Bool) (h : doc.registersOf x = some r) :
    (doc.writeField x (.isCompleted value)).registersOf x = some (r.1, r.2.1, value) := by
  obtain ⟨node, hget, hmove, hdel, hcompleted⟩ := registersOf_iff.mp h
  rw [registersOf_iff]
  refine ⟨Field.set (.isCompleted value) node, ?_, hmove, ?_, rfl⟩
  · rw [Doc.writeField, Doc.updateNode_get, if_pos rfl, hget, Option.map_some]
  · rw [Doc.writeField, Doc.updateNode_schemaVersion, ← hdel]
    exact congrArg DeletedRegister.isDeleted (Doc.readDeleted_congr _ rfl rfl rfl)

theorem registersOf_ext {doc' : Doc} (hv : doc'.schemaVersion = doc.schemaVersion)
    (h : (doc'.items.get x).map Node.registers = (doc.items.get x).map Node.registers) :
    doc'.registersOf x = doc.registersOf x := snapshot_registers hv h

theorem run_root (hroot : doc.rootId = some x) (h : doc.registersOf x = some r) (w : Write) :
    ∃ r', (w.run doc).registersOf x = some r' ∧ (r'.1 = r.1 ∨ r'.1.parentId = ROOT_PARENT_SENTINEL) ∧
      (doc.schemaVersion = some 2 → r'.2.1 = r.2.1) := by
  have hsame : ∀ {d : Doc}, d.registersOf x = doc.registersOf x → ∃ r', d.registersOf x = some r' ∧
      (r'.1 = r.1 ∨ r'.1.parentId = ROOT_PARENT_SENTINEL) ∧ (doc.schemaVersion = some 2 → r'.2.1 = r.2.1) :=
    fun hd => ⟨r, hd.trans h, Or.inl rfl, fun _ => rfl⟩
  by_cases hannounced : w.announces doc = some x
  · cases w with
    | move id m =>
      simp only [Write.announces, hroot, Option.some.injEq] at hannounced
      split_ifs at hannounced with hskip
      obtain rfl := Option.some.inj hannounced
      have hm : m.parentId = ROOT_PARENT_SENTINEL := by
        by_contra hne
        exact hskip ⟨rfl, hne⟩
      exact ⟨(m, r.2), registersOf_writeMove m h fun _ => hm, Or.inr hm, fun _ => rfl⟩
    | deleted id del token =>
      simp only [Write.announces, hroot, Option.some.injEq] at hannounced
      split_ifs at hannounced with hskip
      obtain rfl := Option.some.inj hannounced
      have hmove : (doc.writeDeleted id del token).moveOf id = some r.1 := by
        rw [Doc.writeDeleted_moveOf, moveOf_eq, h]
        rfl
      rw [moveOf_eq, Option.map_eq_some_iff] at hmove
      obtain ⟨r', hr', he⟩ := hmove
      exact ⟨r', hr', Or.inl he, fun hv => absurd ⟨hv, rfl⟩ hskip⟩
    | field id f =>
      obtain rfl := Option.some.inj hannounced
      cases f with
      | isCompleted value => exact ⟨_, registersOf_writeCompleted value h, Or.inl rfl, fun _ => rfl⟩
      | isCollapsed value =>
        exact hsame
          (registersOf_ext (doc.updateNode_schemaVersion id _) (updateNode_registers id fun _ => rfl))
      | type value =>
        exact hsame
          (registersOf_ext (doc.updateNode_schemaVersion id _) (updateNode_registers id fun _ => rfl))
    | ensureContent id => cases hannounced
    | editContent id f => cases hannounced
  · exact hsame (registersOf_ext (run_schemaVersion w) (run_unannounced hannounced))

theorem runWrites_root (ws : List Write) (hroot : doc.rootId = some x) (h : doc.registersOf x = some r) :
    ∃ r', (runWrites doc ws).registersOf x = some r' ∧ (r'.1 = r.1 ∨ r'.1.parentId = ROOT_PARENT_SENTINEL) ∧
      (doc.schemaVersion = some 2 → r'.2.1 = r.2.1) := by
  induction ws generalizing doc r with
  | nil => exact ⟨r, h, Or.inl rfl, fun _ => rfl⟩
  | cons w ws ih =>
    obtain ⟨r', hr', hmove', hdel'⟩ := run_root hroot h w
    obtain ⟨r'', hr'', hmove'', hdel''⟩ := ih ((run_rootId w).trans hroot) hr'
    refine ⟨r'', hr'', ?_, fun hv => (hdel'' ((run_schemaVersion w).trans hv)).trans (hdel' hv)⟩
    rcases hmove'' with hsame | hunder
    · rw [hsame]
      exact hmove'
    · exact Or.inr hunder

theorem textOf_present (h : doc.registersOf x ≠ none) : doc.textOf x = (doc.contentOf x).getD [] := by
  obtain ⟨r, hr⟩ := Option.ne_none_iff_exists'.mp h
  obtain ⟨node, hget, hmove, -⟩ := registersOf_iff.mp hr
  simp only [Doc.textOf, Doc.contentOf, Doc.snapshot, readNodeSnapshot, hget, hmove, Option.bind_some,
    Option.map_some,
    Option.getD_some]

end Registers

section Target

variable {doc : Doc} {c : Change} {side : Side} {x id token : JsString} {w : Write} {reg : Register}

theorem writes_target (hw : w ∈ c.writes side token) : ∃ reg, w.target = some (c.id, reg) := by
  unfold Change.writes at hw
  split at hw
  · obtain rfl := List.mem_singleton.mp hw
    exact ⟨.deletion, rfl⟩
  · rw [List.mem_append, List.mem_append] at hw
    obtain (hw | hw) | hw := hw
    · split at hw
      · cases hw
      · obtain rfl := List.mem_singleton.mp hw
        exact ⟨.move, rfl⟩
    · split at hw
      · cases hw
      · obtain rfl := List.mem_singleton.mp hw
        exact ⟨.deletion, rfl⟩
    · split at hw
      · obtain rfl := List.mem_singleton.mp hw
        exact ⟨.completion, rfl⟩
      · cases hw

theorem run_other (htarget : w.target = some (id, reg)) (hx : x ≠ id) :
    (w.run doc).items.get x = doc.items.get x := by
  cases w with
  | move id' m =>
    cases htarget
    simp only [Write.run, Doc.writeMove]
    split_ifs
    · rfl
    · rw [Doc.setNode_get, if_neg hx]
  | deleted id' del token =>
    cases htarget
    simp only [Write.run, Doc.writeDeleted]
    split_ifs
    · rfl
    · exact updateNode_other _ hx
    · exact updateNode_other _ hx
  | field id' f =>
    cases f with
    | isCompleted value =>
      cases htarget
      exact updateNode_other _ hx
    | isCollapsed value => cases htarget
    | type value => cases htarget
  | ensureContent id' => cases htarget
  | editContent id' f => cases htarget

theorem runWrites_other {ws : List Write} (hws : ∀ w ∈ ws, ∃ reg, w.target = some (id, reg)) (hx : x ≠ id) :
    (runWrites doc ws).items.get x = doc.items.get x := by
  induction ws generalizing doc with
  | nil => rfl
  | cons w ws ih =>
    obtain ⟨reg, htarget⟩ := hws w List.mem_cons_self
    exact (ih fun w hw => hws w (List.mem_cons_of_mem _ hw)).trans (run_other htarget hx)

theorem runWrites_schemaVersion (doc : Doc) (ws : List Write) :
    (runWrites doc ws).schemaVersion = doc.schemaVersion := by
  induction ws generalizing doc with
  | nil => rfl
  | cons w ws ih => exact (ih _).trans (run_schemaVersion w)

theorem runWrites_rootId (doc : Doc) (ws : List Write) : (runWrites doc ws).rootId = doc.rootId := by
  induction ws generalizing doc with
  | nil => rfl
  | cons w ws ih => exact (ih _).trans (run_rootId w)

end Target

structure Replayable (side : Side) (token : JsString) (c : Change) (doc : Doc) : Prop where
  present : doc.registersOf c.id ≠ none
  kept : ∀ r state, doc.registersOf c.id = some r → c.state side = some state →
    (c.keeps ItemNodeSnapshot.move = true → r.1 = state.move) ∧
    (c.keeps (fun s => s.deleted.isDeleted) = true → r.2.1 = state.deleted.isDeleted) ∧
    (c.before.map ItemNodeSnapshot.isCompleted = c.after.map ItemNodeSnapshot.isCompleted →
      r.2.2 = state.isCompleted)
  root : doc.rootId = some c.id → ∃ state, c.state side = some state ∧
    state.move.parentId = ROOT_PARENT_SENTINEL ∧
    c.keeps (fun s => s.deleted.isDeleted) = true
  fresh : FreshToken doc c.id token

section Replay

variable {doc doc' : Doc} {c : Change} {side : Side} {x token : JsString} {mint : JsString → JsString}
  {changes : List Change}

theorem Replayable.congr (h : Replayable side token c doc) (hv : doc'.schemaVersion = doc.schemaVersion)
    (hroot : doc'.rootId = doc.rootId) (hget : doc'.items.get c.id = doc.items.get c.id) :
    Replayable side token c doc' := by
  have hregisters : doc'.registersOf c.id = doc.registersOf c.id := registersOf_ext hv (by rw [hget])
  refine ⟨hregisters ▸ h.present, ?_, ?_, ?_⟩
  · intro r state hr
    rw [hregisters] at hr
    exact h.kept r state hr
  · intro hr
    rw [hroot] at hr
    exact h.root hr
  · intro node hnode
    rw [hget] at hnode
    exact h.fresh node hnode

/-- An item that the chosen side has shows what it has there. The root stays where it is, unless it goes
under the sentinel, and in version 2 its deletion is not replayed. -/
theorem replay_state {r : MoveRegister × Bool × Bool} {state : ItemNodeSnapshot}
    (hr : doc.registersOf c.id = some r) (hstate : c.state side = some state)
    (hkept : (c.keeps ItemNodeSnapshot.move = true → r.1 = state.move) ∧
      (c.keeps (fun s => s.deleted.isDeleted) = true → r.2.1 = state.deleted.isDeleted) ∧
      (c.before.map ItemNodeSnapshot.isCompleted = c.after.map ItemNodeSnapshot.isCompleted →
        r.2.2 = state.isCompleted))
    (hroot : doc.rootId = some c.id →
      (c.keeps ItemNodeSnapshot.move = true ∨ state.move.parentId = ROOT_PARENT_SENTINEL) ∧
      (doc.schemaVersion = some 2 → c.keeps (fun s => s.deleted.isDeleted) = true))
    (hfresh : FreshToken doc c.id token) :
    (runWrites doc (c.writes side token)).registersOf c.id = some state.registers := by
  obtain ⟨hmove, hdel, hcompleted⟩ := hkept
  unfold Change.writes
  rw [hstate]
  dsimp only
  rw [runWrites, List.foldl_append, List.foldl_append]
  -- the three registers are written one after the other
  have hfirst : ∃ d, (if c.keeps ItemNodeSnapshot.move then []
      else [Write.move c.id state.move]).foldl Write.run doc = d ∧
      d.registersOf c.id = some (state.move, r.2) ∧ d.schemaVersion = doc.schemaVersion ∧
      d.rootId = doc.rootId ∧
      FreshToken d c.id token := by
    split_ifs with hkeeps
    · exact ⟨doc, rfl, by rw [hr, ← hmove hkeeps], rfl, rfl, hfresh⟩
    · refine ⟨doc.writeMove c.id state.move, rfl, ?_, ?_, ?_, ?_⟩
      · exact registersOf_writeMove _ hr fun hid => (hroot hid).1.resolve_left hkeeps
      · rw [Doc.writeMove_schemaVersion]
      · rw [Doc.writeMove_rootId]
      · exact freshToken_writeMove _ (hr ▸ Option.some_ne_none _) hfresh
  obtain ⟨d, hd, hshown, hversion, hrootId, hfresh'⟩ := hfirst
  rw [hd]
  have hsecond : ∃ d', (if c.keeps (fun s => s.deleted.isDeleted) then [] else
      [Write.deleted c.id state.deleted token]).foldl Write.run d = d' ∧
      d'.registersOf c.id = some (state.move, state.deleted.isDeleted, r.2.2) := by
    split_ifs with hkeeps
    · exact ⟨d, rfl, by rw [hshown, ← hdel hkeeps]⟩
    · refine ⟨d.writeDeleted c.id state.deleted token, rfl, ?_⟩
      apply registersOf_writeDeleted _ hshown _ hfresh'
      rw [hversion, hrootId]
      exact fun hv hid => hkeeps ((hroot hid).2 hv)
  obtain ⟨d', hd', hshown'⟩ := hsecond
  rw [hd']
  split_ifs with hne
  · exact registersOf_writeCompleted _ hshown'
  · rw [List.foldl_nil, hshown', hcompleted (not_not.mp hne)]
    rfl

theorem replay_change (h : Replayable side token c doc) :
    (runWrites doc (c.writes side token)).registersOf c.id =
      (doc.registersOf c.id).map (c.shownAfter side) := by
  obtain ⟨r, hr⟩ := Option.ne_none_iff_exists'.mp h.present
  rw [hr, Option.map_some]
  unfold Change.shownAfter
  cases hstate : c.state side with
  | none =>
    unfold Change.writes
    rw [hstate]
    apply registersOf_writeDeleted _ hr _ h.fresh
    intro _ hroot
    obtain ⟨state, hsome, -⟩ := h.root hroot
    rw [hstate] at hsome
    cases hsome
  | some state =>
    apply replay_state hr hstate (h.kept r state hr hstate) _ h.fresh
    intro hroot
    obtain ⟨state', hsome, hparent, hsame⟩ := h.root hroot
    rw [hstate] at hsome
    obtain rfl := Option.some.inj hsome
    exact ⟨Or.inr hparent, fun _ => hsame⟩

theorem replay_cons (hhas : doc.items.has c.id = true) : replay side mint doc (c :: changes) =
    replay side mint (runWrites doc (c.writes side (mint c.id))) changes := by
  rw [replay, List.foldl_cons, if_pos hhas]
  rfl

theorem replay_induction {P : Doc → Prop} (h : P doc)
    (hstep : ∀ d, P d → ∀ c ∈ changes, P (runWrites d (c.writes side (mint c.id)))) :
    P (replay side mint doc changes) := by
  induction changes generalizing doc with
  | nil => exact h
  | cons c changes ih =>
    have hrest := fun d hd c' (hc' : c' ∈ changes) => hstep d hd c' (List.mem_cons_of_mem _ hc')
    rw [replay, List.foldl_cons]
    split_ifs
    · exact ih (hstep doc h c List.mem_cons_self) hrest
    · exact ih h hrest

theorem replay_schemaVersion (side : Side) (mint : JsString → JsString) (doc : Doc) (changes : List Change) :
    (replay side mint doc changes).schemaVersion = doc.schemaVersion := by
  refine replay_induction (P := fun d => d.schemaVersion = doc.schemaVersion) rfl ?_
  intro d hd c _
  rw [runWrites_schemaVersion, hd]

theorem replay_rootId (side : Side) (mint : JsString → JsString) (doc : Doc) (changes : List Change) :
    (replay side mint doc changes).rootId = doc.rootId := by
  refine replay_induction (P := fun d => d.rootId = doc.rootId) rfl ?_
  intro d hd c _
  rw [runWrites_rootId, hd]

theorem replay_other (hx : x ∉ changes.map Change.id) :
    (replay side mint doc changes).items.get x = doc.items.get x := by
  refine replay_induction (P := fun d => d.items.get x = doc.items.get x) rfl ?_
  intro d hd c hc
  have hne : x ≠ c.id := by
    rintro rfl
    exact hx (List.mem_map_of_mem hc)
  rw [runWrites_other (fun w hw => writes_target hw) hne, hd]

theorem replay_each {shown : Change → Option (MoveRegister × Bool × Bool)}
    (hnodup : (changes.map Change.id).Nodup) (hhas : ∀ c ∈ changes, doc.items.has c.id = true)
    (h : ∀ c ∈ changes, ∀ d : Doc, d.schemaVersion = doc.schemaVersion → d.rootId = doc.rootId →
      d.items.get c.id = doc.items.get c.id →
      (runWrites d (c.writes side (mint c.id))).registersOf c.id = shown c) :
    ∀ c ∈ changes, (replay side mint doc changes).registersOf c.id = shown c := by
  induction changes generalizing doc with
  | nil => simp
  | cons c changes ih =>
    rw [List.map_cons, List.nodup_cons] at hnodup
    have hapart : ∀ c' ∈ changes, c'.id ≠ c.id := by
      intro c' hc' he
      exact hnodup.1 (he ▸ List.mem_map_of_mem hc')
    have hother : ∀ c' ∈ changes, (runWrites doc (c.writes side (mint c.id))).items.get c'.id =
        doc.items.get c'.id :=
      fun c' hc' => runWrites_other (fun w hw => writes_target hw) (hapart c' hc')
    have hv := runWrites_schemaVersion doc (c.writes side (mint c.id))
    have hroot := runWrites_rootId doc (c.writes side (mint c.id))
    rw [replay_cons (hhas c List.mem_cons_self)]
    intro c' hc'
    rcases List.mem_cons.mp hc' with rfl | hc'
    · rw [registersOf_ext (replay_schemaVersion _ _ _ _) (by rw [replay_other hnodup.1])]
      exact h c' List.mem_cons_self doc rfl rfl rfl
    · refine ih hnodup.2 ?_ ?_ c' hc'
      · intro c' hc'
        have hold := hhas c' (List.mem_cons_of_mem _ hc')
        rwa [OrderedMap.has, ← hother c' hc'] at hold
      · intro c' hc' d hdv hdroot hdget
        exact h c' (List.mem_cons_of_mem _ hc') d (hdv.trans hv) (hdroot.trans hroot)
          (hdget.trans (hother c' hc'))

theorem replay_registers (hnodup : (changes.map Change.id).Nodup)
    (h : ∀ c ∈ changes, Replayable side (mint c.id) c doc) :
    ∀ c ∈ changes, (replay side mint doc changes).registersOf c.id =
    (doc.registersOf c.id).map (c.shownAfter side) := by
  refine replay_each hnodup ?_ ?_
  · intro c hc
    obtain ⟨r, hr⟩ := Option.ne_none_iff_exists'.mp (h c hc).present
    obtain ⟨node, hget, -⟩ := registersOf_iff.mp hr
    exact (doc.items.has_iff c.id).mpr ⟨node, hget⟩
  · intro c hc d hv hroot hget
    have hsame : d.registersOf c.id = doc.registersOf c.id := registersOf_ext hv (by rw [hget])
    rw [replay_change ((h c hc).congr hv hroot hget), hsame]

theorem replay_frame (side : Side) (mint : JsString → JsString) (doc : Doc) (changes : List Change) :
    Frame (fun _ _ => True) doc (replay side mint doc changes) := by
  apply frame_replay
  intro c _ w hw
  obtain ⟨reg, htarget⟩ := writes_target hw
  exact ⟨reg, htarget, trivial⟩

theorem replay_items (side : Side) (mint : JsString → JsString) (doc : Doc) (changes : List Change)
    (x : JsString) :
    ((replay side mint doc changes).items.get x).isSome = (doc.items.get x).isSome := by
  have hkeys := (replay_frame side mint doc changes).keys
  rw [Bool.eq_iff_iff, Option.isSome_iff_exists, Option.isSome_iff_exists, ← OrderedMap.mem_keys_iff,
    ← OrderedMap.mem_keys_iff, hkeys]

theorem replay_contentOf (side : Side) (mint : JsString → JsString) (doc : Doc) (changes : List Change)
    (x : JsString) :
    (replay side mint doc changes).contentOf x = doc.contentOf x := by
  have hrest := congrArg (Option.map Prod.fst) ((replay_frame side mint doc changes).rest x)
  rw [Option.map_map, Option.map_map] at hrest
  have hbind : ∀ o : Option Node, o.bind Node.content = (o.map (Prod.fst ∘ Node.rest)).bind fun t => t := by
    intro o
    cases o <;> rfl
  rw [Doc.contentOf, Doc.contentOf, hbind, hbind, hrest]

end Replay

end OpenOutliner
