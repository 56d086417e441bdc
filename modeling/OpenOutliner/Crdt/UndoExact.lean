import OpenOutliner.Crdt.CommandWrites
import OpenOutliner.Crdt.TextUndo
import OpenOutliner.Crdt.VisibleMoves

namespace OpenOutliner

open Foundations OutlineHistory

inductive Built (lib : FractionalIndexing) (rootId : JsString) : Doc → Prop
  | created (actor : Actor) : Built lib rootId (createRoot lib (newDoc rootId) rootId actor).2
  | ran {doc : Doc} (cmd : Command) (actor : Actor) :
      Built lib rootId doc → Built lib rootId (cmd.run lib doc actor).2
  | typed {doc : Doc} (id : JsString) (f : JsString → JsString) : Built lib rootId doc →
      Built lib rootId (doc.editContent id f)

/-- A history with the documents that it went through: those before the actions that undo can take back,
latest first, and those that redo can bring back, next first. -/
structure LocalRun (K : Type) where
  history : OutlineHistory Unit K
  past : List Doc
  future : List Doc

/-- `writes` is what the command does in its transaction, `k` what the text manager puts on its stack. -/
inductive LocalAct (K : Type)
  | typed (id : JsString) (f : JsString → JsString) (k : K)
  | command (cmd : Command) (actor : Actor) (writes : List Write) (k : Option K)
  | undo (mint : JsString → JsString)
  | redo (mint : JsString → JsString)

def Command.undoable : Command → Bool
  | setIsCollapsed _ _ | setItemType _ _ => false
  | _ => true

namespace LocalRun

variable {K : Type} (M : TextUndo K) (lib : FractionalIndexing) (rootId : JsString)

def doc (s : LocalRun K) : Doc := s.history.doc

def create (doc : Doc) : LocalRun K := ⟨.create doc (), [], []⟩

def step (s : LocalRun K) : LocalAct K → Option (LocalRun K)
  | .typed id f k => some ⟨s.history.recordText (s.doc.editContent id f) () k, s.doc :: s.past, []⟩
  | .command _ _ writes k => some ⟨s.history.recordStructure writes () k, s.doc :: s.past, []⟩
  | .undo mint =>
    match s.past with
    | [] => some { s with history := s.history.undoOnce M.invert mint }
    | _ :: past => some ⟨s.history.undoOnce M.invert mint, past, s.doc :: s.future⟩
  | .redo mint =>
    match s.future with
    | [] => some { s with history := s.history.redoOnce M.invert mint }
    | _ :: future => some ⟨s.history.redoOnce M.invert mint, s.doc :: s.past, future⟩

def Stacks (d e : Doc) (k : Option K) : Prop :=
  match k with
  | none => d.textOf = e.textOf
  | some k => M.reverts k d.textOf e.textOf

/-- The steps of a local run: actions that return normally and change the visible outline, and calls of undo
and redo, with new tokens. -/
def Allowed (s : LocalRun K) : LocalAct K → Prop
  | .typed id f k => id ∈ s.doc.flattenVisible rootId (fun _ => false) ∧
      (s.doc.editContent id f).outline rootId ≠ s.doc.outline rootId ∧ Stacks M s.doc
      (s.doc.editContent id f) (some k)
  | .command cmd actor writes k => cmd.undoable = true ∧
      (∃ b, cmd.run lib s.doc actor = (.ok b, runWrites s.doc writes)) ∧
      (runWrites s.doc writes).outline rootId ≠ s.doc.outline rootId ∧ Stacks M s.doc
      (runWrites s.doc writes) k
  | .undo mint | .redo mint => ∀ x, FreshToken s.doc x (mint x)

/-- A command inserts an item or changes the placement, deletion or completion of one, and no item is placed
under an item that it inserts, neither now nor in a state that undo can bring back. -/
def Revertible (s : LocalRun K) : LocalAct K → Prop
  | .command _ _ writes _ => (∃ x, s.doc.registersOf x ≠ (runWrites s.doc writes).registersOf x) ∧
      ∀ x, s.doc.registersOf x = none → (runWrites s.doc writes).registersOf x ≠ none →
        ∀ d ∈ s.doc :: s.past, d.Unnamed x
  | _ => True

inductive Calls (side : Side) (s : LocalRun K) : ℕ → LocalRun K → Prop
  | zero : Calls side s 0 s
  | succ {k : ℕ} {t u : LocalRun K} (mint : JsString → JsString) : Calls side s k t →
      (∀ x, FreshToken t.doc x (mint x)) → t.step M
      (match side with | .before => .undo mint | .after => .redo mint) = some u →
      Calls side s (k + 1) u

/-- `k` calls of undo bring back the outline before the last `k` actions, and `k` calls of redo then the
present one. -/
def UndoExact (s : LocalRun K) : Prop :=
  ∀ k u d, Calls M .before s k u → (s.doc :: s.past)[k]? = some d → u.doc.outline rootId = d.outline rootId ∧
    ∀ t, Calls M .after u k t → t.doc.outline rootId = s.doc.outline rootId

end LocalRun

section SaneRuns

variable {lib : FractionalIndexing} {Key : JsString → Prop} {rootId x : JsString} {doc : Doc}

theorem run_contentOf_isSome (w : Write) (h : (doc.contentOf x).isSome = true) :
    ((w.run doc).contentOf x).isSome = true := by
  have hupdate : ∀ (id : JsString) (f : Node → Node),
      (∀ node : Node, node.content.isSome = true → (f node).content.isSome = true) →
      ((doc.updateNode id f).contentOf x).isSome = true := by
    intro id f hf
    rw [Doc.contentOf, Doc.updateNode_get]
    split_ifs
    · obtain ⟨t, ht⟩ := Option.isSome_iff_exists.mp h
      obtain ⟨node, hget, hcontent⟩ := Option.bind_eq_some_iff.mp ht
      rw [hget, Option.map_some, Option.bind_some]
      exact hf node (by rw [hcontent]; rfl)
    · exact h
  cases w with
  | move id m =>
    simp only [Write.run, Doc.writeMove]
    split_ifs
    · exact h
    · rw [Doc.contentOf, Doc.setNode_get]
      split_ifs with hx
      · obtain ⟨t, ht⟩ := Option.isSome_iff_exists.mp h
        obtain ⟨node, hget, hcontent⟩ := Option.bind_eq_some_iff.mp ht
        rw [← hx, hget, Option.getD_some, Option.bind_some, hcontent]
        rfl
      · exact h
  | deleted id del token =>
    simp only [Write.run, Doc.writeDeleted]
    split_ifs
    · exact h
    · apply hupdate
      intro node hnode
      unfold Doc.writeRecords
      split_ifs <;> exact hnode
    · exact hupdate _ _ fun _ hnode => hnode
  | field id f =>
    apply hupdate
    intro node hnode
    cases f <;> exact hnode
  | ensureContent id => exact hupdate _ _ fun _ _ => rfl
  | editContent id f =>
    apply hupdate
    intro node hnode
    exact Option.isSome_map.trans hnode

theorem sane_run (w : Write) (h : Sane rootId doc) : Sane rootId (w.run doc) := by
  refine ⟨(run_schemaVersion w).trans h.versioned, (run_rootId w).trans h.rooted, ?_, ?_⟩
  · obtain ⟨move, completed, hshown, hparent⟩ := h.root
    obtain ⟨⟨move', deleted', completed'⟩, hr', hmove, hdel⟩ := run_root h.rooted hshown w
    obtain rfl : deleted' = false := hdel h.versioned
    refine ⟨move', completed', hr', ?_⟩
    rcases hmove with rfl | hunder
    · exact hparent
    · exact hunder
  · intro x hx
    by_cases hold : (doc.items.get x).isSome = true
    · exact run_contentOf_isSome w (h.texts x hold)
    · obtain ⟨move, rfl⟩ := (run_isSome w hx).resolve_left hold
      have hnone : doc.items.get x = none := by
        rwa [Bool.not_eq_true, Option.isSome_eq_false_iff, Option.isNone_iff_eq_none] at hold
      simp only [Write.run, Doc.writeMove] at hx ⊢
      split_ifs at hx ⊢
      · exact absurd hx hold
      · rw [Doc.contentOf, Doc.setNode_get, if_pos rfl, hnone]
        rfl

theorem sane_runWrites (ws : List Write) (h : Sane rootId doc) : Sane rootId (runWrites doc ws) := by
  induction ws generalizing doc with
  | nil => exact h
  | cons w ws ih => exact ih (sane_run w h)

theorem built_sane (hlib : lib.Lawful Key) (h : Built lib rootId doc) : Sane rootId doc := by
  induction h with
  | created actor =>
    obtain ⟨k, hk, -⟩ := rankBetween_ok hlib (bounds_above (by simp : ∀ a ∈ none, Key a)) []
    unfold createRoot
    rw [hk]
    change Sane rootId ((newDoc rootId).writeMove rootId (buildRootMove k (actor.ctx 0)))
    have hget : ((newDoc rootId).writeMove rootId (buildRootMove k (actor.ctx 0))).items.get rootId =
        some { freshNode with move := some (buildRootMove k (actor.ctx 0)) } := by
      unfold Doc.writeMove
      rw [if_neg fun hskip => hskip.2 rfl, Doc.setNode_get, if_pos rfl]
      rfl
    refine ⟨Doc.writeMove_schemaVersion _ _ _, Doc.writeMove_rootId _ _ _,
      ⟨buildRootMove k (actor.ctx 0), false, ?_, rfl⟩, ?_⟩
    · rw [registersOf_iff, Doc.writeMove_schemaVersion]
      exact ⟨_, hget, rfl, rfl, rfl⟩
    · intro x hx
      by_cases he : x = rootId
      · rw [he, Doc.contentOf, hget]
        rfl
      · have hother := Doc.setNode_get (newDoc rootId) rootId x
          { ((newDoc rootId).items.get rootId).getD freshNode with
            move := some (buildRootMove k (actor.ctx 0)) }
        rw [if_neg he] at hother
        unfold Doc.writeMove at hx
        rw [if_neg fun hskip => hskip.2 rfl, hother] at hx
        cases hx
  | @ran doc cmd actor _ ih =>
    obtain ⟨ws, hws, -⟩ := run_writesTo lib doc actor cmd
    rw [hws]
    exact sane_runWrites ws ih
  | typed id f _ ih => exact sane_run (.editContent id f) ih

end SaneRuns

section Chains

variable {K : Type} {M : TextUndo K} {rootId : JsString}

def Quiet (d cur : Doc) : Prop := ∀ x, d.registersOf x = none → cur.registersOf x ≠ none → d.Unnamed x

inductive UndoChain (M : TextUndo K) (rootId : JsString) : Doc → List Doc → List Action → List K → Prop
  | nil {cur : Doc} (stack : List K) : UndoChain M rootId cur [] [] stack
  | cons {cur d e : Doc} {a : Action} {segment : List K} {past : List Doc} {actions : List Action}
      {stack : List K} :
      Sane rootId d → TakesTo a d e → Segment M d.textOf e.textOf segment → segment.length = textSteps a →
      Agree e cur → UndoChain M rootId d past actions stack →
      UndoChain M rootId cur (d :: past) (a :: actions) (segment ++ stack)

inductive RedoChain (M : TextUndo K) (rootId : JsString) : Doc → List Doc → List Action → List K → Prop
  | nil {cur : Doc} (stack : List K) : RedoChain M rootId cur [] [] stack
  | cons {cur p : Doc} {a : Action} {segment : List K} {future : List Doc} {actions : List Action}
      {stack : List K} :
      Sane rootId p → TakesTo a cur p → (∀ c ∈ changes a, cur.registersOf c.id ≠ none) →
      Segment M p.textOf cur.textOf segment → segment.length = textSteps a →
      RedoChain M rootId p future actions stack →
      RedoChain M rootId cur (p :: future) (a :: actions) (segment ++ stack)

theorem UndoChain.agree {cur cur' : Doc} {past : List Doc} {actions : List Action} {stack : List K}
    (h : UndoChain M rootId cur past actions stack) (hagree : Agree cur cur') :
    UndoChain M rootId cur' past actions stack := by
  cases h with
  | nil stack => exact .nil stack
  | cons hd htakes hsegment hlength he hrest => exact .cons hd htakes hsegment hlength (he.trans hagree) hrest

theorem RedoChain.congr {cur cur' : Doc} {future : List Doc} {actions : List Action} {stack : List K}
    (h : RedoChain M rootId cur future actions stack) (hcell : ∀ x, cur'.cell x = cur.cell x) :
    RedoChain M rootId cur' future actions stack := by
  have hregisters : ∀ x, cur'.registersOf x = cur.registersOf x := fun x => registersOf_congr (hcell x)
  have htexts : cur'.textOf = cur.textOf := funext fun x => textOf_congr (hcell x)
  cases h with
  | nil stack => exact .nil stack
  | cons hp htakes hpresent hsegment hlength hrest =>
    refine .cons hp (htakes.congr hregisters fun _ => rfl) ?_ (htexts ▸ hsegment) hlength hrest
    intro c hc
    rw [hregisters]
    exact hpresent c hc

theorem agree_of_cells {a b : Doc} (h : ∀ x, b.cell x = a.cell x) : Agree a b := by
  refine ⟨fun x _ => h x, ?_⟩
  intro x r hnone hsome
  rw [registersOf_congr (h x), hnone] at hsome
  cases hsome

theorem Replayed.sane {s u v : Doc} (h : Replayed s u) (honly : OnlyTexts u v) (hs : Sane rootId s) {d : Doc}
    (hd : Sane rootId d) (hroot : v.registersOf rootId = d.registersOf rootId) : Sane rootId v := by
  refine ⟨(honly.versioned.trans h.versioned).trans hs.versioned,
    (honly.rooted.trans h.rooted).trans hs.rooted, ?_, ?_⟩
  · rw [hroot]
    exact hd.root
  · intro x hx
    rw [honly.items, h.items] at hx
    rw [honly.texts, h.contents]
    exact hs.texts x hx

theorem Sane.hasText {doc : Doc} {x : JsString} (h : Sane rootId doc) (hx : doc.registersOf x ≠ none) :
    (doc.contentOf x).isSome = true := by
  obtain ⟨r, hr⟩ := Option.ne_none_iff_exists'.mp hx
  obtain ⟨node, hget, -⟩ := registersOf_iff.mp hr
  exact h.texts x (by rw [hget]; rfl)

theorem TakesTo.present {a : Action} {d e : Doc} {x : JsString} (h : TakesTo a d e)
    (hx : d.registersOf x ≠ none) :
    e.registersOf x ≠ none := by
  by_cases hmem : x ∈ (changes a).map Change.id
  · obtain ⟨c, hc, rfl⟩ := List.mem_map.mp hmem
    obtain ⟨t, -, ht⟩ := h.after c hc
    rw [ht]
    exact Option.some_ne_none _
  · rwa [← h.others x hmem]

theorem TakesTo.present_of_text {a : Action} {d e : Doc} {x : JsString} (h : TakesTo a d e)
    (hx : d.textOf x ≠ e.textOf x) :
    e.registersOf x ≠ none := by
  intro hnone
  by_cases hd : d.registersOf x = none
  · rw [textOf_none hd, textOf_none hnone] at hx
    exact hx rfl
  · exact h.present hd hnone

variable {h : OutlineHistory Unit K} {a : Action} {mint : JsString → JsString} {segment rest : List K}

theorem undo_back {d e : Doc} (hd : Sane rootId d) (hs : Sane rootId h.doc) (htakes : TakesTo a d e)
    (hsegment : Segment M d.textOf e.textOf segment) (hlength : segment.length = textSteps a)
    (hagree : Agree e h.doc) (hquiet : Quiet d h.doc) (hfresh : ∀ x, FreshToken h.doc x (mint x))
    (hstack : h.manager.undoStack = segment ++ rest) :
    ∀ h', h' = OutlineHistory.apply M.invert mint h a .before →
      (h'.undo = h.undo ∧ h'.redo = h.redo) ∧ Sane rootId h'.doc ∧ Agree d h'.doc ∧ TakesTo a h'.doc h.doc ∧
      (∀ x, h'.doc.registersOf x = none ↔ h.doc.registersOf x = none) ∧
      ∃ segment', Segment M h.doc.textOf h'.doc.textOf segment' ∧ segment'.length = textSteps a ∧
        h'.manager.undoStack = rest ∧ h'.manager.redoStack = segment' ++ h.manager.redoStack := by
  intro h' hh'
  obtain ⟨hreplayed, htakes', hback, hflagged⟩ := undo_replay htakes hd hs hagree hfresh _ rfl
  have hshows : ShowsWhere (replay .before mint h.doc (changes a)) d.textOf e.textOf := by
    intro x hne
    have hin := htakes.present_of_text hne
    have hpresent := hagree.present hin
    refine ⟨fun hu => hpresent ((hreplayed.present x).mp hu), ?_, ?_⟩
    · rw [hreplayed.contents]
      exact hs.hasText hpresent
    · rw [hreplayed.texts]
      exact textOf_congr (hagree.cell x hin)
  obtain ⟨hstacks, honly, htexts, segment', hsegment', hlength', hside, hother⟩ :=
    apply_texts hsegment hlength (show h.manager.stack .before = segment ++ rest from
      hstack) hshows _ rfl h' hh'
  have hregisters := honly.registersOf
  have hsame : (replay .before mint h.doc (changes a)).textOf = h.doc.textOf := funext hreplayed.texts
  have hcells : ∀ x, d.registersOf x ≠ none → h'.doc.cell x = d.cell x := by
    intro x hx
    apply cell_eq
    · rw [hregisters, hback x hx]
    · rw [htexts]
      split_ifs with he
      · rw [hsame, textOf_congr (hagree.cell x (htakes.present hx)), he]
      · rfl
  refine ⟨hstacks, ?_, ⟨hcells, ?_⟩, htakes'.congr hregisters fun _ => rfl, ?_, segment',
    hsame ▸ hsegment', hlength',
    hside, hother⟩
  · apply hreplayed.sane honly hs hd
    obtain ⟨move, completed, hroot, -⟩ := hd.root
    exact registersOf_congr (hcells rootId (hroot ▸ Option.some_ne_none _))
  · intro x r hnone hsome
    rw [hregisters] at hsome
    refine ⟨hflagged x r hnone hsome, hquiet x hnone ?_⟩
    intro hs'
    rw [(hreplayed.present x).mpr hs'] at hsome
    cases hsome
  · intro x
    rw [hregisters, hreplayed.present]

theorem redo_forth {p : Doc} (hp : Sane rootId p) (hs : Sane rootId h.doc) (htakes : TakesTo a h.doc p)
    (hpresent : ∀ c ∈ changes a, h.doc.registersOf c.id ≠ none)
    (hsegment : Segment M p.textOf h.doc.textOf segment) (hlength : segment.length = textSteps a)
    (hfresh : ∀ x, FreshToken h.doc x (mint x)) (hstack : h.manager.redoStack = segment ++ rest) :
    ∀ h', h' = OutlineHistory.apply M.invert mint h a .after →
      (h'.undo = h.undo ∧ h'.redo = h.redo) ∧ Sane rootId h'.doc ∧ (∀ x, h'.doc.cell x = p.cell x) ∧
      TakesTo a h.doc h'.doc ∧ (∀ x, h'.doc.registersOf x = none ↔ h.doc.registersOf x = none) ∧
      ∃ segment', Segment M h.doc.textOf h'.doc.textOf segment' ∧ segment'.length = textSteps a ∧
        h'.manager.redoStack = rest ∧ h'.manager.undoStack = segment' ++ h.manager.undoStack := by
  intro h' hh'
  obtain ⟨hreplayed, htakes', hforth⟩ := redo_replay htakes hs hp hpresent hfresh _ rfl
  have hinside : ∀ x, h.doc.registersOf x = none ↔ p.registersOf x = none := by
    intro x
    rw [← hforth, hreplayed.present]
  have hshows : ShowsWhere (replay .after mint h.doc (changes a)) p.textOf h.doc.textOf := by
    intro x hne
    have hx : h.doc.registersOf x ≠ none := by
      intro hnone
      rw [textOf_none hnone, textOf_none ((hinside x).mp hnone)] at hne
      exact hne rfl
    refine ⟨fun hu => hx ((hreplayed.present x).mp hu), ?_, hreplayed.texts x⟩
    rw [hreplayed.contents]
    exact hs.hasText hx
  obtain ⟨hstacks, honly, htexts, segment', hsegment', hlength', hside, hother⟩ :=
    apply_texts hsegment hlength (show h.manager.stack .after = segment ++ rest from
      hstack) hshows _ rfl h' hh'
  have hregisters := honly.registersOf
  have hsame : (replay .after mint h.doc (changes a)).textOf = h.doc.textOf := funext hreplayed.texts
  have hcells : ∀ x, h'.doc.cell x = p.cell x := by
    intro x
    apply cell_eq
    · rw [hregisters, hforth]
    · rw [htexts]
      split_ifs with he
      · rw [hsame, he]
      · rfl
  refine ⟨hstacks, hreplayed.sane honly hs hp (registersOf_congr (hcells rootId)), hcells,
    htakes'.congr (fun _ => rfl) hregisters, ?_, segment', hsame ▸ hsegment', hlength', hside, hother⟩
  intro x
  rw [hregisters, hreplayed.present]

end Chains

section LocalRuns

variable {K : Type} {M : TextUndo K} {lib : FractionalIndexing} {rootId : JsString}

structure LocalInv (M : TextUndo K) (rootId : JsString) (s : LocalRun K) : Prop where
  sane : Sane rootId s.doc
  undo : UndoChain M rootId s.doc s.past s.history.undo s.history.manager.undoStack
  redo : RedoChain M rootId s.doc s.future s.history.redo s.history.manager.redoStack
  quiet : ∀ d ∈ s.past, Quiet d s.doc

variable {s t u : LocalRun K} {mint : JsString → JsString}

theorem Quiet.of_present {d cur cur' : Doc} (h : Quiet d cur)
    (hpresent : ∀ x, cur'.registersOf x = none ↔ cur.registersOf x = none) : Quiet d cur' := by
  intro x hnone hx
  exact h x hnone fun hcur => hx ((hpresent x).mpr hcur)

theorem undo_inv (hs : LocalInv M rootId s) (hfresh : ∀ x, FreshToken s.doc x (mint x))
    (hstep : s.step M (.undo mint) = some t) :
    LocalInv M rootId t ∧ ((s.past = [] ∧ t.past = [] ∧ t.doc = s.doc ∧ t.future = s.future) ∨
      ∃ d, s.past = d :: t.past ∧ t.doc.outline rootId = d.outline rootId ∧
      t.future = s.doc :: s.future) := by
  obtain ⟨⟨doc, ⟨⟩, ⟨undoStack, redoStack⟩, undo, redo⟩, past, future⟩ := s
  have hundo : UndoChain M rootId doc past undo undoStack := hs.undo
  cases hundo with
  | nil stack =>
    obtain rfl := Option.some.inj hstep
    exact ⟨hs, Or.inl ⟨rfl, rfl, rfl, rfl⟩⟩
  | cons hd htakes hsegment hlength hagree hrest =>
    rename_i d e a segment past actions stack
    obtain rfl := Option.some.inj hstep
    have hsane : Sane rootId doc := hs.sane
    obtain ⟨-, hsane', hagree', htakes', hpresent, segment', hsegment', hlength', hside, hother⟩ :=
      undo_back
        (h := ⟨doc, (), ⟨segment ++ stack, redoStack⟩, actions,
        redo⟩) hd hsane htakes hsegment hlength hagree
        (hs.quiet d List.mem_cons_self) hfresh rfl _ rfl
    refine ⟨⟨hsane', ?_, ?_, ?_⟩, Or.inr ⟨d, rfl, agree_outline hd hsane' hagree', rfl⟩⟩
    · exact (congrArg (UndoChain M rootId _ past actions) hside).mpr (hrest.agree hagree')
    · apply (congrArg (RedoChain M rootId _ (doc :: future) (a :: redo)) hother).mpr
      refine .cons hsane htakes' ?_ hsegment' hlength' hs.redo
      intro c hc hnone
      obtain ⟨r, -, hr⟩ := htakes'.after c hc
      exact Option.some_ne_none _ (hr.symm.trans ((hpresent c.id).mp hnone))
    · intro d' hd'
      exact (hs.quiet d' (List.mem_cons_of_mem _ hd')).of_present hpresent

theorem redo_inv (hs : LocalInv M rootId s) (hfresh : ∀ x, FreshToken s.doc x (mint x))
    (hstep : s.step M (.redo mint) = some t) :
    LocalInv M rootId t ∧ ((s.future = [] ∧ t.future = [] ∧ t.doc = s.doc ∧ t.past = s.past) ∨
      ∃ p, s.future = p :: t.future ∧ t.doc.outline rootId = p.outline rootId ∧
      t.past = s.doc :: s.past) := by
  obtain ⟨⟨doc, ⟨⟩, ⟨undoStack, redoStack⟩, undo, redo⟩, past, future⟩ := s
  have hredo : RedoChain M rootId doc future redo redoStack := hs.redo
  cases hredo with
  | nil stack =>
    obtain rfl := Option.some.inj hstep
    exact ⟨hs, Or.inl ⟨rfl, rfl, rfl, rfl⟩⟩
  | cons hp htakes hthere hsegment hlength hrest =>
    rename_i p a segment future actions stack
    obtain rfl := Option.some.inj hstep
    have hsane : Sane rootId doc := hs.sane
    obtain ⟨-, hsane', hcells, htakes', hpresent, segment', hsegment', hlength', hside, hother⟩ :=
      redo_forth
        (h := ⟨doc, (), ⟨undoStack, segment ++ stack⟩, undo,
        actions⟩) hp hsane htakes hthere hsegment hlength
        hfresh rfl _ rfl
    refine ⟨⟨hsane', ?_, ?_, ?_⟩, Or.inr ⟨p, rfl, agree_outline hp hsane' (agree_of_cells hcells), rfl⟩⟩
    · exact (congrArg (UndoChain M rootId _ (doc :: past) (a :: undo)) hother).mpr
        (.cons hsane htakes' hsegment' hlength' (.refl _) hs.undo)
    · exact (congrArg (RedoChain M rootId _ future actions) hside).mpr (hrest.congr hcells)
    · intro d hd
      rcases List.mem_cons.mp hd with rfl | hd
      · intro x hnone hx
        exact absurd ((hpresent x).mpr hnone) hx
      · exact (hs.quiet d hd).of_present hpresent

theorem action_inv (hs : LocalInv M rootId s) {e : Doc} {a : Action} {segment : List K} (he : Sane rootId e)
    (htakes : TakesTo a s.doc e) (hsegment : Segment M s.doc.textOf e.textOf segment)
    (hlength : segment.length = textSteps a) (hquiet : ∀ d ∈ s.doc :: s.past, Quiet d e)
    (redoStack : List K) :
    LocalInv M rootId
      ⟨⟨e, (), ⟨segment ++ s.history.manager.undoStack, redoStack⟩, a :: s.history.undo, []⟩,
        s.doc :: s.past, []⟩ :=
  ⟨he, .cons hs.sane htakes hsegment hlength (.refl e) hs.undo, .nil _, hquiet⟩

theorem typed_inv (hs : LocalInv M rootId s) {id : JsString} {f : JsString → JsString} {k : K}
    (hok : s.Allowed M lib rootId (.typed id f k)) (hstep : s.step M (.typed id f k) = some t) :
    LocalInv M rootId t := by
  obtain rfl := Option.some.inj hstep
  have honly := onlyTexts_editContent s.doc id f
  have htakes : TakesTo .text s.doc (s.doc.editContent id f) := by
    refine ⟨List.nodup_nil, fun x _ => (honly.registersOf x).symm, ?_, ?_, ?_⟩ <;>
    · intro c hc
      cases hc
  have hsane : Sane rootId (s.doc.editContent id f) := sane_run (.editContent id f) hs.sane
  refine action_inv hs hsane htakes (.one hok.2.2) rfl ?_ _
  intro d hd
  rcases List.mem_cons.mp hd with rfl | hd
  · intro x hnone hx
    rw [honly.registersOf] at hx
    exact absurd hnone hx
  · apply (hs.quiet d hd).of_present
    intro x
    rw [honly.registersOf]

theorem command_inv (hs : LocalInv M rootId s) {cmd : Command} {actor : Actor} {writes : List Write}
    {k : Option K} (hok : s.Allowed M lib rootId (.command cmd actor writes k))
    (hrev : s.Revertible (.command cmd actor writes k))
    (hstep : s.step M (.command cmd actor writes k) = some t) :
    LocalInv M rootId t ∧ t.history.redo = [] := by
  obtain rfl := Option.some.inj hstep
  obtain ⟨-, -, -, hstacks⟩ := hok
  obtain ⟨⟨x, hx⟩, hnew⟩ := hrev
  have hchanges : recordChanges s.history.doc writes ≠ [] := recordChanges_ne_nil hx
  have hquiet : ∀ d ∈ s.doc :: s.past, Quiet d (runWrites s.doc writes) := by
    intro d hd y hnone hy
    by_cases hcur : s.doc.registersOf y = none
    · exact hnew y hcur hy d hd
    · rcases List.mem_cons.mp hd with rfl | hd
      · exact absurd hnone hcur
      · exact hs.quiet d hd y hnone hcur
  have hsane := sane_runWrites writes hs.sane
  cases k with
  | none =>
    have hrecord : s.history.recordStructure writes () none = ⟨runWrites s.doc writes, (), s.history.manager,
        .structural (recordChanges s.doc writes) 0 :: s.history.undo, []⟩ := by
      unfold recordStructure
      dsimp only
      rw [if_neg hchanges, Nat.sub_self]
      rfl
    simp only [hrecord]
    exact ⟨action_inv hs hsane (takesTo_record s.doc writes 0) (.none hstacks) rfl hquiet _, trivial⟩
  | some k =>
    have hrecord : s.history.recordStructure writes () (some k) =
        ⟨runWrites s.doc writes, (), s.history.manager.push k,
        .structural (recordChanges s.doc writes) 1 :: s.history.undo, []⟩ := by
      unfold recordStructure
      dsimp only
      rw [if_neg hchanges]
      simp [UndoManager.push, LocalRun.doc]
    simp only [hrecord]
    exact ⟨action_inv hs hsane (takesTo_record s.doc writes 1) (.one hstacks) rfl hquiet _, trivial⟩

theorem step_local {act : LocalAct K} (hs : LocalInv M rootId s)
    (hok : s.Allowed M lib rootId act ∧ s.Revertible act)
    (hstep : s.step M act = some t) : LocalInv M rootId t := by
  cases act with
  | typed id f k => exact typed_inv hs hok.1 hstep
  | command cmd actor writes k => exact (command_inv hs hok.1 hok.2 hstep).1
  | undo mint => exact (undo_inv hs hok.1 hstep).1
  | redo mint => exact (redo_inv hs hok.1 hstep).1

theorem undo_calls (hs : LocalInv M rootId s) {k : ℕ} (hcalls : LocalRun.Calls M .before s k t)
    (hk : k ≤ s.past.length) :
    LocalInv M rootId t ∧ t.past = s.past.drop k ∧
      (∀ d, (s.doc :: s.past)[k]? = some d → t.doc.outline rootId = d.outline rootId) ∧
      (t.doc :: t.future)[k]? = some s.doc ∧ k ≤ t.future.length := by
  induction hcalls with
  | zero =>
    exact ⟨hs, rfl, fun d hd => congrArg (Doc.outline · rootId) (Option.some.inj hd), rfl, Nat.zero_le _⟩
  | @succ k t u mint _ hfresh hstep ih =>
    obtain ⟨ht, hpast, -, hfuture, hlength⟩ := ih (by omega)
    obtain ⟨hu, hcase⟩ := undo_inv ht hfresh hstep
    obtain ⟨hnil, -⟩ | ⟨d, hd, houtline, hnext⟩ := hcase
    · rw [hpast, List.drop_eq_nil_iff] at hnil
      omega
    · rw [hpast] at hd
      have hat : s.past[k]? = some d := by rw [← List.head?_drop, hd]; rfl
      refine ⟨hu, ?_, ?_, ?_, ?_⟩
      · rw [← List.tail_drop, hd]
        rfl
      · intro d' hd'
        rw [List.getElem?_cons_succ, hat] at hd'
        rwa [← Option.some.inj hd']
      · rw [List.getElem?_cons_succ, hnext]
        exact hfuture
      · rw [hnext, List.length_cons]
        omega

theorem redo_calls (hs : LocalInv M rootId s) {k : ℕ} (hcalls : LocalRun.Calls M .after s k t)
    (hk : k ≤ s.future.length) :
    LocalInv M rootId t ∧ t.future = s.future.drop k ∧
      ∀ d, (s.doc :: s.future)[k]? = some d → t.doc.outline rootId = d.outline rootId := by
  induction hcalls with
  | zero => exact ⟨hs, rfl, fun d hd => congrArg (Doc.outline · rootId) (Option.some.inj hd)⟩
  | @succ k t u mint _ hfresh hstep ih =>
    obtain ⟨ht, hfuture, -⟩ := ih (by omega)
    obtain ⟨hu, hcase⟩ := redo_inv ht hfresh hstep
    obtain ⟨hnil, -⟩ | ⟨d, hd, houtline, -⟩ := hcase
    · rw [hfuture, List.drop_eq_nil_iff] at hnil
      omega
    · rw [hfuture] at hd
      have hat : s.future[k]? = some d := by rw [← List.head?_drop, hd]; rfl
      refine ⟨hu, ?_, ?_⟩
      · rw [← List.tail_drop, hd]
        rfl
      · intro d' hd'
        rw [List.getElem?_cons_succ, hat] at hd'
        rwa [← Option.some.inj hd']

theorem undoExact_of_inv (hs : LocalInv M rootId s) : s.UndoExact M rootId := by
  intro k u d hundo hd
  have hk : k ≤ s.past.length := by
    have := (List.getElem?_eq_some_iff.mp hd).1
    rw [List.length_cons] at this
    omega
  obtain ⟨hu, -, houtline, hback, hlength⟩ := undo_calls hs hundo hk
  exact ⟨houtline d hd, fun t hredo => (redo_calls hu hredo hlength).2.2 s.doc hback⟩

end LocalRuns

/-- In a run without collaborators whose commands each insert an item or change a register, and insert no
item that another is already placed under, undo and redo restore the outlines that the run went through. -/
theorem undo_restores {K : Type} (M : TextUndo K) {lib : FractionalIndexing} {Key : JsString → Prop}
    (hlib : lib.Lawful Key) {rootId : JsString} {doc : Doc} (hdoc : Built lib rootId doc) {s : LocalRun K}
    (hrun : Runs (LocalRun.step M) (fun s a => s.Allowed M lib rootId a ∧ s.Revertible a) (.create doc) s) :
    s.UndoExact M rootId ∧ ∀ a t, s.Allowed M lib rootId a → s.Revertible a → s.step M a = some t →
      t.UndoExact M rootId ∧
      ((∀ mint, a ≠ .undo mint ∧ a ≠ .redo mint) → t.history.redo = [] ∧ t.past = s.doc :: s.past) := by
  have hsane := built_sane hlib hdoc
  have hstart : LocalInv M rootId (.create doc) :=
    ⟨hsane, .nil _, .nil _, fun d hd => absurd hd List.not_mem_nil⟩
  have hs : LocalInv M rootId s := hrun.invariant (fun hs hok hstep => step_local hs hok hstep) hstart
  refine ⟨undoExact_of_inv hs, ?_⟩
  intro a t hallowed hrevertible hstep
  refine ⟨undoExact_of_inv (step_local hs ⟨hallowed, hrevertible⟩ hstep), ?_⟩
  intro haction
  cases a with
  | typed id f k =>
    obtain rfl := Option.some.inj hstep
    exact ⟨rfl, rfl⟩
  | command cmd actor writes k =>
    have hredo := (command_inv hs hallowed hrevertible hstep).2
    obtain rfl := Option.some.inj hstep
    exact ⟨hredo, rfl⟩
  | undo mint => exact absurd rfl (haction mint).1
  | redo mint => exact absurd rfl (haction mint).2

section Examples

def oneBullet : Doc := ((Command.insertItem (js ['a']) (js ['r']) none).run sampleKeys seeded deviceA).2

theorem oneBullet_built : Built sampleKeys (js ['r']) oneBullet := .ran _ _ (.created deviceA)

theorem stacks_none {K : Type} {M : TextUndo K} {doc : Doc} {writes : List Write} {id : JsString}
    (hwrites : ∀ w ∈ writes, ∃ reg, w.target = some (id, reg))
    (hid : (runWrites doc writes).textOf id = doc.textOf id) :
    LocalRun.Stacks M doc (runWrites doc writes) none := by
  funext x
  by_cases hx : x = id
  · rw [hx, hid]
  · exact (textOf_of_get (runWrites_schemaVersion doc writes) (runWrites_other hwrites hx)).symm

def setX : JsString → JsString := fun _ => js ['x']

def typeX (doc : Doc) : LocalAct TextItem :=
  .typed (js ['a']) setX ⟨doc.textOf, (doc.editContent (js ['a']) setX).textOf⟩

def toggleA : LocalAct TextItem :=
  .command (.toggleCompleted (js ['a'])) deviceA [.field (js ['a']) (.isCompleted true)] none

theorem undo_restores_toggled : ∃ s : LocalRun TextItem, s.past.length = 2 ∧
    s.UndoExact wholeTexts (js ['r']) := by
  have htyped : (LocalRun.create oneBullet : LocalRun TextItem).Allowed wholeTexts sampleKeys (js ['r'])
      (typeX oneBullet) :=
    ⟨by decide +kernel, by decide +kernel, rfl, rfl⟩
  obtain ⟨s, hs⟩ : ∃ s, (LocalRun.create oneBullet : LocalRun TextItem).step wholeTexts (typeX oneBullet) =
      some s := ⟨_, rfl⟩
  have hdoc : s.doc = oneBullet.editContent (js ['a']) setX := by
    obtain rfl := Option.some.inj hs
    rfl
  have hpast : s.past = [oneBullet] := by
    obtain rfl := Option.some.inj hs
    rfl
  have hwrites : ∀ w ∈ [Write.field (js ['a']) (.isCompleted true)],
      ∃ reg, w.target = some (js ['a'], reg) := by
    intro w hw
    rw [List.mem_singleton.mp hw]
    exact ⟨.completion, rfl⟩
  have htoggled : s.Allowed wholeTexts sampleKeys (js ['r']) toggleA := by
    unfold toggleA
    simp only [LocalRun.Allowed, hdoc]
    exact ⟨rfl, ⟨true, rfl⟩, by decide +kernel, stacks_none hwrites (by decide +kernel)⟩
  have hrevertible : s.Revertible toggleA := by
    unfold toggleA
    simp only [LocalRun.Revertible, hdoc]
    refine ⟨⟨js ['a'], by decide +kernel⟩, ?_⟩
    intro x hnone hx
    by_cases hxa : x = js ['a']
    · rw [hxa] at hnone
      exact absurd hnone (by decide +kernel)
    · exfalso
      apply hx
      rw [← hnone]
      apply registersOf_ext (runWrites_schemaVersion _ _)
      rw [runWrites_other hwrites hxa]
  obtain ⟨t, ht⟩ : ∃ t, s.step wholeTexts toggleA = some t := ⟨_, rfl⟩
  have hrun := (undo_restores wholeTexts sampleKeys_lawful oneBullet_built
    (.step toggleA (.step (typeX oneBullet) .refl ⟨htyped, trivial⟩ hs) ⟨htoggled, hrevertible⟩ ht)).1
  refine ⟨t, ?_, hrun⟩
  obtain rfl := Option.some.inj ht
  simp [hpast]

def orphaned : Doc := ((Command.insertItem (js ['a']) (js ['m']) none).run sampleKeys seeded deviceA).2

def insertM : Command := .insertItem (js ['m']) (js ['r']) none

def placedM : Write := .move (js ['m'])
  ((((insertM.run sampleKeys orphaned deviceA).2).moveOf (js ['m'])).getD (buildRootMove [] (deviceA.ctx 0)))

def mergedAway : Doc :=
  let typed := oneBullet.editContent (js ['a']) setX
  let two := ((Command.insertItem (js ['b']) (js ['r']) (some (js ['a']))).run sampleKeys typed deviceA).2
  ((Command.deleteItem (js ['a']) (js ['t'])).run sampleKeys two deviceA).2

theorem mergedAway_built : Built sampleKeys (js ['r']) mergedAway :=
  .ran _ _ (.ran _ _ (.typed _ _ oneBullet_built))

def mergeAB : Command := .mergeIntoPrevious (js ['a']) (js ['b']) (js ['u'])

def mergeWrites : List Write :=
  [.ensureContent (js ['a']), .ensureContent (js ['b']),
    .editContent (js ['b']) fun t => insertText t 0 (js ['x']),
    .deleted (js ['a']) (buildDelete (some noHlc) (deviceA.ctx 0)) (js ['u'])]

def token (x : JsString) : JsString := js ['n'] ++ x

theorem freshToken_of_entries {doc : Doc} (h : ∀ e ∈ doc.items.entries, token e.1 ∉ e.2.restoreRecords.getD ∅)
    (x : JsString) : FreshToken doc x (token x) := by
  intro node hnode
  exact h (x, node) ((OrderedMap.mem_entries_iff _ _ _).mpr hnode)

theorem not_undoExact {doc : Doc} {s u : LocalRun TextItem} {rootId : JsString} (hpast : s.past = [doc])
    (hu : s.step wholeTexts (.undo token) = some u) (hfresh : ∀ x, FreshToken s.doc x (token x))
    (hne : u.doc.outline rootId ≠ doc.outline rootId) : ¬ s.UndoExact wholeTexts rootId := by
  intro h
  refine hne (h 1 u doc (.succ token .zero hfresh hu) ?_).1
  rw [List.getElem?_cons_succ, hpast]
  rfl

/-- Undoing the insertion of `m` hides the item that was placed under it before, and undoing a merge of a
deleted item leaves its text in the target. -/
theorem undo_inexact : sampleKeys.Lawful SampleKey ∧
    (Built sampleKeys (js ['r']) orphaned ∧ ∃ s : LocalRun TextItem, Runs (LocalRun.step wholeTexts)
      (LocalRun.Allowed wholeTexts sampleKeys (js ['r'])) (.create orphaned) s ∧ ¬ s.UndoExact wholeTexts
      (js ['r'])) ∧
    (Built sampleKeys (js ['r']) mergedAway ∧ ∃ s : LocalRun TextItem, Runs (LocalRun.step wholeTexts)
      (LocalRun.Allowed wholeTexts sampleKeys (js ['r'])) (.create mergedAway) s ∧
        ¬ s.UndoExact wholeTexts (js ['r'])) := by
  refine ⟨sampleKeys_lawful, ⟨.ran _ _ (.created deviceA), ?_⟩, mergedAway_built, ?_⟩
  · have hallowed : (LocalRun.create orphaned : LocalRun TextItem).Allowed wholeTexts sampleKeys (js ['r'])
        (.command insertM deviceA [placedM] none) := by
      have hwrites : ∀ w ∈ [placedM], ∃ reg, w.target = some (js ['m'], reg) := by
        intro w hw
        rw [List.mem_singleton.mp hw]
        exact ⟨.move, rfl⟩
      exact ⟨rfl, ⟨true, rfl⟩, by decide +kernel, stacks_none hwrites (by decide +kernel)⟩
    refine ⟨_, .step _ .refl hallowed rfl, not_undoExact rfl rfl ?_ (by decide +kernel)⟩
    exact freshToken_of_entries (by decide +kernel)
  · have hallowed : (LocalRun.create mergedAway : LocalRun TextItem).Allowed wholeTexts sampleKeys (js ['r'])
        (.command mergeAB deviceA mergeWrites
          (some ⟨mergedAway.textOf, (runWrites mergedAway mergeWrites).textOf⟩)) :=
      ⟨rfl, ⟨true, rfl⟩, by decide +kernel, rfl, rfl⟩
    refine ⟨_, .step _ .refl hallowed rfl, not_undoExact rfl rfl ?_ (by decide +kernel)⟩
    exact freshToken_of_entries (by decide +kernel)

end Examples

end OpenOutliner
