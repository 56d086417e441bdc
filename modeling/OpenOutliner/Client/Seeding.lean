import OpenOutliner.Client.SessionStart
import OpenOutliner.Crdt.CommandWrites
import OpenOutliner.Crdt.DocUpdates
import OpenOutliner.Crdt.SiblingLists

/-!
Sessions that open one document on many replicas, each with the updates that have reached it so far. A
session seeds a root and a first bullet where it sees none, and then runs commands and edits contents.
-/

namespace OpenOutliner

open Foundations Relation

/-- Position `offset` of `splitItem` lies inside a surrogate pair. -/
def Command.CutsPair (doc : Doc) : Command → Prop
  | splitItem id offset _ =>
    let full := (doc.contentOf id).getD []
    cutsPair full (max 0 (min offset full.length)).toNat = true
  | _ => False

/-- `doc` is the document that the replica reads, and `log` what the transactions with these `writes` add. -/
inductive SeedEvent (Inst M U : Type)
  | start (newId : JsString) (actor : Actor) (doc : Doc) (writes : List Write) (log : DocLog Inst M U)
  | command (cmd : Command) (actor : Actor) (doc : Doc) (writes : List Write) (log : DocLog Inst M U)
  | edit (id next : JsString) (units : ℕ → U)

section System

variable {R Inst M U : Type} [DecidableEq R] [DecidableEq Inst] [DecidableEq M] [DecidableEq U]

abbrev SeedSystem (R Inst M U : Type) := System R (DocLog Inst M U) (SeedEvent Inst M U)

namespace SeedEvent

def newIds : SeedEvent Inst M U → Finset JsString
  | start newId _ _ _ _ => {newId}
  | command cmd _ _ _ _ => cmd.newIds
  | edit _ _ _ => ∅

def isStart : SeedEvent Inst M U → Bool
  | start _ _ _ _ _ => true
  | _ => false

def exec (Y : Reading Inst M U) (ev : SeedEvent Inst M U) (s : DocLog Inst M U) : DocLog Inst M U :=
  match ev with
  | start _ _ _ _ log | command _ _ _ _ log => s ∪ log
  | edit id next units =>
    match s.nodeAt Y id with
    | none => s
    | some i => s ∪ (applyTextEdit Y.text (s.texts id i) next units).image (.text id i)

/-- No edit and no split of the event cuts a surrogate pair, and no edit types half of one. -/
def KeepsTexts (Y : Reading Inst M U) (s : DocLog Inst M U) : SeedEvent Inst M U → Prop
  | start _ _ _ _ _ => True
  | command cmd _ doc _ _ => ¬ cmd.CutsPair doc
  | edit id next _ => isWellFormed next = true ∧ ∀ i, s.nodeAt Y id = some i → KeepsPairs
      (s.contentAt Y id i) next

end SeedEvent

variable (lib : FractionalIndexing) (Y : Reading Inst M U) (rootId : JsString) (σ : SeedSystem R Inst M U)

def Started (r : R) : Prop := ∃ o ∈ σ.history, o.replica = r ∧ o.event.isStart = true

/-- Minted ids are new, and not the root's. -/
def MintsIds (ev : SeedEvent Inst M U) : Prop :=
  rootId ∉ ev.newIds ∧ ∀ o ∈ σ.history, Disjoint ev.newIds o.event.newIds

/-- A session first initialises; then it runs commands that return normally, and edits contents of items but
the root. -/
def SeedStep (r : R) : SeedEvent Inst M U → Prop
  | .start newId actor doc writes log => ShowsLog Y rootId (σ.state r) doc ∧
      (whenReady lib doc rootId actor newId).2 = runWrites (doc.initialization rootId) writes ∧
      LogsWrites Y False (doc.initialization rootId) (insert .initialised (σ.state r)) writes
        (σ.state r ∪ log)
  | .command cmd actor doc writes log => Started σ r ∧ ShowsLog Y rootId (σ.state r) doc ∧
      (∃ b, cmd.run lib doc actor = (.ok b, runWrites doc writes)) ∧
      LogsWrites Y (cmd.CutsPair doc) doc (σ.state r) writes (σ.state r ∪ log)
  | .edit id _ _ => Started σ r ∧ id ≠ rootId

abbrev SeedRun (ok : SeedSystem R Inst M U → R → SeedEvent Inst M U → Prop) : SeedSystem R Inst M U → Prop :=
  System.Run ∅ (SeedEvent.exec Y) fun σ r ev => MintsIds rootId σ ev ∧
    SeedStep lib Y rootId σ r ev ∧ ok σ r ev

def ItemInserted (x : JsString) : Prop :=
  ∃ o ∈ σ.history, o.before.nodeAt Y x = none ∧ ((o.event.exec Y o.before).nodeAt Y x).isSome = true

def UnitInserted (x : JsString) (u : U) (c : CodeUnit) : Prop :=
  ∃ o ∈ σ.history, ∃ i left right, (o.event.exec Y o.before).nodeAt Y x = some i ∧
    .text x i (.insert u left right c) ∈ o.event.exec Y o.before

def UnitDeleted (x : JsString) (u : U) : Prop :=
  ∃ o ∈ σ.history, ∃ i, .text x i (.erase u) ∈ o.event.exec Y o.before

/-- No item on the effective way up from `x` is deleted. -/
def ChainUndeleted (doc : Doc) (x : JsString) : Prop :=
  ∀ y, ReflTransGen (EffectiveEdge rootId doc.effectiveTree) x y → y ≠ rootId →
    ∀ node ∈ doc.items.get y, (readDeleted doc.schemaVersion node).isDeleted = false

/-- The document has one root, above everything, and all that was inserted: the items, their undeleted
texts, and a row for each item that is not deleted. -/
structure LosesNothing (doc : Doc) : Prop where
  canonical : doc.getRootId = some rootId
  root : (doc.moveOf rootId).isSome = true ∧ doc.effectiveTree.parents.get rootId = some ROOT_PARENT_SENTINEL
  below : ∀ x, (doc.moveOf x).isSome = true → ReflTransGen (EffectiveEdge rootId doc.effectiveTree) x rootId
  items : ∀ x, x ≠ rootId → ItemInserted Y σ x → (doc.moveOf x).isSome = true
  texts : ∀ x, x ≠ rootId → ItemInserted Y σ x → ∃ shown : List (U × CodeUnit),
    doc.contentOf x = some (shown.map Prod.snd) ∧
      ∀ u c, UnitInserted Y σ x u c → ¬ UnitDeleted Y σ x u → (u, c) ∈ shown
  rows : ∀ x, x ≠ rootId → ItemInserted Y σ x → ChainUndeleted rootId doc x →
    x ∈ doc.flattenVisible rootId fun _ => false

end System

section Start

variable {lib : FractionalIndexing} {doc : Doc} {rootId newId x : JsString} {actor : Actor}

theorem initialization_isSome :
    ((doc.initialization rootId).items.get x).isSome = (doc.items.get x).isSome := by
  rw [Doc.initialization, OrderedMap.get_mapEntries, Option.isSome_map]

theorem seedBullet_writesTo {newIds : Finset JsString} {doc' : Doc} (h : WritesTo newIds doc doc')
    (hid : newId ∈ newIds) :
    WritesTo newIds doc (seedBullet lib doc' rootId actor newId).2 := by
  unfold seedBullet
  split_ifs
  · exact insertItem_writesTo actor h hid _ _
  · exact h

theorem whenReady_writesTo (hversion : doc.schemaVersion = none ∨ doc.schemaVersion = some 2) :
    WritesTo {rootId, newId} (doc.initialization rootId) (whenReady lib doc rootId actor newId).2 := by
  have hroot : WritesTo {rootId, newId} (doc.initialization rootId)
      (seedRoot lib (doc.initialization rootId) rootId actor).2 := by
    unfold seedRoot
    split_ifs
    · exact .refl _ _
    · exact createRoot_writesTo actor (.refl _ _) (by simp)
  unfold whenReady
  rw [if_neg (by tauto)]
  split
  · rename_i e d heq
    rw [heq] at hroot
    exact hroot
  · rename_i d heq
    rw [heq] at hroot
    exact seedBullet_writesTo hroot (by simp)

theorem whenReady_root {Key : JsString → Prop} (hlib : lib.Lawful Key)
    (hversion : doc.schemaVersion = none ∨ doc.schemaVersion = some 2) :
    (whenReady lib doc rootId actor newId).1.isOk = true ∧
      ((whenReady lib doc rootId actor newId).2.items.get rootId).isSome = true := by
  have hbounds : Bounds Key none none := bounds_above (by simp)
  obtain ⟨d, hd, hget⟩ : ∃ d, seedRoot lib (doc.initialization rootId) rootId actor = (.ok (), d) ∧
      (d.items.get rootId).isSome = true := by
    unfold seedRoot
    split_ifs with hhas
    · exact ⟨_, rfl, hhas⟩
    · obtain ⟨k, hk, -⟩ := rankBetween_ok hlib hbounds []
      refine ⟨(doc.initialization rootId).writeMove rootId (buildRootMove k (actor.ctx 0)), ?_, ?_⟩
      · unfold createRoot
        rw [hk]
      · unfold Doc.writeMove buildRootMove
        rw [if_neg (by simp), Doc.setNode_get, if_pos rfl]
        rfl
  unfold whenReady
  rw [if_neg (by tauto), hd]
  unfold seedBullet
  dsimp only
  split_ifs with hnone
  · obtain ⟨k, hk, -⟩ := rankBetween_ok hlib hbounds newId
    unfold insertItem buildInsertMove
    rw [hnone]
    simp only [boundsAfter, Option.filter_none, Option.bind_none, List.getElem?_nil, Option.map_none, hk]
    exact ⟨rfl, Doc.writeMove_isSome hget _ _⟩
  · exact ⟨rfl, hget⟩

end Start

section Steps

variable {R Inst M U : Type} [DecidableEq R] [DecidableEq Inst] [DecidableEq M] [DecidableEq U]
  {lib : FractionalIndexing} {Y : Reading Inst M U} {rootId x : JsString} {s : DocLog Inst M U}
  {doc : Doc} {i : Inst}

theorem ShowsLog.isSome_iff (h : ShowsLog Y rootId s doc) (x : JsString) :
    (doc.items.get x).isSome = true ↔ ∃ i, .node x i ∈ s := by
  have hitems := congrArg Option.isSome (h.items x)
  rw [Option.isSome_map, DocLog.shownAt, Option.isSome_map] at hitems
  rw [hitems, Option.isSome_iff_exists]
  constructor
  · rintro ⟨i, hi⟩
    exact ⟨i, DocLog.nodeAt_mem Y hi⟩
  · rintro ⟨i, hi⟩
    exact DocLog.nodeAt_isSome Y hi

theorem ShowsLog.version (h : ShowsLog Y rootId s doc) :
    doc.schemaVersion = none ∨ doc.schemaVersion = some 2 := by
  rw [h.schemaVersion]
  split_ifs
  · exact Or.inr rfl
  · exact Or.inl rfl

theorem preserveTrash_core (version : Option ℕ) (id : JsString) (node : Node) :
    (preserveTrash version id node).move = node.move ∧
    (preserveTrash version id node).content = node.content := by
  unfold preserveTrash
  split_ifs <;> exact ⟨rfl, rfl⟩

theorem ShowsLog.initialization (h : ShowsLog Y rootId s doc) :
    ShowsLog Y rootId (insert .initialised s) (doc.initialization rootId) := by
  refine ⟨by simp [Doc.initialization], by simp [Doc.initialization], fun x => ?_⟩
  have hshown : (insert .initialised s : DocLog Inst M U).shownAt Y x = s.shownAt Y x := by
    apply DocLog.shownAt_congr
    intro op hop
    cases op with
    | initialised => cases hop
    | _ => simp
  rw [hshown, ← h.items x, Doc.initialization, OrderedMap.get_mapEntries, Option.map_map]
  congr 1
  funext node
  obtain ⟨hmove, hcontent⟩ := preserveTrash_core doc.schemaVersion x node
  simp only [Function.comp_apply, hmove, hcontent]

variable {σ : SeedSystem R Inst M U} {r : R} {ev : SeedEvent Inst M U}

theorem extended_initialised {cuts : Prop} : Extended cuts s (insert .initialised s) :=
  Extended.of_no_nodes (Finset.subset_insert _ _) (by simp) (by simp +contextual)

section

omit [DecidableEq R]

theorem SeedStep.extended (h : SeedStep lib Y rootId σ r ev) :
    Extended (¬ ev.KeepsTexts Y (σ.state r)) (σ.state r) (ev.exec Y (σ.state r)) := by
  cases ev with
  | start newId actor doc writes log =>
    obtain ⟨-, -, hlogs⟩ := h
    exact extended_initialised.trans (hlogs.extended.imp False.elim)
  | command cmd actor doc writes log =>
    obtain ⟨-, -, -, hlogs⟩ := h
    exact hlogs.extended.imp fun hcuts hkeeps => hkeeps hcuts
  | edit id next units =>
    simp only [SeedEvent.exec]
    split
    · exact .refl _
    · rename_i i hi
      apply extended_texts
      intro u hu hkeeps
      exact applyTextEdit_replace (hkeeps.2 i hi) units u hu

theorem SeedStep.keys (h : SeedStep lib Y rootId σ r ev) (hx : .node x i ∈ ev.exec Y (σ.state r)) :
    (∃ j, .node x j ∈ σ.state r) ∨ x = rootId ∨ x ∈ ev.newIds := by
  cases ev with
  | start newId actor doc writes log =>
    obtain ⟨hshows, hruns, hlogs⟩ := h
    have hafter := hlogs.shows hshows.initialization
    rw [← hruns] at hafter
    rcases (whenReady_writesTo hshows.version).keys ((hafter.isSome_iff x).mpr ⟨i, hx⟩) with hold | hnew
    · rw [initialization_isSome] at hold
      exact Or.inl ((hshows.isSome_iff x).mp hold)
    · exact Or.inr (by simpa [SeedEvent.newIds] using hnew)
  | command cmd actor doc writes log =>
    obtain ⟨-, hshows, ⟨b, hruns⟩, hlogs⟩ := h
    have hafter := hlogs.shows hshows
    have hwrites := run_writesTo lib doc actor cmd
    rw [hruns] at hwrites
    rcases hwrites.keys ((hafter.isSome_iff x).mpr ⟨i, hx⟩) with hold | hnew
    · exact Or.inl ((hshows.isSome_iff x).mp hold)
    · exact Or.inr (Or.inr hnew)
  | edit id next units =>
    simp only [SeedEvent.exec] at hx
    split at hx
    · exact Or.inl ⟨i, hx⟩
    · exact Or.inl ⟨i, by simpa using hx⟩

theorem SeedStep.root {Key : JsString → Prop} (hlib : lib.Lawful Key) (h : SeedStep lib Y rootId σ r ev)
    (hstart : ev.isStart = true) :
    .initialised ∈ ev.exec Y (σ.state r) ∧ ∃ i, .node rootId i ∈ ev.exec Y (σ.state r) := by
  cases ev with
  | start newId actor doc writes log =>
    obtain ⟨hshows, hruns, hlogs⟩ := h
    have hafter := hlogs.shows hshows.initialization
    rw [← hruns] at hafter
    refine ⟨hlogs.extended.le (Finset.mem_insert_self _ _), ?_⟩
    exact (hafter.isSome_iff rootId).mp (whenReady_root hlib hshows.version).2
  | command cmd actor doc writes log => cases hstart
  | edit id next units => cases hstart

end

end Steps

section Runs

variable {R Inst M U : Type} [DecidableEq R] [DecidableEq Inst] [DecidableEq M] [DecidableEq U]
  {lib : FractionalIndexing} {Y : Reading Inst M U} {rootId : JsString} {σ : SeedSystem R Inst M U} {r : R}
  {ev : SeedEvent Inst M U} {ok : SeedSystem R Inst M U → R → SeedEvent Inst M U → Prop}

theorem le_seedExec (ev : SeedEvent Inst M U) (s : DocLog Inst M U) : s ≤ ev.exec Y s := by
  cases ev with
  | start newId actor doc writes log => exact Finset.subset_union_left
  | command cmd actor doc writes log => exact Finset.subset_union_left
  | edit id next units =>
    simp only [SeedEvent.exec]
    split
    · exact le_rfl
    · exact Finset.subset_union_left

structure Seeded (rootId : JsString) (σ : SeedSystem R Inst M U) : Prop where
  minted : ∀ r x i, .node x i ∈ σ.state r → x = rootId ∨ ∃ o ∈ σ.history, x ∈ o.event.newIds
  single : ∀ r r' x i j, x ≠ rootId → .node x i ∈ σ.state r → .node x j ∈ σ.state r' → i = j

theorem Seeded.act (h : Seeded rootId σ) (hmint : MintsIds rootId σ ev)
    (hstep : SeedStep lib Y rootId σ r ev) :
    Seeded rootId (σ.act (SeedEvent.exec Y) r ev) := by
  have hextended := hstep.extended
  -- a key that the step creates is in no replica's state
  have hnew : ∀ x i, x ≠ rootId → .node x i ∈ ev.exec Y (σ.state r) → (∀ j, .node x j ∉ σ.state r) →
      ∀ r' j, .node x j ∉ σ.state r' := by
    intro x i hx hi hnone r' j hj
    have hid : x ∈ ev.newIds := by
      rcases hstep.keys hi with ⟨k, hk⟩ | hroot | hid
      · exact absurd hk (hnone k)
      · exact absurd hroot hx
      · exact hid
    rcases h.minted r' x j hj with hroot | ⟨o, ho, hmem⟩
    · exact hx hroot
    · exact Finset.disjoint_left.mp (hmint.2 o ho) hid hmem
  have hmixed : ∀ r' x i j, x ≠ rootId → .node x i ∈ ev.exec Y (σ.state r) →
      .node x j ∈ σ.state r' → i = j := by
    intro r' x i j hx hi hj
    rcases hextended.created x i hi with hold | ⟨hnone, -⟩
    · exact h.single r r' x i j hx hold hj
    · exact absurd hj (hnew x i hx hi hnone r' j)
  constructor
  · refine System.act_forall (P := fun s => ∀ x i, DocOp.node x i ∈ s → x = rootId ∨
      ∃ o ∈ (σ.act (SeedEvent.exec Y) r ev).history, x ∈ o.event.newIds) ?_ ?_
    · intro r' x i hi
      exact (h.minted r' x i hi).imp_right fun ⟨o, ho, hx⟩ => ⟨o, List.mem_cons_of_mem _ ho, hx⟩
    · intro x i hi
      rcases hstep.keys hi with ⟨j, hj⟩ | hroot | hid
      · exact (h.minted r x j hj).imp_right fun ⟨o, ho, hx⟩ => ⟨o, List.mem_cons_of_mem _ ho, hx⟩
      · exact Or.inl hroot
      · exact Or.inr ⟨_, List.mem_cons_self, hid⟩
  · intro q q' x i j hx hi hj
    by_cases hq : q = r
    · rw [hq, System.act_state_self] at hi
      by_cases hq' : q' = r
      · rw [hq', System.act_state_self] at hj
        rcases hextended.created x i hi with hold | ⟨-, hone⟩
        · exact (hmixed r x j i hx hj hold).symm
        · exact (hone j hj).symm
      · rw [System.act_state_of_ne hq'] at hj
        exact hmixed q' x i j hx hi hj
    · rw [System.act_state_of_ne hq] at hi
      by_cases hq' : q' = r
      · rw [hq', System.act_state_self] at hj
        exact (hmixed q x j i hx hj hi).symm
      · rw [System.act_state_of_ne hq'] at hj
        exact h.single q q' x i j hx hi hj

theorem Seeded.receive (h : Seeded rootId σ) {r' : R} {part : DocLog Inst M U} (hpart : part ≤ σ.state r') :
    Seeded rootId (σ.receive r part) := by
  -- what the receiver holds, some replica held before
  have hheld : ∀ q op, op ∈ (σ.receive r part).state q → ∃ q', op ∈ σ.state q' := by
    intro q op hop
    by_cases hq : q = r
    · rw [hq, System.receive_state_self] at hop
      rcases Finset.mem_union.mp hop with hop | hop
      · exact ⟨r, hop⟩
      · exact ⟨r', hpart hop⟩
    · rw [System.receive_state_of_ne hq] at hop
      exact ⟨q, hop⟩
  constructor
  · intro q x i hi
    obtain ⟨q', hi⟩ := hheld q _ hi
    exact h.minted q' x i hi
  · intro q q' x i j hx hi hj
    obtain ⟨p, hi⟩ := hheld q _ hi
    obtain ⟨p', hj⟩ := hheld q' _ hj
    exact h.single p p' x i j hx hi hj

theorem run_seeded (h : SeedRun lib Y rootId ok σ) : Seeded rootId σ := by
  induction h with
  | start =>
    exact ⟨fun _ _ _ hi => absurd hi (Finset.notMem_empty _),
      fun _ _ _ _ _ _ hi => absurd hi (Finset.notMem_empty _)⟩
  | act r ev _ hok ih => exact ih.act hok.1 hok.2.1
  | receive r r' part _ hpart ih => exact ih.receive hpart

theorem run_added (h : SeedRun lib Y rootId ok σ) {op : DocOp Inst M U} (hop : op ∈ σ.state r) :
    ∃ o ∈ σ.history, op ∈ o.event.exec Y o.before ∧ op ∉ o.before := by
  have horigin :=
    System.Run.origin (P := fun s : DocLog Inst M U => op ∈ s) (fun hle hs => hle hs)
      (fun hs => Finset.mem_union.mp hs) h hop
  exact horigin.resolve_left (Finset.notMem_empty _)

theorem run_extended (h : SeedRun lib Y rootId ok σ) : ∀ o ∈ σ.history,
    Extended (¬ o.event.KeepsTexts Y o.before) o.before (o.event.exec Y o.before) :=
  h.history (Q := fun s ev => Extended (¬ ev.KeepsTexts Y s) s (ev.exec Y s)) fun _ _ _ hok =>
    hok.2.1.extended

theorem run_unreplaced (h : SeedRun lib Y rootId (fun σ r ev => ev.KeepsTexts Y (σ.state r)) σ)
    (x : JsString) (i : Inst) (u : U) : .text x i (.replace u) ∉ σ.state r := by
  intro hu
  obtain ⟨o, ho, hnow, hold⟩ := run_added h hu
  have hkeeps := h.history (Q := fun s ev => ev.KeepsTexts Y s) (fun _ _ _ hok => hok.2.2) o ho
  exact ((run_extended h o ho).replaced x i u hnow).elim hold fun hcuts => hcuts hkeeps

theorem chainUndeleted_live {doc : Doc} {x : JsString} (hget : doc.getRootId = some rootId)
    (hx : ChainUndeleted rootId doc x) : x ∉ doc.effectiveTree.deleted := by
  have hflagged : ∀ y, FlaggedDeleted doc.treeNodes y →
      ReflTransGen (EffectiveEdge rootId doc.effectiveTree) x y →
      y = rootId := by
    rintro y ⟨n, hn, rfl, hflag⟩ hxy
    obtain ⟨node, move, hnode, -, he⟩ := mem_treeNodes.mp hn
    by_contra hne
    have hread := hx n.id hxy hne node hnode
    rw [he] at hflag
    exact Bool.false_ne_true (hread.symm.trans hflag)
  intro hdel
  obtain ⟨-, hne, hflag | ⟨y, hxy, hy, hflag⟩⟩ := ((Doc.rooted_spec hget).deleted x).mp hdel
  · exact hne (hflagged x hflag .refl)
  · exact hy (hflagged y hflag hxy.to_reflTransGen)

section Merged

variable (h : SeedRun lib Y rootId ok σ) (hconv : σ.Converged) {doc : Doc}
  (hdoc : ShowsLog Y rootId (σ.state r) doc)

include h hconv hdoc

theorem merged_moveOf {x : JsString} {i : Inst} (hi : .node x i ∈ σ.state r) :
    (doc.moveOf x).isSome = true := by
  obtain ⟨j, hj⟩ := DocLog.nodeAt_isSome Y hi
  obtain ⟨o, ho, hnow, hold⟩ := run_added h (DocLog.nodeAt_mem Y hj)
  obtain ⟨m, hmove⟩ := ((run_extended h o ho).placed x j hnow).resolve_left hold
  have hkept := h.kept_everywhere le_seedExec hconv ho r hmove
  obtain ⟨e, he⟩ := Y.move.pick_isSome ⟨m, DocLog.mem_moves.mpr hkept⟩
  have hitems := hdoc.items x
  rw [DocLog.shownAt, hj, Option.map_some, DocLog.moveAt, he, Option.map_some, Option.map_eq_some_iff]
    at hitems
  obtain ⟨node, hget, hcore⟩ := hitems
  rw [Doc.moveOf, hget, Option.bind_some, (Prod.mk.inj hcore).1]
  rfl

omit hdoc in
theorem merged_inserted {x : JsString} (hx : ItemInserted Y σ x) : ∃ i, .node x i ∈ σ.state r := by
  obtain ⟨o, ho, -, hnow⟩ := hx
  obtain ⟨i, hi⟩ := Option.isSome_iff_exists.mp hnow
  exact ⟨i, h.kept_everywhere le_seedExec hconv ho r (DocLog.nodeAt_mem Y hi)⟩

omit h hconv [DecidableEq R] in
theorem merged_contentOf {x : JsString} {i : Inst} (hi : (σ.state r).nodeAt Y x = some i) :
    doc.contentOf x = some ((Y.text.shown ((σ.state r).texts x i)).map Prod.snd) := by
  have hitems := hdoc.items x
  rw [DocLog.shownAt, hi, Option.map_some, Option.map_eq_some_iff] at hitems
  obtain ⟨node, hget, hcore⟩ := hitems
  rw [Doc.contentOf, hget, Option.bind_some, (Prod.mk.inj hcore).2]
  rfl

end Merged

end Runs

/-- While no edit and no split cuts a surrogate pair, concurrent seeding loses nothing. -/
theorem seeding_losesNothing {R Inst M U : Type} [DecidableEq R] [DecidableEq Inst] [DecidableEq M]
    [DecidableEq U] {lib : FractionalIndexing} {Key : JsString → Prop} (hlib : lib.Lawful Key)
    {Y : Reading Inst M U} {rootId : JsString} {σ : SeedSystem R Inst M U}
    (hrun : SeedRun lib Y rootId (fun σ r ev => ev.KeepsTexts Y (σ.state r)) σ) (hconv : σ.Converged)
    (hstart : ∃ r, Started σ r) (r : R) (doc : Doc) (hdoc : ShowsLog Y rootId (σ.state r) doc) :
    LosesNothing Y rootId σ doc := by
  have hroots : .initialised ∈ σ.state r ∧ ∃ i, .node rootId i ∈ σ.state r := by
    obtain ⟨-, o, ho, -, hev⟩ := hstart
    have hroot := hrun.history (Q := fun s ev => ev.isStart = true →
      .initialised ∈ ev.exec Y s ∧ ∃ i, .node rootId i ∈
      ev.exec Y s) (fun _ _ _ hok => hok.2.1.root hlib) o ho hev
    have hkept := hrun.kept_everywhere le_seedExec hconv ho r
    exact ⟨hkept hroot.1, hroot.2.imp fun i hi => hkept hi⟩
  obtain ⟨hinit, i, hi⟩ := hroots
  have hget : doc.getRootId = some rootId := by
    rw [Doc.getRootId, hdoc.rootId, if_pos hinit]
  have hspec := Doc.rooted_spec hget
  have hplaced : ∀ x, ItemInserted Y σ x → (doc.moveOf x).isSome = true := by
    intro x hx
    obtain ⟨j, hj⟩ := merged_inserted hrun hconv hx
    exact merged_moveOf hrun hconv hdoc hj
  have hroot := merged_moveOf hrun hconv hdoc hi
  refine ⟨hget, ⟨hroot, hspec.root (mem_ids_iff.mpr hroot)⟩, ?_, fun x _ hx => hplaced x hx, ?_, ?_⟩
  · intro x hx
    exact hspec.reaches x (mem_ids_iff.mpr hx)
  · intro x hx hins
    obtain ⟨j, hj⟩ := merged_inserted hrun hconv hins
    obtain ⟨k, hk⟩ := DocLog.nodeAt_isSome Y hj
    refine ⟨_, merged_contentOf hdoc hk, ?_⟩
    rintro u c ⟨o, ho, k', left, right, hnode, hop⟩ hdel
    have hkept := hrun.kept_everywhere le_seedExec hconv ho r
    -- the text that the unit went into is the one that is shown
    obtain rfl :=
      (run_seeded hrun).single r r x k' k hx (hkept (DocLog.nodeAt_mem Y hnode)) (DocLog.nodeAt_mem Y hk)
    apply YText.mem_shown
    · exact ⟨left, right, DocLog.mem_texts.mpr (hkept hop)⟩
    · intro herase
      obtain ⟨o', ho', hnow, -⟩ := run_added hrun (DocLog.mem_texts.mp herase)
      exact hdel ⟨o', ho', k', hnow⟩
    · intro hreplace
      exact run_unreplaced hrun x k' u (DocLog.mem_texts.mp hreplace)
  · intro x hx hins hchain
    exact (mem_flattenVisible hget).mpr ⟨hplaced x hins, hx, chainUndeleted_live hget hchain⟩

section Examples

def emptyDoc : Doc := ⟨none, none, .empty⟩

def seedA : Doc := (whenReady sampleKeys emptyDoc (js ['r']) deviceA (js ['a'])).2

def seedB : Doc := (whenReady sampleKeys emptyDoc (js ['r']) deviceB (js ['b'])).2

def placementIn (doc : Doc) (id : JsString) : MoveRegister := (doc.moveOf id).getD ⟨[], [], noHlc⟩

def seedPlacement : ℕ → MoveRegister
  | 0 => placementIn seedA (js ['r'])
  | 1 => placementIn seedA (js ['a'])
  | 2 => placementIn seedB (js ['r'])
  | _ => placementIn seedB (js ['b'])

def seedReading : Reading ℕ ℕ ℕ := ⟨greatest, greatest, seedPlacement, byUnit⟩

def startA : SeedEvent ℕ ℕ ℕ :=
  .start (js ['a']) deviceA emptyDoc [.move (js ['r']) (seedPlacement 0), .move (js ['a']) (seedPlacement 1)]
    {.initialised, .node (js ['r']) 0, .move (js ['r']) 0 0, .node (js ['a']) 0, .move (js ['a']) 0 1}

def startB : SeedEvent ℕ ℕ ℕ :=
  .start (js ['b']) deviceB emptyDoc [.move (js ['r']) (seedPlacement 2), .move (js ['b']) (seedPlacement 3)]
    {.initialised, .node (js ['r']) 1, .move (js ['r']) 1 2, .node (js ['b']) 0, .move (js ['b']) 0 3}

def seededApart : SeedSystem Bool ℕ ℕ ℕ :=
  ((⟨fun _ => ∅, []⟩ : SeedSystem Bool ℕ ℕ ℕ).act (SeedEvent.exec seedReading) true startA).act
    (SeedEvent.exec seedReading) false startB

theorem emptyDoc_shows : ShowsLog seedReading (js ['r']) ∅ emptyDoc :=
  logDoc_shows seedReading (js ['r']) [] (by simp)

theorem seededApart_run {ok : SeedSystem Bool ℕ ℕ ℕ → Bool → SeedEvent ℕ ℕ ℕ → Prop}
    (hok : ∀ σ r newId actor doc writes log, ok σ r (.start newId actor doc writes log)) :
    SeedRun sampleKeys seedReading (js ['r']) ok seededApart := by
  refine .act _ _ (.act _ _ .start ⟨⟨by decide, by simp⟩, ⟨emptyDoc_shows, rfl, ?_⟩, hok _ _ _ _ _ _ _⟩)
    ⟨⟨by decide, by decide⟩, ⟨emptyDoc_shows, rfl, ?_⟩, hok _ _ _ _ _ _ _⟩
  · refine ⟨{.initialised, .node (js ['r']) 0, .move (js ['r']) 0 0},
      LogsMove.write ⟨0, 0, ?_, ?_, rfl⟩ (by decide), _,
      LogsMove.write ⟨0, 1, ?_, ?_, rfl⟩ (by decide), rfl⟩
    · exact Or.inr (by decide +kernel)
    · decide +kernel
    · exact Or.inr (by decide +kernel)
    · decide +kernel
  · refine ⟨{.initialised, .node (js ['r']) 1, .move (js ['r']) 1 2},
      LogsMove.write ⟨1, 2, ?_, ?_, rfl⟩ (by decide), _,
      LogsMove.write ⟨0, 3, ?_, ?_, rfl⟩ (by decide), rfl⟩
    · exact Or.inr (by decide +kernel)
    · decide +kernel
    · exact Or.inr (by decide +kernel)
    · decide +kernel

theorem seededApart_started (r : Bool) : Started seededApart r := by
  cases r with
  | true => exact ⟨_, List.mem_cons_of_mem _ List.mem_cons_self, rfl, rfl⟩
  | false => exact ⟨_, List.mem_cons_self, rfl, rfl⟩

def retype (next : JsString) (unit : ℕ) : SeedEvent ℕ ℕ ℕ := .edit (js ['a']) next fun i => unit + i

def seededTyped : SeedSystem Bool ℕ ℕ ℕ :=
  seededApart.act (SeedEvent.exec seedReading) true (retype (js ['k']) 10)

def typedDoc : Doc :=
  logDoc seedReading (js ['r']) (seededTyped.exchange.state true) [js ['r'], js ['a'], js ['b']]

theorem seeding_losesNothing_typed : LosesNothing seedReading (js ['r']) seededTyped.exchange typedDoc := by
  have hnode : (seededApart.state true).nodeAt seedReading (js ['a']) = some 0 := by decide +kernel
  have hkeeps : (retype (js ['k']) 10).KeepsTexts seedReading (seededApart.state true) := by
    refine ⟨by decide, fun i hi => ?_⟩
    obtain rfl : 0 = i := Option.some.inj (hnode.symm.trans hi)
    exact ⟨by decide +kernel, by decide +kernel⟩
  have hrun : SeedRun sampleKeys seedReading (js ['r']) (fun σ r ev => ev.KeepsTexts seedReading (σ.state r))
      seededTyped := by
    refine .act _ _ (seededApart_run fun _ _ _ _ _ _ _ => trivial)
      ⟨⟨by decide, by decide⟩, ⟨?_, by decide⟩, hkeeps⟩
    exact seededApart_started true
  refine seeding_losesNothing sampleKeys_lawful hrun.exchange System.exchange_converged
    ⟨true, ?_⟩ true typedDoc ?_
  · exact ⟨_, List.mem_cons_of_mem _ (List.mem_cons_of_mem _ List.mem_cons_self), rfl, rfl⟩
  · exact logDoc_shows _ _ _ (by decide +kernel)

/-- A character outside of the basic plane, and the next one: they differ in the second half of the pair. -/
def pairText (low : ℕ) : JsString := [Fin.ofNat 65536 0xD83D, Fin.ofNat 65536 low]

def seededRetyped : SeedSystem Bool ℕ ℕ ℕ :=
  (seededApart.act (SeedEvent.exec seedReading) true (retype (pairText 0xDE00) 10)).act
    (SeedEvent.exec seedReading) true
    (retype (pairText 0xDE01) 20)

def retypedDoc : Doc :=
  logDoc seedReading (js ['r']) (seededRetyped.exchange.state true) [js ['r'], js ['a'], js ['b']]

def DocOp.erased {Inst M U : Type} : DocOp Inst M U → Option U
  | text _ _ (.erase u) => some u
  | _ => none

/-- The first half of the pair was inserted and not deleted, but the second edit cut the pair: on the device
that typed it, U+FFFD stands in its place. -/
theorem retyped_losesHalf : sampleKeys.Lawful SampleKey ∧
    SeedRun sampleKeys seedReading (js ['r']) (fun _ _ _ => True) seededRetyped.exchange ∧
    seededRetyped.exchange.Converged ∧ (∀ r, Started seededRetyped.exchange r) ∧
    ShowsLog seedReading (js ['r']) (seededRetyped.exchange.state true) retypedDoc ∧
    UnitInserted seedReading seededRetyped.exchange (js ['a']) 10 (Fin.ofNat 65536 0xD83D) ∧
    ¬ UnitDeleted seedReading seededRetyped.exchange (js ['a']) 10 ∧
    retypedDoc.contentOf (js ['a']) = some [replacement, Fin.ofNat 65536 0xDE01] ∧
    ¬ LosesNothing seedReading (js ['r']) seededRetyped.exchange retypedDoc := by
  have hrun : SeedRun sampleKeys seedReading (js ['r']) (fun _ _ _ => True) seededRetyped := by
    refine .act _ _ (.act _ _ (seededApart_run fun _ _ _ _ _ _ _ => trivial)
      ⟨⟨by decide, by decide⟩, ⟨?_, by decide⟩, trivial⟩)
      ⟨⟨by decide, by decide⟩, ⟨?_, by decide⟩, trivial⟩
    · exact seededApart_started true
    · exact ⟨_, List.mem_cons_of_mem _ (List.mem_cons_of_mem _ List.mem_cons_self), rfl, rfl⟩
  have hstarted : ∀ r, Started seededRetyped.exchange r := by
    intro r
    obtain ⟨o, ho, hr⟩ := seededApart_started r
    exact ⟨o, List.mem_cons_of_mem _ (List.mem_cons_of_mem _ ho), hr⟩
  have hinserted : UnitInserted seedReading seededRetyped.exchange (js ['a']) 10 (Fin.ofNat 65536 0xD83D) :=
    ⟨_, List.mem_cons_of_mem _ List.mem_cons_self, 0, none, none, by decide +kernel, by decide +kernel⟩
  have hkept : ¬ UnitDeleted seedReading seededRetyped.exchange (js ['a']) 10 := by
    have herased : ∀ o ∈ seededRetyped.exchange.history, ∀ op ∈ o.event.exec seedReading o.before,
        op.erased ≠ some 10 := by
      decide +kernel
    rintro ⟨o, ho, i, hi⟩
    exact herased o ho _ hi rfl
  have hcontent : retypedDoc.contentOf (js ['a']) = some [replacement, Fin.ofNat 65536 0xDE01] := by
    decide +kernel
  refine ⟨sampleKeys_lawful, hrun.exchange, System.exchange_converged, hstarted,
    logDoc_shows _ _ _ (by decide +kernel),
    hinserted, hkept, hcontent, fun hloses => ?_⟩
  obtain ⟨shown, hshown, hall⟩ := hloses.texts (js ['a']) (by decide)
    ⟨_, List.mem_cons_of_mem _ (List.mem_cons_of_mem _ (List.mem_cons_of_mem _ List.mem_cons_self)),
      by decide +kernel, by decide +kernel⟩
  have hmem := List.mem_map_of_mem (f := Prod.snd) (hall 10 _ hinserted hkept)
  rw [← Option.some.inj (hcontent.symm.trans hshown)] at hmem
  exact absurd hmem (by decide)

end Examples

end OpenOutliner
