import OpenOutliner.Crdt.CommandOutcome
import OpenOutliner.Server.ViewAgreement
import OpenOutliner.Shared.TreeEdits

namespace OpenOutliner

open Foundations Relation

abbrev Doc.treeNodes (doc : Doc) : List TreeNode := doc.allNodes.map OutlineNode.toTreeNode

section Nodes

variable {doc : Doc} {rootId x y p : JsString}

theorem Doc.treeNodes_nodup (doc : Doc) : (ids doc.treeNodes).Nodup := by
  rw [Doc.treeNodes_ids]
  exact Doc.allNodes_nodup

theorem mem_treeNodes {n : TreeNode} : n ∈ doc.treeNodes ↔ ∃ node move, doc.items.get n.id = some node ∧
    node.move = some move ∧ n = ⟨n.id, move.parentId, (readDeleted doc.schemaVersion node).isDeleted⟩ := by
  constructor
  · intro hn
    obtain ⟨m, hm, rfl⟩ := List.mem_map.mp hn
    obtain ⟨node, move, hget, hmove, he⟩ := Doc.mem_allNodes.mp hm
    exact ⟨node, move, hget, hmove, by rw [he]; rfl⟩
  · rintro ⟨node, move, hget, hmove, he⟩
    have hm :
        (⟨n.id, move.parentId, move.rank, move.hlc, (readDeleted doc.schemaVersion node).isDeleted⟩ :
        OutlineNode) ∈
        doc.allNodes := Doc.mem_allNodes.mpr ⟨node, move, hget, hmove, rfl⟩
    rw [he]
    exact List.mem_map_of_mem hm

theorem mem_ids_iff : y ∈ ids doc.treeNodes ↔ (doc.moveOf y).isSome = true := by
  constructor
  · intro hy
    obtain ⟨n, hn, rfl⟩ := List.mem_map.mp hy
    obtain ⟨node, move, hget, hmove, -⟩ := mem_treeNodes.mp hn
    rw [Doc.moveOf, hget, Option.bind_some, hmove]
    rfl
  · intro hy
    obtain ⟨move, hmove⟩ := Option.isSome_iff_exists.mp hy
    obtain ⟨node, hget, hm⟩ := Option.bind_eq_some_iff.mp hmove
    exact List.mem_map_of_mem (mem_treeNodes.mpr ⟨node, move, hget, hm, rfl⟩ :
      (⟨y, move.parentId, (readDeleted doc.schemaVersion node).isDeleted⟩ : TreeNode) ∈ doc.treeNodes)

theorem treeNode_parent {n : TreeNode} (hn : n ∈ doc.treeNodes) :
    ∃ move, doc.moveOf n.id = some move ∧ move.parentId = n.parentId := by
  obtain ⟨node, move, hget, hmove, he⟩ := mem_treeNodes.mp hn
  refine ⟨move, ?_, by rw [he]⟩
  rw [Doc.moveOf, hget, Option.bind_some, hmove]

theorem rawEdge_iff_moveOf {move : MoveRegister} (hmove : doc.moveOf x = some move) :
    RawEdge doc.treeNodes rootId x y ↔ x ≠ rootId ∧ move.parentId = y ∧ y ≠ ROOT_PARENT_SENTINEL ∧
      (doc.moveOf y).isSome = true := by
  have hx : x ∈ ids doc.treeNodes := mem_ids_iff.mpr (by rw [hmove]; rfl)
  obtain ⟨n, hn, rfl⟩ := List.mem_map.mp hx
  obtain ⟨move', hmove', hparent⟩ := treeNode_parent hn
  rw [hmove] at hmove'
  obtain rfl := Option.some.inj hmove'
  rw [rawEdge_of_mem doc.treeNodes_nodup hn, mem_ids_iff, hparent]

theorem writeMove_get (hroot : doc.rootId ≠ some x) (m : MoveRegister) : (doc.writeMove x m).items.get y =
    if y = x then some { (doc.items.get x).getD freshNode with move := some m } else doc.items.get y := by
  rw [Doc.writeMove, if_neg fun h => hroot h.1, Doc.setNode_get]

theorem writeMove_moveOf_self (hroot : doc.rootId ≠ some x) (m : MoveRegister) :
    (doc.writeMove x m).moveOf x = some m := by
  rw [Doc.moveOf, writeMove_get hroot, if_pos rfl]
  rfl

theorem writeMove_moveOf_other (m : MoveRegister) (hy : y ≠ x) :
    (doc.writeMove x m).moveOf y = doc.moveOf y := by
  rcases doc.writeMove_moveOf x y m with h | ⟨h, -⟩
  · exact h
  · exact absurd h hy

theorem writeMove_reparented (hroot : doc.rootId ≠ some x) (hx : (doc.moveOf x).isSome = true)
    (m : MoveRegister) :
    Reparented doc.treeNodes (doc.writeMove x m).treeNodes x m.parentId := by
  obtain ⟨move, hmove⟩ := Option.isSome_iff_exists.mp hx
  obtain ⟨node, hget, hnode⟩ := Option.bind_eq_some_iff.mp hmove
  have hself : (doc.writeMove x m).items.get x = some { node with move := some m } := by
    rw [writeMove_get hroot, if_pos rfl, hget, Option.getD_some]
  have hdeleted : readDeleted doc.schemaVersion { node with move := some m } =
      readDeleted doc.schemaVersion node :=
    Doc.readDeleted_congr _ rfl rfl rfl
  refine ⟨doc.treeNodes_nodup, Doc.treeNodes_nodup _, ?_, ?_, ?_, ?_⟩
  · intro y
    rw [mem_ids_iff, mem_ids_iff]
    by_cases hy : y = x
    · rw [hy, writeMove_moveOf_self hroot, hmove]
      simp
    · rw [writeMove_moveOf_other m hy]
  · intro n hn
    rw [mem_treeNodes, mem_treeNodes, writeMove_get hroot, if_neg hn, Doc.writeMove_schemaVersion]
  · intro n hn hid
    obtain ⟨node', move', hget', hmove', he⟩ := mem_treeNodes.mp hn
    rw [hid, hself] at hget'
    obtain rfl := Option.some.inj hget'
    obtain rfl := Option.some.inj hmove'
    rw [he]
  · constructor
    · rintro ⟨n, hn, hid, hflag⟩
      obtain ⟨node', move', hget', hmove', he⟩ := mem_treeNodes.mp hn
      rw [hid, hself] at hget'
      obtain rfl := Option.some.inj hget'
      rw [he, Doc.writeMove_schemaVersion, hdeleted] at hflag
      exact ⟨⟨x, move.parentId, _⟩, mem_treeNodes.mpr ⟨node, move, hget, hnode, rfl⟩, rfl, hflag⟩
    · rintro ⟨n, hn, rfl, hflag⟩
      obtain ⟨node', move', hget', hmove', he⟩ := mem_treeNodes.mp hn
      rw [hget] at hget'
      obtain rfl := Option.some.inj hget'
      rw [he] at hflag
      refine ⟨⟨n.id, m.parentId, _⟩, mem_treeNodes.mpr ⟨_, m, hself, rfl, rfl⟩, rfl, ?_⟩
      rw [Doc.writeMove_schemaVersion, hdeleted]
      exact hflag

end Nodes

section Guard

variable {doc : Doc} {rootId anc c : JsString}

inductive StepsTo (r : JsString → JsString → Prop) (anc : JsString) : ℕ → JsString → Prop
  | last {c : JsString} : r c anc → StepsTo r anc 1 c
  | step {n : ℕ} {c d : JsString} : r c d → StepsTo r anc n d → StepsTo r anc (n + 1) c

theorem exists_stepsTo {r : JsString → JsString → Prop} (h : TransGen r c anc) : ∃ n, StepsTo r anc n c := by
  induction h using TransGen.head_induction_on with
  | single h => exact ⟨1, .last h⟩
  | head h _ ih =>
    obtain ⟨n, hn⟩ := ih
    exact ⟨n + 1, .step h hn⟩

theorem descendantLoop_finds {byId : OrderedMap JsString OutlineNode}
    (hnext : ∀ c d, RawEdge doc.treeNodes rootId c d → d ≠ ROOT_PARENT_SENTINEL ∧
      ∃ n, byId.get c = some n ∧ n.id = c ∧ n.parentId = d) {n : ℕ}
    (hsteps : StepsTo (RawEdge doc.treeNodes rootId) anc n c)
    (hleast : ∀ m < n, ¬ StepsTo (RawEdge doc.treeNodes rootId) anc m c) {fuel : ℕ} {seen : Finset JsString}
    (hseen : ∀ s ∈ seen, ∀ m ≤ n, ¬ StepsTo (RawEdge doc.treeNodes rootId) anc m s) {b : Bool}
    (h : Doc.descendantLoop byId anc fuel seen (byId.get c) = some b) : b = true := by
  induction hsteps generalizing fuel seen with
  | @last c hedge =>
    obtain ⟨-, n, hget, rfl, rfl⟩ := hnext _ _ hedge
    cases fuel with
    | zero => cases h
    | succ fuel =>
      rw [hget, Doc.descendantLoop, if_pos rfl] at h
      exact (Option.some.inj h).symm
  | @step k c d hedge hsteps ih =>
    obtain ⟨hplain, n, hget, rfl, rfl⟩ := hnext _ _ hedge
    cases fuel with
    | zero => cases h
    | succ fuel =>
      rw [hget, Doc.descendantLoop] at h
      split_ifs at h with hanc hin hsentinel
      · exact (Option.some.inj h).symm
      · exact absurd (StepsTo.step hedge hsteps) (hseen _ hin (k + 1) le_rfl)
      · exact absurd (by simpa [isRootParent] using hsentinel) hplain
      · refine ih (fun m hm hd => hleast (m + 1) (by omega) (.step hedge hd)) ?_ h
        intro s hs m hm
        rcases Finset.mem_insert.mp hs with rfl | hs
        · exact hleast m (by omega)
        · exact hseen s hs m (by omega)

theorem isDescendantOf_of_path (h : ReflTransGen (RawEdge doc.treeNodes rootId) c anc) :
    doc.isDescendantOf c anc = true := by
  have hrun := isDescendantOf_terminates (Nat.lt_succ_self doc.allNodes.length) c anc
  unfold Doc.isDescendantOfWithin at hrun
  split at hrun
  · exact (Option.some.inj hrun).symm
  · rename_i hne
    have hpath : TransGen (RawEdge doc.treeNodes rootId) c anc := by
      rcases (reflTransGen_iff_eq_or_transGen.mp h) with he | hpath
      · exact absurd he.symm hne
      · exact hpath
    classical
    have hmin := Nat.find_spec (exists_stepsTo hpath)
    refine descendantLoop_finds (fun x y hedge => ?_) hmin (fun m hm => Nat.find_min _ hm) (by simp) hrun
    obtain ⟨hx, hattached, t, ht, rfl, rfl⟩ := hedge
    obtain ⟨n, hn, rfl⟩ := List.mem_map.mp ht
    refine ⟨fun hs => hattached ⟨hx, _, ht, rfl, Or.inl hs⟩, n, ?_, rfl, rfl⟩
    exact (OrderedMap.get_keyed_iff Doc.allNodes_nodup).mpr ⟨hn, rfl⟩

end Guard

section Commands

inductive StructuralMove
  | indent
  | outdent
  | moveWithinSiblings (direction : Direction)
  | moveItem (newParentId : JsString) (afterId : Option JsString)

def StructuralMove.command (x : JsString) : StructuralMove → Command
  | indent => .indent x
  | outdent => .outdent x
  | moveWithinSiblings direction => .moveWithinSiblings x direction
  | moveItem newParentId afterId => .moveItem x newParentId afterId

/-- The new parent of `moveItem` is an item. -/
def StructuralMove.ParentExists (doc : Doc) : StructuralMove → Prop
  | moveItem newParentId _ => (doc.moveOf newParentId).isSome = true
  | _ => True

def Fits (doc : Doc) (rootId x p : JsString) : Prop :=
  (p = rootId ∨ p ∈ ids doc.treeNodes) ∧ ¬ ReflTransGen (RawEdge doc.treeNodes rootId) p x

/-- What a structural move that returned `b` has done. -/
def Moved (doc doc' : Doc) (rootId x : JsString) (b : Bool) : Prop :=
  (doc' = doc ∧ (b = true → x = rootId)) ∨
    b = true ∧ x ≠ rootId ∧ (doc.moveOf x).isSome = true ∧
      ∃ move, doc' = doc.writeMove x move ∧ Fits doc rootId x move.parentId

variable {lib : FractionalIndexing} {actor : Actor} {doc doc' : Doc} {rootId x p : JsString} {b : Bool}
  (hroot : doc.rootId = some rootId)

theorem moved_refused (h : ((.ok false, doc) : Except JsError Bool × Doc) = (.ok b, doc')) :
    Moved doc doc' rootId x b := by
  cases h
  exact Or.inl ⟨rfl, by simp⟩

theorem not_thrown {e : JsError} {d : Doc}
    (h : ((.error e, d) : Except JsError Bool × Doc) = (.ok b, doc')) : False := by
  cases h

include hroot

theorem getRootId_eq : doc.getRootId = some rootId := by rw [Doc.getRootId, hroot]

theorem moved_write {move : MoveRegister} (hx : (doc.moveOf x).isSome = true)
    (hplain : move.parentId ≠ ROOT_PARENT_SENTINEL) (hfits : x ≠ rootId → Fits doc rootId x move.parentId)
    (h : ((.ok true, doc.writeMove x move) : Except JsError Bool × Doc) = (.ok b, doc')) :
    Moved doc doc' rootId x b := by
  cases h
  by_cases hxr : x = rootId
  · refine Or.inl ⟨?_, fun _ => hxr⟩
    rw [Doc.writeMove, if_pos ⟨by rw [hroot, hxr], hplain⟩]
  · exact Or.inr ⟨rfl, hxr, hx, move, rfl, hfits hxr⟩

theorem placeBetween_moved {lower upper : Option JsString} {prevHlc : Hlc} (hx : (doc.moveOf x).isSome = true)
    (hplain : p ≠ ROOT_PARENT_SENTINEL) (hfits : x ≠ rootId → Fits doc rootId x p)
    (h : placeBetween lib doc x p lower upper prevHlc actor = (.ok b, doc')) : Moved doc doc' rootId x b := by
  unfold placeBetween at h
  cases hrank : rankBetween lib lower upper x with
  | error e =>
    rw [hrank] at h
    exact (not_thrown h).elim
  | ok rank =>
    rw [hrank] at h
    exact moved_write hroot hx hplain hfits h

theorem shown_under {n : OutlineNode} (hn : n ∈ doc.getChildren p) :
    n.id ≠ rootId ∧ (p = rootId ∨ RawEdge doc.treeNodes rootId n.id p) := by
  have hget := getRootId_eq hroot
  have hspec := Doc.rooted_spec hget
  have hedge := Doc.getChildren_edge hget hn
  refine ⟨hedge.1, ?_⟩
  by_cases hrec : n.id ∈ doc.effectiveTree.recovered
  · exact Or.inl (hspec.recovered_edge hedge hrec)
  · exact Or.inr (hspec.edge_raw hedge hrec)

theorem shown_fits {n : OutlineNode} (hn : n ∈ doc.getChildren p)
    (hx : ¬ TransGen (RawEdge doc.treeNodes rootId) n.id n.id) : Fits doc rootId n.id p := by
  obtain ⟨hne, hcase⟩ := shown_under hroot hn
  refine ⟨?_, fun hback => ?_⟩
  · rcases hcase with rfl | hedge
    · exact Or.inl rfl
    · exact Or.inr (rawEdge_target hedge)
  · rcases hcase with rfl | hedge
    · rcases ReflTransGen.cases_head hback with he | ⟨y, hedge, -⟩
      · exact hne he.symm
      · exact hedge.1 rfl
    · exact hx (TransGen.head' hedge hback)

theorem sibling_fits {s n : OutlineNode} (hs : s ∈ doc.getChildren p) (hn : n ∈ doc.getChildren p)
    (hne : s.id ≠ n.id)
    (hx : ¬ TransGen (RawEdge doc.treeNodes rootId) n.id n.id) : Fits doc rootId n.id s.id := by
  have hget := getRootId_eq hroot
  have hspec := Doc.rooted_spec hget
  refine ⟨Or.inr ?_, fun hback => ?_⟩
  · rw [Doc.treeNodes_ids]
    exact Doc.childIds_listed (List.mem_map_of_mem hs)
  · obtain ⟨hnotback, hcase⟩ := shown_under hroot hs
    have hup := (shown_fits hroot hn hx).2
    obtain ⟨y, hedge, hyx⟩ := (ReflTransGen.cases_head hback).resolve_left hne
    rcases hcase with hp | hraw
    · by_cases hrec : s.id ∈ doc.effectiveTree.recovered
      · rcases (hspec.recovered _).mp hrec with hdetached | ⟨hcyc, -⟩
        · exact hedge.2.1 hdetached
        · exact hx (cycle_forward (rawEdge_unique doc.treeNodes_nodup) hcyc hback)
      · have hraw := hspec.edge_raw (Doc.getChildren_edge hget hs) hrec
        rw [rawEdge_unique doc.treeNodes_nodup hedge hraw] at hyx
        exact hup hyx
    · rw [rawEdge_unique doc.treeNodes_nodup hedge hraw] at hyx
      exact hup hyx

variable (hplain : doc.moveOf ROOT_PARENT_SENTINEL = none)
  (hx : ¬ TransGen (RawEdge doc.treeNodes rootId) x x)

include hx

theorem moveWithinSiblings_moved {direction : Direction}
    (h : moveWithinSiblings lib doc x direction actor = (.ok b, doc')) : Moved doc doc' rootId x b := by
  unfold moveWithinSiblings at h
  cases hmove : doc.moveOf x with
  | none =>
    rw [hmove] at h
    exact moved_refused h
  | some move =>
    rw [hmove] at h
    dsimp only at h
    cases hfind : (doc.getChildren move.parentId).findIdx? fun s => s.id = x with
    | none =>
      rw [hfind] at h
      exact moved_refused h
    | some idx =>
      rw [hfind] at h
      dsimp only at h
      obtain ⟨n, hn, rfl⟩ := findIdx?_standsAt hfind
      have hmem := List.mem_of_getElem? hn
      have hfits := shown_fits hroot hmem hx
      have hsome : (doc.moveOf n.id).isSome = true := by rw [hmove]; rfl
      have hwrite : ∀ {lower upper : Option JsString},
          placeBetween lib doc n.id move.parentId lower upper move.hlc actor = (.ok b, doc') →
            Moved doc doc' rootId n.id b := by
        intro lower upper h
        unfold placeBetween at h
        cases hrank : rankBetween lib lower upper n.id with
        | error e =>
          rw [hrank] at h
          exact (not_thrown h).elim
        | ok rank =>
          rw [hrank] at h
          cases h
          exact Or.inr ⟨rfl, (shown_under hroot hmem).1, hsome, _, rfl, hfits⟩
      cases direction with
      | up =>
        dsimp only at h
        split at h
        · exact moved_refused h
        · exact hwrite h
      | down =>
        dsimp only at h
        split at h
        · exact moved_refused h
        · exact hwrite h

theorem indent_moved (h : indent lib doc x actor = (.ok b, doc')) : Moved doc doc' rootId x b := by
  unfold indent at h
  cases hmove : doc.moveOf x with
  | none =>
    rw [hmove] at h
    exact moved_refused h
  | some move =>
    rw [hmove] at h
    dsimp only at h
    cases hfind : (doc.getChildren move.parentId).findIdx? fun s => s.id = x with
    | none =>
      rw [hfind] at h
      exact moved_refused h
    | some idx =>
      rw [hfind] at h
      cases idx with
      | zero => exact moved_refused h
      | succ i =>
        dsimp only at h
        obtain ⟨n, hn, rfl⟩ := findIdx?_standsAt hfind
        have hmem := List.mem_of_getElem? hn
        cases hprev : (doc.getChildren move.parentId)[i]? with
        | none =>
          rw [hprev] at h
          exact (not_thrown h).elim
        | some prev =>
          rw [hprev] at h
          dsimp only at h
          have hne : prev.id ≠ n.id := by
            intro he
            have hstands : StandsAt (doc.getChildren move.parentId) i n.id := ⟨prev, hprev, he⟩
            have := standsAt_unique (doc.getChildren_ids_nodup _) hstands ⟨n, hn, rfl⟩
            omega
          have hfits := sibling_fits hroot (List.mem_of_getElem? hprev) hmem hne hx
          split at h
          · exact (not_thrown h).elim
          · rename_i m hm
            cases h
            have hparent : m.parentId = prev.id := by
              unfold buildAppendMove at hm
              cases hrank : rankAfter lib ((doc.getChildren prev.id).getLast?.map OutlineNode.rank) n.id with
              | error e =>
                rw [hrank] at hm
                cases hm
              | ok rank =>
                rw [hrank] at hm
                cases hm
                rfl
            exact Or.inr ⟨rfl, (shown_under hroot hmem).1, by rw [hmove]; rfl, m, rfl, hparent ▸ hfits⟩

include hplain

theorem outdent_moved (h : outdent lib doc x actor = (.ok b, doc')) : Moved doc doc' rootId x b := by
  unfold outdent at h
  cases hmove : doc.moveOf x with
  | none =>
    rw [hmove] at h
    exact moved_refused h
  | some move =>
    rw [hmove] at h
    dsimp only at h
    cases hparent : doc.moveOf move.parentId with
    | none =>
      rw [hparent] at h
      exact moved_refused h
    | some parentMove =>
      rw [hparent] at h
      dsimp only at h
      split at h
      · exact moved_refused h
      · rename_i hsentinel
        cases hfind : (doc.getChildren parentMove.parentId).findIdx? fun s => s.id = move.parentId with
        | none =>
          rw [hfind] at h
          exact (not_thrown h).elim
        | some i =>
          rw [hfind] at h
          obtain ⟨n, hn, hid⟩ := findIdx?_standsAt hfind
          have hmem := List.mem_of_getElem? hn
          refine placeBetween_moved hroot (by rw [hmove]; rfl) (by simpa [isRootParent] using hsentinel) ?_ h
          intro hxr
          have hedge : RawEdge doc.treeNodes rootId x move.parentId := by
            rw [rawEdge_iff_moveOf hmove]
            refine ⟨hxr, rfl, ?_, by rw [hparent]; rfl⟩
            intro hs
            rw [hs, hplain] at hparent
            cases hparent
          rcases (shown_under hroot hmem).2 with hp | hraw
          · refine ⟨Or.inl hp, fun hback => ?_⟩
            rw [hp] at hback
            rcases ReflTransGen.cases_head hback with he | ⟨y, he, -⟩
            · exact hxr he.symm
            · exact he.1 rfl
          · refine ⟨Or.inr (rawEdge_target hraw), fun hback => ?_⟩
            rw [hid] at hraw
            exact hx (TransGen.head hedge (TransGen.head' hraw hback))

omit hx in
theorem moveItem_moved {newParentId : JsString} {afterId : Option JsString}
    (hexists : (doc.moveOf newParentId).isSome = true)
    (h : moveItem lib doc x newParentId afterId actor = (.ok b, doc')) : Moved doc doc' rootId x b := by
  unfold moveItem at h
  split at h
  · exact moved_refused h
  · rename_i hguard
    rw [Bool.or_eq_true, not_or, decide_eq_true_eq] at hguard
    cases hmove : doc.moveOf x with
    | none =>
      rw [hmove] at h
      exact moved_refused h
    | some move =>
      rw [hmove] at h
      refine placeBetween_moved hroot (by rw [hmove]; rfl) ?_ ?_ h
      · rintro rfl
        rw [hplain] at hexists
        cases hexists
      · intro _
        refine ⟨Or.inr (mem_ids_iff.mpr hexists), fun hback => ?_⟩
        exact hguard.1 (isDescendantOf_of_path hback)

/-- The one step lemma of the four commands. -/
theorem structuralMove_moved (m : StructuralMove) (hexists : m.ParentExists doc)
    (h : (m.command x).run lib doc actor = (.ok b, doc')) : Moved doc doc' rootId x b := by
  cases m with
  | indent => exact indent_moved hroot hx h
  | outdent => exact outdent_moved hroot hplain hx h
  | moveWithinSiblings direction => exact moveWithinSiblings_moved hroot hx h
  | moveItem newParentId afterId => exact moveItem_moved hroot hplain hexists h

end Commands

def rawCycles (doc : Doc) (rootId : JsString) : Set (Set JsString) :=
  {c | ∃ y, TransGen (RawEdge doc.treeNodes rootId) y y ∧
    c = {z | TransGen (RawEdge doc.treeNodes rootId) y z}}

/-- What a structural move of `x` leaves as it was. -/
structure MoveFrame (doc doc' : Doc) (rootId x : JsString) : Prop where
  registers : ∀ y, y ≠ x → doc'.moveOf y = doc.moveOf y
  parents : ∀ y, y ≠ x → doc'.effectiveTree.parents.get y = doc.effectiveTree.parents.get y
  recovered : ∀ y, y ≠ x → (y ∈ doc'.effectiveTree.recovered ↔ y ∈ doc.effectiveTree.recovered)
  deleted : ∀ y, ¬ ReflTransGen (EffectiveEdge rootId doc.effectiveTree) y x →
    (y ∈ doc'.effectiveTree.deleted ↔ y ∈ doc.effectiveTree.deleted)
  cycles : rawCycles doc' rootId = rawCycles doc rootId

section Frame

variable {doc : Doc} {rootId x : JsString}

theorem MoveFrame.refl (doc : Doc) (rootId x : JsString) : MoveFrame doc doc rootId x :=
  ⟨fun _ _ => rfl, fun _ _ => rfl, fun _ _ => Iff.rfl, fun _ _ => Iff.rfl, rfl⟩

theorem root_apart (hroot : doc.rootId = some rootId) (hx : x ≠ rootId) : doc.rootId ≠ some x := by
  rw [hroot]
  exact fun he => hx (Option.some.inj he).symm

theorem writeMove_frame (hroot : doc.rootId = some rootId) (hne : x ≠ rootId)
    (hx : (doc.moveOf x).isSome = true)
    {m : MoveRegister} (hcyc : ¬ TransGen (RawEdge doc.treeNodes rootId) x x)
    (hback : ¬ ReflTransGen (RawEdge doc.treeNodes rootId) m.parentId x) :
    MoveFrame doc (doc.writeMove x m) rootId x := by
  have hget' : (doc.writeMove x m).getRootId = some rootId :=
    getRootId_eq ((doc.writeMove_rootId x m).trans hroot)
  have h := writeMove_reparented (root_apart hroot hne) hx m
  have ht := Doc.rooted_spec (getRootId_eq hroot)
  have ht' := Doc.rooted_spec hget'
  have hcyc' := h.not_cyclic hback
  have hrec := fun y (hy : y ≠ x) => h.recovered_iff ht ht' hcyc hcyc' hy
  refine ⟨fun y hy => writeMove_moveOf_other m hy, fun y hy => h.parents_eq ht ht' hrec hy, hrec,
    fun y hy => h.deleted_iff ht ht' hrec hy, ?_⟩
  have hagree := h.agree rootId
  have hu : Relator.RightUnique (RawEdge doc.treeNodes rootId) := rawEdge_unique h.nodup
  have hu' : Relator.RightUnique (RawEdge (doc.writeMove x m).treeNodes rootId) := rawEdge_unique h.nodup'
  ext c
  constructor
  · rintro ⟨y, hy, rfl⟩
    refine ⟨y, (hagree.cycle_iff hu hu' hcyc hcyc').mpr hy, ?_⟩
    ext z
    exact hagree.symm.trans_iff_of_avoids fun hyx => hcyc' (cycle_forward hu' hy hyx)
  · rintro ⟨y, hy, rfl⟩
    refine ⟨y, (hagree.cycle_iff hu hu' hcyc hcyc').mp hy, ?_⟩
    ext z
    exact hagree.trans_iff_of_avoids fun hyx => hcyc (cycle_forward hu hy hyx)

end Frame

/-- A structural move of an item on no raw cycle changes only that item's place, and puts it where it is not
recovered. -/
theorem structuralMove_frame (lib : FractionalIndexing) (actor : Actor) {doc doc' : Doc}
    {rootId x : JsString} {b : Bool}
    (hroot : doc.rootId = some rootId) (hplain : doc.moveOf ROOT_PARENT_SENTINEL = none)
    (hx : ¬ TransGen (RawEdge doc.treeNodes rootId) x x) (m : StructuralMove) (hexists : m.ParentExists doc)
    (h : (m.command x).run lib doc actor = (.ok b, doc')) :
    MoveFrame doc doc' rootId x ∧
      ((doc.moveOf rootId).isSome = true → b = true → x ≠ rootId → x ∉ doc'.effectiveTree.recovered) := by
  rcases structuralMove_moved hroot hplain hx m hexists h with ⟨rfl, hb⟩ | ⟨-, hne, hsome, move, rfl,
      hlisted, hback⟩
  · exact ⟨.refl _ _ _, fun _ hb' hne => absurd (hb hb') hne⟩
  · refine ⟨writeMove_frame hroot hne hsome hx hback, fun hpresent _ _ hrec => ?_⟩
    have hr := writeMove_reparented (root_apart hroot hne) hsome move
    have hget' : (doc.writeMove x move).getRootId = some rootId :=
      getRootId_eq ((doc.writeMove_rootId x move).trans hroot)
    have hin : move.parentId ∈ ids doc.treeNodes := by
      rcases hlisted with he | hin
      · rw [he]
        exact mem_ids_iff.mpr hpresent
      · exact hin
    rcases (hr.recovered_new (Doc.rooted_spec hget') hne (mem_ids_iff.mpr hsome)
      fun hleast => hr.not_cyclic hback hleast.1).mp hrec with hs | hno
    · rw [hs, mem_ids_iff, hplain] at hin
      cases hin
    · exact hno hin

section Examples

def tangledDoc : Doc :=
  placedDoc (js ['r']) [(js ['r'], ROOT_PARENT_SENTINEL), (js ['a'], js ['b']), (js ['b'], js ['a']),
  (js ['c'], js ['m']), (js ['x'], js ['r']), (js ['y'], js ['r'])]

theorem no_rawPath_of_root {doc : Doc} {rootId x : JsString} {move : MoveRegister}
    (hmove : doc.moveOf x = some move)
    (hparent : move.parentId = rootId) : ¬ TransGen (RawEdge doc.treeNodes rootId) x x := by
  intro hcyc
  obtain ⟨y, hedge, hback⟩ := TransGen.head'_iff.mp hcyc
  obtain ⟨hne, hy, -⟩ := (rawEdge_iff_moveOf hmove).mp hedge
  rcases ReflTransGen.cases_head hback with he | ⟨z, hz, -⟩
  · exact hne (he ▸ hy.symm.trans hparent)
  · exact hz.1 (hy.symm.trans hparent)

theorem structuralMove_frame_tangled :
    MoveFrame tangledDoc (Command.run sampleKeys tangledDoc deviceA (.indent (js ['y']))).2 (js ['r'])
      (js ['y']) ∧
      js ['y'] ∉
        (Command.run sampleKeys tangledDoc deviceA (.indent (js ['y']))).2.effectiveTree.recovered := by
  have hrun : (StructuralMove.indent.command (js ['y'])).run sampleKeys tangledDoc deviceA =
      (.ok true, (Command.run sampleKeys tangledDoc deviceA (.indent (js ['y']))).2) := rfl
  obtain ⟨hframe, hplaced⟩ := structuralMove_frame sampleKeys deviceA
    (show tangledDoc.rootId = some (js ['r']) from rfl) rfl (no_rawPath_of_root rfl rfl) .indent trivial hrun
  exact ⟨hframe, hplaced rfl rfl (by decide)⟩

def rootlessDoc : Doc := placedDoc (js ['r']) [(js ['a'], js ['r']), (js ['b'], js ['a'])]

def sentinelItemDoc : Doc := placedDoc (js ['r']) [(js ['r'], ROOT_PARENT_SENTINEL), (js ['x'], js ['r']),
  (ROOT_PARENT_SENTINEL, js ['r'])]

/-- Before the root has arrived, and with an item named like the parent of the root, a command returns true
and leaves its item recovered. -/
theorem structuralMove_recovers :
    (rootlessDoc.schemaVersion = some 2 ∧ rootlessDoc.rootId = some (js ['r']) ∧
      ¬ TransGen (RawEdge rootlessDoc.treeNodes (js ['r'])) (js ['b']) (js ['b']) ∧
      (outdent sampleKeys rootlessDoc (js ['b']) deviceA).1 = .ok true ∧
      js ['b'] ∈ (outdent sampleKeys rootlessDoc (js ['b']) deviceA).2.effectiveTree.recovered) ∧
    sentinelItemDoc.schemaVersion = some 2 ∧ sentinelItemDoc.rootId = some (js ['r']) ∧
      ¬ TransGen (RawEdge sentinelItemDoc.treeNodes (js ['r'])) (js ['x']) (js ['x']) ∧
      (sentinelItemDoc.moveOf ROOT_PARENT_SENTINEL).isSome = true ∧
      (moveItem sampleKeys sentinelItemDoc (js ['x']) ROOT_PARENT_SENTINEL none deviceA).1 = .ok true ∧
      js ['x'] ∈
      (moveItem sampleKeys sentinelItemDoc
        (js ['x']) ROOT_PARENT_SENTINEL none deviceA).2.effectiveTree.recovered := by
  refine ⟨⟨rfl, rfl, fun hcyc => ?_, rfl, by decide⟩, rfl, rfl, no_rawPath_of_root rfl rfl, rfl,
    rfl, by decide⟩
  obtain ⟨y, hedge, hback⟩ := TransGen.head'_iff.mp hcyc
  obtain ⟨-, rfl, -⟩ := (rawEdge_iff_moveOf rfl).mp hedge
  rcases ReflTransGen.cases_head hback with he | ⟨z, hz, -⟩
  · exact absurd he (by decide)
  · have hmove : rootlessDoc.moveOf (js ['a']) = some ⟨js ['r'], js ['a', '0'], noHlc⟩ := rfl
    obtain ⟨-, rfl, -, hlisted⟩ := (rawEdge_iff_moveOf hmove).mp hz
    exact absurd hlisted (by decide)

end Examples

end OpenOutliner
