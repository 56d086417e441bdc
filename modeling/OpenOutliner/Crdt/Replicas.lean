import OpenOutliner.Crdt.OutlineIndex

/-!
The documents that replicas of one outline can hold: made by `createRoot`, changed by commands,
and merged register by register. Every rank in such a document is a well-formed key.
-/

namespace OpenOutliner

open Foundations

inductive Command
  | insertItem (newId parentId : JsString) (afterId : Option JsString)
  | splitItem (id : JsString) (offset : ℤ) (newId : JsString)
  | indent (id : JsString)
  | outdent (id : JsString)
  | moveWithinSiblings (id : JsString) (direction : Direction)
  | moveItem (id newParentId : JsString) (afterId : Option JsString)
  | mergeIntoPrevious (id targetId token : JsString)
  | deleteItem (id token : JsString)
  | undeleteItem (id token : JsString)
  | toggleCompleted (id : JsString)
  | setIsCollapsed (id : JsString) (value : Bool)
  | setItemType (id : JsString) (type : ItemType)

def completes (r : Except JsError Unit × Doc) : Except JsError Bool × Doc :=
  (r.1.map fun _ => true, r.2)

def Command.run (lib : FractionalIndexing) (doc : Doc) (actor : Actor) :
    Command → Except JsError Bool × Doc
  | .insertItem newId parentId afterId =>
    completes (OpenOutliner.insertItem lib doc newId parentId afterId actor)
  | .splitItem id offset newId => OpenOutliner.splitItem lib doc id offset newId actor
  | .indent id => OpenOutliner.indent lib doc id actor
  | .outdent id => OpenOutliner.outdent lib doc id actor
  | .moveWithinSiblings id direction => OpenOutliner.moveWithinSiblings lib doc id direction actor
  | .moveItem id newParentId afterId => OpenOutliner.moveItem lib doc id newParentId afterId actor
  | .mergeIntoPrevious id targetId token => OpenOutliner.mergeIntoPrevious lib doc id targetId token actor
  | .deleteItem id token => completes (OpenOutliner.deleteItem doc id token actor 0)
  | .undeleteItem id token => completes (OpenOutliner.undeleteItem doc id token actor)
  | .toggleCompleted id => (.ok true, OpenOutliner.toggleCompleted doc id)
  | .setIsCollapsed id value => (.ok true, OpenOutliner.setIsCollapsed doc id value)
  | .setItemType id type => (.ok true, OpenOutliner.setItemType doc id type)

/-- Each register of a merged node was shown by a node it was merged from; what merging does to
texts is left open. -/
structure MergedNode (sources : List Node) (node : Node) : Prop where
  move : ∀ m ∈ node.move, ∃ s ∈ sources, m ∈ s.move
  deletes : ∀ token ∈ node.deleteRecords.getD ∅, ∃ s ∈ sources, token ∈ s.deleteRecords.getD ∅
  restores : ∀ token ∈ node.restoreRecords.getD ∅, ∃ s ∈ sources, token ∈ s.restoreRecords.getD ∅
  deleted : ∀ d ∈ node.deleted, ∃ s ∈ sources, d ∈ s.deleted
  type : ∀ t ∈ node.type, ∃ s ∈ sources, t ∈ s.type
  isCompleted : ∀ b ∈ node.isCompleted, ∃ s ∈ sources, b ∈ s.isCompleted
  isCollapsed : ∀ b ∈ node.isCollapsed, ∃ s ∈ sources, b ∈ s.isCollapsed

/-- A merge of updates out of the histories that led to the sources. -/
structure Merged (rootId : JsString) (sources : List Doc) (doc : Doc) : Prop where
  schemaVersion : doc.schemaVersion = some 2
  rootId : doc.rootId = some rootId
  nodes : ∀ id node, doc.items.get id = some node →
    MergedNode (sources.filterMap fun s => s.items.get id) node

def newDoc (rootId : JsString) : Doc := ⟨some 2, some rootId, .empty⟩

/-- The documents of any number of replicas after any run of commands and merges. -/
inductive Reachable (lib : FractionalIndexing) (rootId : JsString) : Doc → Prop
  | created (actor : Actor) : Reachable lib rootId (createRoot lib (newDoc rootId) rootId actor).2
  | ran {doc : Doc} (cmd : Command) (actor : Actor) : Reachable lib rootId doc →
      Reachable lib rootId (cmd.run lib doc actor).2
  | merged {sources : List Doc} {doc : Doc} : (∀ s ∈ sources, Reachable lib rootId s) →
      Merged rootId sources doc → Reachable lib rootId doc

def Doc.union (a b : Doc) : Doc :=
  { a with items := a.items.union b.items }

theorem mergedNode_of_mem {sources : List Node} {node : Node} (h : node ∈ sources) :
    MergedNode sources node :=
  ⟨fun _ hm => ⟨node, h, hm⟩, fun _ hm => ⟨node, h, hm⟩, fun _ hm => ⟨node, h, hm⟩,
    fun _ hm => ⟨node, h, hm⟩, fun _ hm => ⟨node, h, hm⟩, fun _ hm => ⟨node, h, hm⟩,
    fun _ hm => ⟨node, h, hm⟩⟩

theorem merged_union {rootId : JsString} {a b : Doc} (hv : a.schemaVersion = some 2)
    (hr : a.rootId = some rootId) : Merged rootId [a, b] (a.union b) := by
  refine ⟨hv, hr, ?_⟩
  intro id node hget
  apply mergedNode_of_mem
  rw [List.mem_filterMap]
  rcases OrderedMap.get_union hget with h | h
  · exact ⟨a, by simp, h⟩
  · exact ⟨b, by simp, h⟩

section Ranks

variable {lib : FractionalIndexing} {Key : JsString → Prop} {doc : Doc}

def RanksValid (Key : JsString → Prop) (doc : Doc) : Prop :=
  ∀ id move, doc.moveOf id = some move → Key move.rank

structure Gap (Key : JsString → Prop) (lower upper : Option JsString) : Prop where
  lower_key : ∀ a ∈ lower, Key a
  upper_key : ∀ b ∈ upper, Key b
  le : ∀ a ∈ lower, ∀ b ∈ upper, a ≤ b

def Tied (lower upper : Option JsString) : Prop := ∃ r, lower = some r ∧ upper = some r

theorem Gap.bounds {lower upper : Option JsString} (h : Gap Key lower upper) (ht : ¬ Tied lower upper) :
    Bounds Key lower upper := by
  refine ⟨h.lower_key, h.upper_key, fun a ha b hb => ?_⟩
  apply lt_of_le_of_ne (h.le a ha b hb)
  rintro rfl
  exact ht ⟨a, ha, hb⟩

theorem rankBetween_gap (hlib : lib.Lawful Key) {lower upper : Option JsString}
    (h : Gap Key lower upper) (seed : JsString) :
    (Tied lower upper ∧ ∃ e, rankBetween lib lower upper seed = .error e) ∨
      ¬ Tied lower upper ∧ ∃ k, rankBetween lib lower upper seed = .ok k ∧ Key k := by
  by_cases ht : Tied lower upper
  · refine Or.inl ⟨ht, ?_⟩
    obtain ⟨r, rfl, rfl⟩ := ht
    exact ⟨_, rankBetween_refuses le_rfl seed⟩
  · obtain ⟨k, hk, hkey, -⟩ := rankBetween_ok hlib (h.bounds ht) seed
    exact Or.inr ⟨ht, k, hk, hkey⟩

theorem ranksValid_of_moveOf {doc' : Doc} (h : RanksValid Key doc)
    (hmove : ∀ id, doc'.moveOf id = doc.moveOf id) : RanksValid Key doc' := by
  intro id move hm
  rw [hmove] at hm
  exact h id move hm

theorem ranksValid_writeMove (h : RanksValid Key doc) (id : JsString) {move : MoveRegister}
    (hkey : Key move.rank) : RanksValid Key (doc.writeMove id move) := by
  intro x m hm
  rcases doc.writeMove_moveOf id x move with he | ⟨-, he⟩
  · exact h x m (he ▸ hm)
  · rw [he] at hm
    rwa [← Option.some.inj hm]

theorem getChildren_key (h : RanksValid Key doc) {p : JsString} {n : OutlineNode}
    (hn : n ∈ doc.getChildren p) : Key n.rank := by
  obtain ⟨raw, hraw, -, hrank, -⟩ := Doc.getChildren_raw hn
  rw [← hrank]
  exact h _ _ (Doc.allNodes_moveOf hraw)

section Siblings

variable (h : RanksValid Key doc) (p : JsString)

include h

theorem rankAt_key {i : ℕ} {r : JsString}
    (hr : r ∈ (doc.getChildren p)[i]?.map OutlineNode.rank) : Key r := by
  obtain ⟨n, hn, rfl⟩ := Option.map_eq_some_iff.mp hr
  exact getChildren_key h (List.mem_of_getElem? hn)

theorem siblings_gap (i : ℕ) : Gap Key ((doc.getChildren p)[i]?.map OutlineNode.rank)
    ((doc.getChildren p)[i + 1]?.map OutlineNode.rank) := by
  refine ⟨fun a => rankAt_key h p, fun b => rankAt_key h p, ?_⟩
  intro a ha b hb
  obtain ⟨m, hm, rfl⟩ := Option.map_eq_some_iff.mp ha
  obtain ⟨n, hn, rfl⟩ := Option.map_eq_some_iff.mp hb
  obtain ⟨hi, rfl⟩ := List.getElem?_eq_some_iff.mp hm
  obtain ⟨hj, rfl⟩ := List.getElem?_eq_some_iff.mp hn
  refine @compareOrder_rank_le OutlineNode _ _ _ ?_
  exact List.pairwise_iff_getElem.mp (doc.getChildren_pairwise p) i (i + 1) hi hj (by omega)

theorem first_gap (i : ℕ) : Gap Key none ((doc.getChildren p)[i]?.map OutlineNode.rank) :=
  ⟨by simp, fun b => rankAt_key h p, by simp⟩

theorem boundsAfter_gap (afterId : Option JsString) :
    Gap Key (boundsAfter (doc.getChildren p) afterId).1 (boundsAfter (doc.getChildren p) afterId).2 := by
  unfold boundsAfter
  dsimp only
  split
  · exact siblings_gap h p _
  · exact first_gap h p 0

theorem lastRank_key {r : JsString} (hr : r ∈ (doc.getChildren p).getLast?.map OutlineNode.rank) :
    Key r := by
  obtain ⟨n, hn, rfl⟩ := Option.map_eq_some_iff.mp hr
  exact getChildren_key h (List.mem_of_getLast? hn)

end Siblings

section Preserved

variable (hlib : lib.Lawful Key) (h : RanksValid Key doc) (actor : Actor)

include hlib h

theorem placeBetween_ranksValid {lower upper : Option JsString} (hgap : Gap Key lower upper)
    (id parentId : JsString) (prevHlc : Hlc) :
    RanksValid Key (placeBetween lib doc id parentId lower upper prevHlc actor).2 := by
  unfold placeBetween
  rcases rankBetween_gap hlib hgap id with ⟨-, e, he⟩ | ⟨-, k, hk, hkey⟩
  · rw [he]
    exact h
  · rw [hk]
    exact ranksValid_writeMove h id hkey

theorem insertItem_ranksValid (newId parentId : JsString) (afterId : Option JsString) :
    RanksValid Key (insertItem lib doc newId parentId afterId actor).2 := by
  unfold insertItem buildInsertMove
  have hgap := boundsAfter_gap h parentId afterId
  rcases rankBetween_gap hlib hgap newId with ⟨-, e, he⟩ | ⟨-, k, hk, hkey⟩
  · dsimp only
    rw [he]
    exact h
  · dsimp only
    rw [hk]
    exact ranksValid_writeMove h newId hkey

theorem indent_ranksValid (id : JsString) : RanksValid Key (indent lib doc id actor).2 := by
  unfold indent
  dsimp only
  split
  · exact h
  · split
    · exact h
    · exact h
    · split
      · exact h
      · rename_i prevSibling _
        obtain ⟨k, hk, hkey, -⟩ := rankAfter_ok hlib (fun a => lastRank_key h prevSibling.id) id
        unfold buildAppendMove
        rw [hk]
        exact ranksValid_writeMove h id hkey

theorem outdent_ranksValid (id : JsString) : RanksValid Key (outdent lib doc id actor).2 := by
  unfold outdent
  dsimp only
  split
  · exact h
  · split
    · exact h
    · split_ifs
      · exact h
      · split
        · exact h
        · exact placeBetween_ranksValid hlib h actor (siblings_gap h _ _) _ _ _

theorem moveWithinSiblings_ranksValid (id : JsString) (direction : Direction) :
    RanksValid Key (moveWithinSiblings lib doc id direction actor).2 := by
  unfold moveWithinSiblings
  dsimp only
  split
  · exact h
  · split
    · exact h
    · rename_i idx _
      cases direction with
      | up =>
        dsimp only
        split_ifs with h0 h1
        · exact h
        · exact placeBetween_ranksValid hlib h actor (first_gap h _ _) _ _ _
        · have hgap := siblings_gap h ‹MoveRegister›.parentId (idx - 2)
          rw [show idx - 2 + 1 = idx - 1 by omega] at hgap
          exact placeBetween_ranksValid hlib h actor hgap _ _ _
      | down =>
        dsimp only
        split_ifs
        · exact h
        · exact placeBetween_ranksValid hlib h actor (siblings_gap h _ (idx + 1)) _ _ _

theorem moveItem_ranksValid (id newParentId : JsString) (afterId : Option JsString) :
    RanksValid Key (moveItem lib doc id newParentId afterId actor).2 := by
  unfold moveItem
  split_ifs
  · exact h
  · dsimp only
    split
    · exact h
    · exact placeBetween_ranksValid hlib h actor (boundsAfter_gap h _ _) _ _ _

theorem adoptChildren_ranksValid (targetId : JsString) (children : List OutlineNode) (reading : ℕ)
    {lastRank : Option JsString} (hlast : ∀ a ∈ lastRank, Key a) :
    RanksValid Key (adoptChildren lib targetId actor reading lastRank children doc).2 := by
  induction children generalizing doc reading lastRank with
  | nil => exact h
  | cons child rest ih =>
    unfold adoptChildren
    split
    · exact ih h reading hlast
    · obtain ⟨k, hk, hkey, -⟩ := rankBetween_ok hlib (bounds_above hlast) child.id
      rw [hk]
      apply ih (ranksValid_writeMove h child.id hkey) (reading + 1)
      rintro a ha
      rwa [← Option.some.inj ha]

theorem splitItem_ranksValid (id : JsString) (offset : ℤ) (newId : JsString) :
    RanksValid Key (splitItem lib doc id offset newId actor).2 := by
  unfold splitItem
  split
  · exact h
  · rename_i move _
    dsimp only
    have hinsert : ∀ cut : Doc, (∀ x, cut.moveOf x = doc.moveOf x) →
        RanksValid Key (insertItem lib cut newId move.parentId (some id) actor).2 := fun cut hcut =>
      insertItem_ranksValid hlib (ranksValid_of_moveOf h hcut) actor newId move.parentId (some id)
    split
    · rename_i heq
      rw [← congrArg Prod.snd heq]
      apply hinsert
      intro x
      simp
    · rename_i d heq
      have hd : RanksValid Key d := by
        change RanksValid Key ((.ok (), d) : Except JsError Unit × Doc).2
        rw [← heq]
        apply hinsert
        intro x
        simp
      exact ranksValid_of_moveOf hd fun x => by simp

omit hlib in
theorem deleteItem_ranksValid (id token : JsString) (reading : ℕ) :
    RanksValid Key (deleteItem doc id token actor reading).2 := by
  unfold deleteItem
  split
  · exact h
  · exact ranksValid_of_moveOf h fun x => by simp

theorem mergeIntoPrevious_ranksValid (id targetId token : JsString) :
    RanksValid Key (mergeIntoPrevious lib doc id targetId token actor).2 := by
  unfold mergeIntoPrevious
  dsimp only
  split
  · have hadopt : ∀ d : Doc, (∀ x, d.moveOf x = doc.moveOf x) → ∀ children,
        RanksValid Key (adoptChildren lib targetId actor 0
          ((d.getChildren targetId).getLast?.map OutlineNode.rank) children d).2 := fun d hd children =>
      adoptChildren_ranksValid hlib (ranksValid_of_moveOf h hd) actor targetId children 0
        (fun a => lastRank_key (ranksValid_of_moveOf h hd) targetId)
    split
    · rename_i heq
      rw [← congrArg Prod.snd heq]
      apply hadopt
      intro x
      simp
    · rename_i reading d heq
      have hd : RanksValid Key d := by
        change RanksValid Key ((.ok reading, d) : Except JsError ℕ × Doc).2
        rw [← heq]
        apply hadopt
        intro x
        simp
      have hdel := deleteItem_ranksValid hd actor id token reading
      split <;> rename_i heq' <;> rw [heq'] at hdel <;> exact hdel
  · exact ranksValid_of_moveOf h fun x => by simp

theorem run_ranksValid (cmd : Command) : RanksValid Key (cmd.run lib doc actor).2 := by
  cases cmd with
  | insertItem newId parentId afterId => exact insertItem_ranksValid hlib h actor newId parentId afterId
  | splitItem id offset newId => exact splitItem_ranksValid hlib h actor id offset newId
  | indent id => exact indent_ranksValid hlib h actor id
  | outdent id => exact outdent_ranksValid hlib h actor id
  | moveWithinSiblings id direction => exact moveWithinSiblings_ranksValid hlib h actor id direction
  | moveItem id newParentId afterId => exact moveItem_ranksValid hlib h actor id newParentId afterId
  | mergeIntoPrevious id targetId token =>
    exact mergeIntoPrevious_ranksValid hlib h actor id targetId token
  | deleteItem id token => exact deleteItem_ranksValid h actor id token 0
  | undeleteItem id token =>
    change RanksValid Key (undeleteItem doc id token actor).2
    unfold undeleteItem
    split
    · exact h
    · exact ranksValid_of_moveOf h fun x => by simp
  | toggleCompleted id => exact ranksValid_of_moveOf h fun x => doc.updateNode_moveOf id x fun _ => rfl
  | setIsCollapsed id value => exact ranksValid_of_moveOf h fun x => doc.updateNode_moveOf id x fun _ => rfl
  | setItemType id type => exact ranksValid_of_moveOf h fun x => doc.updateNode_moveOf id x fun _ => rfl

end Preserved

section Run

variable {rootId : JsString}

theorem merged_ranksValid {sources : List Doc} (hs : ∀ s ∈ sources, RanksValid Key s)
    (hm : Merged rootId sources doc) : RanksValid Key doc := by
  intro id move hmove
  obtain ⟨node, hget, hnode⟩ := Option.bind_eq_some_iff.mp hmove
  obtain ⟨s, hs', hin⟩ := (hm.nodes id node hget).move move hnode
  obtain ⟨source, hsource, hsget⟩ := List.mem_filterMap.mp hs'
  apply hs source hsource id move
  rw [Doc.moveOf, hsget]
  exact hin

theorem reachable_ranksValid (hlib : lib.Lawful Key) (h : Reachable lib rootId doc) :
    RanksValid Key doc := by
  induction h with
  | created actor =>
    obtain ⟨k, hk, hkey, -⟩ := rankBetween_ok hlib (bounds_above (by simp : ∀ a ∈ none, Key a)) []
    have hnew : RanksValid Key (newDoc rootId) := by
      intro id move hmove
      cases hmove
    unfold createRoot
    rw [hk]
    exact ranksValid_writeMove hnew rootId hkey
  | ran cmd actor _ ih => exact run_ranksValid hlib ih actor cmd
  | merged _ hm ih => exact merged_ranksValid ih hm

end Run

end Ranks

end OpenOutliner
