import OpenOutliner.Crdt.RanksApart

namespace OpenOutliner

open Foundations Relation

/-- The commands act on visible items, and mint ids that no item has. -/
def OnVisible (rootId : JsString) (doc : Doc) : Command → Prop
  | .insertItem newId parentId _ => (parentId = rootId ∨ Visible doc parentId) ∧ doc.items.get newId = none
  | .splitItem id _ newId => Visible doc id ∧ doc.items.get newId = none
  | .indent id => Visible doc id
  | .outdent id => Visible doc id
  | .moveWithinSiblings id _ => Visible doc id
  | .moveItem id newParentId _ => Visible doc id ∧ (newParentId = rootId ∨ Visible doc newParentId)
  | .mergeIntoPrevious id targetId _ => Visible doc id ∧ Visible doc targetId
  | .deleteItem id _ => Visible doc id
  | .undeleteItem id _ => (doc.items.get id).isSome = true
  | .toggleCompleted id => Visible doc id
  | .setIsCollapsed id _ => Visible doc id
  | .setItemType id _ => Visible doc id

/-- No other item that stands under the parent of `x` has the rank of `x`. -/
def RankFree (doc : Doc) (x : JsString) : Prop :=
  ∀ m, doc.moveOf x = some m → ∀ y n, y ≠ x → Standing doc y n → n.parentId = m.parentId → n.rank ≠ m.rank

/-- No new item has the reserved name, no item is merged into one below it, and no item comes back to a rank
that is taken. -/
def KeepsApart (rootId : JsString) (doc : Doc) : Command → Prop
  | .insertItem newId _ _ => newId ≠ ROOT_PARENT_SENTINEL
  | .splitItem _ _ newId => newId ≠ ROOT_PARENT_SENTINEL
  | .mergeIntoPrevious id targetId _ => ¬ TransGen (EffectiveEdge rootId doc.effectiveTree) targetId id
  | .undeleteItem id _ => RankFree doc id
  | _ => True

/-- Any two children of an item have different ranks. -/
def RanksDistinct (doc : Doc) : Prop :=
  ∀ q, (doc.childIds q).Pairwise fun x y => ∀ m n, doc.moveOf x = some m → doc.moveOf y = some n →
    m.rank ≠ n.rank

/-- The documents that one replica reaches from `createRoot` by commands that `ok` allows; the `meta` map
may name the root. -/
inductive SoloRun (lib : FractionalIndexing) (rootId : JsString) (ok : Doc → Command → Prop) : Doc → Prop
  | created (version : Option ℕ) (pinned : Option JsString) (actor : Actor) :
      pinned = none ∨ pinned = some rootId →
      SoloRun lib rootId ok (createRoot lib ⟨version, pinned, .empty⟩ rootId actor).2
  | ran {doc : Doc} (cmd : Command) (actor : Actor) : SoloRun lib rootId ok doc → ok doc cmd →
      SoloRun lib rootId ok (cmd.run lib doc actor).2

section Ranks

variable {lib : FractionalIndexing} {Key : JsString → Prop} {doc : Doc} {p q k : JsString}

theorem split_apart {l : List (JsString × JsString)} {n : ℕ} (hlow : ∀ e ∈ l.take n, e.2 < k)
    (hhigh : ∀ e ∈ l.drop n, k < e.2) :
    ∀ e ∈ l, e.2 ≠ k := by
  intro e he
  rw [← List.take_append_drop n l] at he
  rcases List.mem_append.mp he with he | he
  · exact (hlow e he).ne
  · exact (hhigh e he).ne'

theorem last_le {e : JsString × JsString} (he : e ∈ doc.siblingKeys q) :
    ∃ r, (doc.getChildren q).getLast?.map OutlineNode.rank = some r ∧ e.2 ≤ r := by
  obtain ⟨n, hn, rfl⟩ := List.mem_map.mp he
  obtain ⟨last, hlast⟩ : ∃ last, (doc.getChildren q).getLast? = some last :=
    Option.ne_none_iff_exists'.mp fun hno => List.ne_nil_of_mem hn (List.getLast?_eq_none_iff.mp hno)
  refine ⟨last.rank, by rw [hlast]; rfl, ?_⟩
  obtain ⟨before, hlist⟩ := List.getLast?_eq_some_iff.mp hlast
  have hsorted := doc.getChildren_pairwise q
  rw [hlist] at hn hsorted
  rcases List.mem_append.mp hn with hn | hn
  · exact @compareOrder_rank_le OutlineNode _ _ _ ((List.pairwise_append.mp hsorted).2.2 n hn last (by simp))
  · rw [List.mem_singleton.mp hn]
    exact le_rfl

end Ranks

section Commands

variable {lib : FractionalIndexing} {Key : JsString → Prop} (hlib : lib.Lawful Key) {doc : Doc}
  {rootId x p q : JsString} (h : RanksApart doc rootId) (hv : RanksValid Key doc) (actor : Actor)

include hlib h hv

theorem insertItem_apart {newId : JsString} (hfresh : doc.items.get newId = none)
    (hplain : newId ≠ ROOT_PARENT_SENTINEL)
    (hlisted : (doc.moveOf p).isSome = true) (hshows : ShowsAll doc p) (afterId : Option JsString) :
    RanksApart (insertItem lib doc newId p afterId actor).2 rootId := by
  have hnone : doc.moveOf newId = none := by
    rw [Doc.moveOf, hfresh]
    rfl
  have hne : ∀ y, (doc.moveOf y).isSome = true → y ≠ newId := by
    rintro y hy rfl
    rw [hnone] at hy
    cases hy
  -- nothing leads to an item that is not there
  have hback : ¬ ReflTransGen (Under doc rootId) p newId := by
    intro hpath
    rcases ReflTransGen.cases_tail hpath with he | ⟨w, -, hw, m, hmove, hparent⟩
    · exact hne p hlisted he.symm
    · exact hne m.parentId (h.parents w m hmove hw) hparent
  unfold insertItem buildInsertMove
  dsimp only
  have hgap := boundsAfter_gap hv p afterId
  rcases rankBetween_gap hlib hgap newId with ⟨-, e, he⟩ | ⟨ht, -⟩
  · rw [he]
    exact h
  · obtain ⟨k, hk, -, hbetween⟩ := rankBetween_ok hlib (hgap.bounds ht) newId
    rw [hk]
    obtain ⟨n, hlow, hhigh, -⟩ := boundsAfter_splits hbetween
    exact h.write_shown (hne rootId h.root_listed).symm hplain hlisted hback hshows fun e he _ =>
      split_apart hlow hhigh e he

theorem splitItem_apart {newId : JsString} (hx : x ∈ doc.childIds q) (hfresh : doc.items.get newId = none)
    (hplain : newId ≠ ROOT_PARENT_SENTINEL) (offset : ℤ) :
    RanksApart (splitItem lib doc x offset newId actor).2 rootId := by
  obtain ⟨⟨hne, move, hmove, rfl⟩, -⟩ := h.child_standing hx
  have hcut : RanksApart (truncated doc x offset) rootId := by
    apply h.same_placements (truncated_rootId) (fun y => truncated_moveOf offset) fun y =>
      truncated_placement offset
  have hkids : (truncated doc x offset).childIds move.parentId = doc.childIds move.parentId := by
    rw [Doc.childIds, truncated_getChildren]
    rfl
  have hnew : newId ≠ x := by
    rintro rfl
    rw [Doc.moveOf, hfresh] at hmove
    cases hmove
  have hinserted :=
    insertItem_apart hlib hcut (ranksValid_of_moveOf hv fun y => truncated_moveOf offset) actor
    (truncated_fresh hnew hfresh) hplain (by rw [truncated_moveOf]; exact h.parent_listed hx)
    (hcut.showsAll_parent (hkids.symm ▸ hx)) (some x)
  rw [splitItem_eq hmove]
  split
  · rename_i heq
    rwa [heq] at hinserted
  · rename_i d heq
    rw [heq] at hinserted
    apply hinserted.same_placements
    · rw [insertContent_rootId, Doc.ensureContent, Doc.updateNode_rootId]
    · intro y
      simp
    · intro y
      rw [insertContent_placement, ensureContent_placement]

theorem indent_apart (hx : x ∈ doc.childIds q) : RanksApart (indent lib doc x actor).2 rootId := by
  obtain ⟨⟨hne, move, hmove, rfl⟩, -⟩ := h.child_standing hx
  rcases indent_result hlib hv actor hmove with ⟨hrun, -⟩ | ⟨i, s, placed, hs, hxs, rfl, hkeys, hrun⟩
  · rw [hrun]
    exact h
  · rw [hrun]
    have hsq := List.mem_of_getElem? hs
    have hback : ¬ ReflTransGen (Under doc rootId) placed.parentId x := by
      intro hpath
      rcases ReflTransGen.cases_head hpath with he | ⟨w, hw, hwx⟩
      · rw [he] at hs
        have hplace :=
          standsAt_unique (doc.getChildren_ids_nodup _) (standsAt_childIds.mpr hs)
            (standsAt_childIds.mpr hxs)
        omega
      · obtain ⟨-, m, hm, hmq⟩ := (h.child_standing hsq).1
        obtain ⟨-, m', hm', hmw⟩ := hw
        obtain rfl := Option.some.inj (hm.symm.trans hm')
        rw [← hmw, hmq] at hwx
        exact h.avoids_of_below ⟨hne, move, hmove, rfl⟩ .refl hwx
    exact h.write_shown hne (h.plain_of_listed (by rw [hmove]; rfl)) (h.child_listed hsq) hback
      (h.showsAll_child hsq)
      fun e he _ => (hkeys e he).ne

theorem outdent_apart (hx : x ∈ doc.childIds q) : RanksApart (outdent lib doc x actor).2 rootId := by
  obtain ⟨⟨hne, move, hmove, rfl⟩, -⟩ := h.child_standing hx
  rcases outdent_result hlib hv actor hmove with ⟨hsame, -⟩ | ⟨-, parentMove, i, s, placed, hparent, -, hs,
      hid, hplaced, hbetween,
    hrun⟩
  · rw [hsame]
    exact h
  · rw [hrun]
    have hmg : move.parentId ∈ doc.childIds parentMove.parentId := by
      rw [← hid]
      exact List.mem_map_of_mem (List.mem_of_getElem? hs)
    rw [← hplaced] at hmg hs hbetween
    obtain ⟨hlow, hhigh⟩ := between_splits hs hbetween
    have hback := h.avoids_of_below ⟨hne, move, hmove, rfl⟩ (.single (h.child_standing hmg).1)
    exact h.write_shown hne (h.plain_of_listed (by rw [hmove]; rfl)) (h.parent_listed hmg) hback
      (h.showsAll_parent hmg)
      fun e he _ => split_apart hlow hhigh e he

theorem moveWithinSiblings_apart (hx : x ∈ doc.childIds q) (direction : Direction) :
    RanksApart (moveWithinSiblings lib doc x direction actor).2 rootId := by
  obtain ⟨r, doc', hrun⟩ : ∃ r doc', moveWithinSiblings lib doc x direction actor = (r, doc') := ⟨_, _, rfl⟩
  rw [hrun]
  by_cases hr : r = .ok true
  · rw [hr] at hrun
    obtain ⟨move, placed, s, before, after, hmove, hparent, hdoc, -, hslot⟩ :=
      moveWithinSiblings_slot hlib hv hrun
    obtain ⟨⟨hne, m, hm, rfl⟩, -⟩ := h.child_standing hx
    obtain rfl := Option.some.inj (hmove.symm.trans hm)
    rw [hdoc]
    rw [← hparent] at hx hslot
    have hback := h.avoids_of_below ⟨hne, move, hmove, hparent.symm⟩ .refl
    apply h.write_shown hne (h.plain_of_listed (by rw [hmove]; rfl)) (h.parent_listed hx) hback
      (h.showsAll_parent hx)
    rintro ⟨y, r⟩ he hyx
    obtain ⟨hy, n, hn, rfl⟩ := mem_siblingKeys.mp he
    have hrest : y ∈ before ++ after := by
      rw [← hslot.rest, (childIds_nodup doc _).mem_erase_iff]
      exact ⟨hyx, hy⟩
    rcases List.mem_append.mp hrest with hy | hy
    · exact (hslot.low y hy n hn).ne
    · exact (hslot.high y hy n hn).ne'
  · rw [moveWithinSiblings_kept hrun hr]
    exact h

theorem moveItem_apart (hx : x ∈ doc.childIds q) (hlisted : (doc.moveOf p).isSome = true)
    (hshows : ShowsAll doc p)
    (afterId : Option JsString) : RanksApart (moveItem lib doc x p afterId actor).2 rootId := by
  obtain ⟨r, doc', hrun⟩ : ∃ r doc', moveItem lib doc x p afterId actor = (r, doc') := ⟨_, _, rfl⟩
  rw [hrun]
  by_cases hr : r = .ok true
  · rw [hr] at hrun
    obtain ⟨hguard, placed, rfl, hbetween, hdoc⟩ := moveItem_placed hlib hv hrun
    rw [hdoc]
    obtain ⟨⟨hne, m, hm, -⟩, -⟩ := h.child_standing hx
    have hback : ¬ ReflTransGen (Under doc rootId) placed.parentId x := by
      intro hpath
      rw [h.under_eq] at hpath
      rw [isDescendantOf_of_path hpath] at hguard
      cases hguard
    obtain ⟨n, hlow, hhigh, -⟩ := boundsAfter_splits hbetween
    exact h.write_shown hne (h.plain_of_listed (by rw [hm]; rfl)) hlisted hback hshows fun e he _ =>
      split_apart hlow hhigh e he
  · rw [moveItem_kept hrun hr]
    exact h

end Commands

section Deletion

variable {doc : Doc} {rootId id token y : JsString} {m : MoveRegister} {del : DeletedRegister}

theorem hasActiveDelete_writeRecords {node : Node} (hactive : node.hasActiveDelete = true) :
    (Doc.writeRecords true token node).hasActiveDelete = true := by
  unfold Node.hasActiveDelete at hactive
  cases hdeletes : node.deleteRecords with
  | none =>
    rw [hdeletes] at hactive
    cases hactive
  | some deletes =>
    rw [hdeletes] at hactive
    obtain ⟨t, ht, hno⟩ := of_decide_eq_true hactive
    simp only [Node.hasActiveDelete, Doc.writeRecords, hdeletes, if_true, Option.getD_some]
    exact decide_eq_true ⟨t, Finset.mem_insert_of_mem ht, hno⟩

theorem writeDeleted_standing (hdel : del.isDeleted = true)
    (hstand : Standing (doc.writeDeleted id del token) y m) :
    Standing doc y m := by
  obtain ⟨hmove, hplace⟩ := hstand
  rw [Doc.writeDeleted_moveOf] at hmove
  refine ⟨hmove, ?_⟩
  have hversion := doc.writeDeleted_schemaVersion id del token
  by_cases hy : y = id
  · subst hy
    obtain ⟨node, hget, hnode⟩ := Option.bind_eq_some_iff.mp hmove
    have hnew : ∀ f : Node → Node, doc.writeDeleted y del token = doc.updateNode y f →
        (f node).move = some m →
        (readDeleted doc.schemaVersion (f node)).isDeleted = false := by
      intro f hf hmoved
      rw [Doc.placement, hversion, hf, Doc.updateNode_get, if_pos rfl, hget, Option.map_some,
        Option.bind_some, hmoved] at hplace
      simpa using hplace
    have hold : (readDeleted doc.schemaVersion node).isDeleted = false →
        doc.placement y = some (m.parentId, false) := by
      intro hno
      rw [Doc.placement, hget, Option.bind_some, hnode, Option.map_some, hno]
    by_cases hv2 : doc.schemaVersion = some 2
    · by_cases hroot : doc.rootId = some y
      · have hsame : doc.writeDeleted y del token = doc := by
          rw [Doc.writeDeleted, if_pos hv2, if_pos hroot]
        rwa [hsame] at hplace
      · apply hold
        have hread :=
          hnew (Doc.writeRecords del.isDeleted token) (by rw [Doc.writeDeleted, if_pos hv2, if_neg hroot])
          (by unfold Doc.writeRecords; split <;> exact hnode)
        rw [hdel] at hread
        unfold readDeleted at hread ⊢
        rw [if_pos hv2] at hread ⊢
        by_contra hactive
        rw [Bool.not_eq_false] at hactive
        rw [hasActiveDelete_writeRecords hactive] at hread
        cases hread
    · have hread :=
        hnew (fun node => { node with deleted := some del }) (by rw [Doc.writeDeleted, if_neg hv2]) hnode
      unfold readDeleted at hread
      rw [if_neg hv2, Option.getD_some, hdel] at hread
      cases hread
  · rw [Doc.placement, writeDeleted_get hy, hversion] at hplace
    exact hplace

theorem deleteItem_apart (h : RanksApart doc rootId) (actor : Actor) (reading : ℕ) :
    RanksApart (deleteItem doc id token actor reading).2 rootId := by
  unfold deleteItem
  split
  · exact h
  · apply h.same_places (Doc.writeDeleted_rootId ..)
    · intro y
      exact Doc.writeDeleted_moveOf ..
    · intro y m hstand
      exact writeDeleted_standing rfl hstand

theorem undeleteItem_apart (h : RanksApart doc rootId) (hfree : RankFree doc id) (actor : Actor) :
    RanksApart (undeleteItem doc id token actor).2 rootId := by
  unfold undeleteItem
  split
  · exact h
  · rename_i node hget
    have hstands : ∀ {del y m}, Standing (doc.writeDeleted id del token) y m → y = id ∧
        doc.moveOf id = some m ∨
        y ≠ id ∧ Standing doc y m := by
      rintro del y m ⟨hmove, hplace⟩
      rw [Doc.writeDeleted_moveOf] at hmove
      by_cases hy : y = id
      · exact Or.inl ⟨hy, hy ▸ hmove⟩
      · rw [Doc.placement, writeDeleted_get hy, Doc.writeDeleted_schemaVersion] at hplace
        exact Or.inr ⟨hy, hmove, hplace⟩
    apply h.same_moves (Doc.writeDeleted_rootId ..)
    · intro y
      exact Doc.writeDeleted_moveOf ..
    · intro y z m n hne hy hz hparent
      rcases hstands hy with ⟨rfl, hm⟩ | ⟨hyid, hyold⟩
      · rcases hstands hz with ⟨rfl, -⟩ | ⟨hzid, hzold⟩
        · exact absurd rfl hne
        · exact (hfree m hm z n hzid hzold hparent.symm).symm
      · rcases hstands hz with ⟨rfl, hn⟩ | ⟨-, hzold⟩
        · exact hfree n hn y m hyid hyold hparent
        · exact h.apart y z m n hne hyold hzold hparent

end Deletion

section Merge

variable {lib : FractionalIndexing} {Key : JsString → Prop} (hlib : lib.Lawful Key)
  {rootId id targetId : JsString} (actor : Actor)

include hlib

theorem adoptChildren_apart {children : List OutlineNode} {doc : Doc} {reading : ℕ}
    {lastRank : Option JsString} (h : RanksApart doc rootId) (hv : RanksValid Key doc)
    (hlast : ∀ r ∈ lastRank, Key r) (hlisted : (doc.moveOf targetId).isSome = true)
    (hchildren : ∀ c ∈ children, c.id ≠ rootId ∧ ¬ ReflTransGen (Under doc rootId) targetId c.id)
    (hbelow : ∀ y m, Standing doc y m → m.parentId = targetId → ∃ r ∈ lastRank, m.rank ≤ r) :
    RanksApart (adoptChildren lib targetId actor reading lastRank children doc).2 rootId := by
  induction children generalizing doc reading lastRank with
  | nil => exact h
  | cons c rest ih =>
    obtain ⟨⟨hne, hback⟩, hrest⟩ := List.forall_mem_cons.mp hchildren
    unfold adoptChildren
    cases hmove : doc.moveOf c.id with
    | none => exact ih h hv hlast hlisted hrest hbelow
    | some childMove =>
      obtain ⟨k, hk, hkey, hbetween⟩ := rankAfter_ok hlib hlast c.id
      unfold rankAfter at hk
      dsimp only
      rw [hk]
      dsimp only
      have hranks : ∀ y m, Standing doc y m → m.parentId = targetId → m.rank < k := by
        intro y m hstand hparent
        obtain ⟨r, hr, hle⟩ := hbelow y m hstand hparent
        exact lt_of_le_of_lt hle (hbetween.1 r hr)
      have hplain := h.plain_of_listed (q := c.id) (by rw [hmove]; rfl)
      have hnext :
          RanksApart
          (doc.writeMove c.id (buildMove targetId k (some childMove.hlc) (actor.ctx reading))) rootId :=
        h.write hne hplain hlisted hback fun y m _ hstand hparent => (hranks y m hstand hparent).ne
      apply ih hnext (ranksValid_writeMove hv _ hkey)
      · rintro r ⟨⟩
        exact hkey
      · exact h.written_listed hne hlisted
      · intro d hd
        obtain ⟨hdne, hdback⟩ := hrest d hd
        refine ⟨hdne, fun hpath => hdback ?_⟩
        have hagree : AgreeOff c.id (Under doc rootId)
            (Under (doc.writeMove c.id
              (buildMove targetId k (some childMove.hlc) (actor.ctx reading))) rootId) :=
          RanksApart.written_agree
        exact hagree.symm.path_of_avoids (fun hc => hback (hagree.symm.to_point hc)) hpath
      · intro y m hstand hparent
        refine ⟨k, rfl, ?_⟩
        rcases h.written_standing hne hstand with ⟨-, rfl⟩ | ⟨-, hold⟩
        · exact le_rfl
        · exact (hranks y m hold hparent).le

theorem mergeIntoPrevious_apart {doc : Doc} {q : JsString} (h : RanksApart doc rootId)
    (hv : RanksValid Key doc) (htarget : targetId ∈ doc.childIds q)
    (hbelow : ¬ TransGen (EffectiveEdge rootId doc.effectiveTree) targetId id) (token : JsString) :
    RanksApart (mergeIntoPrevious lib doc id targetId token actor).2 rootId := by
  have htext : ∀ at_ text, RanksApart (doc.withText id targetId at_ text) rootId := by
    intro at_ text
    have hsame : Reordered doc (doc.withText id targetId at_ text) id := withText_reordered id
    exact h.same_placements hsame.rootId (fun y => withText_moveOf) hsame.placements
  have hadopt : ∀ at_ text reading, RanksApart (adoptChildren lib targetId actor reading
      (((doc.withText id targetId at_ text).getChildren targetId).getLast?.map OutlineNode.rank)
      ((doc.withText id targetId at_ text).getChildren id) (doc.withText id targetId at_ text)).2 rootId := by
    intro at_ text reading
    have hw := htext at_ text
    have hvw : RanksValid Key (doc.withText id targetId at_ text) :=
      ranksValid_of_moveOf hv fun y => withText_moveOf
    have htarget' : targetId ∈ (doc.withText id targetId at_ text).childIds q := by rwa [withText_childIds]
    have hunder : Under (doc.withText id targetId at_ text) rootId = Under doc rootId := by
      funext y p
      rw [Under, Under, withText_moveOf]
    apply adoptChildren_apart hlib actor hw hvw
    · intro r hr
      exact lastRank_key hvw targetId hr
    · exact hw.child_listed htarget'
    · intro c hc
      have hunderc := (hw.child_standing (List.mem_map_of_mem hc)).1
      refine ⟨hunderc.1, fun hpath => hbelow ?_⟩
      rw [hunder] at hpath hunderc
      have hedges : EffectiveEdge rootId doc.effectiveTree = Under doc rootId := by
        funext y p
        exact propext h.edge_iff
      rw [hedges]
      exact TransGen.tail' hpath hunderc
    · intro y m hstand hparent
      have hchild := hw.showsAll_child htarget' y m hstand hparent
      exact last_le (mem_siblingKeys.mpr ⟨hchild, m, hstand.1, rfl⟩)
  unfold mergeIntoPrevious
  dsimp only
  split
  · rename_i source text _ _
    have hrun := hadopt text.length source 0
    split
    · rename_i heq
      rwa [heq] at hrun
    · rename_i reading d heq
      rw [heq] at hrun
      have hdel : RanksApart (deleteItem d id token actor reading).2 rootId :=
        deleteItem_apart hrun actor reading
      split <;> rename_i heq' <;> rwa [heq'] at hdel
  · exact htext 0 []

end Merge

section Run

variable {lib : FractionalIndexing} {Key : JsString → Prop} (hlib : lib.Lawful Key) {doc : Doc}
  {rootId : JsString}

theorem updateNode_apart (h : RanksApart doc rootId) (id : JsString) (f : Field) :
    RanksApart (doc.updateNode id f.set) rootId := by
  have hmove : ∀ node, (f.set node).move = node.move := by
    intro node
    cases f <;> rfl
  have hdel : ∀ node, readDeleted doc.schemaVersion (f.set node) = readDeleted doc.schemaVersion node := by
    intro node
    cases f <;> exact Doc.readDeleted_congr _ rfl rfl rfl
  apply h.same_placements (Doc.updateNode_rootId ..)
  · intro y
    exact Doc.updateNode_moveOf doc id y hmove
  · intro y
    exact updateNode_placement id y hmove hdel

include hlib

theorem created_apart (hroot : rootId ≠ ROOT_PARENT_SENTINEL) {version : Option ℕ} {pinned : Option JsString}
    (hpinned : pinned = none ∨ pinned = some rootId) (actor : Actor) :
    RanksApart (createRoot lib ⟨version, pinned, .empty⟩ rootId actor).2 rootId ∧
      RanksValid Key (createRoot lib ⟨version, pinned, .empty⟩ rootId actor).2 := by
  obtain ⟨k, hk, hkey, -⟩ := rankBetween_ok hlib (bounds_above (by simp : ∀ a ∈ none, Key a)) []
  unfold createRoot
  rw [hk]
  dsimp only
  have hmoves :
      ∀ y, ((⟨version, pinned, .empty⟩ : Doc).writeMove rootId (buildRootMove k (actor.ctx 0))).moveOf y =
      if y = rootId then some (buildRootMove k (actor.ctx 0)) else none := by
    intro y
    rw [Doc.writeMove, if_neg fun hno => hno.2 rfl, Doc.moveOf, Doc.setNode_get]
    split_ifs <;> rfl
  refine ⟨⟨?_, ?_, ?_, ?_, ?_, ?_⟩, ?_⟩
  · rw [Doc.writeMove_rootId]
    exact hpinned
  · rw [hmoves, if_pos rfl]
    exact ⟨_, rfl, rfl⟩
  · rw [hmoves, if_neg hroot.symm]
  · intro y m hmove hne
    rw [hmoves, if_neg hne] at hmove
    cases hmove
  · intro y hy
    rw [hmoves] at hy
    split_ifs at hy with hyroot
    · rw [hyroot]
    · cases hy
  · intro y z m n hne hy hz
    have hyroot := hy.1
    have hzroot := hz.1
    rw [hmoves] at hyroot hzroot
    split_ifs at hyroot hzroot with h1 h2
    exact absurd (h1.trans h2.symm) hne
  · intro y m hmove
    rw [hmoves] at hmove
    split_ifs at hmove
    rw [← Option.some.inj hmove]
    exact hkey

theorem run_apart (h : RanksApart doc rootId) (hv : RanksValid Key doc) {cmd : Command}
    (hvisible : OnVisible rootId doc cmd)
    (hkeeps : KeepsApart rootId doc cmd) (actor : Actor) : RanksApart (cmd.run lib doc actor).2 rootId := by
  have htarget : ∀ p, p = rootId ∨ Visible doc p → (doc.moveOf p).isSome = true ∧ ShowsAll doc p := by
    rintro p (rfl | hp)
    · exact ⟨h.root_listed, h.showsAll_root⟩
    · obtain ⟨g, hg⟩ := hp.child
      exact ⟨h.child_listed hg, h.showsAll_child hg⟩
  cases cmd with
  | insertItem newId parentId afterId =>
    obtain ⟨hlisted, hshows⟩ := htarget parentId hvisible.1
    exact insertItem_apart hlib h hv actor hvisible.2 hkeeps hlisted hshows afterId
  | splitItem id offset newId =>
    obtain ⟨q, hq⟩ := hvisible.1.child
    exact splitItem_apart hlib h hv actor hq hvisible.2 hkeeps offset
  | indent id =>
    obtain ⟨q, hq⟩ := Visible.child hvisible
    exact indent_apart hlib h hv actor hq
  | outdent id =>
    obtain ⟨q, hq⟩ := Visible.child hvisible
    exact outdent_apart hlib h hv actor hq
  | moveWithinSiblings id direction =>
    obtain ⟨q, hq⟩ := Visible.child hvisible
    exact moveWithinSiblings_apart hlib h hv actor hq direction
  | moveItem id newParentId afterId =>
    obtain ⟨q, hq⟩ := hvisible.1.child
    obtain ⟨hlisted, hshows⟩ := htarget newParentId hvisible.2
    exact moveItem_apart hlib h hv actor hq hlisted hshows afterId
  | mergeIntoPrevious id targetId token =>
    obtain ⟨q, hq⟩ := hvisible.2.child
    exact mergeIntoPrevious_apart hlib actor h hv hq hkeeps token
  | deleteItem id token => exact deleteItem_apart h actor 0
  | undeleteItem id token => exact undeleteItem_apart h hkeeps actor
  | toggleCompleted id =>
    change RanksApart (toggleCompleted doc id) rootId
    rw [toggleCompleted_writes]
    exact updateNode_apart h id _
  | setIsCollapsed id value => exact updateNode_apart h id (.isCollapsed value)
  | setItemType id type => exact updateNode_apart h id (.type type)

theorem soloRun_apart (hroot : rootId ≠ ROOT_PARENT_SENTINEL)
    (hrun : SoloRun lib rootId (fun d cmd => OnVisible rootId d cmd ∧ KeepsApart rootId d cmd) doc) :
    RanksApart doc rootId ∧ RanksValid Key doc := by
  induction hrun with
  | created version pinned actor hpinned => exact created_apart hlib hroot hpinned actor
  | ran cmd actor _ hok ih =>
    exact ⟨run_apart hlib ih.1 ih.2 hok.1 hok.2 actor, run_ranksValid hlib ih.2 actor cmd⟩

theorem soloRun_ranksDistinct (hroot : rootId ≠ ROOT_PARENT_SENTINEL)
    (hrun : SoloRun lib rootId (fun d cmd => OnVisible rootId d cmd ∧ KeepsApart rootId d cmd) doc) :
    RanksDistinct doc := by
  have h := (soloRun_apart hlib hroot hrun).1
  intro q
  apply (childIds_nodup doc q).imp_of_mem
  intro x y hx hy hne m n hm hn
  exact h.children_apart hx hy hne hm hn

end Run

section Examples

theorem not_ranksDistinct {doc : Doc} {q x y : JsString} {l : List JsString} {m n : MoveRegister}
    (hlist : doc.childIds q = x :: y :: l) (hm : doc.moveOf x = some m) (hn : doc.moveOf y = some n)
    (hrank : m.rank = n.rank) :
    ¬ RanksDistinct doc := by
  intro h
  have hpair := h q
  rw [hlist, List.pairwise_cons] at hpair
  exact hpair.1 y (by simp) m n hm hn hrank

theorem rankFree_of_allNodes {doc : Doc} {x : JsString} {m : MoveRegister} (hm : doc.moveOf x = some m)
    (h : ∀ n ∈ doc.allNodes, n.id = x ∨ n.rank ≠ m.rank) : RankFree doc x := by
  intro m' hm' y n hy hstand _
  obtain rfl := Option.some.inj (hm.symm.trans hm')
  obtain ⟨node, hnode, hid, -, hrank⟩ := Doc.allNodes_of_moveOf hstand.1
  rw [← hrank]
  exact (h node hnode).resolve_left (hid ▸ hy)

def planted : Doc := ((insertFirst (js ['a'])).run sampleKeys seeded deviceA).2

def buried : Doc := ((Command.deleteItem (js ['a']) (js ['t'])).run sampleKeys planted deviceA).2

def replanted (newId : JsString) : Doc := ((insertFirst newId).run sampleKeys buried deviceA).2

def restoredBeside (newId : JsString) : Doc :=
  ((Command.undeleteItem (js ['a']) (js ['u'])).run sampleKeys (replanted newId) deviceA).2

theorem buried_run {ok : Doc → Command → Prop} (hfirst : ok seeded (insertFirst (js ['a'])))
    (hdelete : ok planted (.deleteItem (js ['a']) (js ['t']))) : SoloRun sampleKeys (js ['r']) ok buried :=
  .ran _ _ (.ran _ _ (.created (some 2) (some (js ['r'])) deviceA (Or.inr rfl)) hfirst) hdelete

theorem soloRun_ranksDistinct_restored : RanksDistinct (restoredBeside (js ['b'])) := by
  have hvisible : ∃ n ∈ planted.placedNodes, n.id = js ['a'] ∧ planted.isLive n = true := by decide
  have hfree : RankFree (replanted (js ['b'])) (js ['a']) := by
    have hmove : (replanted (js ['b'])).moveOf (js ['a']) =
        some ⟨js ['r'], js ['a', 'C'], (deviceA.ctx 0).nowMs, 0, js ['A']⟩ := rfl
    exact rankFree_of_allNodes hmove (by decide)
  apply soloRun_ranksDistinct sampleKeys_lawful (show js ['r'] ≠ ROOT_PARENT_SENTINEL by decide)
  refine .ran _ _ (.ran _ _ (buried_run ?_ ?_) ?_) ?_
  · exact ⟨⟨Or.inl rfl, rfl⟩, (by decide : js ['a'] ≠ ROOT_PARENT_SENTINEL)⟩
  · exact ⟨hvisible, trivial⟩
  · exact ⟨⟨Or.inl rfl, rfl⟩, (by decide : js ['b'] ≠ ROOT_PARENT_SENTINEL)⟩
  · exact ⟨rfl, hfree⟩

def nestedPair : Doc :=
  let one := ((insertFirst (js ['q'])).run sampleKeys seeded deviceA).2
  ((insertAfter (js ['x']) (js ['q'])).run sampleKeys one deviceA).2

def nested : Doc := ((Command.insertItem (js ['a']) (js ['x']) none).run sampleKeys nestedPair deviceA).2

def swallowed : Doc :=
  ((Command.mergeIntoPrevious (js ['x']) (js ['a']) (js ['t'])).run sampleKeys nested deviceA).2

def reservedItem : Doc := ((insertFirst ROOT_PARENT_SENTINEL).run sampleKeys seeded deviceA).2

def underReserved : Doc :=
  ((Command.insertItem (js ['d']) ROOT_PARENT_SENTINEL none).run sampleKeys reservedItem deviceA).2

/-- Two siblings share a rank where `a` comes back after `q` took its place, where an item is merged into
its own child, and where an item has the name that the parent of the root has. -/
theorem soloRun_tied : sampleKeys.Lawful SampleKey ∧
    (SoloRun sampleKeys (js ['r']) (OnVisible (js ['r'])) (restoredBeside (js ['q'])) ∧
      ¬ RanksDistinct (restoredBeside (js ['q']))) ∧
    (SoloRun sampleKeys (js ['r']) (OnVisible (js ['r'])) swallowed ∧ ¬ RanksDistinct swallowed) ∧
    SoloRun sampleKeys (js ['r']) (OnVisible (js ['r'])) underReserved ∧ ¬ RanksDistinct underReserved := by
  have hseeded : SoloRun sampleKeys (js ['r']) (OnVisible (js ['r'])) seeded :=
    .created (some 2) (some (js ['r'])) deviceA (Or.inr rfl)
  have hplanted : ∃ n ∈ planted.placedNodes, n.id = js ['a'] ∧ planted.isLive n = true := by decide
  have hpair : ∃ n ∈ nestedPair.placedNodes, n.id = js ['x'] ∧ nestedPair.isLive n = true := by decide
  have hx : ∃ n ∈ nested.placedNodes, n.id = js ['x'] ∧ nested.isLive n = true := by decide
  have ha : ∃ n ∈ nested.placedNodes, n.id = js ['a'] ∧ nested.isLive n = true := by decide
  have hreserved : ∃ n ∈ reservedItem.placedNodes, n.id = ROOT_PARENT_SENTINEL ∧
      reservedItem.isLive n = true := by decide
  refine ⟨sampleKeys_lawful, ⟨?_, ?_⟩, ⟨?_, ?_⟩, ?_, ?_⟩
  · refine .ran _ _ (.ran _ _ (buried_run ⟨Or.inl rfl, rfl⟩ hplanted) ⟨Or.inl rfl, rfl⟩) ?_
    exact (rfl : ((replanted (js ['q'])).items.get (js ['a'])).isSome = true)
  · exact not_ranksDistinct (q := js ['r']) (x := js ['a']) (y := js ['q']) (l := []) (by decide) rfl rfl rfl
  · refine .ran _ _ (.ran _ _ (.ran _ _ (.ran _ _ hseeded ⟨Or.inl rfl, rfl⟩) ⟨Or.inl rfl, rfl⟩)
      ⟨Or.inr hpair, rfl⟩) ⟨hx, ha⟩
  · exact not_ranksDistinct (q := js ['r']) (x := js ['a']) (y := js ['q']) (l := []) (by decide) rfl rfl rfl
  · exact .ran _ _ (.ran _ _ hseeded ⟨Or.inl rfl, rfl⟩) ⟨Or.inr hreserved, rfl⟩
  · exact not_ranksDistinct (q := js ['r']) (x := ROOT_PARENT_SENTINEL) (y := js ['d']) (l := [])
      (by decide) rfl rfl rfl

end Examples

end OpenOutliner
