import OpenOutliner.Crdt.SiblingLists

namespace OpenOutliner

open Foundations Relation

/-- `x` becomes the last child of the sibling before it, and nothing happens if there is none. -/
def IndentsAsShown (doc doc' : Doc) (x : JsString) : Prop :=
  (∀ s, NextSibling doc s x → (doc'.childIds s).getLast? = some x) ∧
    ((¬ ∃ s, NextSibling doc s x) → doc' = doc)

/-- `x` becomes the next sibling of the item above it, and nothing happens at the top level. -/
def OutdentsAsShown (doc doc' : Doc) (rootId x : JsString) : Prop :=
  ∀ p, x ∈ doc.childIds p → (p ≠ rootId → NextSibling doc' p x) ∧ (p = rootId → doc' = doc)

/-- If another item stands before `x`, then `x` is shown under its raw parent, and the other item is not
named like the parent of the root. -/
def IndentFits (doc : Doc) (x : JsString) : Prop :=
  ∀ s, NextSibling doc s x → s ≠ ROOT_PARENT_SENTINEL ∧ ∃ move, doc.moveOf x = some move ∧
    x ∈ doc.childIds move.parentId

/-- The raw parent is shown under the raw grandparent, with room after it. -/
def OutdentFinds (doc : Doc) (x : JsString) : Prop :=
  ∃ move ∈ doc.moveOf x, ∃ parentMove ∈ doc.moveOf move.parentId, parentMove.parentId ≠ ROOT_PARENT_SENTINEL ∧
    ∃ i, StandsAt (doc.getChildren parentMove.parentId) i move.parentId ∧
    ¬ TieAt (doc.getChildren parentMove.parentId) i

section Joins

variable {doc : Doc} {rootId x p s m g : JsString} {move placed : MoveRegister}

theorem rawUnder_of_moveOf (hmove : doc.moveOf x = some move) : RawUnder doc.treeNodes x move.parentId := by
  obtain ⟨node, hget, hnode⟩ := Option.bind_eq_some_iff.mp hmove
  exact ⟨⟨x, move.parentId, (readDeleted doc.schemaVersion node).isDeleted⟩,
    mem_treeNodes.mpr ⟨node, move, hget, hnode, rfl⟩, rfl, rfl⟩

variable (hroot : doc.rootId = some rootId)

include hroot

theorem child_reparented (placed : MoveRegister) (hx : x ∈ doc.childIds p) : x ≠ rootId ∧
    Reparented doc.treeNodes (doc.writeMove x placed).treeNodes x placed.parentId := by
  have hedge := ((mem_childIds (getRootId_eq hroot)).mp hx).1
  refine ⟨hedge.1, writeMove_reparented (root_apart hroot hedge.1) (mem_ids_iff.mp ?_) placed⟩
  exact (Doc.rooted_spec (getRootId_eq hroot)).edge_source hedge

theorem written_rootId (x : JsString) (placed : MoveRegister) :
    (doc.writeMove x placed).getRootId = some rootId :=
  getRootId_eq ((doc.writeMove_rootId x placed).trans hroot)

theorem child_unflagged (hx : x ∈ doc.childIds p) : ¬ FlaggedDeleted doc.treeNodes x := by
  obtain ⟨hedge, hlive⟩ := (mem_childIds (getRootId_eq hroot)).mp hx
  have ht := Doc.rooted_spec (getRootId_eq hroot)
  exact (ht.live_child hedge (ht.ancestorsLive hedge hlive)).mp hlive

theorem joins_under (hmove : doc.moveOf x = some move) (hxp : x ∈ doc.childIds move.parentId)
    (hsp : s ∈ doc.childIds move.parentId) (hsx : s ≠ x) (hplain : s ≠ ROOT_PARENT_SENTINEL)
    (hplaced : placed.parentId = s) :
    Joins doc (doc.writeMove x placed) rootId x s placed.rank := by
  obtain ⟨hne, h⟩ := child_reparented hroot placed hxp
  rw [hplaced] at h
  have hget := getRootId_eq hroot
  have ht := Doc.rooted_spec hget
  have ht' := Doc.rooted_spec (written_rootId hroot x placed)
  have hraw := rawUnder_of_moveOf hmove
  obtain ⟨hxe, hxl⟩ := (mem_childIds hget).mp hxp
  obtain ⟨hse, hsl⟩ := (mem_childIds hget).mp hsp
  exact
    { root := hget
      root' := written_rootId hroot x placed
      moves := fun y hy => writeMove_moveOf_other placed hy
      rank := ⟨placed, writeMove_moveOf_self (root_apart hroot hne) placed, rfl⟩
      flagged := h.flagged_iff
      placed := under_placed h ht ht' hxe hse hraw hsx hplain
      others := fun y hy => under_children h ht ht' hxe hse hraw hsx hplain hy
      absent := by
        intro hxs
        rw [effectiveEdge_unique hxe hxs] at hsp
        exact childIds_not_self hget hsp
      above := fun z hz => under_above h ht ht' hxe hse hraw hsx hplain hz
      live := ht.ancestorsLive_self hse hsl
      unflagged := child_unflagged hroot hxp }

theorem joins_beside {parentMove : MoveRegister} (hxm : x ∈ doc.childIds m) (hm : m ≠ rootId)
    (hmove : doc.moveOf m = some parentMove) (hmg : m ∈ doc.childIds parentMove.parentId)
    (hplain : parentMove.parentId ≠ ROOT_PARENT_SENTINEL) (hplaced : placed.parentId = parentMove.parentId) :
    Joins doc (doc.writeMove x placed) rootId x parentMove.parentId placed.rank := by
  obtain ⟨hne, h⟩ := child_reparented hroot placed hxm
  rw [hplaced] at h
  have hget := getRootId_eq hroot
  have ht := Doc.rooted_spec hget
  have ht' := Doc.rooted_spec (written_rootId hroot x placed)
  have hraw := rawUnder_of_moveOf hmove
  obtain ⟨hxe, hxl⟩ := (mem_childIds hget).mp hxm
  obtain ⟨hme, hml⟩ := (mem_childIds hget).mp hmg
  exact
    { root := hget
      root' := written_rootId hroot x placed
      moves := fun y hy => writeMove_moveOf_other placed hy
      rank := ⟨placed, writeMove_moveOf_self (root_apart hroot hne) placed, rfl⟩
      flagged := h.flagged_iff
      placed := beside_placed h ht ht' hxe hm hme hraw hplain
      others := fun y hy => (beside_edges h ht ht' hxe hm hme hraw hplain y _ hy).symm
      absent := by
        intro hxg
        rw [effectiveEdge_unique hxe hxg] at hmg
        exact childIds_not_self hget hmg
      above := fun z hz => beside_above h ht ht' hxe hm hme hraw hplain hz
      live := ht.ancestorsLive hme hml
      unflagged := child_unflagged hroot hxm }

end Joins

section Results

variable {lib : FractionalIndexing} {Key : JsString → Prop} {doc : Doc} {x : JsString} {move : MoveRegister}

theorem findIdx?_absent {siblings : List OutlineNode} (h : siblings.findIdx? (fun s => s.id = x) = none) :
    x ∉ siblings.map OutlineNode.id := by
  intro hx
  obtain ⟨n, hn, rfl⟩ := List.mem_map.mp hx
  have := List.findIdx?_eq_none_iff.mp h n hn
  simp at this

theorem after_last {q k : JsString}
    (hk : Between ((doc.getChildren q).getLast?.map OutlineNode.rank) k none) :
    ∀ e ∈ doc.siblingKeys q, e.2 < k := by
  intro e he
  cases hlast : (doc.getChildren q).getLast? with
  | none =>
    rw [List.getLast?_eq_none_iff] at hlast
    rw [Doc.siblingKeys, hlast] at he
    cases he
  | some s =>
    have hat := hlast
    rw [List.getLast?_eq_getElem?] at hat
    obtain ⟨hi, -⟩ := List.getElem?_eq_some_iff.mp hat
    have hend : (doc.getChildren q)[(doc.getChildren q).length - 1 + 1]? = none := by
      rw [List.getElem?_eq_none_iff]
      omega
    rw [hlast, ← hat, ← Option.map_none (f := OutlineNode.rank), ← hend] at hk
    apply (between_splits hat hk).1 e
    rwa [List.take_of_length_le]
    rw [Doc.siblingKeys, List.length_map]
    omega

variable (hlib : lib.Lawful Key) (h : RanksValid Key doc) (actor : Actor) (hmove : doc.moveOf x = some move)

include hmove

include hlib h in
theorem indent_result : indent lib doc x actor = (.ok false, doc) ∧
      (x ∉ doc.childIds move.parentId ∨ (doc.childIds move.parentId)[0]? = some x) ∨
    ∃ i s placed, (doc.childIds move.parentId)[i]? = some s ∧ (doc.childIds move.parentId)[i + 1]? = some x ∧
      placed.parentId = s ∧ (∀ e ∈ doc.siblingKeys s, e.2 < placed.rank) ∧
      indent lib doc x actor = (.ok true, doc.writeMove x placed) := by
  unfold indent
  rw [hmove]
  dsimp only
  cases hfind : (doc.getChildren move.parentId).findIdx? fun s => s.id = x with
  | none => exact Or.inl ⟨rfl, Or.inl (findIdx?_absent hfind)⟩
  | some idx =>
    have hat := standsAt_childIds.mp (findIdx?_standsAt hfind)
    cases idx with
    | zero => exact Or.inl ⟨rfl, Or.inr hat⟩
    | succ i =>
      obtain ⟨hi, -⟩ := List.getElem?_eq_some_iff.mp hat
      rw [Doc.childIds, List.length_map] at hi
      obtain ⟨prev, hprev⟩ : ∃ prev, (doc.getChildren move.parentId)[i]? = some prev :=
        ⟨_, List.getElem?_eq_getElem (Nat.lt_of_succ_lt hi)⟩
      obtain ⟨k, hk, -, hbetween⟩ := rankAfter_ok hlib (fun a => lastRank_key h prev.id) x
      refine Or.inr ⟨i, prev.id,
        ⟨prev.id, k, tickHlc (some move.hlc) (actor.ctx 0).nowMs (actor.ctx 0).replicaId⟩,
        standsAt_childIds.mp ⟨prev, hprev, rfl⟩, hat, rfl, after_last hbetween, ?_⟩
      dsimp only
      rw [hprev]
      dsimp only
      unfold buildAppendMove
      rw [hk]
      rfl

include hlib h in
theorem outdent_result : (outdent lib doc x actor).2 = doc ∧ (outdent lib doc x actor).1 ≠ .ok true ∧
    ¬ OutdentFinds doc x ∨
    OutdentFinds doc x ∧ ∃ parentMove i s placed, doc.moveOf move.parentId = some parentMove ∧
      parentMove.parentId ≠ ROOT_PARENT_SENTINEL ∧ (doc.getChildren parentMove.parentId)[i]? = some s ∧
      s.id = move.parentId ∧ placed.parentId = parentMove.parentId ∧
      Between ((doc.getChildren parentMove.parentId)[i]?.map OutlineNode.rank) placed.rank
        ((doc.getChildren parentMove.parentId)[i + 1]?.map OutlineNode.rank) ∧
      outdent lib doc x actor = (.ok true, doc.writeMove x placed) := by
  unfold OutdentFinds outdent
  simp only [hmove, Option.mem_def, Option.some.injEq, exists_eq_left']
  cases hparent : doc.moveOf move.parentId with
  | none => exact Or.inl ⟨rfl, by simp, by simp⟩
  | some parentMove =>
    simp only [Option.some.injEq, exists_eq_left']
    by_cases hplain : parentMove.parentId = ROOT_PARENT_SENTINEL
    · rw [if_pos (by simpa [isRootParent] using hplain)]
      exact Or.inl ⟨rfl, by simp, fun hfinds => hfinds.1 hplain⟩
    · rw [if_neg (by simpa [isRootParent] using hplain)]
      have hplace := exists_standsAt_iff (doc.getChildren_ids_nodup parentMove.parentId) move.parentId 0
        (fun i => ¬ TieAt (doc.getChildren parentMove.parentId) i)
      simp only [Nat.add_zero] at hplace
      simp only [hplace, ne_eq, hplain, not_false_eq_true, true_and]
      cases hfind : (doc.getChildren parentMove.parentId).findIdx? fun s => s.id = move.parentId with
      | none => exact Or.inl ⟨rfl, by simp, by simp⟩
      | some i =>
        obtain ⟨s, hs, hid⟩ := findIdx?_standsAt hfind
        have hgap := siblings_gap h parentMove.parentId i
        dsimp only
        unfold placeBetween
        by_cases ht : TieAt (doc.getChildren parentMove.parentId) i
        · rcases rankBetween_gap hlib hgap x with ⟨-, e, he⟩ | ⟨hno, -⟩
          · rw [he]
            exact Or.inl ⟨rfl, by simp, by simpa using ht⟩
          · exact absurd ((tieAt_iff i).mp ht) hno
        · rw [tieAt_iff] at ht
          obtain ⟨k, hk, -, hbetween⟩ := rankBetween_ok hlib (hgap.bounds ht) x
          rw [← tieAt_iff] at ht
          rw [hk]
          exact Or.inr ⟨⟨i, rfl, ht⟩, parentMove, i, s,
            buildMove parentMove.parentId k (some move.hlc) (actor.ctx 0),
            rfl, hplain, hs, hid, rfl, hbetween, rfl⟩

end Results

section Exact

variable {lib : FractionalIndexing} {Key : JsString → Prop} {doc : Doc} {rootId x p : JsString}
  (hlib : lib.Lawful Key)
  (h : RanksValid Key doc) (actor : Actor) (hroot : doc.rootId = some rootId) (hx : x ∈ doc.childIds p)

include hroot hx

theorem child_moveOf : ∃ move, doc.moveOf x = some move := by
  have hedge := ((mem_childIds (getRootId_eq hroot)).mp hx).1
  exact Option.isSome_iff_exists.mp
    (mem_ids_iff.mp ((Doc.rooted_spec (getRootId_eq hroot)).edge_source hedge))

include hlib h

theorem indent_shown_iff : IndentsAsShown doc (indent lib doc x actor).2 x ↔ IndentFits doc x := by
  have hget := getRootId_eq hroot
  obtain ⟨move, hmove⟩ := child_moveOf hroot hx
  have hmoved := indent_result hlib h actor hmove
  constructor
  · rintro ⟨hlast, -⟩ s hs
    have hmem := List.mem_of_getLast? (hlast s hs)
    rcases hmoved with ⟨hsame, -⟩ | ⟨i, s', placed, hat, hatx, hparent, -, hrun⟩
    · rw [hsame] at hmem
      exact absurd hs (not_nextSibling_of_child hget hmem)
    · refine ⟨?_, move, hmove, List.mem_of_getElem? hatx⟩
      obtain ⟨j, hj, hats⟩ := (nextSibling_iff hget hatx).mp hs
      obtain rfl : i = j := by omega
      obtain rfl : s' = s := Option.some.inj (hat.symm.trans hats)
      obtain ⟨hne, hre⟩ := child_reparented hroot placed hx
      have ht' := Doc.rooted_spec (written_rootId hroot x placed)
      rw [hrun] at hmem
      have hedge := ((mem_childIds (written_rootId hroot x placed)).mp hmem).1
      rintro rfl
      have hs' := ((mem_childIds hget).mp (List.mem_of_getElem? hat)).1
      obtain ⟨hraw, -⟩ := (ht'.edge_iff_raw hs'.1).mp hedge
      have hplain :=
        ((rawEdge_iff_moveOf (writeMove_moveOf_self (root_apart hroot hne) placed)).mp hraw).2.2.1
      exact hplain rfl
  · intro hfits
    rcases hmoved with ⟨hsame, hcase⟩ | ⟨i, s', placed, hat, hatx, hparent, hranks, hrun⟩
    · refine ⟨fun s hs => ?_, fun _ => by rw [hsame]⟩
      obtain ⟨-, move', hmove', hshown⟩ := hfits s hs
      rw [hmove] at hmove'
      obtain rfl := Option.some.inj hmove'
      obtain ⟨j, hj, -⟩ := (nextSibling_iff hget (hcase.resolve_left (not_not_intro hshown))).mp hs
      omega
    · have hs' := nextSibling_at hat hatx
      refine ⟨fun s hs => ?_, fun hno => absurd ⟨s', hs'⟩ hno⟩
      obtain ⟨j, hj, hats⟩ := (nextSibling_iff hget hatx).mp hs
      obtain rfl : i = j := by omega
      obtain rfl : s' = s := Option.some.inj (hat.symm.trans hats)
      have hsx : s' ≠ x := by
        rintro rfl
        have := standsAt_unique (doc.getChildren_ids_nodup _) (standsAt_childIds.mpr hat)
            (standsAt_childIds.mpr hatx)
        omega
      have hjoin :=
        joins_under hroot hmove (List.mem_of_getElem? hatx) (List.mem_of_getElem? hat) hsx
          (hfits s' hs').1 hparent
      have hlist := hjoin.childIds_eq (doc.siblingKeys s').length
        (fun e he => rank_lt_compareOrder (hranks e (List.mem_of_mem_take he))) (by simp)
      rw [hrun, hlist, Doc.siblingKeys, List.length_map,
        List.drop_eq_nil_of_le (by rw [Doc.childIds, List.length_map])]
      simp

theorem outdent_shown_iff : OutdentsAsShown doc (outdent lib doc x actor).2 rootId x ↔
    ∀ p, x ∈ doc.childIds p → (p ≠ rootId ↔ OutdentFinds doc x) := by
  have hget := getRootId_eq hroot
  obtain ⟨move, hmove⟩ := child_moveOf hroot hx
  apply forall_congr'
  intro p
  apply imp_congr_right
  intro hxp
  rcases outdent_result hlib h actor hmove with ⟨hsame, -, hno⟩ | ⟨hfinds, parentMove, i, s, placed,
      hparent, hplain, hs, hid,
    hplaced, hbetween, hrun⟩
  · rw [hsame, iff_false_right hno, not_ne_iff]
    constructor
    · rintro ⟨hnext, -⟩
      by_contra hp
      exact not_nextSibling_of_child hget hxp (hnext hp)
    · intro hp
      exact ⟨fun hne => absurd hp hne, fun _ => rfl⟩
  · rw [iff_true_right hfinds, hrun]
    have hmg : move.parentId ∈ doc.childIds parentMove.parentId := by
      rw [← hid]
      exact List.mem_map_of_mem (List.mem_of_getElem? hs)
    constructor
    · rintro ⟨-, hsame⟩ hp
      have hself := writeMove_moveOf_self (root_apart hroot (child_reparented hroot placed hxp).1) placed
      have hback : doc.writeMove x placed = doc := hsame hp
      rw [hback, hmove] at hself
      rw [Option.some.inj hself, hplaced] at hmg
      exact childIds_not_self hget hmg
    · intro hp
      refine ⟨fun _ => ?_, fun he => absurd he hp⟩
      obtain ⟨hraw, -⟩ := ((Doc.rooted_spec hget).edge_iff_raw hp).mp ((mem_childIds hget).mp hxp).1
      obtain ⟨-, hp', -⟩ := (rawEdge_iff_moveOf hmove).mp hraw
      rw [← hp'] at hxp hp ⊢
      have hjoin := joins_beside hroot hxp hp hparent hmg hplain hplaced
      rw [← hid]
      exact nextSibling_between hs (hjoin.childIds_between hs hbetween)

end Exact

/-- Indent acts on what is shown exactly when the item has nothing before it, or is shown under its raw
parent; outdent exactly when the raw parent is found under the raw grandparent just in case the item is not
at the top level. -/
theorem visibleMoves_iff {lib : FractionalIndexing} {Key : JsString → Prop} (hlib : lib.Lawful Key)
    (actor : Actor) {doc : Doc}
    {rootId x : JsString} (hroot : doc.rootId = some rootId) (h : RanksValid Key doc) (hx : Visible doc x) :
    (IndentsAsShown doc (indent lib doc x actor).2 x ↔ IndentFits doc x) ∧
      (OutdentsAsShown doc (outdent lib doc x actor).2 rootId x ↔
        ∀ p, x ∈ doc.childIds p → (p ≠ rootId ↔ OutdentFinds doc x)) := by
  obtain ⟨p, hp⟩ := hx.child
  exact ⟨indent_shown_iff hlib h actor hroot hp, outdent_shown_iff hlib h actor hroot hp⟩

section Examples

theorem merged_setNode {rootId id : JsString} {a b : Doc} {node : Node} (hv : a.schemaVersion = some 2)
    (hr : a.rootId = some rootId) (hnode : b.items.get id = some node) :
    Merged rootId [a, b] (a.setNode id node) := by
  refine ⟨hv, hr, fun x n hget => ?_⟩
  apply mergedNode_of_mem
  rw [Doc.setNode_get] at hget
  split_ifs at hget with hx
  · rw [← Option.some.inj hget, hx]
    exact List.mem_filterMap.mpr ⟨b, by simp, hnode⟩
  · exact List.mem_filterMap.mpr ⟨a, by simp, hget⟩

def insertAfter (newId afterId : JsString) : Command := .insertItem newId (js ['r']) (some afterId)

def bullets : Doc :=
  let one := ((insertFirst (js ['k'])).run sampleKeys seeded deviceA).2
  let two := ((insertAfter (js ['a']) (js ['k'])).run sampleKeys one deviceA).2
  ((insertAfter (js ['b']) (js ['a'])).run sampleKeys two deviceA).2

theorem bullets_reachable : Reachable sampleKeys (js ['r']) bullets :=
  .ran _ _ (.ran _ _ (.ran _ _ (.created deviceA)))

def indented : Doc := ((Command.indent (js ['b'])).run sampleKeys bullets deviceA).2

def dropped : Doc := ((Command.moveItem (js ['a']) (js ['b']) none).run sampleKeys bullets deviceB).2

def crossed : Doc := indented.setNode (js ['a']) ((dropped.items.get (js ['a'])).getD freshNode)

theorem crossed_reachable : Reachable sampleKeys (js ['r']) crossed := by
  have hnode : dropped.items.get (js ['a']) = some ((dropped.items.get (js ['a'])).getD freshNode) := rfl
  apply Reachable.merged _ (merged_setNode rfl rfl hnode)
  intro s hs
  rcases List.mem_cons.mp hs with rfl | hs
  · exact .ran _ _ bullets_reachable
  · rw [List.mem_singleton.mp hs]
    exact .ran _ _ bullets_reachable

theorem visibleMoves_bullets :
    (IndentsAsShown bullets (indent sampleKeys bullets (js ['b']) deviceA).2 (js ['b']) ↔
      IndentFits bullets (js ['b'])) ∧
      (OutdentsAsShown bullets (outdent sampleKeys bullets (js ['b']) deviceA).2 (js ['r']) (js ['b']) ↔
        ∀ p, js ['b'] ∈ bullets.childIds p → (p ≠ js ['r'] ↔ OutdentFinds bullets (js ['b']))) := by
  have hvisible : ∃ n ∈ bullets.placedNodes, n.id = js ['b'] ∧ bullets.isLive n = true := by decide
  exact visibleMoves_iff sampleKeys_lawful deviceA rfl
    (reachable_ranksValid sampleKeys_lawful bullets_reachable) hvisible

/-- `a` is shown at the top level after `k`. Indent leaves it there, and outdent places it under itself. -/
theorem visibleMoves_crossed : sampleKeys.Lawful SampleKey ∧ Reachable sampleKeys (js ['r']) crossed ∧
    Visible crossed (js ['a']) ∧ crossed.childIds (js ['r']) = [js ['k'], js ['a']] ∧
    indent sampleKeys crossed (js ['a']) deviceA = (.ok false, crossed) ∧
    ¬ IndentsAsShown crossed (indent sampleKeys crossed (js ['a']) deviceA).2 (js ['a']) ∧
    (outdent sampleKeys crossed (js ['a']) deviceA).1 = .ok true ∧
    ((outdent sampleKeys crossed (js ['a']) deviceA).2.moveOf (js ['a'])).map MoveRegister.parentId =
      some (js ['a']) ∧
    ¬ OutdentsAsShown crossed (outdent sampleKeys crossed (js ['a']) deviceA).2 (js ['r']) (js ['a']) := by
  have hvisible : ∃ n ∈ crossed.placedNodes, n.id = js ['a'] ∧ crossed.isLive n = true := by decide
  have hchildren : crossed.childIds (js ['r']) = [js ['k'], js ['a']] := by decide
  have hindent : indent sampleKeys crossed (js ['a']) deviceA = (.ok false, crossed) := rfl
  have hparent :
      ((outdent sampleKeys crossed (js ['a']) deviceA).2.moveOf (js ['a'])).map MoveRegister.parentId =
    some (js ['a']) := rfl
  have hbefore : (crossed.moveOf (js ['a'])).map MoveRegister.parentId = some (js ['b']) := rfl
  refine ⟨sampleKeys_lawful, crossed_reachable, hvisible, hchildren, hindent, ?_, rfl, hparent, ?_⟩
  · rintro ⟨hlast, -⟩
    have hnext : NextSibling crossed (js ['k']) (js ['a']) := ⟨js ['r'], [], [], hchildren.symm⟩
    rw [hindent] at hlast
    exact absurd (hlast _ hnext) (by decide)
  · intro hshown
    have hmem : js ['a'] ∈ crossed.childIds (js ['r']) := by rw [hchildren]; simp
    rw [(hshown _ hmem).2 rfl, hbefore] at hparent
    exact absurd hparent (by decide)

end Examples

end OpenOutliner
