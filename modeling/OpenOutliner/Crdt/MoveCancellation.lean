import OpenOutliner.Crdt.SiblingSwaps

namespace OpenOutliner

open Foundations Relation

section Tree

variable {nodes nodes' : List TreeNode} {rootId x y s p : JsString} {t t' : EffectiveTree}
  (h : Reparented nodes nodes' x s) (ht : EffectiveTree.Spec nodes rootId t)
  (ht' : EffectiveTree.Spec nodes' rootId t') (hxp : EffectiveEdge rootId t x p)
  (hsp : EffectiveEdge rootId t s p) (hraw : RawUnder nodes x p) (hsx : s ≠ x)

include h ht ht' hxp hsp hraw hsx

theorem under_stays (hs' : EffectiveEdge rootId t' s p) (hy : EffectiveEdge rootId t y p) (hyx : y ≠ x)
    (hys : y ≠ s) :
    EffectiveEdge rootId t' y p := by
  have hu' : Relator.RightUnique (RawEdge nodes' rootId) := rawEdge_unique h.nodup'
  by_cases hx : TransGen (RawEdge nodes rootId) x x
  · obtain ⟨q, hedge, hback⟩ := TransGen.head'_iff.mp hx
    obtain rfl := rawUnder_edge h.nodup hraw hedge
    have hne : q ≠ rootId := by
      rintro rfl
      exact hxp.1 (root_no_path hback)
    obtain ⟨hyraw, hyrec⟩ := (ht.edge_iff_raw hne).mp hy
    have hyraw' := (h.agree rootId y q hyx).mp hyraw
    refine (ht'.edge_iff_raw hne).mpr ⟨hyraw', fun hrec => ?_⟩
    rcases (ht'.recovered y).mp hrec with hdetached | ⟨hcyc, -⟩
    · exact hyraw'.2.1 hdetached
    · have hback' := (h.agree rootId).to_point hback
      have hx' := cycle_forward hu' hcyc (.head hyraw' hback')
      obtain ⟨w, hw, -⟩ := TransGen.head'_iff.mp hx'
      rw [h.rawEdge_new hw] at hw
      -- both lead to `q`, on one cycle
      have hs := cycle_forward hu' hx' (.single hw)
      exact hys (cycle_pred_unique hu' hcyc hs hyraw' ((ht'.edge_iff_raw hne).mp hs').1)
  · have hx' : ¬ TransGen (RawEdge nodes' rootId) x x := h.not_cyclic (under_avoids h ht hxp hsp hsx hx)
    exact (h.edges_agree ht ht' (fun z hz => h.recovered_iff ht ht' hx hx' hz) y p hyx).mp hy

end Tree

section Writes

variable {doc : Doc} {rootId x p s : JsString} {move first second : MoveRegister}

theorem writeMove_back (hroot : doc.rootId = some rootId) (hx : x ≠ rootId) (hmove : doc.moveOf x = some move)
    (hparent : second.parentId = move.parentId) :
    Reordered doc ((doc.writeMove x first).writeMove x second) x := by
  have hroot' := (doc.writeMove_rootId x first).trans hroot
  have hfirst := writeMove_moveOf_self (root_apart hroot hx) first
  refine ⟨?_, fun y hy => ?_, fun y => ?_⟩
  · rw [Doc.writeMove_rootId, Doc.writeMove_rootId]
  · rw [writeMove_moveOf_other second hy, writeMove_moveOf_other first hy]
  · rw [writeMove_placement hroot' hx hfirst]
    split_ifs with hy
    · obtain ⟨node, hget, hnode⟩ := Option.bind_eq_some_iff.mp hmove
      rw [hy, writeMove_placement hroot hx hmove, if_pos rfl, Option.map_map]
      simp only [Doc.placement, hget, Option.bind_some, hnode, Option.map_some, Function.comp_apply, hparent]
    · rw [writeMove_placement hroot hx hmove, if_neg hy]

theorem raw_parent (hget : doc.getRootId = some rootId) (hmove : doc.moveOf x = some move)
    (hx : x ∈ doc.childIds p)
    (hrec : x ∉ doc.effectiveTree.recovered) : move.parentId = p ∧ p ≠ ROOT_PARENT_SENTINEL := by
  have hedge := (Doc.rooted_spec hget).edge_raw ((mem_childIds hget).mp hx).1 hrec
  obtain ⟨-, hp, hplain, -⟩ := (rawEdge_iff_moveOf hmove).mp hedge
  exact ⟨hp, hplain⟩

end Writes

section Ranks

variable {doc : Doc} {p q k y : JsString} {i : ℕ} {s : OutlineNode} {move : MoveRegister}

theorem rank_le_of_listed {before after : List JsString} {z : JsString}
    (hlist : doc.childIds p = before ++ after)
    (hy : y ∈ before) (hz : z ∈ after) {m n : MoveRegister} (hm : m ∈ doc.moveOf y) (hn : n ∈ doc.moveOf z) :
    m.rank ≤ n.rank := by
  have hord := childIds_ordered doc p
  rw [hlist, List.pairwise_append] at hord
  obtain ⟨m', hm', n', hn', hlt⟩ := hord.2.2 y hy z hz
  obtain rfl := Option.mem_unique hm hm'
  obtain rfl := Option.mem_unique hn hn'
  rcases hlt with hlt | ⟨heq, -⟩
  · exact hlt.le
  · exact heq.le

variable (hs : (doc.getChildren q)[i]? = some s)
  (hk : Between ((doc.getChildren q)[i]?.map OutlineNode.rank) k
  ((doc.getChildren q)[i + 1]?.map OutlineNode.rank))

include hs hk

theorem between_low (hmove : doc.moveOf s.id = some move) : move.rank < k := by
  obtain ⟨move', hmove', hat⟩ := siblingKeys_at (standsAt_childIds.mp ⟨s, hs, rfl⟩)
  rw [hmove] at hmove'
  obtain rfl := Option.some.inj hmove'
  apply (between_splits hs hk).1 (s.id, move.rank)
  rw [List.take_add_one, hat]
  simp

theorem between_high (hy : y ∈ doc.childIds q) (hlt : doc.Precedes s.id y)
    (hmove : doc.moveOf y = some move) :
    k < move.rank := by
  obtain ⟨j, hj⟩ := List.mem_iff_getElem?.mp hy
  have hi := standsAt_childIds.mp ⟨s, hs, rfl⟩
  have hij : i < j := by
    by_contra hno
    obtain ⟨hj', rfl⟩ := List.getElem?_eq_some_iff.mp hj
    obtain ⟨hi', hsi⟩ := List.getElem?_eq_some_iff.mp hi
    rw [← hsi] at hlt
    rcases (Nat.le_of_not_lt hno).lt_or_eq with hji | rfl
    · exact precedes_asymm hlt (List.pairwise_iff_getElem.mp (childIds_ordered doc q) j i hj' hi' hji)
    · exact precedes_asymm hlt hlt
  obtain ⟨move', hmove', hat⟩ := siblingKeys_at hj
  rw [hmove] at hmove'
  obtain rfl := Option.some.inj hmove'
  apply (between_splits hs hk).2 (y, move.rank)
  obtain ⟨hlen, hget⟩ := List.getElem?_eq_some_iff.mp hat
  refine List.mem_drop_iff_getElem.mpr ⟨j - (i + 1), by omega, ?_⟩
  simp only [show i + 1 + (j - (i + 1)) = j by omega]
  exact hget

end Ranks

section Restored

variable {doc : Doc} {rootId x y m s p : JsString} {move first second : MoveRegister} {i j : ℕ}
  {n : OutlineNode} (hroot : doc.rootId = some rootId) (hmove : doc.moveOf x = some move)

include hroot hmove

theorem siblings_stay (hx : x ∈ doc.childIds move.parentId) (hs : first.parentId ∈ doc.childIds move.parentId)
    (hsx : first.parentId ≠ x) (hs' : first.parentId ∈ (doc.writeMove x first).childIds move.parentId)
    (hy : y ∈ doc.childIds move.parentId) (hyx : y ≠ x) (hys : y ≠ first.parentId) :
    y ∈ (doc.writeMove x first).childIds move.parentId := by
  have hget := getRootId_eq hroot
  have hget' := written_rootId hroot x first
  have ht := Doc.rooted_spec hget
  have ht' := Doc.rooted_spec hget'
  obtain ⟨-, hre⟩ := child_reparented hroot first hx
  obtain ⟨hsedge', hslive'⟩ := (mem_childIds hget').mp hs'
  have hedge :=
    under_stays hre ht ht' ((mem_childIds hget).mp hx).1 ((mem_childIds hget).mp hs).1
      (rawUnder_of_moveOf hmove)
    hsx hsedge' ((mem_childIds hget).mp hy).1 hyx hys
  refine (mem_childIds hget').mpr ⟨hedge, ?_⟩
  rw [ht'.live_child hedge (ht'.ancestorsLive hsedge' hslive'), hre.flagged_iff]
  exact child_unflagged hroot hy

theorem under_and_back (hs : (doc.childIds move.parentId)[i]? = some first.parentId)
    (hx : (doc.childIds move.parentId)[i + 1]? = some x) (hparent : second.parentId = move.parentId)
    (hn : ((doc.writeMove x first).getChildren move.parentId)[j]? = some n) (hid : n.id = first.parentId)
    (hbetween : Between
      (((doc.writeMove x first).getChildren move.parentId)[j]?.map OutlineNode.rank) second.rank
      (((doc.writeMove x first).getChildren move.parentId)[j + 1]?.map OutlineNode.rank)) :
    ShowsSame doc ((doc.writeMove x first).writeMove x second) := by
  have hget := getRootId_eq hroot
  have hxp := List.mem_of_getElem? hx
  have hsp := List.mem_of_getElem? hs
  have hne := ((mem_childIds hget).mp hxp).1.1
  have hback : Reordered doc ((doc.writeMove x first).writeMove x second) x :=
    writeMove_back hroot hne hmove hparent
  have hlist := split_pair hs hx
  have hnd := childIds_nodup doc move.parentId
  rw [hlist, List.nodup_append, List.nodup_cons, List.nodup_cons] at hnd
  obtain ⟨-, ⟨hsnot, hxnot, -⟩, hbefore⟩ := hnd
  have hsx : first.parentId ≠ x := fun he => hsnot (by simp [he])
  have hsame : ∀ {z}, z ≠ x → (doc.writeMove x first).moveOf z = doc.moveOf z :=
    fun hz => writeMove_moveOf_other first hz
  obtain ⟨smove, hsmove⟩ : ∃ smove, doc.moveOf first.parentId = some smove := by
    obtain ⟨smove, hsmove, -⟩ := siblingKeys_at hs
    exact ⟨smove, hsmove⟩
  have hlow : smove.rank < second.rank := between_low hn hbetween (by rw [hid, hsame hsx, hsmove])
  have hslot : Slot doc x move.parentId second.rank ((doc.childIds move.parentId).take i ++ [first.parentId])
      ((doc.childIds move.parentId).drop (i + 2)) := by
    refine ⟨?_, fun y hy m hm => ?_, fun y hy m hm => ?_⟩
    · rw [List.append_cons] at hlist
      rw [erase_middle (childIds_nodup doc move.parentId) hlist]
    · rcases List.mem_append.mp hy with hy | hy
      · exact lt_of_le_of_lt (rank_le_of_listed hlist hy List.mem_cons_self hm hsmove) hlow
      · rw [List.mem_singleton.mp hy, hsmove] at hm
        rwa [← Option.some.inj hm]
    · have hyx : y ≠ x := by
        rintro rfl
        exact hxnot hy
      have hys : y ≠ first.parentId := by
        rintro rfl
        exact hsnot (List.mem_cons_of_mem _ hy)
      have hs' : first.parentId ∈ (doc.writeMove x first).childIds move.parentId := by
        rw [← hid]
        exact List.mem_map_of_mem (List.mem_of_getElem? hn)
      have hy' := siblings_stay hroot hmove hxp hsp hsx hs' (List.mem_of_mem_drop hy) hyx hys
      refine between_high hn hbetween hy' ?_ (by rw [hsame hyx]; exact hm)
      rw [hid]
      apply precedes_congr (hsame hsx) (hsame hyx)
      have hord := childIds_ordered doc move.parentId
      rw [hlist, List.pairwise_append, List.pairwise_cons] at hord
      exact hord.2.1.1 y (List.mem_cons_of_mem _ hy)
  apply hback.showsSame hroot
  intro q hq
  obtain rfl := childIds_parent_unique hget hxp hq
  have hroot' := (doc.writeMove_rootId x first).trans hroot
  rw [hback.childIds_slot hroot hxp (writeMove_moveOf_self (root_apart hroot' hne) second) hslot,
    List.append_assoc]
  exact hlist.symm

theorem beside_and_back {parentMove : MoveRegister} (hlast : (doc.childIds move.parentId).getLast? = some x)
    (hm : move.parentId ≠ rootId) (hmmove : doc.moveOf move.parentId = some parentMove)
    (hmg : move.parentId ∈ doc.childIds parentMove.parentId)
    (hplain : parentMove.parentId ≠ ROOT_PARENT_SENTINEL)
    (hfirst : first.parentId = parentMove.parentId) (hparent : second.parentId = move.parentId)
    (hranks : ∀ e ∈ (doc.writeMove x first).siblingKeys move.parentId, e.2 < second.rank) :
    ShowsSame doc ((doc.writeMove x first).writeMove x second) := by
  have hget := getRootId_eq hroot
  have hget' := written_rootId hroot x first
  have ht := Doc.rooted_spec hget
  have ht' := Doc.rooted_spec hget'
  obtain ⟨before, hlist⟩ := List.getLast?_eq_some_iff.mp hlast
  have hxm := List.mem_of_getLast? hlast
  obtain ⟨hxedge, -⟩ := (mem_childIds hget).mp hxm
  obtain ⟨hmedge, -⟩ := (mem_childIds hget).mp hmg
  obtain ⟨hne, hre⟩ := child_reparented hroot first hxm
  have hback : Reordered doc ((doc.writeMove x first).writeMove x second) x :=
    writeMove_back hroot hne hmove hparent
  have hjoin := joins_beside hroot hxm hm hmmove hmg hplain hfirst
  have hmg' : move.parentId ∈ (doc.writeMove x first).childIds parentMove.parentId :=
    hjoin.mem_childIds'.mpr (Or.inl hmg)
  obtain ⟨hmedge', hmlive'⟩ := (mem_childIds hget').mp hmg'
  rw [hfirst] at hre
  have hagree := beside_edges hre ht ht' hxedge hm hmedge (rawUnder_of_moveOf hmmove) hplain
  have hnd := childIds_nodup doc move.parentId
  have hslot : Slot doc x move.parentId second.rank before [] := by
    refine ⟨?_, fun y hy m hm => ?_, by simp⟩
    · rw [erase_middle hnd hlist]
    · have hy' : y ∈ doc.childIds move.parentId := by
        rw [hlist]
        exact List.mem_append_left _ hy
      have hyx : y ≠ x := by
        rintro rfl
        rw [hlist] at hnd
        exact (List.nodup_append.mp hnd).2.2 y hy y (by simp) rfl
      have hedge := (hagree y _ hyx).mp ((mem_childIds hget).mp hy').1
      apply hranks (y, m.rank)
      refine mem_siblingKeys.mpr ⟨(mem_childIds hget').mpr ⟨hedge, ?_⟩, m,
        (writeMove_moveOf_other first hyx).trans hm, rfl⟩
      rw [ht'.live_child hedge (ht'.ancestorsLive_self hmedge' hmlive'), hre.flagged_iff]
      exact child_unflagged hroot hy'
  apply hback.showsSame hroot
  intro q hq
  obtain rfl := childIds_parent_unique hget hxm hq
  have hroot' := (doc.writeMove_rootId x first).trans hroot
  rw [hback.childIds_slot hroot hxm (writeMove_moveOf_self (root_apart hroot' hne) second) hslot]
  exact hlist.symm

end Restored

section Cancel

variable {lib : FractionalIndexing} {Key : JsString → Prop} (hlib : lib.Lawful Key) {actor actor' : Actor}
  {doc doc' doc'' : Doc} {rootId x m s p : JsString} (hroot : doc.rootId = some rootId)
  (h : RanksValid Key doc)

include hlib hroot h

theorem indent_outdent_restores (hx : x ∈ doc.childIds p) (hrec : x ∉ doc.effectiveTree.recovered)
    (hprev : ∀ s, NextSibling doc s x → s ∉ doc.effectiveTree.recovered)
    (hindent : indent lib doc x actor = (.ok true, doc'))
    (houtdent : outdent lib doc' x actor' = (.ok true, doc'')) :
    ShowsSame doc doc'' := by
  have hget := getRootId_eq hroot
  obtain ⟨move, hmove⟩ := child_moveOf hroot hx
  obtain ⟨rfl, hplain⟩ := raw_parent hget hmove hx hrec
  have h' := indent_ranksValid hlib h actor x
  rw [hindent] at h'
  rcases indent_result hlib h actor hmove with ⟨hno, -⟩ | ⟨i, s, first, hs, hxi, rfl, -, hrun⟩
  · rw [hno] at hindent
    cases hindent
  · rw [hrun] at hindent
    obtain rfl := congrArg Prod.snd hindent
    have hne := ((mem_childIds hget).mp hx).1.1
    obtain ⟨smove, hsmove⟩ := child_moveOf hroot (List.mem_of_getElem? hs)
    obtain ⟨hsparent, -⟩ := raw_parent hget hsmove (List.mem_of_getElem? hs) (hprev _ (nextSibling_at hs hxi))
    have hsx : first.parentId ≠ x := by
      intro he
      rw [he] at hs
      have := standsAt_unique (doc.getChildren_ids_nodup _) (standsAt_childIds.mpr hs)
          (standsAt_childIds.mpr hxi)
      omega
    rcases outdent_result hlib h' actor' (writeMove_moveOf_self (root_apart hroot hne) first) with
      ⟨-, hno, -⟩ | ⟨-, parentMove, j, n, second, hparent, -, hn, hid, hsecond, hbetween, hrun'⟩
    · exact absurd (congrArg Prod.fst houtdent) hno
    · have hsame : (doc.writeMove x first).moveOf first.parentId = some parentMove := hparent
      rw [writeMove_moveOf_other first hsx, hsmove] at hsame
      obtain rfl := Option.some.inj hsame
      rw [hsparent] at hn hbetween hsecond
      have hlast : ((doc.writeMove x first).writeMove x second) = doc'' :=
        congrArg Prod.snd (hrun'.symm.trans houtdent)
      rw [← hlast]
      exact under_and_back hroot hmove hs hxi hsecond hn hid hbetween

theorem outdent_indent_restores (hm : m ≠ rootId) (hrec : m ∉ doc.effectiveTree.recovered)
    (hlast : (doc.childIds m).getLast? = some x) (houtdent : outdent lib doc x actor = (.ok true, doc'))
    (hindent : indent lib doc' x actor' = (.ok true, doc'')) :
    ShowsSame doc doc'' := by
  have hget := getRootId_eq hroot
  have hspec := Doc.rooted_spec hget
  have hxm := List.mem_of_getLast? hlast
  obtain ⟨move, hmove⟩ := child_moveOf hroot hxm
  obtain ⟨hxedge, hxlive⟩ := (mem_childIds hget).mp hxm
  obtain ⟨hxraw, hxrec⟩ := (hspec.edge_iff_raw hm).mp hxedge
  obtain ⟨rfl, -⟩ := raw_parent hget hmove hxm hxrec
  obtain ⟨g, hmg, -⟩ := (ReflTransGen.cases_head (hspec.reaches _ (rawEdge_target hxraw))).resolve_left hm
  have hmg := (mem_childIds hget).mpr ⟨hmg, hspec.parent_live hxedge hxlive⟩
  obtain ⟨mmove, hmmove⟩ := child_moveOf hroot hmg
  obtain ⟨rfl, hplain⟩ := raw_parent hget hmmove hmg hrec
  have h' := outdent_ranksValid hlib h actor x
  rw [houtdent] at h'
  rcases outdent_result hlib h actor hmove with
    ⟨-, hno, -⟩ | ⟨-, parentMove, i, n, first, hparent, -, hn, hid, hfirst, hbetween, hrun⟩
  · exact absurd (congrArg Prod.fst houtdent) hno
  · rw [hmmove] at hparent
    obtain rfl := Option.some.inj hparent
    rw [hrun] at houtdent
    obtain rfl := congrArg Prod.snd houtdent
    have hjoin := joins_beside hroot hxm hm hmmove hmg hplain hfirst
    have hnext := nextSibling_between hn (hjoin.childIds_between hn hbetween)
    rw [hid] at hnext
    have hself := writeMove_moveOf_self (root_apart hroot hxedge.1) first
    rcases indent_result hlib h' actor' hself with ⟨hno, -⟩ | ⟨j, s, second, hs, hxj, rfl, hranks, hrun'⟩
    · rw [hno] at hindent
      cases hindent
    · obtain ⟨j', hj, hm'⟩ := (nextSibling_iff hjoin.root' hxj).mp hnext
      obtain rfl : j = j' := by omega
      have hback : second.parentId = move.parentId := Option.some.inj (hs.symm.trans hm')
      rw [hback] at hranks
      have hlast' : ((doc.writeMove x first).writeMove x second) = doc'' :=
        congrArg Prod.snd (hrun'.symm.trans hindent)
      rw [← hlast']
      exact beside_and_back hroot hmove hlast hm hmmove hmg hplain hfirst hback hranks

omit hroot in
theorem indent_others (hindent : indent lib doc x actor = (.ok true, doc')) {y : JsString} (hy : y ≠ x) :
    doc'.moveOf y = doc.moveOf y := by
  cases hmove : doc.moveOf x with
  | none =>
    unfold indent at hindent
    rw [hmove] at hindent
    cases hindent
  | some move =>
    rcases indent_result hlib h actor hmove with ⟨hno, -⟩ | ⟨i, s, placed, -, -, -, -, hrun⟩
    · rw [hno] at hindent
      cases hindent
    · rw [hrun] at hindent
      obtain rfl := congrArg Prod.snd hindent
      exact writeMove_moveOf_other placed hy

omit hroot in
theorem outdent_others (houtdent : outdent lib doc x actor = (.ok true, doc')) {y : JsString} (hy : y ≠ x) :
    doc'.moveOf y = doc.moveOf y := by
  cases hmove : doc.moveOf x with
  | none =>
    unfold outdent at houtdent
    rw [hmove] at houtdent
    cases houtdent
  | some move =>
    rcases outdent_result hlib h actor hmove with
      ⟨-, hno, -⟩ | ⟨-, parentMove, i, n, placed, -, -, -, -, -, -, hrun⟩
    · exact absurd (congrArg Prod.fst houtdent) hno
    · rw [hrun] at houtdent
      obtain rfl := congrArg Prod.snd houtdent
      exact writeMove_moveOf_other placed hy

end Cancel

/-- The second document shows what the first one does, and only the place of `x` is written on the way. -/
def CancelsOut (doc between doc' : Doc) (x : JsString) : Prop :=
  ShowsSame doc doc' ∧ ∀ y, y ≠ x → between.moveOf y = doc.moveOf y ∧ doc'.moveOf y = doc.moveOf y

/-- What indent does outdent undoes, and what outdent does to a last child indent undoes. -/
theorem indent_outdent_cancel {lib : FractionalIndexing} {Key : JsString → Prop} (hlib : lib.Lawful Key)
    {actor actor' : Actor} {doc doc' doc'' : Doc} {rootId x : JsString} (hroot : doc.rootId = some rootId)
    (h : RanksValid Key doc) (hx : Visible doc x) :
    (x ∉ doc.effectiveTree.recovered → (∀ s, NextSibling doc s x → s ∉ doc.effectiveTree.recovered) →
      indent lib doc x actor = (.ok true, doc') → outdent lib doc' x actor' = (.ok true, doc'') →
        CancelsOut doc doc' doc'' x) ∧
    ∀ m, m ≠ rootId → m ∉ doc.effectiveTree.recovered → (doc.childIds m).getLast? = some x →
      outdent lib doc x actor = (.ok true, doc') → indent lib doc' x actor' = (.ok true, doc'') →
        CancelsOut doc doc' doc'' x := by
  obtain ⟨p, hp⟩ := hx.child
  constructor
  · intro hrec hprev hindent houtdent
    have h' := indent_ranksValid hlib h actor x
    rw [hindent] at h'
    refine ⟨indent_outdent_restores hlib hroot h hp hrec hprev hindent houtdent, fun y hy => ?_⟩
    have hfirst := indent_others hlib h hindent hy
    exact ⟨hfirst, (outdent_others hlib h' houtdent hy).trans hfirst⟩
  · intro m hm hrec hlast houtdent hindent
    have h' := outdent_ranksValid hlib h actor x
    rw [houtdent] at h'
    refine ⟨outdent_indent_restores hlib hroot h hm hrec hlast houtdent hindent, fun y hy => ?_⟩
    have hfirst := outdent_others hlib h houtdent hy
    exact ⟨hfirst, (indent_others hlib h' hindent hy).trans hfirst⟩

section Examples

def outdented : Doc := (outdent sampleKeys indented (js ['b']) deviceB).2

def reindented : Doc := (indent sampleKeys outdented (js ['b']) deviceA).2

theorem indent_outdent_cancel_bullets :
    CancelsOut bullets indented outdented (js ['b']) ∧
    CancelsOut indented outdented reindented (js ['b']) := by
  have hindent : indent sampleKeys bullets (js ['b']) deviceA = (.ok true, indented) := rfl
  have houtdent : outdent sampleKeys indented (js ['b']) deviceB = (.ok true, outdented) := rfl
  have hagain : indent sampleKeys outdented (js ['b']) deviceA = (.ok true, reindented) := rfl
  have hvisible : ∃ n ∈ bullets.placedNodes, n.id = js ['b'] ∧ bullets.isLive n = true := by decide
  have hvisible' : ∃ n ∈ indented.placedNodes, n.id = js ['b'] ∧ indented.isLive n = true := by decide
  have hnone : bullets.effectiveTree.recovered = ∅ := by decide
  constructor
  · apply (indent_outdent_cancel sampleKeys_lawful rfl
      (reachable_ranksValid sampleKeys_lawful bullets_reachable) hvisible).1
    · rw [hnone]
      exact Finset.notMem_empty _
    · intro s _
      rw [hnone]
      exact Finset.notMem_empty s
    · exact hindent
    · exact houtdent
  · have hreach : Reachable sampleKeys (js ['r']) indented := .ran _ _ bullets_reachable
    exact (indent_outdent_cancel sampleKeys_lawful rfl
      (reachable_ranksValid sampleKeys_lawful hreach) hvisible').2 (js ['a'])
      (by decide) (by decide) (by decide) houtdent hagain

end Examples

end OpenOutliner
