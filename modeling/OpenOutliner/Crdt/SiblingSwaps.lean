import OpenOutliner.Crdt.Reordering

namespace OpenOutliner

open Foundations Relation

def Direction.opposite : Direction → Direction
  | .up => .down
  | .down => .up

def Direction.Exchanged (x s : JsString) (l l' : List JsString) : Direction → Prop
  | .up => OpenOutliner.Exchanged s x l l'
  | .down => OpenOutliner.Exchanged x s l l'

def Doc.contents (doc : Doc) (y : JsString) : Option Node :=
  (doc.items.get y).map fun node => { node with move := none }

/-- `x` has changed places with its neighbour, and nothing else is different. -/
structure Swapped (doc doc' : Doc) (x : JsString) (direction : Direction) : Prop where
  siblings : ∃ p s, doc.effectiveTree.parents.get x = some p ∧
    direction.Exchanged x s (doc.childIds p) (doc'.childIds p)
  lists : ∀ q, doc.effectiveTree.parents.get x ≠ some q → doc'.childIds q = doc.childIds q
  parents : ∀ y, doc'.effectiveTree.parents.get y = doc.effectiveTree.parents.get y
  recovered : doc'.effectiveTree.recovered = doc.effectiveTree.recovered
  deleted : doc'.effectiveTree.deleted = doc.effectiveTree.deleted
  contents : ∀ y, doc'.contents y = doc.contents y
  others : ∀ y, y ≠ x → doc'.items.get y = doc.items.get y

section Lists

variable {x s t : JsString} {l l' l'' : List JsString} {direction : Direction}

theorem Direction.Exchanged.mem (h : direction.Exchanged x s l l') : x ∈ l := by
  cases direction with
  | up =>
    obtain ⟨before, after, rfl, -⟩ := h
    simp
  | down =>
    obtain ⟨before, after, rfl, -⟩ := h
    simp

theorem place_unique {before before' after after' : List JsString} (hnd : (before ++ x :: after).Nodup)
    (heq : before ++ x :: after = before' ++ x :: after') : before = before' ∧ after = after' := by
  have hnotin := (List.nodup_middle.mp hnd).notMem
  rw [List.mem_append, not_or] at hnotin
  obtain ⟨hbefore, -, hafter⟩ := (List.append_cons_inj_of_notMem hnotin.1 hnotin.2).mp heq
  exact ⟨hbefore, hafter⟩

theorem Direction.Exchanged.restored (hnd : l'.Nodup) (h : direction.Exchanged x s l l')
    (h' : direction.opposite.Exchanged x t l' l'') : l'' = l := by
  cases direction with
  | up =>
    obtain ⟨before, after, rfl, rfl⟩ := h
    obtain ⟨before', after', heq, rfl⟩ := h'
    obtain ⟨rfl, hrest⟩ := place_unique hnd heq
    obtain ⟨rfl, rfl⟩ := List.cons.inj hrest
    rfl
  | down =>
    obtain ⟨before, after, rfl, rfl⟩ := h
    obtain ⟨before', after', heq, rfl⟩ := h'
    rw [List.append_cons before s] at hnd heq
    rw [List.append_cons before' t] at heq
    obtain ⟨hsame, rfl⟩ := place_unique hnd heq
    obtain ⟨rfl, hs⟩ := List.append_inj' hsame rfl
    obtain rfl := List.head_eq_of_cons_eq hs
    rfl

end Lists

section Slots

variable {Key : JsString → Prop} {doc : Doc} {x s q k : JsString} {i : ℕ}

theorem upper_gap (h : RanksValid Key doc) (q : JsString) (i : ℕ) :
    Gap Key (if i + 1 = 1 then none else (doc.getChildren q)[i + 1 - 2]?.map OutlineNode.rank)
      ((doc.getChildren q)[i + 1 - 1]?.map OutlineNode.rank) := by
  cases i with
  | zero => exact first_gap h q 0
  | succ j => exact siblings_gap h q j

theorem erase_middle {l before after : List JsString} (hnd : l.Nodup) (hl : l = before ++ x :: after) :
    l.erase x = before ++ after := by
  rw [hl] at hnd ⊢
  have hnotin := (List.nodup_middle.mp hnd).notMem
  rw [List.erase_append_right _ fun hx => hnotin (List.mem_append_left _ hx), List.erase_cons_head]

theorem slot_up (hs : (doc.childIds q)[i]? = some s) (hx : (doc.childIds q)[i + 1]? = some x)
    (hk : Between (if i + 1 = 1 then none else (doc.getChildren q)[i + 1 - 2]?.map OutlineNode.rank) k
      ((doc.getChildren q)[i + 1 - 1]?.map OutlineNode.rank)) :
    Slot doc x q k ((doc.childIds q).take i) (s :: (doc.childIds q).drop (i + 2)) := by
  have hpair := split_pair hs hx
  obtain ⟨hi, hsi⟩ := List.getElem?_eq_some_iff.mp hs
  have hdrop : (doc.childIds q).drop i = s :: (doc.childIds q).drop (i + 1) := by
    rw [List.drop_eq_getElem_cons hi, hsi]
  apply slot_of_parts (n := i) _ (List.Subset.refl _) _ _ (before_place hk.2)
  · rw [List.append_cons] at hpair
    rw [erase_middle (childIds_nodup doc q) hpair, List.append_assoc]
    rfl
  · rw [hdrop]
    apply List.cons_subset_cons
    intro y hy
    exact List.mem_of_mem_drop (i := 1) (by rwa [List.drop_drop])
  · cases i with
    | zero => simp
    | succ j =>
      obtain ⟨n, hn, -⟩ := standsAt_childIds.mpr (List.getElem?_eq_getElem (Nat.lt_of_succ_lt hi))
      exact after_place hn (hk.1 _ (by simp [hn]))

theorem slot_down (hx : (doc.childIds q)[i]? = some x) (hs : (doc.childIds q)[i + 1]? = some s)
    (hk : Between ((doc.getChildren q)[i + 1]?.map OutlineNode.rank) k
      ((doc.getChildren q)[i + 2]?.map OutlineNode.rank)) :
    Slot doc x q k ((doc.childIds q).take i ++ [s]) ((doc.childIds q).drop (i + 2)) := by
  have hpair := split_pair hx hs
  obtain ⟨n, hn, hid⟩ := standsAt_childIds.mpr hs
  obtain ⟨hlow, hhigh⟩ := between_splits hn hk
  apply slot_of_parts (n := i + 2) _ _ (List.Subset.refl _) hlow hhigh
  · rw [erase_middle (childIds_nodup doc q) hpair, List.append_assoc]
    rfl
  · intro y hy
    rw [List.mem_append, List.mem_singleton] at hy
    rcases hy with hy | rfl
    · exact (List.take_subset_take_left _ (by omega)) hy
    · exact List.mem_take_iff_getElem.mpr ⟨i + 1, by have := (List.getElem?_eq_some_iff.mp hs).1; omega,
        (List.getElem?_eq_some_iff.mp hs).2⟩

end Slots

section Command

variable {lib : FractionalIndexing} {Key : JsString → Prop} {doc doc' : Doc} {rootId x p : JsString}
  {actor : Actor} {direction : Direction}

theorem placeBetween_kept {lower upper : Option JsString} {prevHlc : Hlc} {r : Except JsError Bool}
    (hrun : placeBetween lib doc x p lower upper prevHlc actor = (r, doc')) (hr : r ≠ .ok true) :
    doc' = doc := by
  unfold placeBetween at hrun
  cases hrank : rankBetween lib lower upper x with
  | error e =>
    rw [hrank] at hrun
    cases hrun
    rfl
  | ok rank =>
    rw [hrank] at hrun
    cases hrun
    exact absurd rfl hr

theorem moveWithinSiblings_kept {r : Except JsError Bool}
    (hrun : moveWithinSiblings lib doc x direction actor = (r, doc')) (hr : r ≠ .ok true) : doc' = doc := by
  unfold moveWithinSiblings at hrun
  split at hrun
  · cases hrun
    rfl
  · dsimp only at hrun
    split at hrun
    · cases hrun
      rfl
    · cases direction with
      | up =>
        dsimp only at hrun
        split at hrun
        · cases hrun
          rfl
        · exact placeBetween_kept hrun hr
      | down =>
        dsimp only at hrun
        split at hrun
        · cases hrun
          rfl
        · exact placeBetween_kept hrun hr

variable (hlib : lib.Lawful Key) (h : RanksValid Key doc)

include hlib

theorem placeBetween_placed {lower upper : Option JsString} (hgap : Gap Key lower upper) {prevHlc : Hlc}
    (hrun : placeBetween lib doc x p lower upper prevHlc actor = (.ok true, doc')) :
    ∃ placed : MoveRegister, placed.parentId = p ∧ Between lower placed.rank upper ∧
    doc' = doc.writeMove x placed := by
  unfold placeBetween at hrun
  rcases rankBetween_gap hlib hgap x with ⟨-, e, he⟩ | ⟨ht, -⟩
  · rw [he] at hrun
    cases hrun
  · obtain ⟨k, hk, -, hbetween⟩ := rankBetween_ok hlib (hgap.bounds ht) x
    rw [hk] at hrun
    cases hrun
    exact ⟨_, rfl, hbetween, rfl⟩

include h

theorem moveWithinSiblings_slot (hrun : moveWithinSiblings lib doc x direction actor = (.ok true, doc')) :
    ∃ move placed s before after, doc.moveOf x = some move ∧ placed.parentId = move.parentId ∧
    doc' = doc.writeMove x placed ∧
      direction.Exchanged x s (doc.childIds move.parentId) (before ++ x :: after) ∧
      Slot doc x move.parentId placed.rank before after := by
  unfold moveWithinSiblings at hrun
  cases hmove : doc.moveOf x with
  | none =>
    rw [hmove] at hrun
    cases hrun
  | some move =>
    rw [hmove] at hrun
    dsimp only at hrun
    cases hfind : (doc.getChildren move.parentId).findIdx? fun s => s.id = x with
    | none =>
      rw [hfind] at hrun
      cases hrun
    | some idx =>
      rw [hfind] at hrun
      have hx := standsAt_childIds.mp (findIdx?_standsAt hfind)
      obtain ⟨hidx, -⟩ := List.getElem?_eq_some_iff.mp hx
      rw [Doc.childIds, List.length_map] at hidx
      dsimp only at hrun
      cases direction with
      | up =>
        dsimp only at hrun
        split at hrun
        · cases hrun
        · rename_i hfirst
          obtain ⟨i, rfl⟩ := Nat.exists_eq_succ_of_ne_zero hfirst
          obtain ⟨placed, hparent, hbetween, rfl⟩ :=
            placeBetween_placed hlib (upper_gap h move.parentId i) hrun
          have hs : (doc.childIds move.parentId)[i]? = some (doc.getChildren move.parentId)[i].id :=
            standsAt_childIds.mp ⟨_, List.getElem?_eq_getElem (by omega), rfl⟩
          exact ⟨move, placed, _, _, _, rfl, hparent, rfl, ⟨_, _, split_pair hs hx, rfl⟩,
            slot_up hs hx hbetween⟩
      | down =>
        dsimp only at hrun
        split at hrun
        · cases hrun
        · rename_i hlast
          obtain ⟨placed, hparent, hbetween, rfl⟩ :=
            placeBetween_placed hlib (siblings_gap h move.parentId (idx + 1)) hrun
          have hs : (doc.childIds move.parentId)[idx + 1]? =
              some (doc.getChildren move.parentId)[idx + 1].id :=
            standsAt_childIds.mp ⟨_, List.getElem?_eq_getElem (by omega), rfl⟩
          refine ⟨move, placed, _, _, _, rfl, hparent, rfl, ⟨_, _, split_pair hx hs, ?_⟩,
            slot_down hx hs hbetween⟩
          rw [List.append_assoc]
          rfl

end Command

section Writes

variable {doc : Doc} {rootId x y : JsString} {move placed : MoveRegister}

theorem writeMove_contents (hroot : doc.rootId ≠ some x) (hmove : doc.moveOf x = some move) :
    (doc.writeMove x placed).contents y = doc.contents y := by
  rw [Doc.contents, writeMove_get hroot]
  split_ifs with hy
  · obtain ⟨node, hget, -⟩ := Option.bind_eq_some_iff.mp hmove
    rw [hy, Doc.contents, hget]
    rfl
  · rfl

theorem writeMove_swapped {direction : Direction} {s : JsString} {before after : List JsString}
    (hroot : doc.rootId = some rootId) (hmove : doc.moveOf x = some move)
    (hparent : placed.parentId = move.parentId)
    (hlist : direction.Exchanged x s (doc.childIds move.parentId) (before ++ x :: after))
    (hslot : Slot doc x move.parentId placed.rank before after) :
    Reordered doc (doc.writeMove x placed) x ∧ Swapped doc (doc.writeMove x placed) x direction := by
  have hget := getRootId_eq hroot
  have hx := hlist.mem
  obtain ⟨hedge, -⟩ := (mem_childIds hget).mp hx
  have hne := root_apart hroot hedge.1
  have h := writeMove_reordered hroot hedge.1 hmove hparent
  obtain ⟨hparents, hrecovered, hdeleted⟩ := h.tree hroot
  refine ⟨h, ⟨move.parentId, s, hedge.2, ?_⟩, fun q hq => ?_, hparents, hrecovered, hdeleted,
    fun y => writeMove_contents hne hmove, fun y hy => ?_⟩
  · rw [h.childIds_slot hroot hx (writeMove_moveOf_self hne placed) hslot]
    exact hlist
  · apply h.childIds_other hroot
    intro hxq
    exact hq ((mem_childIds hget).mp hxq).1.2
  · rw [writeMove_get hne, if_neg hy]

theorem moveWithinSiblings_reordered {lib : FractionalIndexing} {Key : JsString → Prop}
    (hlib : lib.Lawful Key) {doc' : Doc}
    {actor : Actor} {direction : Direction} (h : RanksValid Key doc) (hroot : doc.rootId = some rootId)
    (hrun : moveWithinSiblings lib doc x direction actor = (.ok true, doc')) :
    Reordered doc doc' x ∧ Swapped doc doc' x direction := by
  obtain ⟨move, placed, s, before, after, hmove, hparent, rfl, hlist, hslot⟩ :=
    moveWithinSiblings_slot hlib h hrun
  exact writeMove_swapped hroot hmove hparent hlist hslot

end Writes

theorem Swapped.back {doc doc' doc'' : Doc} {rootId x : JsString} {direction : Direction}
    (hroot : doc.rootId = some rootId) (h : Swapped doc doc' x direction)
    (h' : Swapped doc' doc'' x direction.opposite) (hordered : Reordered doc doc'' x) :
    ShowsSame doc doc'' := by
  obtain ⟨p, s, hp, hlist⟩ := h.siblings
  obtain ⟨p', s', hp', hlist'⟩ := h'.siblings
  rw [h.parents, hp] at hp'
  obtain rfl := Option.some.inj hp'
  apply hordered.showsSame hroot
  intro q hq
  obtain ⟨hedge, -⟩ := (mem_childIds (getRootId_eq hroot)).mp hq
  rw [hedge.2] at hp
  obtain rfl := Option.some.inj hp
  exact hlist.restored (childIds_nodup doc' q) hlist'

/-- A move by one place exchanges the item with its neighbour and leaves the rest; the move back restores
what is shown. -/
theorem moveWithinSiblings_swaps {lib : FractionalIndexing} {Key : JsString → Prop}
    (hlib : lib.Lawful Key) (actor : Actor) {doc doc' : Doc} {rootId x : JsString}
    (hroot : doc.rootId = some rootId) (h : RanksValid Key doc) (direction : Direction) :
    (moveWithinSiblings lib doc x direction actor = (.ok true, doc') →
      Swapped doc doc' x direction ∧ ∀ actor' doc'',
        moveWithinSiblings lib doc' x direction.opposite actor' = (.ok true, doc'') →
          ShowsSame doc doc'' ∧ ∀ y, doc''.contents y = doc.contents y) ∧
    (moveWithinSiblings lib doc x direction actor = (.ok false, doc') → doc' = doc) := by
  refine ⟨fun hrun => ?_, fun hrun => moveWithinSiblings_kept hrun (by simp)⟩
  have h' := moveWithinSiblings_ranksValid hlib h actor x direction
  rw [hrun] at h'
  obtain ⟨hordered, hswapped⟩ := moveWithinSiblings_reordered hlib h hroot hrun
  refine ⟨hswapped, fun actor' doc'' hback => ?_⟩
  obtain ⟨hordered', hswapped'⟩ := moveWithinSiblings_reordered hlib h' (hordered.rootId.trans hroot) hback
  refine ⟨hswapped.back hroot hswapped' (hordered.trans hordered'), fun y => ?_⟩
  rw [hswapped'.contents, hswapped.contents]

def raised : Doc := (moveWithinSiblings sampleKeys bullets (js ['b']) .up deviceA).2

def lowered : Doc := (moveWithinSiblings sampleKeys raised (js ['b']) .down deviceB).2

theorem moveWithinSiblings_swaps_bullets : Swapped bullets raised (js ['b']) .up ∧
    ShowsSame bullets lowered := by
  have hrun : moveWithinSiblings sampleKeys bullets (js ['b']) .up deviceA = (.ok true, raised) := rfl
  have hback : moveWithinSiblings sampleKeys raised (js ['b']) .down deviceB = (.ok true, lowered) := rfl
  obtain ⟨hswapped, hrestored⟩ := (moveWithinSiblings_swaps sampleKeys_lawful deviceA rfl
    (reachable_ranksValid sampleKeys_lawful bullets_reachable) .up).1 hrun
  exact ⟨hswapped, (hrestored deviceB lowered hback).1⟩

end OpenOutliner
