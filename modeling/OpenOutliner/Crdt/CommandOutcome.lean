import OpenOutliner.Crdt.Replicas

namespace OpenOutliner

open Foundations

section Siblings

variable (siblings : List OutlineNode)

def TieAt (i : ℕ) : Prop :=
  ∃ a b, siblings[i]? = some a ∧ siblings[i + 1]? = some b ∧ a.rank = b.rank

def StandsAt (i : ℕ) (x : JsString) : Prop := ∃ s, siblings[i]? = some s ∧ s.id = x

def TiedAfter (afterId : Option JsString) : Prop :=
  ∃ a ∈ afterId, a ≠ [] ∧ ∃ i, StandsAt siblings i a ∧ TieAt siblings i

variable {siblings}

theorem tieAt_iff (i : ℕ) : TieAt siblings i ↔
    Tied (siblings[i]?.map OutlineNode.rank) (siblings[i + 1]?.map OutlineNode.rank) := by
  constructor
  · rintro ⟨a, b, ha, hb, hab⟩
    exact ⟨a.rank, by rw [ha, Option.map_some], by rw [hb, Option.map_some, hab]⟩
  · rintro ⟨r, hlower, hupper⟩
    obtain ⟨a, ha, rfl⟩ := Option.map_eq_some_iff.mp hlower
    obtain ⟨b, hb, hab⟩ := Option.map_eq_some_iff.mp hupper
    exact ⟨a, b, ha, hb, hab.symm⟩

theorem findIdx?_standsAt {x : JsString} {i : ℕ} (h : siblings.findIdx? (fun s => s.id = x) = some i) :
    StandsAt siblings i x := by
  obtain ⟨hi, hx, -⟩ := List.findIdx?_eq_some_iff_getElem.mp h
  exact ⟨siblings[i], List.getElem?_eq_getElem hi, by simpa using hx⟩

theorem standsAt_unique (hnd : (siblings.map OutlineNode.id).Nodup) {x : JsString} {i j : ℕ}
    (hi : StandsAt siblings i x) (hj : StandsAt siblings j x) : i = j := by
  obtain ⟨s, hs, rfl⟩ := hi
  obtain ⟨t, ht, hst⟩ := hj
  obtain ⟨hi, rfl⟩ := List.getElem?_eq_some_iff.mp hs
  obtain ⟨hj, rfl⟩ := List.getElem?_eq_some_iff.mp ht
  have hinj := List.nodup_iff_injective_get.mp hnd
  have heq : (⟨i, by simpa using hi⟩ : Fin (siblings.map OutlineNode.id).length) =
      ⟨j, by simpa using hj⟩ := by
    apply hinj
    simpa using hst.symm
  exact Fin.mk.inj heq

theorem exists_standsAt_iff (hnd : (siblings.map OutlineNode.id).Nodup) (x : JsString) (k : ℕ)
    (P : ℕ → Prop) : (∃ i, StandsAt siblings (i + k) x ∧ P i) ↔
      ∃ i, siblings.findIdx? (fun s => s.id = x) = some (i + k) ∧ P i := by
  constructor
  · rintro ⟨i, hi, hP⟩
    refine ⟨i, ?_, hP⟩
    cases hf : siblings.findIdx? (fun s => s.id = x) with
    | none =>
      obtain ⟨s, hs, hx⟩ := hi
      have := List.findIdx?_eq_none_iff.mp hf s (List.mem_of_getElem? hs)
      simp [hx] at this
    | some j => rw [standsAt_unique hnd (findIdx?_standsAt hf) hi]
  · rintro ⟨i, hi, hP⟩
    exact ⟨i, findIdx?_standsAt hi, hP⟩

theorem boundsAfter_absent {a : JsString} (h : siblings.findIdx? (fun s => s.id = a) = none) :
    boundsAfter siblings (some a) = (none, siblings[0]?.map OutlineNode.rank) := by
  unfold boundsAfter
  by_cases ha : a = []
  · subst ha
    rfl
  · simp [Option.filter, ha, h]

theorem boundsAfter_found {a : JsString} (ha : a ≠ []) {i : ℕ}
    (h : siblings.findIdx? (fun s => s.id = a) = some i) : boundsAfter siblings (some a) =
      (siblings[i]?.map OutlineNode.rank, siblings[i + 1]?.map OutlineNode.rank) := by
  simp [boundsAfter, Option.filter, ha, h]

theorem not_tied_none (upper : Option JsString) : ¬ Tied none upper := by
  rintro ⟨r, hr, -⟩
  cases hr

theorem boundsAfter_tied (hnd : (siblings.map OutlineNode.id).Nodup) (afterId : Option JsString) :
    Tied (boundsAfter siblings afterId).1 (boundsAfter siblings afterId).2 ↔
      TiedAfter siblings afterId := by
  cases afterId with
  | none => exact iff_of_false (not_tied_none _) (by rintro ⟨a, ha, -⟩; cases ha)
  | some a =>
    have hplace := exists_standsAt_iff hnd a 0 (TieAt siblings)
    simp only [Nat.add_zero] at hplace
    have hafter : TiedAfter siblings (some a) ↔ a ≠ [] ∧
        ∃ i, siblings.findIdx? (fun s => s.id = a) = some i ∧ TieAt siblings i := by
      simp only [TiedAfter, Option.mem_some_iff, exists_eq_left', hplace]
    rw [hafter]
    by_cases ha : a = []
    · subst ha
      exact iff_of_false (not_tied_none _) (fun h => h.1 rfl)
    · cases hf : siblings.findIdx? (fun s => s.id = a) with
      | none =>
        rw [boundsAfter_absent hf]
        exact iff_of_false (not_tied_none _) (by rintro ⟨-, i, hi, -⟩; cases hi)
      | some i =>
        rw [boundsAfter_found ha hf, ← tieAt_iff]
        simp [ha]

end Siblings

section Loops

variable {doc : Doc} {ancestorId : JsString}

theorem descendantLoop_isSome {byId : OrderedMap JsString OutlineNode} {s : Finset JsString}
    (hs : ∀ id n, byId.get id = some n → n.id ∈ s) (fuel : ℕ) {seen : Finset JsString} (hseen : seen ⊆ s)
    {cur : Option OutlineNode} (hcur : ∀ n ∈ cur, n.id ∈ s) (hfuel : s.card < seen.card + fuel) :
    ∃ b, Doc.descendantLoop byId ancestorId fuel seen cur = some b := by
  induction fuel generalizing seen cur with
  | zero =>
    have := Finset.card_le_card hseen
    omega
  | succ fuel ih =>
    cases cur with
    | none => exact ⟨false, rfl⟩
    | some cur =>
      rw [Doc.descendantLoop]
      split_ifs with h1 h2 h3
      · exact ⟨true, rfl⟩
      · exact ⟨false, rfl⟩
      · exact ⟨false, rfl⟩
      · apply ih
        · exact Finset.insert_subset (hcur cur rfl) hseen
        · exact fun n hn => hs _ n hn
        · rw [Finset.card_insert_of_notMem h2]
          omega

theorem descendantLoop_mono {byId : OrderedMap JsString OutlineNode} {fuel fuel' : ℕ} (hf : fuel ≤ fuel')
    {seen : Finset JsString} {cur : Option OutlineNode} {b : Bool}
    (h : Doc.descendantLoop byId ancestorId fuel seen cur = some b) :
    Doc.descendantLoop byId ancestorId fuel' seen cur = some b := by
  induction fuel generalizing fuel' seen cur with
  | zero => simp [Doc.descendantLoop] at h
  | succ fuel ih =>
    obtain ⟨fuel', rfl⟩ : ∃ k, fuel' = k + 1 := ⟨fuel' - 1, by omega⟩
    cases cur with
    | none => exact h
    | some cur =>
      rw [Doc.descendantLoop] at h ⊢
      split_ifs at h ⊢
      · exact h
      · exact h
      · exact h
      · exact ih (by omega) h

/-- The loops that a command runs through end, whatever the placements are. -/
def LoopsEnd (doc : Doc) : Prop :=
  ∀ fuel > doc.allNodes.length,
    deriveEffectiveTreeWithin fuel (doc.allNodes.map OutlineNode.toTreeNode) (doc.getRootId.getD []) =
      some doc.effectiveTree ∧
    ∀ candidateId ancestorId, doc.isDescendantOfWithin fuel candidateId ancestorId =
      some (doc.isDescendantOf candidateId ancestorId)

theorem isDescendantOf_terminates {fuel : ℕ} (hfuel : doc.allNodes.length < fuel)
    (candidateId ancestorId : JsString) : doc.isDescendantOfWithin fuel candidateId ancestorId =
      some (doc.isDescendantOf candidateId ancestorId) := by
  have hget : ∀ id n, (OrderedMap.ofList (doc.allNodes.map fun n => (n.id, n))).get id = some n →
      n.id ∈ (doc.allNodes.map OutlineNode.id).toFinset := by
    intro id n h
    rw [List.mem_toFinset]
    exact List.mem_map_of_mem ((OrderedMap.get_keyed_iff Doc.allNodes_nodup).mp h).1
  have hcard : (doc.allNodes.map OutlineNode.id).toFinset.card ≤ doc.allNodes.length := by
    have := List.toFinset_card_le (doc.allNodes.map OutlineNode.id)
    rwa [List.length_map] at this
  unfold Doc.isDescendantOf Doc.isDescendantOfWithin
  split_ifs with heq
  · rfl
  · obtain ⟨b, hb⟩ := @descendantLoop_isSome ancestorId _ _ hget (doc.allNodes.length + 1) _
      (Finset.empty_subset _) _ (hget candidateId) (by rw [Finset.card_empty]; omega)
    dsimp only
    rw [descendantLoop_mono (by omega) hb, descendantLoop_mono (by omega) hb, Option.getD_some]

theorem loopsEnd (doc : Doc) : LoopsEnd doc := by
  intro fuel hfuel
  refine ⟨?_, isDescendantOf_terminates hfuel⟩
  apply deriveEffectiveTree_terminates
  · rw [Doc.treeNodes_ids]
    exact Doc.allNodes_nodup
  · rw [List.length_map]
    exact hfuel

end Loops

/-- The command returned, and a `false` left the document as it was. -/
def Harmless (doc : Doc) (r : Except JsError Bool × Doc) : Prop :=
  ∃ b, r.1 = .ok b ∧ (b = false → r.2 = doc)

/-- An item of the outline that a reader can see: placed, effectively live and not the root. -/
def Visible (doc : Doc) (id : JsString) : Prop := ∃ n ∈ doc.placedNodes, n.id = id ∧ doc.isLive n = true

/-- The arguments that the editor passes. -/
def Admissible (doc : Doc) : Command → Prop
  | .insertItem newId parentId _ =>
    (Visible doc parentId ∨ doc.rootId = some parentId) ∧ doc.items.get newId = none
  | .splitItem id _ _ => Visible doc id
  | .indent id => Visible doc id
  | .outdent id => Visible doc id
  | .moveWithinSiblings id _ => Visible doc id
  | .moveItem id newParentId _ => Visible doc id ∧ (doc.items.get newParentId).isSome = true
  | .mergeIntoPrevious id targetId _ => Visible doc id ∧ Visible doc targetId ∧ targetId ≠ id
  | .deleteItem id _ => Visible doc id
  | .undeleteItem id _ => (doc.items.get id).isSome = true
  | .toggleCompleted id => Visible doc id
  | .setIsCollapsed id _ => Visible doc id
  | .setItemType id _ => Visible doc id

/-- The command finds room where it places its item. -/
def CanPlace (doc : Doc) : Command → Prop
  | .insertItem _ parentId afterId => ¬ TiedAfter (doc.getChildren parentId) afterId
  | .splitItem id _ _ => ∀ move, doc.moveOf id = some move →
      ¬ TiedAfter (doc.getChildren move.parentId) (some id)
  | .outdent id => ∀ move, doc.moveOf id = some move → ∀ parentMove,
      doc.moveOf move.parentId = some parentMove → parentMove.parentId ≠ ROOT_PARENT_SENTINEL →
        ∃ i, StandsAt (doc.getChildren parentMove.parentId) i move.parentId ∧
          ¬ TieAt (doc.getChildren parentMove.parentId) i
  | .moveWithinSiblings id .up => ∀ move, doc.moveOf id = some move →
      ¬ ∃ i, StandsAt (doc.getChildren move.parentId) (i + 2) id ∧ TieAt (doc.getChildren move.parentId) i
  | .moveWithinSiblings id .down => ∀ move, doc.moveOf id = some move →
      ¬ ∃ i, StandsAt (doc.getChildren move.parentId) i id ∧ TieAt (doc.getChildren move.parentId) (i + 1)
  | .moveItem id newParentId afterId => doc.isDescendantOf newParentId id = true ∨ newParentId = id ∨
      ¬ TiedAfter (doc.getChildren newParentId) afterId
  | _ => True

section Outcome

variable {lib : FractionalIndexing} {Key : JsString → Prop} {doc : Doc}

theorem harmless_true (d : Doc) : Harmless doc (.ok true, d) := ⟨true, rfl, by simp⟩

theorem harmless_refused : Harmless doc (.ok false, doc) := ⟨false, rfl, fun _ => rfl⟩

theorem not_harmless_error (e : JsError) (d : Doc) : ¬ Harmless doc (.error e, d) := by
  rintro ⟨b, hb, -⟩
  cases hb

theorem Visible.moveOf {id : JsString} (h : Visible doc id) : ∃ move, doc.moveOf id = some move := by
  obtain ⟨n, hn, rfl, -⟩ := h
  obtain ⟨raw, hraw, rfl⟩ := List.mem_map.mp hn
  exact ⟨⟨raw.parentId, raw.rank, raw.hlc⟩, Doc.allNodes_moveOf hraw⟩

theorem Visible.get {id : JsString} (h : Visible doc id) : (doc.items.get id).isSome = true := by
  obtain ⟨move, hmove⟩ := h.moveOf
  obtain ⟨node, hget, -⟩ := Option.bind_eq_some_iff.mp hmove
  rw [hget]
  rfl

variable (hlib : lib.Lawful Key) (h : RanksValid Key doc) (actor : Actor)

section Gaps

include hlib

theorem placeBetween_harmless_iff {lower upper : Option JsString} (hgap : Gap Key lower upper)
    (id parentId : JsString) (prevHlc : Hlc) :
    Harmless doc (placeBetween lib doc id parentId lower upper prevHlc actor) ↔ ¬ Tied lower upper := by
  unfold placeBetween
  rcases rankBetween_gap hlib hgap id with ⟨ht, e, he⟩ | ⟨ht, k, hk, -⟩
  · rw [he]
    exact iff_of_false (not_harmless_error e doc) (not_not_intro ht)
  · rw [hk]
    exact iff_of_true (harmless_true _) ht

include h

theorem insertItem_outcome (newId parentId : JsString) (afterId : Option JsString) :
    (TiedAfter (doc.getChildren parentId) afterId ∧
        ∃ e, insertItem lib doc newId parentId afterId actor = (.error e, doc)) ∨
      ¬ TiedAfter (doc.getChildren parentId) afterId ∧
        ∃ d, insertItem lib doc newId parentId afterId actor = (.ok (), d) := by
  rw [← boundsAfter_tied (doc.getChildren_ids_nodup parentId)]
  unfold insertItem buildInsertMove
  dsimp only
  rcases rankBetween_gap hlib (boundsAfter_gap h parentId afterId) newId with ⟨ht, e, he⟩ | ⟨ht, k, hk, -⟩
  · rw [he]
    exact Or.inl ⟨ht, e, rfl⟩
  · rw [hk]
    exact Or.inr ⟨ht, _, rfl⟩

theorem insertItem_harmless_iff (newId parentId : JsString) (afterId : Option JsString) :
    Harmless doc (completes (insertItem lib doc newId parentId afterId actor)) ↔
      ¬ TiedAfter (doc.getChildren parentId) afterId := by
  rcases insertItem_outcome hlib h actor newId parentId afterId with ⟨ht, e, he⟩ | ⟨ht, d, hd⟩
  · rw [he]
    exact iff_of_false (not_harmless_error e doc) (not_not_intro ht)
  · rw [hd]
    exact iff_of_true (harmless_true d) ht

theorem splitItem_harmless_iff {id : JsString} {move : MoveRegister} (hmove : doc.moveOf id = some move)
    (offset : ℤ) (newId : JsString) : Harmless doc (splitItem lib doc id offset newId actor) ↔
      ¬ TiedAfter (doc.getChildren move.parentId) (some id) := by
  have hsame : ∀ clamped after, RanksValid Key (truncateContent (doc.ensureContent id) id clamped after) :=
    fun clamped after => ranksValid_of_moveOf h fun x => by simp
  have hchildren : ∀ clamped after, (truncateContent (doc.ensureContent id) id clamped after).getChildren
      move.parentId = doc.getChildren move.parentId := by
    intro clamped after
    unfold truncateContent
    split_ifs
    · rw [Doc.ensureContent_getChildren]
    · rw [Doc.editContent_getChildren, Doc.ensureContent_getChildren]
  unfold splitItem
  rw [hmove]
  dsimp only
  rw [← hchildren]
  rcases insertItem_outcome hlib (hsame _ _) actor newId move.parentId (some id) with
    ⟨ht, e, he⟩ | ⟨ht, d, hd⟩
  · rw [he]
    exact iff_of_false (not_harmless_error e _) (not_not_intro ht)
  · rw [hd]
    exact iff_of_true (harmless_true _) ht

theorem indent_harmless (id : JsString) : Harmless doc (indent lib doc id actor) := by
  unfold indent
  dsimp only
  split
  · exact harmless_refused
  · split
    · exact harmless_refused
    · exact harmless_refused
    · rename_i i hfound
      split
      · rename_i hnone
        obtain ⟨hlt, -⟩ := List.findIdx?_eq_some_iff_getElem.mp hfound
        rw [List.getElem?_eq_none_iff] at hnone
        omega
      · rename_i prevSibling _
        obtain ⟨k, hk, -⟩ := rankAfter_ok hlib (fun a => lastRank_key h prevSibling.id) id
        unfold buildAppendMove
        rw [hk]
        exact harmless_true _

theorem outdent_harmless_iff {id : JsString} {move : MoveRegister} (hmove : doc.moveOf id = some move) :
    Harmless doc (outdent lib doc id actor) ↔ CanPlace doc (.outdent id) := by
  unfold outdent
  simp only [CanPlace, hmove, Option.some.injEq, forall_eq']
  cases hparent : doc.moveOf move.parentId with
  | none => exact iff_of_true harmless_refused (by simp)
  | some parentMove =>
    simp only [Option.some.injEq, forall_eq']
    by_cases hroot : parentMove.parentId = ROOT_PARENT_SENTINEL
    · rw [if_pos (by simpa [isRootParent] using hroot)]
      exact iff_of_true harmless_refused (absurd hroot)
    · rw [if_neg (by simpa [isRootParent] using hroot)]
      have hplace := exists_standsAt_iff (doc.getChildren_ids_nodup parentMove.parentId) move.parentId 0
        (fun i => ¬ TieAt (doc.getChildren parentMove.parentId) i)
      simp only [Nat.add_zero] at hplace
      simp only [hplace, ne_eq, hroot, not_false_eq_true, forall_const]
      cases hf : (doc.getChildren parentMove.parentId).findIdx? fun s => s.id = move.parentId with
      | none => exact iff_of_false (not_harmless_error _ _) (by simp)
      | some i =>
        refine (placeBetween_harmless_iff hlib actor (siblings_gap h _ i) _ _ _).trans ?_
        rw [← tieAt_iff]
        simp

theorem moveWithinSiblings_up_iff {id : JsString} {move : MoveRegister} (hmove : doc.moveOf id = some move) :
    Harmless doc (moveWithinSiblings lib doc id .up actor) ↔ CanPlace doc (.moveWithinSiblings id .up) := by
  have hplace := exists_standsAt_iff (doc.getChildren_ids_nodup move.parentId) id 2
    (TieAt (doc.getChildren move.parentId))
  unfold moveWithinSiblings
  simp only [CanPlace, hmove, Option.some.injEq, forall_eq', hplace]
  cases hf : (doc.getChildren move.parentId).findIdx? fun s => s.id = id with
  | none => exact iff_of_true harmless_refused (by simp)
  | some idx =>
    dsimp only
    split_ifs with h0 h1
    · exact iff_of_true harmless_refused (by simp [h0])
    · refine (placeBetween_harmless_iff hlib actor (first_gap h _ _) _ _ _).trans ?_
      exact iff_of_true (not_tied_none _) (by simp [h1])
    · obtain ⟨i, rfl⟩ : ∃ i, idx = i + 2 := ⟨idx - 2, by omega⟩
      have hgap := siblings_gap h move.parentId i
      refine (placeBetween_harmless_iff hlib actor hgap _ _ _).trans ?_
      rw [← tieAt_iff]
      simp

theorem moveWithinSiblings_down_iff {id : JsString} {move : MoveRegister}
    (hmove : doc.moveOf id = some move) :
    Harmless doc (moveWithinSiblings lib doc id .down actor) ↔
    CanPlace doc (.moveWithinSiblings id .down) := by
  have hplace := exists_standsAt_iff (doc.getChildren_ids_nodup move.parentId) id 0
    (fun i => TieAt (doc.getChildren move.parentId) (i + 1))
  simp only [Nat.add_zero] at hplace
  unfold moveWithinSiblings
  simp only [CanPlace, hmove, Option.some.injEq, forall_eq', hplace]
  cases hf : (doc.getChildren move.parentId).findIdx? fun s => s.id = id with
  | none => exact iff_of_true harmless_refused (by simp)
  | some idx =>
    dsimp only
    split_ifs with hlast
    · refine iff_of_true harmless_refused ?_
      rintro ⟨i, hi, a, b, ha, -⟩
      obtain rfl := Option.some.inj hi
      obtain ⟨hlt, -⟩ := List.getElem?_eq_some_iff.mp ha
      omega
    · refine (placeBetween_harmless_iff hlib actor (siblings_gap h _ (idx + 1)) _ _ _).trans ?_
      rw [← tieAt_iff]
      simp

theorem moveItem_harmless_iff {id : JsString} {move : MoveRegister} (hmove : doc.moveOf id = some move)
    (newParentId : JsString) (afterId : Option JsString) :
    Harmless doc (moveItem lib doc id newParentId afterId actor) ↔
      CanPlace doc (.moveItem id newParentId afterId) := by
  unfold moveItem CanPlace
  split_ifs with hdrop
  · refine iff_of_true harmless_refused ?_
    rcases Bool.or_eq_true_iff.mp hdrop with hd | he
    · exact Or.inl hd
    · exact Or.inr (Or.inl (of_decide_eq_true he))
  · rw [Bool.or_eq_true, not_or, decide_eq_true_eq] at hdrop
    rw [hmove]
    dsimp only
    refine (placeBetween_harmless_iff hlib actor (boundsAfter_gap h _ _) _ _ _).trans ?_
    rw [boundsAfter_tied (doc.getChildren_ids_nodup newParentId)]
    simp [hdrop.1, hdrop.2]

omit h in
theorem adoptChildren_returns (targetId : JsString) (children : List OutlineNode) (reading : ℕ)
    {lastRank : Option JsString} (hlast : ∀ a ∈ lastRank, Key a) (doc : Doc) :
    ∃ n d, adoptChildren lib targetId actor reading lastRank children doc = (.ok n, d) ∧
      ∀ x, (doc.items.get x).isSome = true → (d.items.get x).isSome = true := by
  induction children generalizing doc reading lastRank with
  | nil => exact ⟨reading, doc, rfl, fun _ hx => hx⟩
  | cons child rest ih =>
    unfold adoptChildren
    cases hmove : doc.moveOf child.id with
    | none => exact ih reading hlast doc
    | some childMove =>
      obtain ⟨k, hk, hkey, -⟩ := rankBetween_ok hlib (bounds_above hlast) child.id
      have hnext : ∀ a ∈ some k, Key a := by
        rintro a ha
        rwa [← Option.some.inj ha]
      dsimp only
      rw [hk]
      obtain ⟨n, d, hd, hkeep⟩ := ih (reading + 1) hnext
        (doc.writeMove child.id (buildMove targetId k (some childMove.hlc) (actor.ctx reading)))
      exact ⟨n, d, hd, fun x hx => hkeep x (Doc.writeMove_isSome hx _ _)⟩

theorem mergeIntoPrevious_harmless {id targetId : JsString} (hid : (doc.items.get id).isSome = true)
    (htarget : (doc.items.get targetId).isSome = true) (token : JsString) :
    Harmless doc (mergeIntoPrevious lib doc id targetId token actor) := by
  have hcontent : (((doc.ensureContent id).ensureContent targetId).contentOf id).isSome = true := by
    apply Doc.ensureContent_contentOf
    · rwa [Doc.ensureContent_isSome]
    · exact Or.inr (Doc.ensureContent_contentOf hid id (Or.inl rfl))
  have hcontent' : (((doc.ensureContent id).ensureContent targetId).contentOf targetId).isSome = true := by
    apply Doc.ensureContent_contentOf
    · rwa [Doc.ensureContent_isSome]
    · exact Or.inl rfl
  obtain ⟨sourceText, hsource⟩ := Option.isSome_iff_exists.mp hcontent
  obtain ⟨targetText, htext⟩ := Option.isSome_iff_exists.mp hcontent'
  unfold mergeIntoPrevious
  dsimp only
  rw [hsource, htext]
  dsimp only
  generalize hmid : insertContent ((doc.ensureContent id).ensureContent targetId) targetId
    targetText.length sourceText = mid
  have hranks : RanksValid Key mid := by
    apply ranksValid_of_moveOf h
    intro x
    rw [← hmid]
    simp
  have hidmid : (mid.items.get id).isSome = true := by
    rw [← hmid]
    unfold insertContent
    split_ifs
    · rwa [Doc.ensureContent_isSome, Doc.ensureContent_isSome]
    · rwa [Doc.editContent_isSome, Doc.ensureContent_isSome, Doc.ensureContent_isSome]
  obtain ⟨n, d, hd, hkeep⟩ := adoptChildren_returns hlib actor targetId (mid.getChildren id) 0
    (fun a => lastRank_key hranks targetId) mid
  rw [hd]
  obtain ⟨node, hnode⟩ := Option.isSome_iff_exists.mp (hkeep id hidmid)
  dsimp only
  unfold deleteItem
  rw [hnode]
  exact harmless_true _

end Gaps

omit hlib h in
theorem deleteItem_harmless {id : JsString} (hid : (doc.items.get id).isSome = true) (token : JsString) :
    Harmless doc (completes (deleteItem doc id token actor 0)) := by
  obtain ⟨node, hnode⟩ := Option.isSome_iff_exists.mp hid
  unfold deleteItem
  rw [hnode]
  exact harmless_true _

theorem undeleteItem_harmless {id : JsString} (hid : (doc.items.get id).isSome = true) (token : JsString) :
    Harmless doc (completes (undeleteItem doc id token actor)) := by
  obtain ⟨node, hnode⟩ := Option.isSome_iff_exists.mp hid
  unfold undeleteItem
  rw [hnode]
  exact harmless_true _

end Outcome

/-- On every document that replicas can reach, an admissible command returns, and refuses without a
change, exactly when it finds room; all its loops end. -/
theorem run_harmless_iff {lib : FractionalIndexing} {Key : JsString → Prop} (hlib : lib.Lawful Key)
    {rootId : JsString} {doc : Doc} (hreach : Reachable lib rootId doc) (cmd : Command)
    (hadm : Admissible doc cmd) (actor : Actor) :
    (∀ d : Doc, LoopsEnd d) ∧ (Harmless doc (cmd.run lib doc actor) ↔ CanPlace doc cmd) := by
  have h : RanksValid Key doc := reachable_ranksValid hlib hreach
  refine ⟨loopsEnd, ?_⟩
  cases cmd with
  | insertItem newId parentId afterId => exact insertItem_harmless_iff hlib h actor newId parentId afterId
  | splitItem id offset newId =>
    obtain ⟨move, hmove⟩ := hadm.moveOf
    refine (splitItem_harmless_iff hlib h actor hmove offset newId).trans ?_
    simp only [CanPlace, hmove, Option.some.injEq, forall_eq']
  | indent id => exact iff_of_true (indent_harmless hlib h actor id) trivial
  | outdent id =>
    obtain ⟨move, hmove⟩ := hadm.moveOf
    exact outdent_harmless_iff hlib h actor hmove
  | moveWithinSiblings id direction =>
    obtain ⟨move, hmove⟩ := hadm.moveOf
    cases direction with
    | up => exact moveWithinSiblings_up_iff hlib h actor hmove
    | down => exact moveWithinSiblings_down_iff hlib h actor hmove
  | moveItem id newParentId afterId =>
    obtain ⟨move, hmove⟩ := hadm.1.moveOf
    exact moveItem_harmless_iff hlib h actor hmove newParentId afterId
  | mergeIntoPrevious id targetId token =>
    exact iff_of_true (mergeIntoPrevious_harmless hlib h actor hadm.1.get hadm.2.1.get token) trivial
  | deleteItem id token => exact iff_of_true (deleteItem_harmless actor hadm.get token) trivial
  | undeleteItem id token => exact iff_of_true (undeleteItem_harmless actor hadm token) trivial
  | toggleCompleted id => exact iff_of_true (harmless_true _) trivial
  | setIsCollapsed id value => exact iff_of_true (harmless_true _) trivial
  | setItemType id type => exact iff_of_true (harmless_true _) trivial

section Examples

def deviceA : Actor := ⟨js ['A'], fun _ => 1⟩

def deviceB : Actor := ⟨js ['B'], fun _ => 2⟩

def seeded : Doc := (createRoot sampleKeys (newDoc (js ['r'])) (js ['r']) deviceA).2

def insertFirst (newId : JsString) : Command := .insertItem newId (js ['r']) none

/-- Two devices that insert a first bullet each, `a` and `q`, while apart; the ids hash to the same
jitter bucket. -/
def bothInserted : Doc :=
  ((insertFirst (js ['a'])).run sampleKeys seeded deviceA).2.union
    ((insertFirst (js ['q'])).run sampleKeys seeded deviceB).2

theorem bothInserted_reachable : Reachable sampleKeys (js ['r']) bothInserted := by
  have hseed : Reachable sampleKeys (js ['r']) seeded := .created deviceA
  apply Reachable.merged _ (merged_union rfl rfl)
  intro s hs
  rcases List.mem_cons.mp hs with rfl | hs
  · exact .ran _ deviceA hseed
  · rw [List.mem_singleton.mp hs]
    exact .ran _ deviceB hseed

def apartInserted : Doc :=
  ((insertFirst (js ['a'])).run sampleKeys seeded deviceA).2.union
    ((insertFirst (js ['b'])).run sampleKeys seeded deviceB).2

theorem apartInserted_reachable : Reachable sampleKeys (js ['r']) apartInserted := by
  have hseed : Reachable sampleKeys (js ['r']) seeded := .created deviceA
  apply Reachable.merged _ (merged_union rfl rfl)
  intro s hs
  rcases List.mem_cons.mp hs with rfl | hs
  · exact .ran _ deviceA hseed
  · rw [List.mem_singleton.mp hs]
    exact .ran _ deviceB hseed

def insertBetween : Command := .insertItem (js ['z']) (js ['r']) (some (js ['b']))

theorem run_harmless_merged :
    (apartInserted.getChildren (js ['r'])).map OutlineNode.id = [js ['b'], js ['a']] ∧
      Harmless apartInserted (insertBetween.run sampleKeys apartInserted deviceA) := by
  have hiff :=
    run_harmless_iff sampleKeys_lawful apartInserted_reachable insertBetween ⟨Or.inr rfl, by decide⟩ deviceA
  refine ⟨rfl, hiff.2.mpr ?_⟩
  rintro ⟨after, -, -, i, -, htie⟩
  have hranks : (apartInserted.getChildren (js ['r'])).map OutlineNode.rank =
      [js ['a', '5'], js ['a', 'C']] := rfl
  rw [tieAt_iff, ← List.getElem?_map, ← List.getElem?_map, hranks] at htie
  obtain ⟨rank, hrank, hnext⟩ := htie
  cases i with
  | zero =>
    obtain rfl := Option.some.inj hrank
    exact absurd hnext (by decide)
  | succ i => simp at hnext

/-- Inserting after `a` on the merged document throws. -/
theorem insertItem_throws_on_tie : sampleKeys.Lawful SampleKey ∧
    Reachable sampleKeys (js ['r']) bothInserted ∧
    Admissible bothInserted (.insertItem (js ['z']) (js ['r']) (some (js ['a']))) ∧
    (Command.run sampleKeys bothInserted deviceA (.insertItem (js ['z']) (js ['r']) (some (js ['a'])))).1 =
      .error (.rankOrder (js ['a', 'C']) (js ['a', 'C'])) ∧
    ¬ Harmless bothInserted
      (Command.run sampleKeys bothInserted deviceA
        (.insertItem (js ['z']) (js ['r']) (some (js ['a'])))) := by
  have herror : (Command.run sampleKeys bothInserted deviceA
      (.insertItem (js ['z']) (js ['r']) (some (js ['a'])))).1 =
        .error (.rankOrder (js ['a', 'C']) (js ['a', 'C'])) := rfl
  refine ⟨sampleKeys_lawful, bothInserted_reachable, ⟨Or.inr rfl, by decide⟩, herror, ?_⟩
  rintro ⟨b, hb, -⟩
  rw [herror] at hb
  cases hb

end Examples

end OpenOutliner
