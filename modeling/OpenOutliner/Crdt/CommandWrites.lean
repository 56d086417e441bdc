import OpenOutliner.Crdt.ItemChanges

namespace OpenOutliner

open Foundations

def Command.newIds : Command → Finset JsString
  | insertItem newId _ _ | splitItem _ _ newId => {newId}
  | _ => ∅

def WritesTo (newIds : Finset JsString) (doc doc' : Doc) : Prop :=
  ∃ ws, doc' = runWrites doc ws ∧ ∀ id move, Write.move id move ∈ ws →
    (doc.items.get id).isSome = true ∨ id ∈ newIds

section Writes

variable {newIds : Finset JsString} {doc doc' : Doc} {id x : JsString} {w : Write}

theorem run_isSome (w : Write) (h : ((w.run doc).items.get x).isSome = true) :
    (doc.items.get x).isSome = true ∨ ∃ move, w = .move x move := by
  cases w with
  | move id move =>
    simp only [Write.run, Doc.writeMove] at h
    split_ifs at h with hroot
    · exact Or.inl h
    · rw [Doc.setNode_get] at h
      split_ifs at h with hx
      · exact Or.inr ⟨move, by rw [hx]⟩
      · exact Or.inl h
  | deleted id del token =>
    simp only [Write.run, Doc.writeDeleted] at h
    split_ifs at h
    · exact Or.inl h
    · exact Or.inl (by rwa [Doc.updateNode_isSome] at h)
    · exact Or.inl (by rwa [Doc.updateNode_isSome] at h)
  | field id f => exact Or.inl ((Doc.updateNode_isSome doc id x f.set).symm.trans h)
  | ensureContent id => exact Or.inl ((doc.ensureContent_isSome id x).symm.trans h)
  | editContent id f => exact Or.inl ((doc.editContent_isSome id x f).symm.trans h)

theorem runWrites_isSome {ws : List Write} (h : ((runWrites doc ws).items.get x).isSome = true) :
    (doc.items.get x).isSome = true ∨ ∃ move, Write.move x move ∈ ws := by
  induction ws generalizing doc with
  | nil => exact Or.inl h
  | cons w ws ih =>
    rcases ih h with h | ⟨move, hmem⟩
    · exact (run_isSome w h).imp_right fun ⟨move, hw⟩ => ⟨move, by simp [hw]⟩
    · exact Or.inr ⟨move, List.mem_cons_of_mem _ hmem⟩

namespace WritesTo

theorem refl (newIds : Finset JsString) (doc : Doc) : WritesTo newIds doc doc := ⟨[], rfl, by simp⟩

theorem keys (h : WritesTo newIds doc doc') (hx : (doc'.items.get x).isSome = true) :
    (doc.items.get x).isSome = true ∨ x ∈ newIds := by
  obtain ⟨ws, rfl, hws⟩ := h
  rcases runWrites_isSome hx with hx | ⟨move, hmem⟩
  · exact Or.inl hx
  · exact hws x move hmem

theorem write (h : WritesTo newIds doc doc') (w : Write)
    (hw : ∀ id move, w = .move id move → (doc'.items.get id).isSome = true ∨ id ∈ newIds) :
    WritesTo newIds doc (w.run doc') := by
  have hkeys := fun x => h.keys (x := x)
  obtain ⟨ws, rfl, hws⟩ := h
  refine ⟨ws ++ [w], by simp [runWrites], ?_⟩
  intro id move hmem
  rcases List.mem_append.mp hmem with hmem | hmem
  · exact hws id move hmem
  · rcases hw id move (List.mem_singleton.mp hmem).symm with hid | hid
    · exact hkeys id hid
    · exact Or.inr hid

theorem placed (h : WritesTo newIds doc doc') {id : JsString}
    (hid : (doc'.items.get id).isSome = true ∨ id ∈ newIds) (move : MoveRegister) :
    WritesTo newIds doc (doc'.writeMove id move) := by
  apply h.write (.move id move)
  rintro _ _ ⟨⟩
  exact hid

theorem deleted (h : WritesTo newIds doc doc') (id : JsString) (del : DeletedRegister) (token : JsString) :
    WritesTo newIds doc (doc'.writeDeleted id del token) :=
  h.write (.deleted id del token) nofun

theorem field (h : WritesTo newIds doc doc') (id : JsString) (f : Field) :
    WritesTo newIds doc (doc'.updateNode id f.set) :=
  h.write (.field id f) nofun

theorem ensured (h : WritesTo newIds doc doc') (id : JsString) :
    WritesTo newIds doc (doc'.ensureContent id) :=
  h.write (.ensureContent id) nofun

theorem edited (h : WritesTo newIds doc doc') (id : JsString) (f : JsString → JsString) :
    WritesTo newIds doc (doc'.editContent id f) :=
  h.write (.editContent id f) nofun

theorem truncated (h : WritesTo newIds doc doc') (id : JsString) (clamped : ℕ) (after : JsString) :
    WritesTo newIds doc (truncateContent doc' id clamped after) := by
  unfold truncateContent
  split_ifs
  · exact h
  · exact h.edited _ _

theorem inserted (h : WritesTo newIds doc doc') (id : JsString) (at_ : ℕ) (text : JsString) :
    WritesTo newIds doc (insertContent doc' id at_ text) := by
  unfold insertContent
  split_ifs
  · exact h
  · exact h.edited _ _

end WritesTo

theorem isSome_of_moveOf {move : MoveRegister} (h : doc.moveOf x = some move) :
    (doc.items.get x).isSome = true := by
  obtain ⟨node, hget, -⟩ := Option.bind_eq_some_iff.mp h
  rw [hget]
  rfl

end Writes

section Commands

variable {lib : FractionalIndexing} {newIds : Finset JsString} {doc doc' : Doc} {id : JsString}
  (actor : Actor) (h : WritesTo newIds doc doc')

include h

theorem placeBetween_writesTo {move : MoveRegister} (hmove : doc'.moveOf id = some move) (parentId : JsString)
    (lower upper : Option JsString) (prevHlc : Hlc) :
    WritesTo newIds doc (placeBetween lib doc' id parentId lower upper prevHlc actor).2 := by
  unfold placeBetween
  split
  · exact h
  · exact h.placed (Or.inl (isSome_of_moveOf hmove)) _

theorem createRoot_writesTo (hid : id ∈ newIds) : WritesTo newIds doc (createRoot lib doc' id actor).2 := by
  unfold createRoot
  split
  · exact h
  · exact h.placed (Or.inr hid) _

theorem insertItem_writesTo (hid : id ∈ newIds) (parentId : JsString) (afterId : Option JsString) :
    WritesTo newIds doc (insertItem lib doc' id parentId afterId actor).2 := by
  unfold insertItem
  dsimp only
  split
  · exact h
  · exact h.placed (Or.inr hid) _

theorem indent_writesTo (id : JsString) : WritesTo newIds doc (indent lib doc' id actor).2 := by
  unfold indent
  split
  · exact h
  · rename_i move hmove
    dsimp only
    split
    · exact h
    · exact h
    · split
      · exact h
      · split
        · exact h
        · exact h.placed (Or.inl (isSome_of_moveOf hmove)) _

theorem outdent_writesTo (id : JsString) : WritesTo newIds doc (outdent lib doc' id actor).2 := by
  unfold outdent
  split
  · exact h
  · rename_i move hmove
    split
    · exact h
    · dsimp only
      split_ifs
      · exact h
      · split
        · exact h
        · exact placeBetween_writesTo actor h hmove _ _ _ _

theorem moveWithinSiblings_writesTo (id : JsString) (direction : Direction) :
    WritesTo newIds doc (moveWithinSiblings lib doc' id direction actor).2 := by
  unfold moveWithinSiblings
  split
  · exact h
  · rename_i move hmove
    dsimp only
    split
    · exact h
    · cases direction with
      | up =>
        dsimp only
        split_ifs
        · exact h
        · exact placeBetween_writesTo actor h hmove _ _ _ _
        · exact placeBetween_writesTo actor h hmove _ _ _ _
      | down =>
        dsimp only
        split_ifs
        · exact h
        · exact placeBetween_writesTo actor h hmove _ _ _ _

theorem moveItem_writesTo (id newParentId : JsString) (afterId : Option JsString) :
    WritesTo newIds doc (moveItem lib doc' id newParentId afterId actor).2 := by
  unfold moveItem
  split_ifs
  · exact h
  · dsimp only
    split
    · exact h
    · rename_i move hmove
      exact placeBetween_writesTo actor h hmove _ _ _ _

theorem deleteItem_writesTo (id token : JsString) (reading : ℕ) :
    WritesTo newIds doc (deleteItem doc' id token actor reading).2 := by
  unfold deleteItem
  split
  · exact h
  · exact h.deleted _ _ _

theorem undeleteItem_writesTo (id token : JsString) :
    WritesTo newIds doc (undeleteItem doc' id token actor).2 := by
  unfold undeleteItem
  split
  · exact h
  · exact h.deleted _ _ _

theorem splitItem_writesTo (id : JsString) (offset : ℤ) {newId : JsString} (hid : newId ∈ newIds) :
    WritesTo newIds doc (splitItem lib doc' id offset newId actor).2 := by
  unfold splitItem
  split
  · exact h
  · rename_i move _
    dsimp only
    split
    · rename_i heq
      rw [← congrArg Prod.snd heq]
      exact insertItem_writesTo actor ((h.ensured id).truncated _ _ _) hid _ _
    · rename_i d heq
      have hd := congrArg Prod.snd heq
      dsimp only at hd
      rw [← hd]
      exact ((insertItem_writesTo actor
        ((h.ensured id).truncated _ _ _) hid _ _).ensured newId).inserted _ _ _

theorem adoptChildren_writesTo (targetId : JsString) (children : List OutlineNode) (reading : ℕ)
    (lastRank : Option JsString) :
    WritesTo newIds doc (adoptChildren lib targetId actor reading lastRank children doc').2 := by
  induction children generalizing doc' reading lastRank with
  | nil => exact h
  | cons child rest ih =>
    unfold adoptChildren
    split
    · exact ih h _ _
    · rename_i childMove hmove
      split
      · exact h
      · exact ih (h.placed (Or.inl (isSome_of_moveOf hmove)) _) _ _

theorem mergeIntoPrevious_writesTo (id targetId token : JsString) :
    WritesTo newIds doc (mergeIntoPrevious lib doc' id targetId token actor).2 := by
  have hensured := (h.ensured id).ensured targetId
  unfold mergeIntoPrevious
  dsimp only
  split
  · split
    · rename_i heq
      rw [← congrArg Prod.snd heq]
      exact adoptChildren_writesTo actor (hensured.inserted targetId _ _) targetId _ 0 _
    · rename_i reading d heq
      have hd : WritesTo newIds doc ((.ok reading, d) : Except JsError ℕ × Doc).2 := by
        rw [← heq]
        exact adoptChildren_writesTo actor (hensured.inserted targetId _ _) targetId _ 0 _
      have hdel := deleteItem_writesTo actor hd id token reading
      split <;> rename_i heq' <;> rw [heq'] at hdel <;> exact hdel
  · exact hensured

end Commands

theorem toggleCompleted_writes (doc : Doc) (id : JsString) : toggleCompleted doc id =
    doc.updateNode id (Field.isCompleted (!((doc.items.get id).bind Node.isCompleted).getD false)).set := by
  unfold toggleCompleted Doc.updateNode
  cases doc.items.get id with
  | none => rfl
  | some node => rfl

theorem run_writesTo (lib : FractionalIndexing) (doc : Doc) (actor : Actor) (cmd : Command) :
    WritesTo cmd.newIds doc (cmd.run lib doc actor).2 := by
  have h := WritesTo.refl cmd.newIds doc
  cases cmd with
  | insertItem newId parentId afterId =>
    exact insertItem_writesTo actor h (Finset.mem_singleton_self _) parentId afterId
  | splitItem id offset newId => exact splitItem_writesTo actor h id offset (Finset.mem_singleton_self _)
  | indent id => exact indent_writesTo actor h id
  | outdent id => exact outdent_writesTo actor h id
  | moveWithinSiblings id direction => exact moveWithinSiblings_writesTo actor h id direction
  | moveItem id newParentId afterId => exact moveItem_writesTo actor h id newParentId afterId
  | mergeIntoPrevious id targetId token => exact mergeIntoPrevious_writesTo actor h id targetId token
  | deleteItem id token => exact deleteItem_writesTo actor h id token 0
  | undeleteItem id token => exact undeleteItem_writesTo actor h id token
  | toggleCompleted id =>
    change WritesTo _ doc (toggleCompleted doc id)
    rw [toggleCompleted_writes]
    exact h.field id _
  | setIsCollapsed id value => exact h.field id (.isCollapsed value)
  | setItemType id type => exact h.field id (.type type)

end OpenOutliner
