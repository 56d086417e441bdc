import OpenOutliner.Crdt.CommandOutcome
import OpenOutliner.Crdt.TextEdits

/-!
Where the text of a split item goes. The tail leaves the item before the new item is placed, and a
failing placement does not bring it back.
-/

namespace OpenOutliner

open Foundations

section Text

theorem splitText_of_not_cuts {t : JsString} {i : ℕ} (h : cutsPair t i = false) :
    splitText t i = (t.take i, t.drop i) := by
  unfold splitText
  unfold cutsPair at h
  split
  · rename_i high low hhigh hlow
    rw [hhigh, hlow] at h
    dsimp only at h
    rw [h]
    rfl
  · rfl

theorem deleteText_tail {t : JsString} {i : ℕ} (h : cutsPair t i = false) :
    deleteText t i (t.length - i) = t.take i := by
  have hnil : (t.drop i).drop (t.length - i) = [] := by
    rw [List.drop_drop]
    apply List.drop_eq_nil_of_le
    omega
  have hend : cutsPair (t.drop i) (t.length - i) = false := by
    unfold cutsPair
    rw [hnil]
    simp
  rw [deleteText, splitText_of_not_cuts h]
  dsimp only
  rw [splitText_of_not_cuts hend]
  dsimp only
  rw [hnil, List.append_nil]

theorem insertText_nil (s : JsString) : insertText [] 0 s = s := by
  simp [insertText, splitText]

end Text

section Contents

variable {doc : Doc} {id x : JsString} {clamped : ℕ} {after t : JsString}

theorem Doc.writeMove_contentOf (move : MoveRegister) (hx : x ≠ id) :
    (doc.writeMove id move).contentOf x = doc.contentOf x := by
  unfold Doc.writeMove
  split_ifs
  · rfl
  · rw [Doc.contentOf, Doc.setNode_get, if_neg hx]
    rfl

theorem Doc.updateNode_contentOf (f : Node → Node) (hx : x ≠ id) :
    (doc.updateNode id f).contentOf x = doc.contentOf x := by
  rw [Doc.contentOf, Doc.updateNode_get, if_neg hx]
  rfl

theorem Doc.ensureContent_getD (id x : JsString) :
    ((doc.ensureContent id).contentOf x).getD [] = (doc.contentOf x).getD [] := by
  by_cases hx : x = id
  · rw [hx, Doc.contentOf, Doc.contentOf, Doc.ensureContent, Doc.updateNode_get, if_pos rfl]
    cases doc.items.get id <;> rfl
  · rw [Doc.ensureContent, Doc.updateNode_contentOf _ hx]

theorem Doc.editContent_contentOf (id : JsString) (f : JsString → JsString) :
    (doc.editContent id f).contentOf id = (doc.contentOf id).map f := by
  rw [Doc.contentOf, Doc.contentOf, Doc.editContent, Doc.updateNode_get, if_pos rfl]
  cases doc.items.get id <;> rfl

theorem truncateContent_contentOf_other (hx : x ≠ id) :
    (truncateContent doc id clamped after).contentOf x = doc.contentOf x := by
  unfold truncateContent
  split_ifs
  · rfl
  · exact Doc.updateNode_contentOf _ hx

theorem truncateContent_contentOf (ht : doc.contentOf id = some t) (hcuts : cutsPair t clamped = false) :
    (truncateContent doc id clamped (t.drop clamped)).contentOf id = some (t.take clamped) := by
  unfold truncateContent
  split_ifs with hafter
  · rw [ht, ← List.take_append_drop clamped t, hafter]
    simp
  · rw [Doc.editContent_contentOf, ht, Option.map_some, deleteText_tail hcuts]

theorem insertContent_contentOf_other {at_ : ℕ} {s : JsString} (hx : x ≠ id) :
    (insertContent doc id at_ s).contentOf x = doc.contentOf x := by
  unfold insertContent
  split_ifs
  · rfl
  · exact Doc.updateNode_contentOf _ hx

theorem insertContent_contentOf (s : JsString) (h : doc.contentOf id = some []) :
    (insertContent doc id 0 s).contentOf id = some s := by
  unfold insertContent
  split_ifs with hs
  · rw [h, hs]
  · rw [Doc.editContent_contentOf, h, Option.map_some, insertText_nil]

theorem truncateContent_getChildren (p : JsString) :
    (truncateContent doc id clamped after).getChildren p = doc.getChildren p := by
  unfold truncateContent
  split_ifs
  · rfl
  · exact Doc.editContent_getChildren _ _ _

end Contents

def clampedOffset (t : JsString) (offset : ℤ) : ℕ := (max 0 (min offset t.length)).toNat

/-- A rank for `newId` exists after `id` among the children of `parentId`. -/
def RoomAfter (lib : FractionalIndexing) (doc : Doc) (parentId id newId : JsString) : Prop :=
  ∃ rank, rankBetween lib (boundsAfter (doc.getChildren parentId) (some id)).1
    (boundsAfter (doc.getChildren parentId) (some id)).2 newId = .ok rank

/-- The text of `id` is still there, in two parts or untouched, and no other item's text changed. -/
def KeepsText (doc doc' : Doc) (id newId : JsString) (offset : ℤ) : Prop :=
  let t := (doc.contentOf id).getD []
  (((doc'.contentOf id).getD [] = t.take (clampedOffset t offset) ∧
      (doc'.contentOf id).getD [] ++ (doc'.contentOf newId).getD [] = t) ∨ doc' = doc) ∧
    ∀ x, x ≠ id → x ≠ newId → doc'.contentOf x = doc.contentOf x

section Split

variable {lib : FractionalIndexing} {actor : Actor} {doc : Doc} {id newId : JsString} {offset : ℤ}

theorem roomAfter_iff {Key : JsString → Prop} (hlib : lib.Lawful Key) (h : RanksValid Key doc)
    (parentId : JsString) :
    RoomAfter lib doc parentId id newId ↔ ¬ TiedAfter (doc.getChildren parentId) (some id) := by
  rw [← boundsAfter_tied (doc.getChildren_ids_nodup parentId)]
  rcases rankBetween_gap hlib (boundsAfter_gap h parentId (some id)) newId with ⟨ht, e, he⟩ | ⟨ht, k, hk, -⟩
  · refine iff_of_false ?_ (not_not_intro ht)
    rintro ⟨k, hk⟩
    rw [he] at hk
    cases hk
  · exact iff_of_true ⟨k, hk⟩ ht

def truncated (doc : Doc) (id : JsString) (offset : ℤ) : Doc :=
  let t := (doc.contentOf id).getD []
  truncateContent (doc.ensureContent id) id (clampedOffset t offset) (t.drop (clampedOffset t offset))

theorem truncated_getChildren (p : JsString) :
    (truncated doc id offset).getChildren p = doc.getChildren p := by
  unfold truncated
  rw [truncateContent_getChildren, Doc.ensureContent_getChildren]

theorem splitItem_eq {move : MoveRegister} (hmove : doc.moveOf id = some move) :
    splitItem lib doc id offset newId actor =
      match insertItem lib (truncated doc id offset) newId move.parentId (some id) actor with
      | (.error e, doc) => (.error e, doc)
      | (.ok (), d) => (.ok true, insertContent (d.ensureContent newId) newId 0
          (((doc.contentOf id).getD []).drop (clampedOffset ((doc.contentOf id).getD []) offset))) := by
  unfold splitItem
  rw [hmove]
  simp only [Doc.ensureContent_getD]
  rfl

theorem splitItem_without_room (actor : Actor) (offset : ℤ) {move : MoveRegister}
    (hmove : doc.moveOf id = some move) (hroom : ¬ RoomAfter lib doc move.parentId id newId) :
    ∃ e, splitItem lib doc id offset newId actor = (.error e, truncated doc id offset) := by
  rw [splitItem_eq hmove]
  unfold insertItem buildInsertMove
  simp only [truncated_getChildren]
  cases hrank : rankBetween lib (boundsAfter (doc.getChildren move.parentId) (some id)).1
    (boundsAfter (doc.getChildren move.parentId) (some id)).2 newId with
  | ok rank => exact absurd ⟨rank, hrank⟩ hroom
  | error e => exact ⟨e, rfl⟩

theorem splitItem_with_room (actor : Actor) (offset : ℤ) {move : MoveRegister} {rank : JsString}
    (hmove : doc.moveOf id = some move)
    (hrank : rankBetween lib (boundsAfter (doc.getChildren move.parentId) (some id)).1
      (boundsAfter (doc.getChildren move.parentId) (some id)).2 newId = .ok rank) :
    ∃ placed, placed.parentId = move.parentId ∧ placed.rank = rank ∧
      splitItem lib doc id offset newId actor =
        (.ok true,
          insertContent (((truncated doc id offset).writeMove newId placed).ensureContent newId) newId 0
          (((doc.contentOf id).getD []).drop (clampedOffset ((doc.contentOf id).getD []) offset))) := by
  rw [splitItem_eq hmove]
  unfold insertItem buildInsertMove
  simp only [truncated_getChildren]
  rw [hrank]
  refine ⟨⟨move.parentId, rank, tickHlc none (actor.ctx 0).nowMs (actor.ctx 0).replicaId⟩, rfl, rfl, ?_⟩
  rfl

theorem truncated_other {x : JsString} (hx : x ≠ id) :
    (truncated doc id offset).contentOf x = doc.contentOf x := by
  unfold truncated
  rw [truncateContent_contentOf_other hx, Doc.ensureContent, Doc.updateNode_contentOf _ hx]

theorem truncated_contentOf {t : JsString} (ht : (doc.contentOf id).getD [] = t)
    (hid : (doc.items.get id).isSome = true) (hcuts : cutsPair t (clampedOffset t offset) = false) :
    (truncated doc id offset).contentOf id = some (t.take (clampedOffset t offset)) := by
  have hcontent : (doc.ensureContent id).contentOf id = some t := by
    obtain ⟨u, hu⟩ := Option.isSome_iff_exists.mp (Doc.ensureContent_contentOf hid id (Or.inl rfl))
    rw [← ht, ← Doc.ensureContent_getD id id, hu, Option.getD_some]
  unfold truncated
  rw [ht]
  exact truncateContent_contentOf hcontent hcuts

theorem truncated_fresh (hne : newId ≠ id) (hfresh : doc.items.get newId = none) :
    (truncated doc id offset).items.get newId = none := by
  unfold truncated truncateContent
  dsimp only
  split_ifs <;> simp [Doc.ensureContent, Doc.editContent, hne, hfresh]

theorem placed_contentOf {d : Doc} {placed : MoveRegister} (hroot : d.rootId ≠ some newId)
    (hfresh : d.items.get newId = none) (s : JsString) :
    (insertContent ((d.writeMove newId placed).ensureContent newId) newId 0 s).contentOf newId = some s := by
  apply insertContent_contentOf
  rw [Doc.writeMove, if_neg fun h => hroot h.1, hfresh]
  simp [Doc.contentOf, Doc.ensureContent, freshNode]

theorem placed_contentOf_other {d : Doc} {placed : MoveRegister} {x : JsString} (hx : x ≠ newId)
    (s : JsString) :
    (insertContent ((d.writeMove newId placed).ensureContent newId) newId 0 s).contentOf x =
    d.contentOf x := by
  rw [insertContent_contentOf_other hx, Doc.ensureContent, Doc.updateNode_contentOf _ hx,
    Doc.writeMove_contentOf _ hx]

theorem truncated_rootId : (truncated doc id offset).rootId = doc.rootId := by
  unfold truncated truncateContent
  dsimp only
  split_ifs <;> simp [Doc.ensureContent, Doc.editContent]

/-- A split keeps the text of its item exactly when it has no tail to move or finds room for the new item.
On ranks that commands wrote it finds room exactly when the next of the raw parent's children does not have
the same rank. -/
theorem splitItem_keepsText_iff {Key : JsString → Prop} (hvisible : Visible doc id)
    (hcuts : cutsPair ((doc.contentOf id).getD []) (clampedOffset ((doc.contentOf id).getD []) offset) =
      false)
    (hfresh : doc.items.get newId = none) (hroot : doc.rootId ≠ some newId) :
    ∃ move, doc.moveOf id = some move ∧
      (KeepsText doc (splitItem lib doc id offset newId actor).2 id newId offset ↔
        ((doc.contentOf id).getD []).drop (clampedOffset ((doc.contentOf id).getD []) offset) = [] ∨
          RoomAfter lib doc move.parentId id newId) ∧
      (lib.Lawful Key → RanksValid Key doc →
        (RoomAfter lib doc move.parentId id newId ↔
          ¬ TiedAfter (doc.getChildren move.parentId) (some id))) := by
  obtain ⟨move, hmove⟩ := hvisible.moveOf
  refine ⟨move, hmove, ?_, fun hlib h => roomAfter_iff hlib h move.parentId⟩
  have hid := hvisible.get
  have hne : newId ≠ id := by
    rintro rfl
    rw [hfresh] at hid
    cases hid
  generalize ht : (doc.contentOf id).getD [] = t at hcuts ⊢
  have hhead := truncated_contentOf ht hid hcuts
  unfold KeepsText
  rw [ht]
  dsimp only
  by_cases hroom : RoomAfter lib doc move.parentId id newId
  · apply iff_of_true _ (Or.inr hroom)
    obtain ⟨rank, hrank⟩ := hroom
    obtain ⟨placed, -, -, hsplit⟩ := splitItem_with_room actor offset hmove hrank
    rw [hsplit, ht]
    dsimp only
    constructor
    · left
      rw [placed_contentOf_other hne.symm, hhead,
        placed_contentOf (by rwa [truncated_rootId]) (truncated_fresh hne hfresh)]
      exact ⟨rfl, List.take_append_drop _ _⟩
    · intro x hx hxn
      rw [placed_contentOf_other hxn, truncated_other hx]
  · obtain ⟨e, hsplit⟩ := splitItem_without_room actor offset hmove hroom
    rw [hsplit, or_iff_left hroom]
    dsimp only
    have hnew : (truncated doc id offset).contentOf newId = none := by
      rw [Doc.contentOf, truncated_fresh hne hfresh]
      rfl
    rw [hhead, hnew]
    have htail : t.take (clampedOffset t offset) = t → t.drop (clampedOffset t offset) = [] := by
      intro hall
      apply List.drop_eq_nil_of_le
      rwa [List.take_eq_self_iff] at hall
    constructor
    · rintro ⟨⟨-, hkept⟩ | hsame, -⟩
      · apply htail
        rwa [Option.getD_none, List.append_nil, Option.getD_some] at hkept
      · apply htail
        rw [hsame] at hhead
        rw [hhead, Option.getD_some] at ht
        exact ht
    · intro htail
      refine ⟨Or.inl ⟨rfl, ?_⟩, fun x hx _ => truncated_other hx⟩
      have := List.take_append_drop (clampedOffset t offset) t
      rw [htail] at this
      exact this

end Split

section Examples

def typed : JsString := js ['h', 'i']

def typedInto : Doc :=
  (bothInserted.editContent (js ['a']) fun _ => typed).editContent (js ['q']) fun _ => typed

theorem editContent_merged {doc : Doc} {rootId : JsString} (hv : doc.schemaVersion = some 2)
    (hr : doc.rootId = some rootId) (id : JsString) (f : JsString → JsString) :
    Merged rootId [doc] (doc.editContent id f) := by
  refine ⟨by simp [Doc.editContent, hv], by simp [Doc.editContent, hr], fun x node hget => ?_⟩
  rw [Doc.editContent, Doc.updateNode_get] at hget
  split_ifs at hget with hx
  · obtain ⟨old, hold, rfl⟩ := Option.map_eq_some_iff.mp hget
    obtain ⟨h1, h2, h3, h4, h5, h6, h7⟩ := mergedNode_of_mem (List.mem_singleton_self old)
    simp only [List.filterMap_cons, hold, List.filterMap_nil]
    exact ⟨h1, h2, h3, h4, h5, h6, h7⟩
  · apply mergedNode_of_mem
    simp [hget]

theorem typedInto_reachable : Reachable sampleKeys (js ['r']) typedInto := by
  have hone : ∀ {doc : Doc} {s : Doc}, Reachable sampleKeys (js ['r']) doc → s ∈ [doc] →
      Reachable sampleKeys (js ['r']) s := by
    intro doc s h hs
    rwa [List.mem_singleton.mp hs]
  apply Reachable.merged _ (editContent_merged rfl rfl _ _)
  intro s hs
  apply hone _ hs
  apply Reachable.merged _ (editContent_merged rfl rfl _ _)
  intro s hs
  exact hone bothInserted_reachable hs

theorem splitItem_keepsText_typed : ∃ move, typedInto.moveOf (js ['q']) = some move ∧
    (KeepsText typedInto (splitItem sampleKeys typedInto (js ['q']) 1 (js ['z']) deviceA).2 (js ['q'])
      (js ['z']) 1 ↔
      ((typedInto.contentOf (js ['q'])).getD []).drop
      (clampedOffset ((typedInto.contentOf (js ['q'])).getD []) 1) = [] ∨
        RoomAfter sampleKeys typedInto move.parentId (js ['q']) (js ['z'])) ∧
    (sampleKeys.Lawful SampleKey → RanksValid SampleKey typedInto →
      (RoomAfter sampleKeys typedInto move.parentId (js ['q']) (js ['z']) ↔
        ¬ TiedAfter (typedInto.getChildren move.parentId) (some (js ['q'])))) := by
  have hvisible : ∃ n ∈ typedInto.placedNodes, n.id = js ['q'] ∧ typedInto.isLive n = true := by decide
  exact splitItem_keepsText_iff hvisible (by decide) (by decide) (by decide)

/-- Splitting `a` in the middle throws, and its tail is gone. -/
theorem splitItem_loses_tail : sampleKeys.Lawful SampleKey ∧ Reachable sampleKeys (js ['r']) typedInto ∧
    Visible typedInto (js ['a']) ∧ typedInto.contentOf (js ['a']) = some typed ∧ cutsPair typed 1 = false ∧
    typedInto.items.get (js ['z']) = none ∧ typedInto.rootId ≠ some (js ['z']) ∧
    (splitItem sampleKeys typedInto (js ['a']) 1 (js ['z']) deviceA).1 =
      .error (.rankOrder (js ['a', 'C']) (js ['a', 'C'])) ∧
    (splitItem sampleKeys typedInto (js ['a']) 1 (js ['z']) deviceA).2.contentOf (js ['a']) =
      some (js ['h']) ∧
    (splitItem sampleKeys typedInto (js ['a']) 1 (js ['z']) deviceA).2.items.get (js ['z']) = none ∧
    ¬ KeepsText typedInto (splitItem sampleKeys typedInto (js ['a']) 1 (js ['z']) deviceA).2 (js ['a'])
      (js ['z']) 1 := by
  have hvisible : ∃ n ∈ typedInto.placedNodes, n.id = js ['a'] ∧ typedInto.isLive n = true := by decide
  have hcontent : typedInto.contentOf (js ['a']) = some typed := rfl
  have hhead : (splitItem sampleKeys typedInto (js ['a']) 1 (js ['z']) deviceA).2.contentOf (js ['a']) =
    some (js ['h']) := rfl
  have hnew : (splitItem sampleKeys typedInto (js ['a']) 1 (js ['z']) deviceA).2.items.get (js ['z']) =
      none := rfl
  refine ⟨sampleKeys_lawful, typedInto_reachable, hvisible, hcontent, by decide, by decide, by decide, rfl,
    hhead, hnew, ?_⟩
  unfold KeepsText
  rw [hcontent, hhead, Doc.contentOf, hnew]
  rintro ⟨⟨-, hkept⟩ | hsame, -⟩
  · exact absurd hkept (by decide)
  · rw [hsame, hcontent] at hhead
    exact absurd hhead (by decide)

end Examples

end OpenOutliner
