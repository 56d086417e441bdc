import OpenOutliner.Client.PortableTree

namespace OpenOutliner

open Foundations Relation

structure ReadsAs (value : JsValue) (item : PortableItem) : Prop where
  id : value.field "id" = .string item.id
  parentId : value.field "parentId" = (item.parentId.map JsValue.string).getD .null
  rank : value.field "rank" = .string item.rank
  type : value.field "type" = .string item.type.text
  content : value.field "content" = .string item.content
  note : value.field "note" = .string item.note
  isCompleted : value.field "isCompleted" = .boolean item.isCompleted
  deleted : value.field "deleted" = (item.deleted.map JsValue.boolean).getD .undefined

/-- `input` is the document `value`, up to fields that nobody reads. -/
structure WellFormed (input : JsValue) (value : PortableDocument) : Prop where
  object : input.isObject = true
  format : input.field "format" = .string FORMAT
  version : input.field "version" = .number 2
  title : input.field "title" = .string value.title
  items : ∃ values, input.field "items" = .array values ∧ List.Forall₂ ReadsAs values value.items
  nonempty : value.items ≠ []
  bounded : value.items.length ≤ MAX_ITEMS
  named : ∀ i ∈ value.items, i.id ≠ []
  distinct : (value.items.map PortableItem.id).Nodup

def Follows (items : List PortableItem) (x y : JsString) : Prop :=
  ∃ i ∈ items, i.id = x ∧ i.parentId = some y ∧ y ≠ ROOT_PARENT_SENTINEL

/-- Exactly one item has no parent, and every item leads to it. -/
def RootedTree (items : List PortableItem) : Prop :=
  ∃ root ∈ items, (∀ i ∈ items, i.parentId = none ↔ i = root) ∧
    ∀ i ∈ items, ReflTransGen (Follows items) i.id root.id

section Readers

variable {value : JsValue} {values : List JsValue} {item : PortableItem} {items : List PortableItem}

theorem string?_iff {s : JsString} : value.string? = some s ↔ value = .string s := by
  cases value <;> simp [JsValue.string?]

theorem number?_iff {n : ℤ} : value.number? = some n ↔ value = .number n := by
  cases value <;> simp [JsValue.number?]

theorem boolean?_iff {b : Bool} : value.boolean? = some b ↔ value = .boolean b := by
  cases value <;> simp [JsValue.boolean?]

theorem array?_iff : value.array? = some values ↔ value = .array values := by
  cases value <;> simp [JsValue.array?]

theorem nullable?_iff {p : Option JsString} : value.nullable? = some p ↔
    value = (p.map JsValue.string).getD .null := by
  cases value <;> cases p <;> simp [JsValue.nullable?]

theorem optional?_iff {b : Option Bool} : value.optional? = some b ↔
    value = (b.map JsValue.boolean).getD .undefined := by
  cases value <;> cases b <;> simp [JsValue.optional?]

theorem itemType?_iff {t : ItemType} : value.itemType? = some t ↔ value = .string t.text := by
  constructor
  · intro h
    obtain ⟨s, hs, ht⟩ := Option.bind_eq_some_iff.mp h
    have htext := List.find?_some ht
    rw [string?_iff.mp hs, of_decide_eq_true htext]
  · rintro rfl
    exact itemType_text t

theorem readItem_iff : readItem value = some item ↔ ReadsAs value item ∧ item.id ≠ [] := by
  constructor
  · intro h
    refine ⟨?_, readItem_named h⟩
    unfold readItem at h
    simp only [Option.bind_eq_bind, Option.bind_eq_some_iff, Option.filter_eq_some_iff] at h
    obtain ⟨id, ⟨hid, -⟩, parentId, hparent, rank, hrank, type, htype, content, hcontent, note, hnote,
        isCompleted,
      hcompleted, deleted, hdeleted, h⟩ := h
    cases h
    exact ⟨string?_iff.mp hid, nullable?_iff.mp hparent, string?_iff.mp hrank, itemType?_iff.mp htype,
      string?_iff.mp hcontent, string?_iff.mp hnote, boolean?_iff.mp hcompleted, optional?_iff.mp hdeleted⟩
  · rintro ⟨h, hid⟩
    have hnamed : ((some item.id).filter fun x => !decide (x = [])) = some item.id := by
      rw [Option.filter_some, if_pos (by simpa using hid)]
    unfold readItem
    rw [string?_iff.mpr h.id, nullable?_iff.mpr h.parentId, string?_iff.mpr h.rank, itemType?_iff.mpr h.type,
      string?_iff.mpr h.content, string?_iff.mpr h.note, boolean?_iff.mpr h.isCompleted,
      optional?_iff.mpr h.deleted]
    simp [hnamed]

theorem readItems_iff {seen : List JsString} : readItems seen values = some items ↔
    List.Forall₂ ReadsAs values items ∧
    (∀ i ∈ items, i.id ≠ []) ∧ (items.map PortableItem.id).Nodup ∧ ∀ i ∈ items, i.id ∉ seen := by
  constructor
  · intro h
    refine ⟨?_, (readItems_spec h).2⟩
    induction values generalizing seen items with
    | nil =>
      cases h
      exact .nil
    | cons value values ih =>
      rw [readItems] at h
      split at h
      · cases h
      · rename_i item hitem
        split at h
        · cases h
        · obtain ⟨rest, hrest, rfl⟩ := Option.map_eq_some_iff.mp h
          exact .cons (readItem_iff.mp hitem).1 (ih hrest)
  · rintro ⟨hreads, hnamed, hnd, hnew⟩
    induction hreads generalizing seen with
    | nil => rfl
    | @cons value item values items hitem _ ih =>
      obtain ⟨hid, hnamed⟩ := List.forall_mem_cons.mp hnamed
      obtain ⟨hfirst, hnew⟩ := List.forall_mem_cons.mp hnew
      rw [List.map_cons, List.nodup_cons] at hnd
      rw [readItems, readItem_iff.mpr ⟨hitem, hid⟩]
      dsimp only
      rw [if_neg hfirst, ih hnamed hnd.2, Option.map_some]
      intro i hi
      rw [List.mem_cons, not_or]
      refine ⟨fun he => hnd.1 ?_, hnew i hi⟩
      rw [← he]
      exact List.mem_map_of_mem hi

end Readers

section Trees

variable {items : List PortableItem} {root : PortableItem} {value : PortableDocument}

theorem rootedTree_iff (hnd : (items.map PortableItem.id).Nodup) : RootedTree items ↔
    ∃ root, IsPortableTree items root := by
  constructor
  · rintro ⟨root, hmem, htop, hreach⟩
    refine ⟨root, hnd, hmem, htop, ?_, ?_⟩
    · intro i hi p hp
      have hroot : i.id ≠ root.id := by
        intro he
        rw [List.inj_on_of_nodup_map hnd hi hmem he, (htop root hmem).mpr rfl] at hp
        cases hp
      obtain ⟨y, ⟨j, hj, hid, hy, hplain⟩, hrest⟩ :=
        (ReflTransGen.cases_head (hreach i hi)).resolve_left hroot
      rw [List.inj_on_of_nodup_map hnd hj hi hid, hp] at hy
      obtain rfl := Option.some.inj hy
      refine ⟨?_, hplain⟩
      rcases ReflTransGen.cases_head hrest with rfl | ⟨z, ⟨k, hk, rfl, -⟩, -⟩
      · exact List.mem_map_of_mem hmem
      · exact List.mem_map_of_mem hk
    · intro i hi
      apply (hreach i hi).lift id
      rintro a b ⟨j, hj, hid, hb, -⟩
      exact ⟨j, hj, hid, hb⟩
  · rintro ⟨root, ht⟩
    refine ⟨root, ht.mem, ht.top, fun i hi => ?_⟩
    apply (ht.reaches i hi).lift id
    rintro a b ⟨j, hj, hid, hb⟩
    exact ⟨j, hj, hid, hb, (ht.listed j hj b hb).2⟩

theorem accepted_iff : Accepted value ↔ value.items ≠ [] ∧ value.items.length ≤ MAX_ITEMS ∧
    (∀ i ∈ value.items, i.id ≠ []) ∧
    (value.items.map PortableItem.id).Nodup ∧ RootedTree value.items := by
  constructor
  · intro h
    exact ⟨h.nonempty, h.bounded, h.named, h.distinct, (rootedTree_iff h.distinct).mpr h.isTree⟩
  · rintro ⟨-, hlen, hnamed, hnd, htree⟩
    obtain ⟨root, ht⟩ := (rootedTree_iff hnd).mp htree
    exact ht.accepted rfl hlen hnamed

end Trees

section Check

variable {input : JsValue} {value : PortableDocument}

theorem validatePortable_wellFormed (h : validatePortable input = .ok value) : WellFormed input value := by
  have haccepted := validatePortable_accepted h
  unfold validatePortable at h
  split at h
  · cases h
  · rename_i hobject
    split at h
    · rename_i title values htitle hvalues
      split at h
      · cases h
      · rename_i hok
        simp only [not_or, not_not] at hok
        split at h
        · cases h
        · rename_i items hitems
          split at h
          · split at h
            · cases h
              exact ⟨by simpa using hobject, string?_iff.mp hok.1, number?_iff.mp hok.2.1,
                string?_iff.mp htitle,
                ⟨values, array?_iff.mp hvalues, (readItems_iff.mp hitems).1⟩, haccepted.nonempty,
                haccepted.bounded,
                haccepted.named, haccepted.distinct⟩
            · cases h
          · cases h
    · cases h

theorem validatePortable_of_wellFormed (h : WellFormed input value) (htree : RootedTree value.items) :
    validatePortable input = .ok value := by
  have haccepted := accepted_iff.mpr ⟨h.nonempty, h.bounded, h.named, h.distinct, htree⟩
  obtain ⟨root, hroot, hrecovered⟩ := haccepted.tree
  obtain ⟨values, hvalues, hreads⟩ := h.items
  have hlen := hreads.length_eq
  have hread : readItems [] values = some value.items :=
    readItems_iff.mpr ⟨hreads, h.named, h.distinct, by simp⟩
  have hnonempty : values ≠ [] := by
    rintro rfl
    exact h.nonempty (List.length_eq_zero_iff.mp hlen.symm)
  unfold validatePortable
  rw [if_neg (by simp [h.object]), string?_iff.mpr h.title, array?_iff.mpr hvalues]
  dsimp only
  rw [if_neg, hread]
  · dsimp only
    rw [hroot]
    dsimp only
    rw [if_pos hrecovered]
  · simp only [string?_iff.mpr h.format, number?_iff.mpr h.version, not_or, not_not, not_lt]
    exact ⟨trivial, trivial, hnonempty, hlen.trans_le h.bounded⟩

/-- The check accepts the well-formed documents that are trees with one root, and throws on everything else.
-/
theorem validatePortable_iff (input : JsValue) :
    (∀ value, validatePortable input = .ok value ↔ WellFormed input value ∧ RootedTree value.items) ∧
      ((¬ ∃ value, WellFormed input value ∧ RootedTree value.items) →
        ∃ e, validatePortable input = .error e) := by
  have hiff : ∀ value, validatePortable input = .ok value ↔
      WellFormed input value ∧ RootedTree value.items := by
    intro value
    constructor
    · intro h
      have hwell := validatePortable_wellFormed h
      exact ⟨hwell, (rootedTree_iff hwell.distinct).mpr (validatePortable_accepted h).isTree⟩
    · rintro ⟨hwell, htree⟩
      exact validatePortable_of_wellFormed hwell htree
  refine ⟨hiff, fun hno => ?_⟩
  cases h : validatePortable input with
  | error e => exact ⟨e, rfl⟩
  | ok value => exact absurd ⟨value, (hiff value).mp h⟩ hno

end Check

end OpenOutliner
