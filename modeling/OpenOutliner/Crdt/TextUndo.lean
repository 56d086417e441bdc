import OpenOutliner.Crdt.UndoAlignment
import OpenOutliner.Crdt.UndoReplay

namespace OpenOutliner

open Foundations OutlineHistory

structure OnlyTexts (doc doc' : Doc) : Prop where
  versioned : doc'.schemaVersion = doc.schemaVersion
  rooted : doc'.rootId = doc.rootId
  registers : ∀ x, (doc'.items.get x).map Node.registers = (doc.items.get x).map Node.registers
  texts : ∀ x, (doc'.contentOf x).isSome = (doc.contentOf x).isSome

def ShowsWhere (doc : Doc) (a b : JsString → JsString) : Prop :=
  ∀ x, a x ≠ b x → doc.registersOf x ≠ none ∧ (doc.contentOf x).isSome = true ∧ doc.textOf x = b x

/-- A text manager; `reverts k a b` says that the transaction of the stack item `k` took the texts from `a`
to `b`, and inverting such an item takes them back. -/
structure TextUndo (K : Type) where
  invert : Invert (Doc × Unit) K
  reverts : K → (JsString → JsString) → (JsString → JsString) → Prop
  inverts : ∀ {k a b doc}, reverts k a b → ShowsWhere doc a b →
    ∃ doc' k', invert k (doc, ()) = some ((doc', ()), k') ∧ OnlyTexts doc doc' ∧
    reverts k' doc.textOf doc'.textOf ∧
      ∀ x, doc'.textOf x = if a x = b x then doc.textOf x else a x

inductive Segment {K : Type} (M : TextUndo K) (a b : JsString → JsString) : List K → Prop
  | none : a = b → Segment M a b []
  | one {k : K} : M.reverts k a b → Segment M a b [k]

section Texts

variable {doc doc' u : Doc} {x y id : JsString}

namespace OnlyTexts

theorem refl (doc : Doc) : OnlyTexts doc doc := ⟨rfl, rfl, fun _ => rfl, fun _ => rfl⟩

theorem trans (h : OnlyTexts doc doc') (h' : OnlyTexts doc' u) : OnlyTexts doc u :=
  ⟨h'.versioned.trans h.versioned, h'.rooted.trans h.rooted, fun x => (h'.registers x).trans (h.registers x),
    fun x => (h'.texts x).trans (h.texts x)⟩

theorem registersOf (h : OnlyTexts doc doc') (x : JsString) : doc'.registersOf x = doc.registersOf x :=
  registersOf_ext h.versioned (h.registers x)

theorem items (h : OnlyTexts doc doc') (x : JsString) :
    (doc'.items.get x).isSome = (doc.items.get x).isSome := by
  have hmap := congrArg Option.isSome (h.registers x)
  rwa [Option.isSome_map, Option.isSome_map] at hmap

end OnlyTexts

theorem onlyTexts_editContent (doc : Doc) (id : JsString) (f : JsString → JsString) :
    OnlyTexts doc (doc.editContent id f) := by
  refine ⟨doc.updateNode_schemaVersion id _, doc.updateNode_rootId id _,
    fun x => updateNode_registers id fun _ => rfl, ?_⟩
  intro x
  rw [Doc.contentOf, Doc.editContent, Doc.updateNode_get]
  split_ifs
  · rw [Doc.contentOf]
    cases doc.items.get x with
    | none => rfl
    | some node => exact Option.isSome_map
  · rfl

theorem textOf_of_get (hv : doc'.schemaVersion = doc.schemaVersion)
    (hget : doc'.items.get x = doc.items.get x) :
    doc'.textOf x = doc.textOf x := by
  rw [Doc.textOf, Doc.textOf, Doc.snapshot, Doc.snapshot, hget, hv]

theorem textOf_editContent_other (f : JsString → JsString) (hx : x ≠ id) :
    (doc.editContent id f).textOf x = doc.textOf x :=
  textOf_of_get (doc.updateNode_schemaVersion id _) (updateNode_other _ hx)

theorem textOf_editContent (f : JsString → JsString) (hx : doc.registersOf x ≠ none)
    (htext : (doc.contentOf x).isSome = true) : (doc.editContent x f).textOf x = f (doc.textOf x) := by
  have hx' : (doc.editContent x f).registersOf x ≠ none := by
    rwa [(onlyTexts_editContent doc x f).registersOf]
  obtain ⟨t, ht⟩ := Option.isSome_iff_exists.mp htext
  rw [textOf_present hx', textOf_present hx, ht, Option.getD_some]
  obtain ⟨node, hget, hcontent⟩ := Option.bind_eq_some_iff.mp ht
  rw [Doc.contentOf, Doc.editContent, Doc.updateNode_get, if_pos rfl, hget, Option.map_some,
    Option.bind_some, hcontent]
  rfl

end Texts

section Manager

variable {K : Type} {M : TextUndo K} {h : OutlineHistory Unit K} {a : Action} {side : Side}
  {mint : JsString → JsString} {segment rest : List K} {p q : JsString → JsString}

theorem apply_texts (hsegment : Segment M p q segment) (hlength : segment.length = textSteps a)
    (hstack : h.manager.stack side = segment ++ rest)
    (hshows : ShowsWhere (replay side mint h.doc (changes a)) p q) :
    ∀ u, u = replay side mint h.doc (changes a) → ∀ h', h' = OutlineHistory.apply M.invert mint h a side →
      (h'.undo = h.undo ∧ h'.redo = h.redo) ∧ OnlyTexts u h'.doc ∧
      (∀ x, h'.doc.textOf x = if p x = q x then u.textOf x else p x) ∧
      ∃ segment', Segment M u.textOf h'.doc.textOf segment' ∧ segment'.length = textSteps a ∧
        h'.manager.stack side = rest ∧
        h'.manager.stack side.flip = segment' ++ h.manager.stack side.flip := by
  rintro u hu h' rfl
  rw [← hu] at hshows
  cases hsegment with
  | none hsame =>
    have hstep : OutlineHistory.apply M.invert mint h a side = { h with doc := u } := by
      unfold OutlineHistory.apply
      rw [← hlength, List.length_nil, Function.iterate_zero, hu]
      rfl
    rw [hstep]
    refine ⟨⟨rfl, rfl⟩, OnlyTexts.refl u, ?_, [], .none rfl, hlength, hstack, rfl⟩
    intro x
    rw [if_pos (congrFun hsame x)]
  | @one k hreverts =>
    obtain ⟨doc', k', hinvert, honly, hback, htexts⟩ := M.inverts hreverts hshows
    obtain ⟨hd, hside, hother⟩ := step_effective hstack hinvert
    have hstep : OutlineHistory.apply M.invert mint h a side =
        { h with doc := doc', manager := (UndoManager.step M.invert side (h.manager, (u, ()))).1 } := by
      unfold OutlineHistory.apply
      rw [← hlength, List.length_singleton, Function.iterate_one, ← hu]
      dsimp only
      have hpair : UndoManager.step M.invert side (h.manager, (u, h.texts)) =
          ((UndoManager.step M.invert side (h.manager, (u, ()))).1, (doc', ())) := Prod.ext rfl hd
      rw [hpair]
    rw [hstep]
    exact ⟨⟨rfl, rfl⟩, honly, htexts, [k'], .one hback, hlength, hside, hother⟩

end Manager

section Instance

structure TextItem where
  before : JsString → JsString
  after : JsString → JsString

def setTexts (doc : Doc) (ids : List JsString) (text : JsString → JsString) : Doc :=
  ids.foldl (fun doc x => doc.editContent x fun _ => text x) doc

theorem setTexts_spec (doc : Doc) (ids : List JsString) (text : JsString → JsString)
    (h : ∀ x ∈ ids, doc.registersOf x ≠ none ∧ (doc.contentOf x).isSome = true) :
    OnlyTexts doc (setTexts doc ids text) ∧
      ∀ x, (setTexts doc ids text).textOf x = if x ∈ ids then text x else doc.textOf x := by
  induction ids generalizing doc with
  | nil => exact ⟨.refl doc, fun _ => rfl⟩
  | cons id ids ih =>
    have honly := onlyTexts_editContent doc id fun _ => text id
    obtain ⟨hrest, htexts⟩ := ih (doc.editContent id fun _ => text id) (by
      intro x hx
      rw [honly.registersOf, honly.texts]
      exact h x (List.mem_cons_of_mem _ hx))
    refine ⟨honly.trans hrest, ?_⟩
    intro x
    change (setTexts (doc.editContent id fun _ => text id) ids text).textOf x = _
    rw [htexts]
    by_cases hx : x = id
    · subst hx
      obtain ⟨hpresent, htext⟩ := h x List.mem_cons_self
      rw [if_pos List.mem_cons_self, textOf_editContent _ hpresent htext, ite_self]
    · rw [textOf_editContent_other _ hx]
      simp [hx]

def TextItem.changed (k : TextItem) (doc : Doc) : List JsString :=
  doc.items.keys.filter fun x => k.before x ≠ k.after x

def wholeTexts : TextUndo TextItem where
  invert k d :=
    let doc := setTexts d.1 (k.changed d.1) k.before
    some ((doc, ()), ⟨d.1.textOf, doc.textOf⟩)
  reverts k a b := k.before = a ∧ k.after = b
  inverts := by
    rintro k a b doc ⟨rfl, rfl⟩ hshows
    have hmem : ∀ x, x ∈ k.changed doc ↔ k.before x ≠ k.after x := by
      intro x
      simp only [TextItem.changed, List.mem_filter, decide_eq_true_eq, and_iff_right_iff_imp]
      intro hne
      obtain ⟨r, hr⟩ := Option.ne_none_iff_exists'.mp (hshows x hne).1
      obtain ⟨node, hget, -⟩ := registersOf_iff.mp hr
      exact (OrderedMap.mem_keys_iff _ _).mpr ⟨node, hget⟩
    obtain ⟨honly, htexts⟩ := setTexts_spec doc (k.changed doc) k.before fun x hx =>
      ⟨(hshows x ((hmem x).mp hx)).1, (hshows x ((hmem x).mp hx)).2.1⟩
    refine ⟨_, _, rfl, honly, ⟨rfl, rfl⟩, ?_⟩
    intro x
    rw [htexts]
    by_cases hx : k.before x = k.after x
    · rw [if_pos hx, if_neg fun hin => (hmem x).mp hin hx]
    · rw [if_neg hx, if_pos ((hmem x).mpr hx)]

end Instance

end OpenOutliner
