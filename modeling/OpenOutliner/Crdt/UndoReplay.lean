import OpenOutliner.Crdt.ReplayEffect

namespace OpenOutliner

open Foundations OutlineHistory

/-- What an action tells of the step from `d` to `e`. An item that it inserted may be there before, deleted,
once the action has been undone. -/
structure TakesTo (a : Action) (d e : Doc) : Prop where
  nodup : ((changes a).map Change.id).Nodup
  others : ∀ x ∉ (changes a).map Change.id, d.registersOf x = e.registersOf x
  after : ∀ c ∈ changes a, ∃ s, c.after = some s ∧ e.registersOf c.id = some s.registers
  before : ∀ c ∈ changes a, ∀ s, c.before = some s → d.registersOf c.id = some s.registers
  inserted : ∀ c ∈ changes a, c.before = none → ∀ s, c.after = some s →
    d.registersOf c.id = none ∨ d.registersOf c.id = some (s.move, true, s.isCompleted)

structure Replayed (s u : Doc) : Prop where
  versioned : u.schemaVersion = s.schemaVersion
  rooted : u.rootId = s.rootId
  items : ∀ x, (u.items.get x).isSome = (s.items.get x).isSome
  present : ∀ x, u.registersOf x = none ↔ s.registersOf x = none
  contents : ∀ x, u.contentOf x = s.contentOf x

theorem Replayed.texts {s u : Doc} (h : Replayed s u) (x : JsString) : u.textOf x = s.textOf x := by
  by_cases hx : s.registersOf x = none
  · rw [textOf_none hx, textOf_none ((h.present x).mpr hx)]
  · rw [textOf_present hx, textOf_present fun hu => hx ((h.present x).mp hu), h.contents]

section Changes

variable {c : Change} {α : Type} [DecidableEq α] {f : ItemNodeSnapshot → α} {a b : ItemNodeSnapshot}

theorem keeps_some (ha : c.before = some a) (hb : c.after = some b) : c.keeps f = true ↔ f a = f b := by
  rw [Change.keeps, ha, hb]
  exact decide_eq_true_iff

theorem keeps_none (ha : c.before = none) : c.keeps f = false := by
  rw [Change.keeps, ha]

end Changes

section Recording

variable {doc : Doc} {writes : List Write}

theorem takesTo_record (doc : Doc) (writes : List Write) (n : ℕ) :
    TakesTo (.structural (recordChanges doc writes) n) doc (runWrites doc writes) := by
  have hrec : ∀ c ∈ recordChanges doc writes, Recorded doc writes c := fun c hc => mem_recordChanges hc
  refine ⟨?_, ?_, ?_, ?_, ?_⟩
  · have hsub : ((recordChanges doc writes).map Change.id).Sublist (trackWrites doc writes).2.keys := by
      unfold recordChanges changesOf OrderedMap.keys
      rw [List.map_filterMap]
      have hentry : ∀ e : JsString × Option ItemNodeSnapshot,
          (if e.2 = (trackWrites doc writes).1.snapshot e.1 then none else
            some (⟨e.1, e.2, (trackWrites doc writes).1.snapshot e.1⟩ : Change)).map Change.id =
          if e.2 = (trackWrites doc writes).1.snapshot e.1 then none else some e.1 := by
        intro e
        split <;> rfl
      simp only [hentry]
      generalize (trackWrites doc writes).2.entries = entries
      induction entries with
      | nil => exact List.Sublist.slnil
      | cons e entries ih =>
        rw [List.filterMap_cons, List.map_cons]
        split
        · exact ih.cons _
        · rename_i x hx
          split at hx
          · cases hx
          · cases hx
            exact ih.cons_cons _
    exact hsub.nodup (OrderedMap.keys_nodup _)
  · intro x hx
    have hspec := trackWrites_spec doc writes
    rw [← trackWrites_doc]
    cases hget : (trackWrites doc writes).2.get x with
    | none => exact (registersOf_ext hspec.schemaVersion (hspec.unannounced x hget)).symm
    | some s =>
      have hsame : s = (trackWrites doc writes).1.snapshot x := by
        by_contra hne
        apply hx
        have hmem : (⟨x, s, (trackWrites doc writes).1.snapshot x⟩ : Change) ∈ recordChanges doc writes :=
          List.mem_filterMap.mpr ⟨(x, s), (OrderedMap.mem_entries_iff _ _ _).mpr hget, if_neg hne⟩
        exact List.mem_map_of_mem hmem
      rw [Doc.registersOf, Doc.registersOf, ← hspec.announced x s hget, hsame]
  · intro c hc
    obtain ⟨s, hs⟩ := Option.ne_none_iff_exists'.mp (hrec c hc).present
    refine ⟨s, hs, ?_⟩
    rw [Doc.registersOf, ← (hrec c hc).after, hs]
    rfl
  · intro c hc s hs
    rw [Doc.registersOf, ← (hrec c hc).before, hs]
    rfl
  · intro c hc hnone _ _
    left
    rw [Doc.registersOf, ← (hrec c hc).before, hnone]
    rfl

theorem recordChanges_ne_nil {x : JsString} (h : doc.registersOf x ≠ (runWrites doc writes).registersOf x) :
    recordChanges doc writes ≠ [] := by
  intro hnil
  have htakes := takesTo_record doc writes 0
  rw [hnil] at htakes
  exact h (htakes.others x List.not_mem_nil)

end Recording

theorem TakesTo.congr {a : Action} {d d' e e' : Doc} (h : TakesTo a d e)
    (hd : ∀ x, d'.registersOf x = d.registersOf x)
    (he : ∀ x, e'.registersOf x = e.registersOf x) : TakesTo a d' e' := by
  refine ⟨h.nodup, ?_, ?_, ?_, ?_⟩
  · intro x hx
    rw [hd, he, h.others x hx]
  · intro c hc
    rw [he]
    exact h.after c hc
  · intro c hc
    rw [hd]
    exact h.before c hc
  · intro c hc
    rw [hd]
    exact h.inserted c hc

theorem replayed {side : Side} {mint : JsString → JsString} {s : Doc} {a : Action}
    (hnodup : ((changes a).map Change.id).Nodup) (h : ∀ c ∈ changes a, Replayable side (mint c.id) c s) :
    Replayed s (replay side mint s (changes a)) ∧
    (∀ c ∈ changes a, (replay side mint s (changes a)).registersOf c.id =
      (s.registersOf c.id).map (c.shownAfter side)) ∧
    ∀ x ∉ (changes a).map Change.id, (replay side mint s (changes a)).registersOf x = s.registersOf x := by
  have hnamed := replay_registers hnodup h
  have hversion := replay_schemaVersion side mint s (changes a)
  have hrest : ∀ x ∉ (changes a).map Change.id,
      (replay side mint s (changes a)).registersOf x = s.registersOf x := by
    intro x hx
    exact registersOf_ext hversion (by rw [replay_other hx])
  refine ⟨⟨hversion, replay_rootId side mint s (changes a), replay_items side mint s (changes a), ?_,
    replay_contentOf side mint s (changes a)⟩, hnamed,
    hrest⟩
  intro x
  by_cases hx : x ∈ (changes a).map Change.id
  · obtain ⟨c, hc, rfl⟩ := List.mem_map.mp hx
    rw [hnamed c hc, Option.map_eq_none_iff]
  · rw [hrest x hx]

section Undo

variable {rootId : JsString} {a : Action} {d e s : Doc} {mint : JsString → JsString}

theorem TakesTo.root_kept (h : TakesTo a d e) (hd : Sane rootId d)
    (he : ∃ m c, e.registersOf rootId = some (m, false, c))
    {c : Change} (hc : c ∈ changes a) (hroot : c.id = rootId) :
    ∃ b, c.before = some b ∧ b.move.parentId = ROOT_PARENT_SENTINEL ∧
    c.keeps (fun s => s.deleted.isDeleted) = true := by
  obtain ⟨move, completed, hshown, hparent⟩ := hd.root
  obtain ⟨s, hafter, hs⟩ := h.after c hc
  rw [← hroot] at hshown he
  cases hb : c.before with
  | none =>
    rcases h.inserted c hc hb s hafter with hnone | hsome
    · rw [hshown] at hnone
      cases hnone
    · rw [hshown] at hsome
      cases hsome
  | some b =>
    have hbefore := h.before c hc b hb
    rw [hshown] at hbefore
    obtain ⟨m, completed', he⟩ := he
    rw [hs] at he
    have hb1 := congrArg Prod.fst (Option.some.inj hbefore)
    have hb2 := congrArg (fun r => r.2.1) (Option.some.inj hbefore)
    have hs2 := congrArg (fun r => r.2.1) (Option.some.inj he)
    refine ⟨b, rfl, ?_, (keeps_some hb hafter).mpr (hb2.symm.trans hs2.symm)⟩
    rw [← show move = b.move from hb1]
    exact hparent

variable (h : TakesTo a d e) (hd : Sane rootId d) (hs : Sane rootId s) (hagree : Agree e s)
  (hfresh : ∀ x, FreshToken s x (mint x))

include h hd hs hagree hfresh

theorem undo_replayable : ∀ c ∈ changes a, Replayable .before (mint c.id) c s := by
  intro c hc
  obtain ⟨t, hafter, ht⟩ := h.after c hc
  have hshown : s.registersOf c.id = some t.registers := by
    rw [hagree.registers (ht ▸ Option.some_ne_none _), ht]
  refine ⟨hshown ▸ Option.some_ne_none _, ?_, ?_, hfresh c.id⟩
  · intro r state hr hstate
    rw [hshown] at hr
    obtain rfl := Option.some.inj hr
    have hbefore : c.before = some state := hstate
    rw [keeps_some hbefore hafter, keeps_some hbefore hafter, hbefore, hafter, Option.map_some,
      Option.map_some,
      Option.some.injEq]
    exact ⟨Eq.symm, Eq.symm, Eq.symm⟩
  · intro hroot
    rw [hs.rooted] at hroot
    have he : ∃ m c, e.registersOf rootId = some (m, false, c) := by
      obtain ⟨m, completed, hm, -⟩ := hs.root
      rw [Option.some.inj hroot] at hm ⊢
      rw [hshown, ← ht] at hm
      exact ⟨m, completed, hm⟩
    exact h.root_kept hd he hc (Option.some.inj hroot).symm

theorem undo_replay : ∀ u, u = replay .before mint s (changes a) → Replayed s u ∧ TakesTo a u s ∧
    (∀ x, d.registersOf x ≠ none → u.registersOf x = d.registersOf x) ∧
    ∀ x r, d.registersOf x = none → u.registersOf x = some r → r.2.1 = true := by
  rintro u rfl
  obtain ⟨hreplayed, hnamed, hothers⟩ := replayed h.nodup (undo_replayable h hd hs hagree hfresh)
  have hshown : ∀ c ∈ changes a, ∃ t, c.after = some t ∧ s.registersOf c.id = some t.registers := by
    intro c hc
    obtain ⟨t, hafter, ht⟩ := h.after c hc
    exact ⟨t, hafter, by rw [hagree.registers (ht ▸ Option.some_ne_none _), ht]⟩
  have hkept : ∀ c ∈ changes a, ∀ b, c.before = some b →
      (replay .before mint s (changes a)).registersOf c.id = some b.registers := by
    intro c hc b hb
    obtain ⟨t, -, ht⟩ := hshown c hc
    rw [hnamed c hc, ht, Option.map_some, Change.shownAfter, show c.state .before = some b from hb]
  have hbare : ∀ c ∈ changes a, c.before = none → ∀ t, c.after = some t →
      (replay .before mint s (changes a)).registersOf c.id = some (t.move, true, t.isCompleted) := by
    intro c hc hb t hafter
    obtain ⟨t', hafter', ht⟩ := hshown c hc
    rw [hafter] at hafter'
    obtain rfl := Option.some.inj hafter'
    rw [hnamed c hc, ht, Option.map_some, Change.shownAfter, show c.state .before = none from hb]
    rfl
  refine ⟨hreplayed, ⟨h.nodup, hothers, hshown, hkept, ?_⟩, ?_, ?_⟩
  · intro c hc hb t hafter
    exact Or.inr (hbare c hc hb t hafter)
  · intro x hx
    by_cases hmem : x ∈ (changes a).map Change.id
    · obtain ⟨c, hc, rfl⟩ := List.mem_map.mp hmem
      cases hb : c.before with
      | some b => rw [hkept c hc b hb, h.before c hc b hb]
      | none =>
        obtain ⟨t, hafter, -⟩ := hshown c hc
        rw [hbare c hc hb t hafter, (h.inserted c hc hb t hafter).resolve_left hx]
    · have he := h.others x hmem
      rw [hothers x hmem, hagree.registers (he ▸ hx), he]
  · intro x r hnone hr
    by_cases hmem : x ∈ (changes a).map Change.id
    · obtain ⟨c, hc, rfl⟩ := List.mem_map.mp hmem
      cases hb : c.before with
      | some b =>
        have hbefore := h.before c hc b hb
        rw [hnone] at hbefore
        cases hbefore
      | none =>
        obtain ⟨t, hafter, -⟩ := hshown c hc
        rw [hbare c hc hb t hafter] at hr
        rw [← Option.some.inj hr]
    · rw [hothers x hmem] at hr
      rw [h.others x hmem] at hnone
      exact (hagree.extra x r hnone hr).1

end Undo

section Redo

variable {rootId : JsString} {a : Action} {s p : Doc} {mint : JsString → JsString} (h : TakesTo a s p)
  (hs : Sane rootId s) (hp : Sane rootId p) (hpresent : ∀ c ∈ changes a, s.registersOf c.id ≠ none)
  (hfresh : ∀ x, FreshToken s x (mint x))

include h hs hp hpresent hfresh

theorem redo_replayable : ∀ c ∈ changes a, Replayable .after (mint c.id) c s := by
  intro c hc
  obtain ⟨t, hafter, ht⟩ := h.after c hc
  refine ⟨hpresent c hc, ?_, ?_, hfresh c.id⟩
  · intro r state hr hstate
    obtain rfl : t = state := by
      rw [show c.state .after = c.after from rfl, hafter] at hstate
      exact Option.some.inj hstate
    cases hb : c.before with
    | none =>
      rw [keeps_none hb, keeps_none hb, hafter]
      exact ⟨nofun, nofun, nofun⟩
    | some b =>
      rw [h.before c hc b hb] at hr
      obtain rfl := Option.some.inj hr
      rw [keeps_some hb hafter, keeps_some hb hafter, hafter, Option.map_some, Option.map_some,
        Option.some.injEq]
      exact ⟨fun he => he, fun he => he, fun he => he⟩
  · intro hroot
    rw [hs.rooted] at hroot
    have hid := (Option.some.inj hroot).symm
    obtain ⟨m, completed, hm, hparent⟩ := hp.root
    obtain ⟨-, -, -, hkeeps⟩ := h.root_kept hs ⟨m, completed, hm⟩ hc hid
    refine ⟨t, hafter, ?_, hkeeps⟩
    rw [← hid, ht] at hm
    rw [show t.move = m from congrArg Prod.fst (Option.some.inj hm)]
    exact hparent

theorem redo_replay : ∀ u, u = replay .after mint s (changes a) → Replayed s u ∧ TakesTo a s u ∧
    ∀ x, u.registersOf x = p.registersOf x := by
  rintro u rfl
  obtain ⟨hreplayed, hnamed, hothers⟩ := replayed h.nodup (redo_replayable h hs hp hpresent hfresh)
  have hsame : ∀ x, (replay .after mint s (changes a)).registersOf x = p.registersOf x := by
    intro x
    by_cases hmem : x ∈ (changes a).map Change.id
    · obtain ⟨c, hc, rfl⟩ := List.mem_map.mp hmem
      obtain ⟨t, hafter, ht⟩ := h.after c hc
      obtain ⟨r, hr⟩ := Option.ne_none_iff_exists'.mp (hpresent c hc)
      rw [hnamed c hc, hr, ht, Option.map_some, Change.shownAfter, show c.state .after = some t from hafter]
    · rw [hothers x hmem, h.others x hmem]
  exact ⟨hreplayed, h.congr (fun _ => rfl) hsame, hsame⟩

end Redo

end OpenOutliner
