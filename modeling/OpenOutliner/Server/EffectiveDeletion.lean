import OpenOutliner.Foundations.Walk
import OpenOutliner.Server.Materialize

namespace OpenOutliner

open Foundations Relation

def snapshotIds (snapshots : List ItemNodeSnapshot) : List JsString := snapshots.map ItemNodeSnapshot.id

def ListedParent (snapshots : List ItemNodeSnapshot) (x y : JsString) : Prop :=
  ∃ s ∈ snapshots, s.id = x ∧ s.move.parentId = y ∧ isRootParent y = false ∧ y ∈ snapshotIds snapshots

def Flagged (snapshots : List ItemNodeSnapshot) (x : JsString) : Prop :=
  ∃ s ∈ snapshots, s.id = x ∧ s.deleted.isDeleted = true

/-- ADR-0006/0011: the register of the item is set, or that of an ancestor. -/
def EffectivelyDeleted (snapshots : List ItemNodeSnapshot) (x : JsString) : Prop :=
  ∃ y, ReflTransGen (ListedParent snapshots) x y ∧ Flagged snapshots y

abbrev snapshotMap (snapshots : List ItemNodeSnapshot) : OrderedMap JsString ItemNodeSnapshot :=
  .ofList (snapshots.map fun s => (s.id, s))

def visitWithin (fuel : ℕ) (snapshots : List ItemNodeSnapshot) (order : List JsString) :
    Option (OrderedMap JsString Bool) :=
  order.foldlM (fun memo id => (isDeletedWithin (snapshotMap snapshots) fuel memo ∅ id).map Prod.snd) .empty

theorem visitWithin_listed (fuel : ℕ) (snapshots : List ItemNodeSnapshot) :
    visitWithin fuel snapshots (snapshotIds snapshots) = computeEffectiveDeletedWithin fuel snapshots := by
  rw [visitWithin, snapshotIds, List.foldlM_map]
  rfl

section Graph

variable {snapshots : List ItemNodeSnapshot} {x y : JsString} {s : ItemNodeSnapshot}

theorem snapshotMap_get (hnd : (snapshotIds snapshots).Nodup) : (snapshotMap snapshots).get x = some s ↔
    s ∈ snapshots ∧ s.id = x :=
  OrderedMap.get_keyed_iff hnd

theorem snapshotMap_has (hnd : (snapshotIds snapshots).Nodup) : (snapshotMap snapshots).has x = true ↔
    x ∈ snapshotIds snapshots := by
  rw [OrderedMap.has_iff, snapshotIds, List.mem_map]
  exact exists_congr fun s => snapshotMap_get hnd

theorem snapshot_unique (hnd : (snapshotIds snapshots).Nodup) {t : ItemNodeSnapshot} (hs : s ∈ snapshots)
    (ht : t ∈ snapshots) (hid : s.id = t.id) : s = t :=
  Option.some.inj (((snapshotMap_get hnd).mpr ⟨hs, hid⟩).symm.trans ((snapshotMap_get hnd).mpr ⟨ht, rfl⟩))

theorem flagged_of_mem (hnd : (snapshotIds snapshots).Nodup) (hs : s ∈ snapshots) :
    Flagged snapshots s.id ↔ s.deleted.isDeleted = true := by
  constructor
  · rintro ⟨t, ht, hid, hflag⟩
    rwa [snapshot_unique hnd ht hs hid] at hflag
  · intro hflag
    exact ⟨s, hs, rfl, hflag⟩

theorem listedParent_iff (hnd : (snapshotIds snapshots).Nodup) (hs : s ∈ snapshots) :
    ListedParent snapshots s.id y ↔
    s.move.parentId = y ∧ isRootParent y = false ∧ y ∈ snapshotIds snapshots := by
  constructor
  · rintro ⟨t, ht, hid, hparent⟩
    rwa [snapshot_unique hnd ht hs hid] at hparent
  · intro hparent
    exact ⟨s, hs, rfl, hparent⟩

theorem listedParent_of_no_sentinel (hroot : ROOT_PARENT_SENTINEL ∉ snapshotIds snapshots) :
    ListedParent snapshots x y ↔ ∃ s ∈ snapshots, s.id = x ∧ s.move.parentId = y ∧
    y ∈ snapshotIds snapshots := by
  constructor
  · rintro ⟨s, hs, hid, hparent, -, hy⟩
    exact ⟨s, hs, hid, hparent, hy⟩
  · rintro ⟨s, hs, hid, hparent, hy⟩
    refine ⟨s, hs, hid, hparent, decide_eq_false ?_, hy⟩
    rintro rfl
    exact hroot hy

theorem effectivelyDeleted_of_flagged (h : Flagged snapshots x) : EffectivelyDeleted snapshots x :=
  ⟨x, .refl, h⟩

theorem effectivelyDeleted_iff (h : ¬ Flagged snapshots x) :
    EffectivelyDeleted snapshots x ↔ ∃ y, ListedParent snapshots x y ∧ EffectivelyDeleted snapshots y := by
  constructor
  · rintro ⟨z, hxz, hz⟩
    cases ReflTransGen.cases_head hxz with
    | inl heq => exact absurd (heq ▸ hz) h
    | inr hstep =>
      obtain ⟨y, hxy, hyz⟩ := hstep
      exact ⟨y, hxy, z, hyz, hz⟩
  · rintro ⟨y, hxy, z, hyz, hz⟩
    exact ⟨z, .head hxy hyz, hz⟩

theorem not_effectivelyDeleted_of_closed {seen : Finset JsString} (hclear : ∀ z ∈ seen, ¬ Flagged snapshots z)
    (hclosed : ∀ z ∈ seen, ∀ w, ListedParent snapshots z w → w ∈ seen) (hx : x ∈ seen) :
    ¬ EffectivelyDeleted snapshots x := by
  have hin : ∀ y, ReflTransGen (ListedParent snapshots) x y → y ∈ seen := by
    intro y hxy
    induction hxy with
    | refl => exact hx
    | tail _ hstep ih => exact hclosed _ ih _ hstep
  rintro ⟨y, hxy, hy⟩
  exact hclear y (hin y hxy) hy

end Graph

section Search

variable {snapshots : List ItemNodeSnapshot} {memo : OrderedMap JsString Bool} {seen : Finset JsString}
  {x : JsString}

/-- Each entry is final, also one made while ids of the loop that it is on were under way. -/
def MemoSound (snapshots : List ItemNodeSnapshot) (memo : OrderedMap JsString Bool) : Prop :=
  ∀ x b, memo.get x = some b → x ∈ snapshotIds snapshots ∧ (b = true ↔ EffectivelyDeleted snapshots x)

structure UnderWay (snapshots : List ItemNodeSnapshot) (seen : Finset JsString) (id : JsString) : Prop where
  listed : ∀ z ∈ seen, z ∈ snapshotIds snapshots
  clear : ∀ z ∈ seen, ¬ Flagged snapshots z
  next : ∀ z ∈ seen, ∀ w, ListedParent snapshots z w → w ∈ seen ∨ w = id

theorem UnderWay.empty : UnderWay snapshots ∅ x := ⟨by simp, by simp, by simp⟩

theorem UnderWay.step (hnd : (snapshotIds snapshots).Nodup) (h : UnderWay snapshots seen x) {y : JsString}
    {s : ItemNodeSnapshot} (hs : s ∈ snapshots) (hid : s.id = x) (hclear : s.deleted.isDeleted = false)
    (hparent : s.move.parentId = y) :
    UnderWay snapshots (insert x seen) y := by
  subst hid
  constructor
  · intro z hz
    rcases Finset.mem_insert.mp hz with rfl | hz
    · exact List.mem_map_of_mem hs
    · exact h.listed z hz
  · intro z hz
    rcases Finset.mem_insert.mp hz with rfl | hz
    · rw [flagged_of_mem hnd hs, hclear]
      exact Bool.false_ne_true
    · exact h.clear z hz
  · intro z hz w hstep
    rcases Finset.mem_insert.mp hz with rfl | hz
    · exact Or.inr ((((listedParent_iff hnd hs).mp hstep).1).symm.trans hparent)
    · rcases h.next z hz w hstep with hw | rfl
      · exact Or.inl (Finset.mem_insert_of_mem hw)
      · exact Or.inl (Finset.mem_insert_self ..)

theorem UnderWay.guard (h : UnderWay snapshots seen x) (hx : x ∈ seen) :
    ¬ EffectivelyDeleted snapshots x := by
  refine not_effectivelyDeleted_of_closed h.clear ?_ hx
  intro z hz w hstep
  rcases h.next z hz w hstep with hw | rfl
  · exact hw
  · exact hx

theorem MemoSound.empty : MemoSound snapshots .empty := fun _ _ h => nomatch h

theorem MemoSound.set (h : MemoSound snapshots memo) (hx : x ∈ snapshotIds snapshots) {b : Bool}
    (hb : b = true ↔ EffectivelyDeleted snapshots x) : MemoSound snapshots (memo.set x b) := by
  intro z b' hz
  rw [OrderedMap.get_set] at hz
  split at hz
  · rename_i heq
    obtain rfl := Option.some.inj hz
    exact heq ▸ ⟨hx, hb⟩
  · exact h z b' hz

def memoIds (memo : OrderedMap JsString Bool) : Finset JsString := memo.keys.toFinset

@[simp] theorem mem_memoIds : x ∈ memoIds memo ↔ ∃ b, memo.get x = some b := by
  rw [memoIds, List.mem_toFinset, OrderedMap.mem_keys_iff]

theorem memoIds_set (b : Bool) : memoIds (memo.set x b) = insert x (memoIds memo) := by
  ext z
  rw [Finset.mem_insert, mem_memoIds, mem_memoIds, OrderedMap.get_set]
  split
  · rename_i heq
    exact iff_of_true ⟨b, rfl⟩ (Or.inl heq)
  · rename_i hne
    exact (or_iff_right hne).symm

structure Answered (snapshots : List ItemNodeSnapshot) (memo : OrderedMap JsString Bool) (x : JsString)
    (result : Bool × OrderedMap JsString Bool) : Prop where
  value : result.1 = true ↔ EffectivelyDeleted snapshots x
  sound : MemoSound snapshots result.2
  kept : memoIds memo ⊆ memoIds result.2

theorem isDeletedWithin_spec (hnd : (snapshotIds snapshots).Nodup) {fuel : ℕ}
    (hmemo : MemoSound snapshots memo) (hway : UnderWay snapshots seen x) (hx : x ∈ snapshotIds snapshots)
    (hfuel : ((snapshotIds snapshots).toFinset \ seen).card < fuel) :
    ∃ result, isDeletedWithin (snapshotMap snapshots) fuel memo seen x = some result ∧
    Answered snapshots memo x result ∧
      (x ∉ seen → x ∈ memoIds result.2) := by
  induction fuel generalizing memo seen x with
  | zero => omega
  | succ fuel ih =>
    rw [isDeletedWithin]
    cases hget : memo.get x with
    | some cached =>
      exact ⟨_, rfl, ⟨(hmemo x cached hget).2, hmemo, Finset.Subset.refl _⟩,
        fun _ => mem_memoIds.mpr ⟨_, hget⟩⟩
    | none =>
      dsimp only
      by_cases hseen : x ∈ seen
      · rw [if_pos hseen]
        exact ⟨_, rfl, ⟨iff_of_false Bool.false_ne_true (hway.guard hseen), hmemo, Finset.Subset.refl _⟩,
          fun h => absurd hseen h⟩
      rw [if_neg hseen]
      obtain ⟨s, hs, rfl⟩ := List.mem_map.mp hx
      rw [(snapshotMap_get hnd).mpr ⟨hs, rfl⟩]
      dsimp only
      split
      · rename_i hcond
        obtain ⟨⟨hclear, hroot⟩, hhas⟩ :
            (s.deleted.isDeleted = false ∧ isRootParent s.move.parentId = false) ∧
            (snapshotMap snapshots).has s.move.parentId = true := by simpa using hcond
        have hlisted := (snapshotMap_has hnd).mp hhas
        have hless : ((snapshotIds snapshots).toFinset \ insert s.id seen).card <
            ((snapshotIds snapshots).toFinset \ seen).card := by
          rw [Finset.sdiff_insert]
          exact Finset.card_erase_lt_of_mem (Finset.mem_sdiff.mpr ⟨List.mem_toFinset.mpr hx, hseen⟩)
        obtain ⟨result, hrun, hanswer, -⟩ := ih hmemo (hway.step hnd hs rfl hclear rfl) hlisted (by omega)
        rw [hrun]
        have hvalue : result.1 = true ↔ EffectivelyDeleted snapshots s.id := by
          have hunflagged : ¬ Flagged snapshots s.id := by
            rw [flagged_of_mem hnd hs, hclear]
            exact Bool.false_ne_true
          rw [hanswer.value, effectivelyDeleted_iff hunflagged]
          constructor
          · intro hdel
            exact ⟨_, (listedParent_iff hnd hs).mpr ⟨rfl, hroot, hlisted⟩, hdel⟩
          · rintro ⟨y, hstep, hdel⟩
            rwa [((listedParent_iff hnd hs).mp hstep).1]
        refine ⟨_, rfl, ⟨hvalue, hanswer.sound.set hx hvalue, ?_⟩, fun _ => ?_⟩
        · rw [memoIds_set]
          exact hanswer.kept.trans (Finset.subset_insert ..)
        · rw [memoIds_set]
          exact Finset.mem_insert_self ..
      · rename_i hcond
        have hvalue : s.deleted.isDeleted = true ↔ EffectivelyDeleted snapshots s.id := by
          cases hflag : s.deleted.isDeleted with
          | true => exact iff_of_true rfl (effectivelyDeleted_of_flagged ⟨s, hs, rfl, hflag⟩)
          | false =>
            have hunflagged : ¬ Flagged snapshots s.id := by
              rw [flagged_of_mem hnd hs, hflag]
              exact Bool.false_ne_true
            refine iff_of_false Bool.false_ne_true ?_
            rw [effectivelyDeleted_iff hunflagged]
            rintro ⟨y, hstep, -⟩
            obtain ⟨rfl, hroot, hlisted⟩ := (listedParent_iff hnd hs).mp hstep
            exact hcond (by rw [hflag, hroot, (snapshotMap_has hnd).mpr hlisted]; rfl)
        refine ⟨_, rfl, ⟨hvalue, hmemo.set hx hvalue, ?_⟩, fun _ => ?_⟩
        · rw [memoIds_set]
          exact Finset.subset_insert ..
        · rw [memoIds_set]
          exact Finset.mem_insert_self ..

theorem visitWithin_spec (hnd : (snapshotIds snapshots).Nodup) {fuel : ℕ} (hfuel : snapshots.length < fuel)
    {order : List JsString} (horder : order ⊆ snapshotIds snapshots) :
    ∃ memo, visitWithin fuel snapshots order = some memo ∧ MemoSound snapshots memo ∧
    ∀ x ∈ order, x ∈ memoIds memo := by
  have hstep : ∀ memo, MemoSound snapshots memo → ∀ id ∈ snapshotIds snapshots,
      ∃ memo', (isDeletedWithin (snapshotMap snapshots) fuel memo ∅ id).map Prod.snd = some memo' ∧
        MemoSound snapshots memo' ∧ memoIds memo ⊆ memoIds memo' ∧ id ∈ memoIds memo' := by
    intro memo hmemo id hid
    have hcard : ((snapshotIds snapshots).toFinset \ ∅).card < fuel := by
      have hle := List.toFinset_card_le (snapshotIds snapshots)
      rw [snapshotIds, List.length_map] at hle
      rw [Finset.sdiff_empty]
      exact hle.trans_lt hfuel
    obtain ⟨result, hrun, hanswer, hknown⟩ := isDeletedWithin_spec hnd hmemo UnderWay.empty hid hcard
    exact ⟨result.2, by rw [hrun]; rfl, hanswer.sound, hanswer.kept, hknown (Finset.notMem_empty _)⟩
  obtain ⟨memo, hrun, hsound, -, hall⟩ := foldlM_settles memoIds id hstep horder MemoSound.empty
  exact ⟨memo, hrun, hsound, hall⟩

theorem visitWithin_get (hnd : (snapshotIds snapshots).Nodup) {fuel : ℕ} (hfuel : snapshots.length < fuel)
    {order : List JsString} (horder : ∀ x, x ∈ order ↔ x ∈ snapshotIds snapshots) :
    ∃ memo, visitWithin fuel snapshots order = some memo ∧
      ∀ x b, memo.get x = some b ↔ x ∈ snapshotIds snapshots ∧
      (b = true ↔ EffectivelyDeleted snapshots x) := by
  have hsub : order ⊆ snapshotIds snapshots := fun x hx => (horder x).mp hx
  obtain ⟨memo, hrun, hsound, hall⟩ := visitWithin_spec hnd hfuel hsub
  refine ⟨memo, hrun, fun x b => ⟨hsound x b, ?_⟩⟩
  rintro ⟨hx, hb⟩
  obtain ⟨b', hb'⟩ := mem_memoIds.mp (hall x ((horder x).mpr hx))
  rw [hb', Bool.eq_iff_iff.mpr ((hsound x b' hb').2.trans hb.symm)]

end Search

section Fuel

variable {byId : OrderedMap JsString ItemNodeSnapshot} {fuel more : ℕ}

theorem isDeletedWithin_mono {memo : OrderedMap JsString Bool} {seen : Finset JsString} {id : JsString}
    {result : Bool × OrderedMap JsString Bool} (hle : fuel ≤ more)
    (h : isDeletedWithin byId fuel memo seen id = some result) :
    isDeletedWithin byId more memo seen id = some result := by
  induction fuel generalizing more memo seen id result with
  | zero => cases h
  | succ fuel ih =>
    obtain ⟨more, rfl⟩ : ∃ m, more = m + 1 := ⟨more - 1, by omega⟩
    rw [isDeletedWithin] at h ⊢
    cases hget : memo.get id with
    | some cached => rwa [hget] at h
    | none =>
      rw [hget] at h
      dsimp only at h ⊢
      by_cases hseen : id ∈ seen
      · rwa [if_pos hseen] at h ⊢
      rw [if_neg hseen] at h ⊢
      cases hnode : byId.get id with
      | none => rwa [hnode] at h
      | some node =>
        rw [hnode] at h
        dsimp only at h ⊢
        split at h
        · rename_i hcond
          obtain ⟨inner, hinner, rfl⟩ := Option.map_eq_some_iff.mp h
          rw [if_pos hcond, ih (by omega) hinner]
          rfl
        · rename_i hcond
          rwa [if_neg hcond]

theorem visitWithin_mono {snapshots : List ItemNodeSnapshot} {order : List JsString}
    {memo : OrderedMap JsString Bool}
    (hle : fuel ≤ more) (h : visitWithin fuel snapshots order = some memo) :
    visitWithin more snapshots order = some memo := by
  refine foldlM_mono ?_ h
  intro memo id memo' hstep
  obtain ⟨result, hrun, rfl⟩ := Option.map_eq_some_iff.mp hstep
  rw [isDeletedWithin_mono hle hrun]
  rfl

end Fuel

section Definition

variable {snapshots : List ItemNodeSnapshot}

theorem computeEffectiveDeleted_spec (hnd : (snapshotIds snapshots).Nodup) :
    (∀ fuel, snapshots.length < fuel →
      computeEffectiveDeletedWithin fuel snapshots = some (computeEffectiveDeleted snapshots)) ∧
      ∀ x b, (computeEffectiveDeleted snapshots).get x = some b ↔
        x ∈ snapshotIds snapshots ∧ (b = true ↔ EffectivelyDeleted snapshots x) := by
  obtain ⟨memo, hrun, hget⟩ := visitWithin_get hnd (Nat.lt_succ_self snapshots.length) fun _ => Iff.rfl
  have heq : computeEffectiveDeleted snapshots = memo := by
    rw [computeEffectiveDeleted, ← visitWithin_listed, hrun]
    rfl
  rw [heq]
  refine ⟨fun fuel hfuel => ?_, hget⟩
  rw [← visitWithin_listed]
  exact visitWithin_mono hfuel hrun

theorem effectivelyDeleted_perm {other : List ItemNodeSnapshot} (h : other.Perm snapshots) {x : JsString} :
    EffectivelyDeleted other x ↔ EffectivelyDeleted snapshots x := by
  have hids : ∀ y, y ∈ snapshotIds other ↔ y ∈ snapshotIds snapshots := fun y => (h.map _).mem_iff
  have hstep : ListedParent other = ListedParent snapshots := by
    funext y z
    simp only [ListedParent, h.mem_iff, hids]
  simp only [EffectivelyDeleted, Flagged, hstep, h.mem_iff]

theorem get_ext {m m' : OrderedMap JsString Bool} {P : JsString → Bool → Prop}
    (h : ∀ x b, m.get x = some b ↔ P x b)
    (h' : ∀ x b, m'.get x = some b ↔ P x b) (x : JsString) : m.get x = m'.get x :=
  Option.ext fun b => (h x b).trans (h' x b).symm

end Definition

/-- The search ends, and maps the listed ids, each to whether it or a listed ancestor is flagged, for
any order of the list and any order in which its ids are visited. -/
theorem computeEffectiveDeleted_correct (snapshots : List ItemNodeSnapshot)
    (hnd : (snapshotIds snapshots).Nodup) :
    (∀ fuel, snapshots.length < fuel →
      computeEffectiveDeletedWithin fuel snapshots = some (computeEffectiveDeleted snapshots)) ∧
    (∀ x b, (computeEffectiveDeleted snapshots).get x = some b ↔ x ∈ snapshotIds snapshots ∧ (b = true ↔
      ∃ y, ReflTransGen (ListedParent snapshots) x y ∧ Flagged snapshots y)) ∧
    (∀ other, other.Perm snapshots → ∀ x,
      (computeEffectiveDeleted other).get x = (computeEffectiveDeleted snapshots).get x) ∧
    (∀ fuel order, snapshots.length < fuel → (∀ x, x ∈ order ↔ x ∈ snapshotIds snapshots) →
      ∃ memo, visitWithin fuel snapshots order = some memo ∧
      ∀ x, memo.get x = (computeEffectiveDeleted snapshots).get x) ∧
    (ROOT_PARENT_SENTINEL ∉ snapshotIds snapshots → ∀ x y, ListedParent snapshots x y ↔
      ∃ s ∈ snapshots, s.id = x ∧ s.move.parentId = y ∧ y ∈ snapshotIds snapshots) := by
  obtain ⟨hends, hget⟩ := computeEffectiveDeleted_spec hnd
  refine ⟨hends, hget, ?_, ?_, fun hroot x y => listedParent_of_no_sentinel hroot⟩
  · intro other hperm
    have hnd' : (snapshotIds other).Nodup := (hperm.map _).nodup_iff.mpr hnd
    refine get_ext (computeEffectiveDeleted_spec hnd').2 fun x b => (hget x b).trans ?_
    rw [effectivelyDeleted_perm hperm]
    exact and_congr_left' (hperm.map _).mem_iff.symm
  · intro fuel order hfuel horder
    obtain ⟨memo, hrun, hmemo⟩ := visitWithin_get hnd hfuel horder
    exact ⟨memo, hrun, get_ext hmemo hget⟩

section Example

def snapshotOf (id parentId : JsString) (isDeleted : Bool) : ItemNodeSnapshot :=
  ⟨id, ⟨parentId, js ['a', '0'], ⟨1, 0, js ['r']⟩⟩, ⟨isDeleted, ⟨1, 0, js ['r']⟩⟩, .bullet, [], false,
    false, none⟩

def twoTombstoneLoops : List ItemNodeSnapshot :=
  [snapshotOf (js ['t']) (js ['x']) false, snapshotOf (js ['x']) (js ['y']) false,
    snapshotOf (js ['y']) (js ['x']) false,
    snapshotOf (js ['p']) (js ['q']) false, snapshotOf (js ['q']) (js ['p']) true,
    snapshotOf (js ['d']) (js ['g']) false]

theorem computeEffectiveDeleted_correct_twoLoops :
    (computeEffectiveDeleted twoTombstoneLoops).get (js ['t']) = some false ∧
      (computeEffectiveDeleted twoTombstoneLoops).get (js ['p']) = some true ∧
      ∃ y, ReflTransGen (ListedParent twoTombstoneLoops) (js ['p']) y ∧ Flagged twoTombstoneLoops y := by
  have hvalue : (computeEffectiveDeleted twoTombstoneLoops).get (js ['p']) = some true := by decide
  have hget := (computeEffectiveDeleted_correct twoTombstoneLoops (by decide)).2.1 (js ['p']) true
  exact ⟨by decide, hvalue, (hget.mp hvalue).2.mp rfl⟩

def sentinelItem : List ItemNodeSnapshot :=
  [snapshotOf ROOT_PARENT_SENTINEL (js ['x']) true, snapshotOf (js ['c']) ROOT_PARENT_SENTINEL false]

/-- The parent is listed and flagged, and the search does not go there. -/
theorem computeEffectiveDeleted_sentinelItem :
    (snapshotIds sentinelItem).Nodup ∧
    (∃ s ∈ sentinelItem, s.id = js ['c'] ∧ s.move.parentId = ROOT_PARENT_SENTINEL) ∧
      ROOT_PARENT_SENTINEL ∈ snapshotIds sentinelItem ∧ Flagged sentinelItem ROOT_PARENT_SENTINEL ∧
      (computeEffectiveDeleted sentinelItem).get (js ['c']) = some false := by
  refine ⟨by decide, ⟨_, List.mem_cons_of_mem _ List.mem_cons_self, rfl, rfl⟩, by decide,
    ⟨_, List.mem_cons_self, rfl, rfl⟩, ?_⟩
  decide

end Example

end OpenOutliner
