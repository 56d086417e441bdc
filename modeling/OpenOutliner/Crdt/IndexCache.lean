import OpenOutliner.Crdt.SharedTypes
import OpenOutliner.Foundations.Machine

/-!
The cached outline index over the transactions of one document. A transaction that has ended waits in a
queue until its listeners have run; a listener may open another one meanwhile.
-/

namespace OpenOutliner

open Foundations

/-- `before` is the document when the outermost call began, and `nested` the number of open calls inside it.
-/
structure YTransaction where
  before : Store
  changed : List SharedType
  nested : ℕ

structure CachedIndex where
  index : OutlineIndex
  dirty : Bool

/-- `cached` is the entry of the document in `indexes`; its listener is there once the entry is. -/
structure YDoc where
  store : Store
  transaction : Option YTransaction
  transactionCleanups : List YTransaction
  cached : Option CachedIndex

inductive YEvent
  | transact
  | finish
  | write (store : Store) (changed : List SharedType)
  | afterTransaction
  | read

def YTransaction.changesStructure (t : YTransaction) : Bool := t.changed.any fun type => !type.isText

def CachedIndex.afterTransaction (index : CachedIndex) (t : YTransaction) : CachedIndex :=
  if t.changesStructure then { index with dirty := true } else index

namespace YDoc

def loaded (store : Store) : YDoc := ⟨store, none, [], none⟩

def outlineIndex (y : YDoc) : Except TypeError OutlineIndex × YDoc :=
  let index := y.cached.getD ⟨⟨[], .empty, ∅⟩, true⟩
  if !index.dirty && y.transaction.isNone then (.ok index.index, { y with cached := some index })
  else
    match y.store.recompute with
    | .error e => (.error e, { y with cached := some index })
    | .ok fresh => (.ok fresh, { y with cached := some ⟨fresh, false⟩ })

/-- An inner call of `transact` joins the open transaction. -/
def step (y : YDoc) : YEvent → Option YDoc
  | .transact =>
    match y.transaction with
    | none => some { y with transaction := some ⟨y.store, [], 0⟩ }
    | some t => some { y with transaction := some { t with nested := t.nested + 1 } }
  | .finish =>
    match y.transaction with
    | none => none
    | some t =>
      if t.nested = 0
      then some { y with transaction := none, transactionCleanups := y.transactionCleanups ++ [t] }
      else some { y with transaction := some { t with nested := t.nested - 1 } }
  | .write store changed =>
    y.transaction.map fun t => { y with store, transaction := some { t with changed } }
  | .afterTransaction =>
    match y.transaction, y.transactionCleanups with
    | none, t :: cleanups =>
      some { y with
        transactionCleanups := cleanups, cached := y.cached.map fun index => index.afterTransaction t }
    | _, _ => none
  | .read => some y.outlineIndex.2

/-- Some transaction that changed more than text is open or waits for its listeners. -/
def Pending (y : YDoc) : Prop := ∃ t, (y.transaction = some t ∨ t ∈ y.transactionCleanups) ∧
    t.changesStructure = true

end YDoc

/-- Among the types that `transaction.changed` has are the maps that were there when the transaction began,
are still there and have other entries. -/
def ChangesRecorded (t : YTransaction) (old new : Store) (changed : List SharedType) : Prop :=
  t.changed ⊆ changed ∧ ∀ n, Held t.before (.map n) → Held new (.map n) → new.maps n ≠ old.maps n →
    SharedType.map n ∈ changed

def YjsAllows (y : YDoc) : YEvent → Prop
  | .write store changed => ∀ t ∈ y.transaction, ChangesRecorded t y.store store changed
  | _ => True

structure IndexCoherent (y : YDoc) : Prop where
  clean : ∀ index ∈ y.cached, index.dirty = false → y.Pending ∨ y.store.recompute = .ok index.index
  texts : ∀ t ∈ y.transaction, t.changesStructure = false → SameMaps t.before y.store

section Maps

variable {a b : Store} {t : YTransaction} {changed : List SharedType}

theorem sameMaps_refl (a : Store) : SameMaps a a := fun _ _ => rfl

theorem sameMaps_held (h : SameMaps a b) {type : SharedType} (ht : Held b type) : Held a type := by
  induction ht with
  | itemsMap => exact .itemsMap
  | metaMap => exact .metaMap
  | entry hn hkey ih =>
    rw [h _ hn] at hkey
    exact .entry ih hkey

theorem map_structural {n : ℕ} (h : SharedType.map n ∈ t.changed) : t.changesStructure = true := by
  unfold YTransaction.changesStructure
  rw [List.any_eq_true]
  exact ⟨_, h, rfl⟩

theorem changesStructure_subset (h : t.changed ⊆ changed) (ht : t.changesStructure = true) :
    ({ t with changed } : YTransaction).changesStructure = true := by
  unfold YTransaction.changesStructure at ht ⊢
  rw [List.any_eq_true] at ht ⊢
  obtain ⟨type, htype, htext⟩ := ht
  exact ⟨type, h htype, htext⟩

theorem sameMaps_write (hsame : SameMaps t.before a) (hrec : ChangesRecorded t a b changed)
    (htexts : ({ t with changed } : YTransaction).changesStructure = false) : SameMaps t.before b := by
  have hstays : ∀ n, Held t.before (.map n) → Held b (.map n) → b.maps n = a.maps n := by
    intro n hbefore hnow
    by_contra hne
    have hmem : SharedType.map n ∈ ({ t with changed } : YTransaction).changed := hrec.2 n hbefore hnow hne
    rw [map_structural hmem] at htexts
    cases htexts
  -- what keys lead to now, they led to when the transaction began
  have hheld : ∀ type, Held b type → Held a type ∧ Held t.before type := by
    intro type htype
    induction htype with
    | itemsMap => exact ⟨.itemsMap, .itemsMap⟩
    | metaMap => exact ⟨.metaMap, .metaMap⟩
    | @entry n key type hn hkey ih =>
      rw [hstays n ih.2 hn] at hkey
      have hold : Held a type := .entry ih.1 hkey
      exact ⟨hold, sameMaps_held hsame hold⟩
  intro n hn
  obtain ⟨hold, hbefore⟩ := hheld _ hn
  rw [hstays n hbefore hn, hsame n hold]

end Maps

namespace IndexCoherent

variable {y y' : YDoc} {t : YTransaction}

theorem loaded (store : Store) : IndexCoherent (.loaded store) where
  clean := by
    rintro index ⟨⟩
  texts := by
    rintro t ⟨⟩

variable (h : IndexCoherent y)

include h

/-- Outside the cleanup of a transaction the cached index is the current one. -/
theorem outlineIndex_eq (hread : y.transaction.isSome = true ∨ y.transactionCleanups = []) :
    y.outlineIndex.1 = y.store.recompute := by
  unfold YDoc.outlineIndex
  dsimp only
  split_ifs with hcached
  · rw [Bool.and_eq_true, Bool.not_eq_true', Option.isNone_iff_eq_none] at hcached
    obtain ⟨hclean, hnone⟩ := hcached
    cases hindex : y.cached with
    | none =>
      rw [hindex] at hclean
      cases hclean
    | some index =>
      rw [hindex] at hclean
      rcases h.clean index hindex hclean with ⟨t, ht, -⟩ | hcurrent
      · rw [hnone] at ht hread
        rcases hread with hopen | hidle
        · cases hopen
        · rw [hidle] at ht
          simp at ht
      · exact hcurrent.symm
  · split <;> rename_i hresult <;> rw [hresult]

theorem renest (ht : y.transaction = some t) (nested : ℕ) :
    IndexCoherent { y with transaction := some { t with nested } } := by
  refine ⟨fun index hindex hclean => (h.clean index hindex hclean).imp_left ?_, ?_⟩
  · rintro ⟨u, hopen | hwaiting, hstructure⟩
    · obtain rfl := Option.some.inj (ht.symm.trans hopen)
      exact ⟨_, Or.inl rfl, hstructure⟩
    · exact ⟨u, Or.inr hwaiting, hstructure⟩
  · rintro u ⟨⟩
    exact h.texts t ht

theorem transact (hstep : y.step .transact = some y') : IndexCoherent y' := by
  unfold YDoc.step at hstep
  cases ht : y.transaction with
  | none =>
    rw [ht] at hstep
    cases hstep
    refine ⟨fun index hindex hclean => (h.clean index hindex hclean).imp_left ?_, ?_⟩
    · rintro ⟨t, hopen | hwaiting, hstructure⟩
      · rw [ht] at hopen
        cases hopen
      · exact ⟨t, Or.inr hwaiting, hstructure⟩
    · rintro t ⟨⟩ -
      exact sameMaps_refl y.store
  | some t =>
    rw [ht] at hstep
    cases hstep
    exact h.renest ht _

theorem finish (hstep : y.step .finish = some y') : IndexCoherent y' := by
  unfold YDoc.step at hstep
  cases ht : y.transaction with
  | none =>
    rw [ht] at hstep
    cases hstep
  | some t =>
    rw [ht] at hstep
    dsimp only at hstep
    split_ifs at hstep with hnested
    · cases hstep
      refine ⟨fun index hindex hclean => (h.clean index hindex hclean).imp_left ?_, ?_⟩
      · rintro ⟨u, hopen | hwaiting, hstructure⟩
        · obtain rfl := Option.some.inj (ht.symm.trans hopen)
          exact ⟨t, Or.inr (by simp), hstructure⟩
        · exact ⟨u, Or.inr (List.mem_append_left _ hwaiting), hstructure⟩
      · rintro u ⟨⟩
    · cases hstep
      exact h.renest ht _

theorem write {store : Store} {changed : List SharedType} (hok : YjsAllows y (.write store changed))
    (hstep : y.step (.write store changed) = some y') : IndexCoherent y' := by
  obtain ⟨t, ht, rfl⟩ := Option.map_eq_some_iff.mp hstep
  have hrec : ChangesRecorded t y.store store changed := hok t ht
  have hsame := fun htexts => sameMaps_write (h.texts t ht htexts) hrec
  cases hstructure : ({ t with changed } : YTransaction).changesStructure with
  | true =>
    refine ⟨fun index _ _ => Or.inl ⟨_, Or.inl rfl, hstructure⟩, ?_⟩
    rintro u ⟨⟩ htexts
    rw [hstructure] at htexts
    cases htexts
  | false =>
    have hold : t.changesStructure = false := by
      by_contra hne
      rw [Bool.not_eq_false] at hne
      rw [changesStructure_subset hrec.1 hne] at hstructure
      cases hstructure
    have hnew := hsame hold hstructure
    refine ⟨fun index hindex hclean => ?_, ?_⟩
    · rcases h.clean index hindex hclean with ⟨u, hopen | hwaiting, hu⟩ | hcurrent
      · obtain rfl := Option.some.inj (ht.symm.trans hopen)
        rw [hold] at hu
        cases hu
      · exact Or.inl ⟨u, Or.inr hwaiting, hu⟩
      · right
        rw [recompute_congr hnew, ← recompute_congr (h.texts t ht hold)]
        exact hcurrent
    · rintro u ⟨⟩ -
      exact hnew

theorem afterTransaction (hstep : y.step .afterTransaction = some y') : IndexCoherent y' := by
  unfold YDoc.step at hstep
  dsimp only at hstep
  split at hstep
  · rename_i t cleanups hnone hcleanups
    cases hstep
    refine ⟨fun index hindex hclean => ?_, ?_⟩
    · obtain ⟨old, hold, rfl⟩ := Option.map_eq_some_iff.mp hindex
      unfold CachedIndex.afterTransaction at hclean ⊢
      split_ifs at hclean ⊢ with hstructure
      refine (h.clean old hold hclean).imp_left ?_
      rintro ⟨u, hopen | hwaiting, hu⟩
      · rw [hnone] at hopen
        cases hopen
      · rw [hcleanups] at hwaiting
        rcases List.mem_cons.mp hwaiting with rfl | hwaiting
        · exact absurd hu hstructure
        · exact ⟨u, Or.inr hwaiting, hu⟩
    · intro u hu
      rw [hnone] at hu
      cases hu
  · cases hstep

theorem read (hstep : y.step .read = some y') : IndexCoherent y' := by
  cases hstep
  unfold YDoc.outlineIndex
  dsimp only
  have hstored : ∀ index ∈ some (y.cached.getD ⟨⟨[], .empty, ∅⟩, true⟩), index.dirty = false →
      y.Pending ∨ y.store.recompute = .ok index.index := by
    rintro index ⟨⟩ hclean
    cases hindex : y.cached with
    | none =>
      rw [hindex] at hclean
      cases hclean
    | some index =>
      rw [hindex] at hclean
      exact h.clean index hindex hclean
  split_ifs
  · exact ⟨hstored, h.texts⟩
  · split
    · exact ⟨hstored, h.texts⟩
    · rename_i fresh hfresh
      refine ⟨?_, h.texts⟩
      rintro index ⟨⟩ -
      exact Or.inr hfresh

theorem step {e : YEvent} (hok : YjsAllows y e) (hstep : y.step e = some y') : IndexCoherent y' := by
  cases e with
  | transact => exact h.transact hstep
  | finish => exact h.finish hstep
  | write store changed => exact h.write hok hstep
  | afterTransaction => exact h.afterTransaction hstep
  | read => exact h.read hstep

end IndexCoherent

section Writes

variable {t : YTransaction} {s : Store} {changed : List SharedType}

def Store.setText (s : Store) (n : ℕ) (chars : JsString) : Store :=
  { s with texts := Function.update s.texts n chars }

theorem setText_recorded (hsub : t.changed ⊆ changed) (n : ℕ) (chars : JsString) :
    ChangesRecorded t s (s.setText n chars) changed :=
  ⟨hsub, fun _ _ _ hne => absurd rfl hne⟩

end Writes

section Run

variable {store : Store} {y : YDoc} (hrun : Runs YDoc.step YjsAllows (.loaded store) y)
  (hread : y.transaction.isSome = true ∨ y.transactionCleanups = [])

include hrun hread

theorem outlineIndex_current : y.outlineIndex.1 = y.store.recompute := by
  have hcoherent : IndexCoherent y :=
    Runs.invariant (fun h hok hstep => h.step hok hstep) (.loaded store) hrun
  exact hcoherent.outlineIndex_eq hread

/-- What a reader of the cached index gets is what the commands get of the document. -/
theorem outlineIndex_represents {doc : Doc} (h : Represents y.store doc) :
    y.outlineIndex.1 = .ok doc.outlineIndex := by
  have hcoherent : IndexCoherent y :=
    Runs.invariant (fun h hok hstep => h.step hok hstep) (.loaded store) hrun
  rw [hcoherent.outlineIndex_eq hread, recompute_represents h]

end Run

section Examples

def hlcEntries : OrderedMap JsString YValue :=
  .ofList [(HLC_KEY.wallMs, .number 1), (HLC_KEY.counter, .number 0), (HLC_KEY.replicaId, .string (js ['A']))]

def moveEntries (parentId : JsString) : OrderedMap JsString YValue :=
  .ofList [(MOVE_KEY.parentId, .string parentId), (MOVE_KEY.rank, .string (js ['a', '0'])),
    (MOVE_KEY.hlc, .type (.map 6))]

def nodeEntries (move text : ℕ) : OrderedMap JsString YValue :=
  .ofList [(NODE_KEY.content, .type (.text text)), (NODE_KEY.move, .type (.map move))]

def pairStore : Store where
  maps
    | 0 => .ofList [(js ['r'], .type (.map 2)), (js ['a'], .type (.map 3))]
    | 1 => .ofList [(META_KEY.schemaVersion, .number 2), (META_KEY.rootId, .string (js ['r']))]
    | 2 => nodeEntries 4 0
    | 3 => nodeEntries 5 1
    | 4 => moveEntries ROOT_PARENT_SENTINEL
    | 5 => moveEntries (js ['r'])
    | 6 => hlcEntries
    | _ => .empty
  texts := fun _ => []
  arrays := fun _ => []

def typedStore : Store := pairStore.setText 1 (js ['x'])

def editedDoc : YDoc :=
  { (YDoc.loaded pairStore).outlineIndex.2 with
    store := typedStore
    cached := (YDoc.loaded pairStore).outlineIndex.2.cached.map fun index =>
      index.afterTransaction ⟨pairStore, [.text 1], 0⟩ }

theorem editedDoc_runs : Runs YDoc.step YjsAllows (.loaded pairStore) editedDoc := by
  have hread : Runs YDoc.step YjsAllows (.loaded pairStore) (YDoc.loaded pairStore).outlineIndex.2 :=
    .step .read .refl trivial rfl
  have hopen := Runs.step YEvent.transact hread trivial rfl
  have hedit := Runs.step (YEvent.write typedStore [.text 1]) hopen (by
    rintro t ⟨⟩
    exact setText_recorded (List.nil_subset _) 1 _) rfl
  have hclose := Runs.step YEvent.finish hedit trivial rfl
  exact .step .afterTransaction hclose trivial rfl

theorem outlineIndex_current_typed : editedDoc.outlineIndex.1 = typedStore.recompute ∧
    editedDoc.cached.map CachedIndex.dirty = some false :=
  ⟨outlineIndex_current editedDoc_runs (Or.inr rfl), rfl⟩

end Examples

end OpenOutliner
