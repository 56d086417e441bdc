import OpenOutliner.Server.ItemsRepo

namespace OpenOutliner

open Foundations

/-- One call of the batch upsert: the time, the ids that other documents have then, and the items. -/
structure UpsertCall (Uuid : Type) where
  now : ℤ
  foreign : Uuid → Bool
  batch : List ProjectedItem

section History

variable {Uuid : Type} [DecidableEq Uuid]

def upsertAll (uuids : UuidText Uuid) (calls : List (UpsertCall Uuid)) (items : Items Uuid) :
    Option (Items Uuid) :=
  calls.foldlM
    (fun items call => upsertProjectedItemsBatch uuids call.foreign call.now items call.batch) items

def occurrences (uuids : UuidText Uuid) (u : Uuid) (calls : List (UpsertCall Uuid)) :
    List (ℤ × ProjectedItem) :=
  calls.filterMap fun call => (call.batch.find? fun item => uuids.parse item.id = some u).map fun item =>
    (call.now, item)

/-- The time of the first of the last occurrences that are all deleted; a row that was deleted before the
first occurrence has been so since `start`. -/
def deletedSince (start : Option ℤ) : List (ℤ × ProjectedItem) → Option ℤ :=
  List.foldl (fun since e => if e.2.deleted then since.or (some e.1) else none) start

variable {uuids : UuidText Uuid} {foreign : Uuid → Bool} {now now' : ℤ} {items items' : Items Uuid} {u : Uuid}
  {batch : List ProjectedItem} {calls : List (UpsertCall Uuid)} {parentId : Option Uuid}
  {item : ProjectedItem}

theorem deletedSince_append (start : Option ℤ) (l l' : List (ℤ × ProjectedItem)) :
    deletedSince start (l ++ l') = deletedSince (deletedSince start l) l' := List.foldl_append

theorem upsertRow_again (old : Option (ItemRow Uuid)) :
    upsertRow now' parentId item (some (upsertRow now parentId item old)) =
    upsertRow now parentId item old := by
  obtain ⟨deletedAt, version, hrow, hdel⟩ := upsertRow_eq now parentId item old
  rw [hrow]
  have hkeep : (if item.deleted = true then deletedAt.or (some now') else none) = deletedAt := by
    cases hd : item.deleted with
    | false => exact (hdel.mpr hd).symm
    | true =>
      obtain ⟨t, ht⟩ := Option.ne_none_iff_exists'.mp fun hnone => by rw [hdel.mp hnone] at hd; cases hd
      rw [if_pos rfl, ht, Option.some_or]
  change (if itemRow parentId item (if item.deleted = true then deletedAt.or (some now')
    else none) version = _ then _ else _) = _
  rw [hkeep]
  exact if_pos rfl

theorem Upserted.occurrence {call : UpsertCall Uuid} (h : Upserted uuids call.now items call.batch items')
    (hdistinct : DistinctUuids uuids call.batch) :
    (occurrences uuids u [call] = [] ∧ items'.get u = items.get u) ∨
      ∃ item parent, occurrences uuids u [call] = [(call.now, item)] ∧
      castParent uuids item.parentId = some parent ∧
        items'.get u = some (upsertRow call.now parent item (items.get u)) := by
  cases hfind : call.batch.find? fun item => uuids.parse item.id = some u with
  | none =>
    left
    refine ⟨by rw [occurrences, List.filterMap_cons, hfind]; rfl, h.kept u ?_⟩
    simpa using List.find?_eq_none.mp hfind
  | some item =>
    right
    have hu : uuids.parse item.id = some u := by simpa using List.find?_some hfind
    obtain ⟨-, parent, hparent, hget⟩ := h.written hdistinct (List.mem_of_find?_eq_some hfind) hu
    exact ⟨item, parent, by rw [occurrences, List.filterMap_cons, hfind]; rfl, hparent, hget⟩

theorem occurrences_cons (u : Uuid) (call : UpsertCall Uuid) (calls : List (UpsertCall Uuid)) :
    occurrences uuids u (call :: calls) = occurrences uuids u [call] ++ occurrences uuids u calls := by
  rw [occurrences, ← List.singleton_append, List.filterMap_append]
  rfl

theorem upsertAll_row (h : upsertAll uuids calls items = some items')
    (hdistinct : ∀ call ∈ calls, DistinctUuids uuids call.batch) (u : Uuid) :
    (occurrences uuids u calls = [] ∧ items'.get u = items.get u) ∨
      ∃ before now item parent version, occurrences uuids u calls = before ++ [(now, item)] ∧
        castParent uuids item.parentId = some parent ∧ items'.get u = some (itemRow parent item
          (deletedSince ((items.get u).bind ItemRow.deletedAt) (occurrences uuids u calls)) version) := by
  induction calls generalizing items with
  | nil =>
    cases h
    exact Or.inl ⟨rfl, rfl⟩
  | cons call calls ih =>
    obtain ⟨mid, hmid, h⟩ := Option.bind_eq_some_iff.mp h
    obtain ⟨hcall, hdistinct⟩ := List.forall_mem_cons.mp hdistinct
    rw [occurrences_cons]
    rcases (upsertProjectedItemsBatch_spec hmid).occurrence hcall (u := u) with
      ⟨hnone, hget⟩ | ⟨item, parent, hone, hparent, hget⟩
    · rw [hnone, List.nil_append, ← hget]
      exact ih h hdistinct
    · right
      have hdel : (mid.get u).bind ItemRow.deletedAt =
          deletedSince ((items.get u).bind ItemRow.deletedAt) [(call.now, item)] := by
        rw [hget, Option.bind_some, upsertRow_deletedAt]
        rfl
      rw [hone]
      rcases ih h hdistinct with ⟨hnil, hkept⟩ | ⟨before, now, last, parent', version, hocc, hparent', hrow⟩
      · obtain ⟨deletedAt, version, hrow, -⟩ := upsertRow_eq call.now parent item (items.get u)
        refine ⟨[], call.now, item, parent, version, by rw [hnil]; rfl, hparent, ?_⟩
        rw [hkept, hget, hrow, hnil, List.append_nil, ← hdel, hget, hrow]
        rfl
      · refine ⟨(call.now, item) :: before, now, last, parent', version, by rw [hocc]; rfl, hparent', ?_⟩
        rw [hrow, hdel, deletedSince_append]

theorem deletedSince_run {start : Option ℤ} {pre run : List (ℤ × ProjectedItem)} {since : ℤ}
    {first : ProjectedItem} (hrun : ∀ e ∈ (since, first) :: run, e.2.deleted = true)
    (hpre : ∀ e, pre.getLast? = some e → e.2.deleted = false) :
    deletedSince start (pre ++ (since, first) :: run) = if pre = [] then start.or (some since)
    else some since := by
  have htail : ∀ {t : ℤ} {l : List (ℤ × ProjectedItem)}, (∀ e ∈ l, e.2.deleted = true) →
      deletedSince (some t) l = some t := by
    intro t l hl
    induction l with
    | nil => rfl
    | cons e l ih =>
      rw [deletedSince, List.foldl_cons, if_pos (hl e (List.mem_cons_self ..)), Option.some_or]
      exact ih fun e he => hl e (List.mem_cons_of_mem _ he)
  have hfirst : ∀ s : Option ℤ, deletedSince s ((since, first) :: run) =
      deletedSince (s.or (some since)) run := by
    intro s
    rw [deletedSince, List.foldl_cons, if_pos (hrun (since, first) (List.mem_cons_self ..))]
    rfl
  have hrest : ∀ e ∈ run, e.2.deleted = true := fun e he => hrun e (List.mem_cons_of_mem _ he)
  rcases List.eq_nil_or_concat pre with rfl | ⟨pre, last, rfl⟩
  · rw [if_pos rfl, List.nil_append, hfirst]
    cases start <;> exact htail hrest
  · have hlast : last.2.deleted = false := hpre last (by simp)
    have hnone : ∀ s, deletedSince s [last] = none := by
      intro s
      rw [deletedSince, List.foldl_cons, if_neg (by simp [hlast]), List.foldl_nil]
    rw [if_neg (by simp), List.concat_eq_append, deletedSince_append, deletedSince_append, hnone, hfirst]
    exact htail hrest

theorem deletedSince_isSome {start : Option ℤ} (before : List (ℤ × ProjectedItem)) (e : ℤ × ProjectedItem) :
    (deletedSince start (before ++ [e])).isSome = e.2.deleted := by
  rw [deletedSince_append]
  change (if e.2.deleted = true then (deletedSince start before).or (some e.1) else none).isSome = e.2.deleted
  cases e.2.deleted
  · rfl
  · cases deletedSince start before <;> rfl

theorem upsert_again (hdistinct : DistinctUuids uuids batch)
    (h : upsertProjectedItemsBatch uuids foreign now items batch = some items') :
    upsertProjectedItemsBatch uuids foreign now' items' batch = some items' := by
  have hspec := upsertProjectedItemsBatch_spec h
  -- each proposal finds the row that it makes
  have hidle : ∀ e ∈ (batch.filterMap (castItem uuids)).map fun row =>
      (row.1, upsertRow now' row.2.1 row.2.2),
      items'.get e.1 = some (e.2 (items'.get e.1)) := by
    intro e he
    obtain ⟨⟨u, parent, item⟩, hrow, rfl⟩ := List.mem_map.mp he
    obtain ⟨hitem, hu, hparent⟩ := mem_castRows.mp hrow
    obtain ⟨-, parent', hparent', hget⟩ := hspec.written hdistinct hitem hu
    obtain rfl := Option.some.inj (hparent.symm.trans hparent')
    dsimp only
    rw [hget, upsertRow_again]
  unfold upsertProjectedItemsBatch at h ⊢
  split at h
  · cases h
  · rename_i hok
    rw [if_neg hok, upsertStatement, insertOrUpdate_idle hidle, Option.bind_some, if_neg]
    rintro ⟨u, hu, -⟩
    exact absurd hu (Finset.notMem_empty u)

end History

/-- Upserting batches in order leaves in each row the columns of the last batch that has it and the time at
which its present run of deleted occurrences began; rows of no batch stay, and a batch once more changes
nothing. -/
theorem upsert_history {Uuid : Type} [DecidableEq Uuid] {uuids : UuidText Uuid}
    {calls : List (UpsertCall Uuid)}
    {items items' : Items Uuid} (hdistinct : ∀ call ∈ calls, DistinctUuids uuids call.batch)
    (h : upsertAll uuids calls items = some items') :
    (∀ u, occurrences uuids u calls = [] → items'.get u = items.get u) ∧
    (∀ u before now item, occurrences uuids u calls = before ++ [(now, item)] →
      ∃ parent deletedAt version, castParent uuids item.parentId = some parent ∧
        items'.get u = some (itemRow parent item deletedAt version) ∧
        (deletedAt ≠ none ↔ item.deleted = true) ∧
        ∀ pre since first run, before ++ [(now, item)] = pre ++ (since, first) :: run →
          (∀ e ∈ (since, first) :: run, e.2.deleted = true) →
          (∀ e, pre.getLast? = some e → e.2.deleted = false) →
          deletedAt = if pre = [] then ((items.get u).bind ItemRow.deletedAt).or (some since)
          else some since) ∧
    ∀ foreign now now' batch items'', DistinctUuids uuids batch →
      upsertProjectedItemsBatch uuids foreign now items' batch = some items'' →
      upsertProjectedItemsBatch uuids foreign now' items'' batch = some items'' := by
  refine ⟨?_, ?_, fun foreign now now' batch items'' hbatch => upsert_again hbatch⟩
  · intro u hnone
    rcases upsertAll_row h hdistinct u with ⟨-, hget⟩ | ⟨before, now, item, parent, version, hocc, -⟩
    · exact hget
    · rw [hnone] at hocc
      simp at hocc
  · intro u before now item hocc
    rcases upsertAll_row h hdistinct u with ⟨hnil, -⟩ | ⟨before', now', item', parent, version, hocc',
        hparent, hrow⟩
    · rw [hocc] at hnil
      simp at hnil
    · rw [hocc] at hocc' hrow
      obtain ⟨rfl, hlast⟩ := List.append_inj' hocc' rfl
      obtain ⟨rfl, rfl⟩ := Prod.mk.inj (List.singleton_inj.mp hlast)
      refine ⟨parent, _, version, hparent, hrow, ?_, ?_⟩
      · rw [Option.ne_none_iff_isSome, deletedSince_isSome]
      · intro pre since first run hsplit hrun hpre
        rw [hsplit, deletedSince_run hrun hpre]

section Example

def oneUuid : UuidText Unit :=
  ⟨fun s => if s = js ['r'] then some () else none, fun _ => js ['r'], fun _ => rfl⟩

def rootItem (deleted : Bool) : ProjectedItem :=
  ⟨js ['r'], none, js ['a', '0'], .bullet, [], none, false, false, deleted⟩

def rootCall (now : ℤ) (deleted : Bool) : UpsertCall Unit := ⟨now, fun _ => false, [rootItem deleted]⟩

def rootCalls : List (UpsertCall Unit) :=
  [rootCall 1 false, rootCall 2 true, rootCall 3 true, rootCall 4 false, rootCall 5 true, rootCall 6 true]

theorem upsert_history_rootCalls : ∃ items', upsertAll oneUuid rootCalls .empty = some items' ∧
    items'.get () = some (itemRow none (rootItem true) (some 5) 4) ∧
    ∃ deletedAt version, items'.get () = some (itemRow none (rootItem true) deletedAt version) ∧
    deletedAt = some 5 := by
  have hrun : ∃ items', upsertAll oneUuid rootCalls .empty = some items' ∧
      items'.get () = some (itemRow none (rootItem true) (some 5) 4) := ⟨_, rfl, by decide⟩
  obtain ⟨items', hrun, hget⟩ := hrun
  refine ⟨items', hrun, hget, ?_⟩
  have hocc : occurrences oneUuid () rootCalls = [(1, rootItem false), (2, rootItem true), (3, rootItem true),
      (4, rootItem false), (5, rootItem true)] ++ [(6, rootItem true)] := by decide
  have hdistinct : ∀ call ∈ rootCalls, DistinctUuids oneUuid call.batch := by
    unfold DistinctUuids
    decide
  obtain ⟨parent, deletedAt, version, hparent, hrow, -, hsince⟩ :=
    (upsert_history hdistinct hrun).2.1 () _ 6 (rootItem true) hocc
  obtain rfl : none = parent := Option.some.inj hparent
  refine ⟨deletedAt, version, hrow, ?_⟩
  rw [hsince [(1, rootItem false), (2, rootItem true), (3, rootItem true), (4, rootItem false)] 5
    (rootItem true)
    [(6, rootItem true)] rfl (by decide) (by simp [rootItem])]
  rfl

end Example

end OpenOutliner
