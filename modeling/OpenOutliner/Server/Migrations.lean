import OpenOutliner.Foundations.Autocommit
import OpenOutliner.Foundations.OrderedMap
import OpenOutliner.Shared.Schema
import Mathlib.Data.List.Sort

/-!
The migration runner: each pending file commits by itself, and a statement after it records its
version. A run may stop at any statement, which took effect or did not.
-/

namespace OpenOutliner

open Foundations

structure MigrationFile where
  version : ℕ
  name : JsString
deriving DecidableEq

/-- `schema_migrations`, once it is there, and the versions of the files that have committed. -/
structure SchemaDb where
  schemaMigrations : Option (List (ℕ × JsString))
  committed : List ℕ
deriving DecidableEq

def sortedFiles (files : List MigrationFile) : List MigrationFile :=
  files.insertionSort fun a b => a.version ≤ b.version

def hasDuplicateVersion : List MigrationFile → Bool
  | a :: b :: rest => a.version = b.version || hasDuplicateVersion (b :: rest)
  | _ => false

/-- None for an ambiguous order. -/
def listMigrations (files : List MigrationFile) : Option (List MigrationFile) :=
  if hasDuplicateVersion (sortedFiles files) then none else some (sortedFiles files)

namespace SchemaDb

def rows (db : SchemaDb) : List (ℕ × JsString) := db.schemaMigrations.getD []

def appliedVersions (db : SchemaDb) : List ℕ := db.rows.map Prod.fst

end SchemaDb

def ensureMigrationsTable : Statement SchemaDb := fun db => some { db with schemaMigrations := some db.rows }

def selectVersions : Statement SchemaDb := fun db => db.schemaMigrations.map fun _ => db

def applyFile (m : MigrationFile) : Statement SchemaDb := fun db =>
  if m.version ∈ db.committed then none else some { db with committed := db.committed ++ [m.version] }

def MAX_INTEGER : ℕ := 2147483647

def recordVersion (m : MigrationFile) : Statement SchemaDb := fun db =>
  match db.schemaMigrations with
  | none => none
  | some rows =>
    if MAX_INTEGER < m.version ∨ m.version ∈ rows.map Prod.fst then none
    else some { db with schemaMigrations := some (rows ++ [(m.version, m.name)]) }

structure MigrateResult where
  applied : List MigrationFile
  alreadyApplied : List ℕ
deriving DecidableEq

def pendingFiles (all : List MigrationFile) (db : SchemaDb) : List MigrationFile :=
  all.filter fun m => m.version ∉ db.appliedVersions

def maxApplied (all : List MigrationFile) (db : SchemaDb) : ℕ :=
  (all.filter fun m => m.version ∈ db.appliedVersions).foldl (fun max m => Nat.max max m.version) 0

def hasBackdated (all : List MigrationFile) (db : SchemaDb) : Bool :=
  (pendingFiles all db).any fun m => m.version < maxApplied all db

def pendingStatements (pending : List MigrationFile) : List (Statement SchemaDb) :=
  pending.flatMap fun m => [applyFile m, recordVersion m]

/-- The state that is left, and the result unless it throws. -/
def migrate (failure : Option Failure) (files : List MigrationFile) (db : SchemaDb) :
    SchemaDb × Option MigrateResult :=
  match listMigrations files with
  | none => ((runStatements failure [ensureMigrationsTable] db).1, none)
  | some all =>
    -- the statement before `SELECT version` keeps the rows that this reads
    let pending := pendingFiles all db
    let opening := [ensureMigrationsTable, selectVersions]
    if hasBackdated all db then ((runStatements failure opening db).1, none)
    else
      let (db', answered) := runStatements failure (opening ++ pendingStatements pending) db
      (db', if answered then some ⟨pending, db.appliedVersions.insertionSort (· ≤ ·)⟩ else none)

def migrateAgain (files : List MigrationFile) (failures : List (Option Failure)) (db : SchemaDb) : SchemaDb :=
  failures.foldl (fun db failure => (migrate failure files db).1) db

structure Progress (all : List MigrationFile) (done recorded : ℕ) (db : SchemaDb) : Prop where
  committed : db.committed = (all.take done).map MigrationFile.version
  rows : db.rows = (all.take recorded).map fun m => (m.version, m.name)

/-- The failure comes when a file has committed and its version is not recorded. -/
def SplitsFile (files : List MigrationFile) (db : SchemaDb) (failure : Option Failure) : Prop :=
  ∃ f ∈ failure, ∃ i < (pendingFiles files db).length, f.index + f.applied.toNat = 3 + 2 * i

instance (files : List MigrationFile) (db : SchemaDb) (failure : Option Failure) :
    Decidable (SplitsFile files db failure) := by
  unfold SplitsFile
  infer_instance

def Unsplit (files : List MigrationFile) : List (Option Failure) → SchemaDb → Prop
  | [], _ => True
  | failure :: failures, db =>
    ¬ SplitsFile files db failure ∧ Unsplit files failures (migrate failure files db).1

instance decidableUnsplit (files : List MigrationFile) : ∀ failures db, Decidable (Unsplit files failures db)
  | [], _ => isTrue trivial
  | failure :: failures, db =>
    have := decidableUnsplit files failures (migrate failure files db).1
    inferInstanceAs
      (Decidable (¬ SplitsFile files db failure ∧ Unsplit files failures (migrate failure files db).1))

section Files

variable {files all : List MigrationFile} {m : MigrationFile} {db : SchemaDb} {done recorded : ℕ}

theorem hasDuplicateVersion_false (h : all.Pairwise fun a b => a.version < b.version) :
    hasDuplicateVersion all = false := by
  induction all with
  | nil => rfl
  | cons a all ih =>
    cases all with
    | nil => rfl
    | cons b rest =>
      obtain ⟨hlt, hrest⟩ := List.pairwise_cons.mp h
      have hne : a.version ≠ b.version := (hlt b (List.mem_cons_self ..)).ne
      rw [hasDuplicateVersion, ih hrest, decide_eq_false hne]
      rfl

theorem sortedFiles_perm (files : List MigrationFile) : (sortedFiles files).Perm files :=
  List.perm_insertionSort _ _

theorem sortedFiles_strict (hnd : (files.map MigrationFile.version).Nodup) :
    (sortedFiles files).Pairwise fun a b => a.version < b.version := by
  have hle : (sortedFiles files).Pairwise fun a b => a.version ≤ b.version := by
    have hsorted := List.pairwise_insertionSort (fun a b : MigrationFile => a.version ≤ b.version) files
    exact hsorted
  have hne : (sortedFiles files).Pairwise fun a b => a.version ≠ b.version :=
    List.pairwise_map.mp (((sortedFiles_perm files).map _).nodup_iff.mpr hnd)
  exact (hle.and hne).imp fun h => lt_of_le_of_ne h.1 h.2

theorem listMigrations_eq (hnd : (files.map MigrationFile.version).Nodup) :
    listMigrations files = some (sortedFiles files) := by
  rw [listMigrations, hasDuplicateVersion_false (sortedFiles_strict hnd)]
  rfl

theorem Progress.appliedVersions (h : Progress all done recorded db) :
    db.appliedVersions = (all.take recorded).map MigrationFile.version := by
  rw [SchemaDb.appliedVersions, h.rows, List.map_map]
  rfl

theorem version_notMem_take (hlt : all.Pairwise fun a b => a.version < b.version) {i : ℕ}
    (hm : all[i]? = some m) :
    m.version ∉ (all.take i).map MigrationFile.version := by
  intro hin
  obtain ⟨a, ha, heq⟩ := List.mem_map.mp hin
  obtain ⟨hi, rfl⟩ := List.getElem?_eq_some_iff.mp hm
  obtain ⟨j, hj, rfl⟩ := List.mem_take_iff_getElem.mp ha
  have := List.pairwise_iff_getElem.mp hlt j i (by omega) hi (by omega)
  omega

theorem pendingFiles_eq (hlt : all.Pairwise fun a b => a.version < b.version)
    (h : Progress all done recorded db) :
    pendingFiles all db = all.drop recorded := by
  have hsplit := hlt
  rw [← List.take_append_drop recorded all] at hsplit
  have happart := (List.pairwise_append.mp hsplit).2.2
  rw [pendingFiles, h.appliedVersions]
  have hfirst : (all.take recorded).filter
      (fun m => m.version ∉ (all.take recorded).map MigrationFile.version) = [] := by
    apply List.filter_eq_nil_iff.mpr
    intro m hm hnot
    exact of_decide_eq_true hnot (List.mem_map_of_mem hm)
  have hlast :
      (all.drop recorded).filter (fun m => m.version ∉ (all.take recorded).map MigrationFile.version) =
      all.drop recorded := by
    apply List.filter_eq_self.mpr
    intro m hm
    apply decide_eq_true
    intro hin
    obtain ⟨a, ha, heq⟩ := List.mem_map.mp hin
    exact (happart a ha m hm).ne heq
  calc all.filter (fun m => m.version ∉ (all.take recorded).map MigrationFile.version)
      = (all.take recorded ++ all.drop recorded).filter
          (fun m => m.version ∉ (all.take recorded).map MigrationFile.version) := by
            rw [List.take_append_drop]
    _ = all.drop recorded := by rw [List.filter_append, hfirst, hlast, List.nil_append]

theorem foldl_max_le {l : List MigrationFile} {start bound : ℕ} (hstart : start ≤ bound)
    (h : ∀ m ∈ l, m.version ≤ bound) :
    l.foldl (fun max m => Nat.max max m.version) start ≤ bound := by
  induction l generalizing start with
  | nil => exact hstart
  | cons a l ih =>
    exact ih (Nat.max_le.mpr ⟨hstart, h a (List.mem_cons_self ..)⟩) fun m hm =>
      h m (List.mem_cons_of_mem _ hm)

theorem hasBackdated_false (hlt : all.Pairwise fun a b => a.version < b.version)
    (h : Progress all done recorded db) :
    hasBackdated all db = false := by
  rw [← Bool.not_eq_true, hasBackdated, List.any_eq_true]
  rintro ⟨m, hm, hless⟩
  rw [pendingFiles_eq hlt h] at hm
  have hless' : m.version < maxApplied all db := of_decide_eq_true hless
  refine absurd hless' (not_lt.mpr (foldl_max_le (Nat.zero_le _) ?_))
  intro a ha
  have hin : a.version ∈ db.appliedVersions := by simpa using (List.mem_filter.mp ha).2
  rw [h.appliedVersions] at hin
  obtain ⟨b, hb, heq⟩ := List.mem_map.mp hin
  have happart := hlt
  rw [← List.take_append_drop recorded all] at happart
  exact heq ▸ ((List.pairwise_append.mp happart).2.2 b hb m hm).le

theorem pendingStatements_length (l : List MigrationFile) : (pendingStatements l).length = 2 * l.length := by
  induction l with
  | nil => rfl
  | cons a l ih =>
    have hcons : pendingStatements (a :: l) = applyFile a :: recordVersion a :: pendingStatements l := rfl
    rw [hcons, List.length_cons, List.length_cons, ih, List.length_cons]
    omega

theorem pendingStatements_get {l : List MigrationFile} {i : ℕ} {q : Statement SchemaDb}
    (h : (pendingStatements l)[i]? = some q) :
    ∃ m, l[i / 2]? = some m ∧ q = if i % 2 = 0 then applyFile m else recordVersion m := by
  induction l generalizing i with
  | nil => cases h
  | cons a l ih =>
    have hcons : pendingStatements (a :: l) = applyFile a :: recordVersion a :: pendingStatements l := rfl
    rw [hcons] at h
    match i with
    | 0 => exact ⟨a, rfl, (Option.some.inj h).symm⟩
    | 1 => exact ⟨a, rfl, (Option.some.inj h).symm⟩
    | i + 2 =>
      obtain ⟨m, hm, hq⟩ := ih h
      refine ⟨m, ?_, ?_⟩
      · rw [show (i + 2) / 2 = i / 2 + 1 by omega]
        exact hm
      · rw [show (i + 2) % 2 = i % 2 by omega]
        exact hq

end Files

section Stages

variable {all : List MigrationFile} {k i : ℕ} {db t : SchemaDb} {q : Statement SchemaDb}

def statementsFrom (all : List MigrationFile) (k : ℕ) : List (Statement SchemaDb) :=
  [ensureMigrationsTable, selectVersions] ++ pendingStatements (all.drop k)

structure AtStage (all : List MigrationFile) (k i : ℕ) (db : SchemaDb) : Prop where
  progress : Progress all (k + (i - 1) / 2) (k + (i - 2) / 2) db
  table : 1 ≤ i → ∃ rows, db.schemaMigrations = some rows

theorem statementsFrom_get (h : (statementsFrom all k)[i]? = some q) :
    (i = 0 ∧ q = ensureMigrationsTable) ∨ (i = 1 ∧ q = selectVersions) ∨
      ∃ j m, all[k + j]? = some m ∧
      ((i = 2 * j + 2 ∧ q = applyFile m) ∨ (i = 2 * j + 3 ∧ q = recordVersion m)) := by
  match i with
  | 0 => exact Or.inl ⟨rfl, (Option.some.inj h).symm⟩
  | 1 => exact Or.inr (Or.inl ⟨rfl, (Option.some.inj h).symm⟩)
  | i + 2 =>
    obtain ⟨m, hm, hq⟩ := pendingStatements_get h
    rw [List.getElem?_drop] at hm
    refine Or.inr (Or.inr ⟨i / 2, m, hm, ?_⟩)
    by_cases heven : i % 2 = 0
    · rw [if_pos heven] at hq
      exact Or.inl ⟨by omega, hq⟩
    · rw [if_neg heven] at hq
      exact Or.inr ⟨by omega, hq⟩

theorem ensureMigrationsTable_rows (h : ensureMigrationsTable db = some t) :
    t.committed = db.committed ∧ t.rows = db.rows ∧ ∃ rows, t.schemaMigrations = some rows := by
  obtain rfl := Option.some.inj h
  exact ⟨rfl, rfl, _, rfl⟩

theorem selectVersions_eq (h : selectVersions db = some t) : t = db := by
  obtain ⟨rows, -, rfl⟩ := Option.map_eq_some_iff.mp h
  rfl

theorem applyFile_some {m : MigrationFile} (h : applyFile m db = some t) :
    m.version ∉ db.committed ∧ t = { db with committed := db.committed ++ [m.version] } := by
  rw [applyFile] at h
  split at h
  · cases h
  · rename_i hnot
    exact ⟨hnot, (Option.some.inj h).symm⟩

theorem recordVersion_some {m : MigrationFile} (h : recordVersion m db = some t) : m.version ≤ MAX_INTEGER ∧
    t.committed = db.committed ∧ t.rows = db.rows ++ [(m.version, m.name)] ∧
    ∃ rows, t.schemaMigrations = some rows := by
  rw [recordVersion] at h
  split at h
  · cases h
  · rename_i rows hrows
    split at h
    · cases h
    · rename_i hfits
      obtain rfl := Option.some.inj h
      refine ⟨not_lt.mp fun hover => hfits (Or.inl hover), rfl, ?_, _, rfl⟩
      rw [SchemaDb.rows, SchemaDb.rows, hrows]
      rfl

theorem take_succ_map {α β : Type} (f : α → β) {l : List α} {i : ℕ} {a : α} (h : l[i]? = some a) :
    (l.take (i + 1)).map f = (l.take i).map f ++ [f a] := by
  rw [List.take_add_one, h, List.map_append]
  rfl

theorem atStage_step (hq : (statementsFrom all k)[i]? = some q) (h : AtStage all k i db)
    (ht : q db = some t) :
    AtStage all k (i + 1) t := by
  obtain ⟨rfl, rfl⟩ | ⟨rfl, rfl⟩ | ⟨j, m, hm, ⟨rfl, rfl⟩ | ⟨rfl, rfl⟩⟩ := statementsFrom_get hq
  · obtain ⟨hcommitted, hrows, htable⟩ := ensureMigrationsTable_rows ht
    exact ⟨⟨hcommitted.trans h.progress.committed, hrows.trans h.progress.rows⟩, fun _ => htable⟩
  · obtain rfl := selectVersions_eq ht
    exact ⟨h.progress, fun _ => h.table (le_refl 1)⟩
  · obtain ⟨-, rfl⟩ := applyFile_some ht
    have hprogress := h.progress
    rw [show (2 * j + 2 - 1) / 2 = j by omega, show (2 * j + 2 - 2) / 2 = j by omega] at hprogress
    refine ⟨?_, fun _ => h.table (by omega)⟩
    rw [show (2 * j + 2 + 1 - 1) / 2 = j + 1 by omega, show (2 * j + 2 + 1 - 2) / 2 = j by omega,
      ← Nat.add_assoc]
    refine ⟨?_, hprogress.rows⟩
    rw [take_succ_map _ hm, ← hprogress.committed]
  · obtain ⟨-, hcommitted, hrows, htable⟩ := recordVersion_some ht
    have hprogress := h.progress
    rw [show (2 * j + 3 - 1) / 2 = j + 1 by omega, show (2 * j + 3 - 2) / 2 = j by omega] at hprogress
    refine ⟨?_, fun _ => htable⟩
    rw [show (2 * j + 3 + 1 - 1) / 2 = j + 1 by omega, show (2 * j + 3 + 1 - 2) / 2 = j + 1 by omega]
    refine ⟨hcommitted.trans hprogress.committed, ?_⟩
    rw [hrows, hprogress.rows, ← Nat.add_assoc, take_succ_map _ hm]

theorem atStage_go (hlt : all.Pairwise fun a b => a.version < b.version)
    (hfits : ∀ m ∈ all.drop k, m.version ≤ MAX_INTEGER)
    (hq : (statementsFrom all k)[i]? = some q) (h : AtStage all k i db) : q db ≠ none := by
  obtain ⟨rfl, rfl⟩ | ⟨rfl, rfl⟩ | ⟨j, m, hm, ⟨rfl, rfl⟩ | ⟨rfl, rfl⟩⟩ := statementsFrom_get hq
  · exact Option.some_ne_none _
  · obtain ⟨rows, hrows⟩ := h.table (le_refl 1)
    rw [selectVersions, hrows]
    exact Option.some_ne_none _
  · have hprogress := h.progress
    rw [show (2 * j + 2 - 1) / 2 = j by omega] at hprogress
    rw [applyFile, if_neg]
    · exact Option.some_ne_none _
    · rw [hprogress.committed]
      exact version_notMem_take hlt hm
  · have hprogress := h.progress
    rw [show (2 * j + 3 - 2) / 2 = j by omega] at hprogress
    obtain ⟨rows, hrows⟩ := h.table (by omega)
    have hin : m ∈ all.drop k := by
      rw [← List.getElem?_drop] at hm
      exact List.mem_of_getElem? hm
    have hunrecorded : m.version ∉ rows.map Prod.fst := by
      have happlied := hprogress.appliedVersions
      rw [SchemaDb.appliedVersions, SchemaDb.rows, hrows, Option.getD_some] at happlied
      rw [happlied]
      exact version_notMem_take hlt hm
    have hboth : ¬ (MAX_INTEGER < m.version ∨ m.version ∈ rows.map Prod.fst) :=
      not_or.mpr ⟨not_lt.mpr (hfits m hin), hunrecorded⟩
    rw [recordVersion, hrows]
    dsimp only
    rw [if_neg hboth]
    exact Option.some_ne_none _

structure HeldUp (all : List MigrationFile) (k i : ℕ) (db : SchemaDb) : Prop where
  progress : Progress all (k + 1) k db
  early : i ≤ 2

theorem heldUp_step (hq : (statementsFrom all k)[i]? = some q) (h : HeldUp all k i db) (ht : q db = some t) :
    HeldUp all k (i + 1) t := by
  obtain ⟨rfl, rfl⟩ | ⟨rfl, rfl⟩ | ⟨j, m, hm, ⟨rfl, rfl⟩ | ⟨rfl, rfl⟩⟩ := statementsFrom_get hq
  · obtain ⟨hcommitted, hrows, -⟩ := ensureMigrationsTable_rows ht
    exact ⟨⟨hcommitted.trans h.progress.committed, hrows.trans h.progress.rows⟩, by omega⟩
  · obtain rfl := selectVersions_eq ht
    exact ⟨h.progress, le_refl 2⟩
  · obtain rfl : j = 0 := by
      have := h.early
      omega
    refine absurd ?_ (applyFile_some ht).1
    rw [h.progress.committed]
    obtain ⟨hi, rfl⟩ := List.getElem?_eq_some_iff.mp hm
    exact List.mem_map_of_mem (List.mem_take_iff_getElem.mpr ⟨k, by omega, rfl⟩)
  · have := h.early
    omega

end Stages

section Calls

variable {files : List MigrationFile} {k done recorded : ℕ} {db : SchemaDb} {failure : Option Failure}
  {failures : List (Option Failure)}

theorem migrate_eq (hnd : (files.map MigrationFile.version).Nodup)
    (h : Progress (sortedFiles files) done recorded db) :
    (migrate failure files db).1 =
    (runStatements failure (statementsFrom (sortedFiles files) recorded) db).1 ∧
      ((migrate failure files db).2.isSome =
        (runStatements failure (statementsFrom (sortedFiles files) recorded) db).2) := by
  have hstrict := sortedFiles_strict hnd
  rw [migrate, listMigrations_eq hnd]
  dsimp only
  rw [hasBackdated_false hstrict h, pendingFiles_eq hstrict h]
  refine ⟨rfl, ?_⟩
  change (if (runStatements failure (statementsFrom (sortedFiles files) recorded) db).2 = true then _
    else none).isSome = _
  cases (runStatements failure (statementsFrom (sortedFiles files) recorded) db).2 <;> rfl

theorem migrate_heldUp (hnd : (files.map MigrationFile.version).Nodup)
    (h : Progress (sortedFiles files) (k + 1) k db) :
    Progress (sortedFiles files) (k + 1) k (migrate failure files db).1 := by
  rw [(migrate_eq hnd h).1, runStatements_fst]
  obtain ⟨i, -, hheld, -⟩ :=
    effect_stage (P := HeldUp (sortedFiles files) k) (fun i q s t => heldUp_step) ⟨h, Nat.zero_le 2⟩
    (budget failure (statementsFrom (sortedFiles files) k).length)
  exact hheld.progress

theorem migrateAgain_cons : migrateAgain files (failure :: failures) db =
    migrateAgain files failures (migrate failure files db).1 := rfl

theorem migrateAgain_heldUp (hnd : (files.map MigrationFile.version).Nodup)
    (h : Progress (sortedFiles files) (k + 1) k db) :
    Progress (sortedFiles files) (k + 1) k (migrateAgain files failures db) := by
  induction failures generalizing db with
  | nil => exact h
  | cons failure failures ih => exact ih (migrate_heldUp hnd h)

theorem migrate_heldUp_throws (hnd : (files.map MigrationFile.version).Nodup)
    (h : Progress (sortedFiles files) (k + 1) k db)
    (hk : k < files.length) : (migrate failure files db).2 = none := by
  rw [← Option.not_isSome_iff_eq_none, (migrate_eq hnd h).2]
  intro hanswered
  have hearly :=
    (stage_of_answered (P := HeldUp (sortedFiles files) k) (fun i q s t => heldUp_step)
      ⟨h, Nat.zero_le 2⟩ hanswered).early
  rw [statementsFrom, List.length_append, pendingStatements_length, List.length_drop,
    (sortedFiles_perm files).length_eq] at hearly
  simp only [List.length_cons, List.length_nil] at hearly
  omega

theorem atStage_start (h : Progress (sortedFiles files) k k db) : AtStage (sortedFiles files) k 0 db :=
  ⟨h, fun hle => absurd hle (by omega)⟩

theorem migrate_progress (hnd : (files.map MigrationFile.version).Nodup)
    (h : Progress (sortedFiles files) k k db) :
    ∃ k', k ≤ k' ∧ (Progress (sortedFiles files) k' k' (migrate failure files db).1 ∨
      Progress (sortedFiles files) (k' + 1) k' (migrate failure files db).1) := by
  rw [(migrate_eq hnd h).1, runStatements_fst]
  obtain ⟨i, -, hstage, -⟩ :=
    effect_stage (P := AtStage (sortedFiles files) k) (fun i q s t => atStage_step) (atStage_start h)
    (budget failure (statementsFrom (sortedFiles files) k).length)
  refine ⟨k + (i - 2) / 2, Nat.le_add_right _ _, ?_⟩
  have hprogress := hstage.progress
  by_cases hsplit : (i - 1) / 2 = (i - 2) / 2
  · rw [hsplit] at hprogress
    exact Or.inl hprogress
  · rw [show (i - 1) / 2 = (i - 2) / 2 + 1 by omega] at hprogress
    exact Or.inr hprogress

theorem pendingFiles_length (hnd : (files.map MigrationFile.version).Nodup)
    (h : Progress (sortedFiles files) done recorded db) :
    (pendingFiles files db).length = files.length - recorded := by
  have hperm : (pendingFiles files db).Perm (pendingFiles (sortedFiles files) db) :=
    ((sortedFiles_perm files).filter _).symm
  rw [hperm.length_eq, pendingFiles_eq (sortedFiles_strict hnd) h, List.length_drop,
    (sortedFiles_perm files).length_eq]

theorem migrate_split_iff (hnd : (files.map MigrationFile.version).Nodup)
    (h : Progress (sortedFiles files) k k db)
    (hfits : ∀ m ∈ (sortedFiles files).drop k, m.version ≤ MAX_INTEGER) :
    (SplitsFile files db failure → ∃ k' < files.length,
      Progress (sortedFiles files) (k' + 1) k' (migrate failure files db).1) ∧
      (¬ SplitsFile files db failure → ∃ k', k ≤ k' ∧
        Progress (sortedFiles files) k' k' (migrate failure files db).1) := by
  have hstage := effect_all (P := AtStage (sortedFiles files) k) (fun i q s t => atStage_step)
    (fun i q s => atStage_go (sortedFiles_strict hnd) hfits) (atStage_start h)
    (budget failure (statementsFrom (sortedFiles files) k).length)
  have hlen : (statementsFrom (sortedFiles files) k).length = 2 + 2 * (files.length - k) := by
    rw [statementsFrom, List.length_append, pendingStatements_length, List.length_drop,
      (sortedFiles_perm files).length_eq]
    rfl
  rw [← runStatements_fst, ← (migrate_eq hnd h).1] at hstage
  rw [hlen] at hstage
  generalize hi : min (budget failure (2 + 2 * (files.length - k))) (2 + 2 * (files.length - k)) = i at hstage
  have hprogress := hstage.progress
  constructor
  · rintro ⟨f, rfl, j, hj, heq⟩
    rw [pendingFiles_length hnd h] at hj
    rw [budget, heq] at hi
    obtain rfl : i = 3 + 2 * j := by omega
    rw [show (3 + 2 * j - 1) / 2 = j + 1 by omega, show (3 + 2 * j - 2) / 2 = j by omega] at hprogress
    exact ⟨k + j, by omega, hprogress⟩
  · intro hwhole
    refine ⟨k + (i - 2) / 2, Nat.le_add_right _ _, ?_⟩
    have heven : (i - 1) / 2 = (i - 2) / 2 := by
      cases failure with
      | none =>
        rw [budget] at hi
        omega
      | some f =>
        by_contra hne
        apply hwhole
        rw [budget] at hi
        refine ⟨f, rfl, (i - 3) / 2, ?_, by omega⟩
        rw [pendingFiles_length hnd h]
        omega
    rw [heven] at hprogress
    exact hprogress

theorem migrateAgain_progress (hnd : (files.map MigrationFile.version).Nodup)
    (h : Progress (sortedFiles files) k k db) :
    ∃ k', Progress (sortedFiles files) k' k' (migrateAgain files failures db) ∨
      Progress (sortedFiles files) (k' + 1) k' (migrateAgain files failures db) := by
  induction failures generalizing k db with
  | nil => exact ⟨k, Or.inl h⟩
  | cons failure failures ih =>
    rw [migrateAgain_cons]
    obtain ⟨k', -, hwhole | hsplit⟩ := migrate_progress hnd h
    · exact ih hwhole
    · exact ⟨k', Or.inr (migrateAgain_heldUp hnd hsplit)⟩

theorem migrateAgain_unsplit (hnd : (files.map MigrationFile.version).Nodup)
    (h : Progress (sortedFiles files) k k db)
    (hfits : ∀ m ∈ (sortedFiles files).drop k, m.version ≤ MAX_INTEGER)
    (hunsplit : Unsplit files failures db) :
    ∃ k', k ≤ k' ∧ Progress (sortedFiles files) k' k' (migrateAgain files failures db) := by
  induction failures generalizing k db with
  | nil => exact ⟨k, le_refl k, h⟩
  | cons failure failures ih =>
    obtain ⟨hwhole, hrest⟩ := hunsplit
    obtain ⟨k', hle, hprogress⟩ := (migrate_split_iff hnd h hfits).2 hwhole
    have hfits' : ∀ m ∈ (sortedFiles files).drop k', m.version ≤ MAX_INTEGER :=
      fun m hm => hfits m (List.drop_subset_drop_left _ hle hm)
    obtain ⟨k'', hle', hprogress'⟩ := ih hprogress hfits' hrest
    exact ⟨k'', hle.trans hle', hprogress'⟩

theorem migrateAgain_split (hnd : (files.map MigrationFile.version).Nodup)
    (h : Progress (sortedFiles files) k k db)
    (hfits : ∀ m ∈ (sortedFiles files).drop k, m.version ≤ MAX_INTEGER)
    (hsplit : ¬ Unsplit files failures db) :
    ∃ k' < files.length, Progress (sortedFiles files) (k' + 1) k' (migrateAgain files failures db) := by
  induction failures generalizing k db with
  | nil => exact absurd trivial hsplit
  | cons failure failures ih =>
    rw [migrateAgain_cons]
    by_cases hnow : SplitsFile files db failure
    · obtain ⟨k', hk', hprogress⟩ := (migrate_split_iff hnd h hfits).1 hnow
      exact ⟨k', hk', migrateAgain_heldUp hnd hprogress⟩
    · obtain ⟨k', hle, hprogress⟩ := (migrate_split_iff hnd h hfits).2 hnow
      refine ih hprogress (fun m hm => hfits m (List.drop_subset_drop_left _ hle hm)) fun hrest => ?_
      exact hsplit ⟨hnow, hrest⟩

/-- Every file has committed once, in its turn, and is recorded. -/
structure Finished (files : List MigrationFile) (db : SchemaDb) : Prop where
  committed : db.committed = (sortedFiles files).map MigrationFile.version
  rows : db.rows = (sortedFiles files).map fun m => (m.version, m.name)

theorem migrate_finishes (hnd : (files.map MigrationFile.version).Nodup)
    (h : Progress (sortedFiles files) k k db)
    (hfits : ∀ m ∈ (sortedFiles files).drop k, m.version ≤ MAX_INTEGER) :
    (migrate none files db).2.isSome = true ∧ Finished files (migrate none files db).1 := by
  have hanswered := answered_of_go (P := AtStage (sortedFiles files) k) (fun i q s t => atStage_step)
    (fun i q s => atStage_go (sortedFiles_strict hnd) hfits) (atStage_start h)
  have hlast :=
    (stage_of_answered (P := AtStage (sortedFiles files) k) (fun i q s t => atStage_step)
      (atStage_start h) hanswered).progress
  have hlen : (statementsFrom (sortedFiles files) k).length = 2 + 2 * (files.length - k) := by
    rw [statementsFrom, List.length_append, pendingStatements_length, List.length_drop,
      (sortedFiles_perm files).length_eq]
    rfl
  have hall : (sortedFiles files).take (k + (files.length - k)) = sortedFiles files := by
    apply List.take_of_length_le
    rw [(sortedFiles_perm files).length_eq]
    omega
  rw [hlen, ← (migrate_eq hnd h).1, show (2 + 2 * (files.length - k) - 1) / 2 = files.length - k by omega,
    show (2 + 2 * (files.length - k) - 2) / 2 = files.length - k by omega] at hlast
  refine ⟨(migrate_eq hnd h).2.trans hanswered, ?_, ?_⟩
  · rw [hlast.committed, hall]
  · rw [hlast.rows, hall]

def RowsFit (start db : SchemaDb) : Prop := ∀ row ∈ db.rows, row ∈ start.rows ∨ row.1 ≤ MAX_INTEGER

theorem migrate_rowsFit (hnd : (files.map MigrationFile.version).Nodup) {start : SchemaDb}
    (h : Progress (sortedFiles files) done recorded db) (hrows : RowsFit start db) :
    RowsFit start (migrate failure files db).1 := by
  have hstep : ∀ (i : ℕ) (q : Statement SchemaDb) s t,
      (statementsFrom (sortedFiles files) recorded)[i]? = some q → RowsFit start s → q s = some t →
      RowsFit start t := by
    intro i q s t hq hs ht
    obtain ⟨rfl, rfl⟩ | ⟨rfl, rfl⟩ | ⟨j, m, hm, ⟨rfl, rfl⟩ | ⟨rfl, rfl⟩⟩ := statementsFrom_get hq
    · rw [RowsFit, (ensureMigrationsTable_rows ht).2.1]
      exact hs
    · exact selectVersions_eq ht ▸ hs
    · obtain ⟨-, rfl⟩ := applyFile_some ht
      exact hs
    · obtain ⟨hfits, -, hrows', -⟩ := recordVersion_some ht
      intro row hrow
      rw [hrows'] at hrow
      rcases List.mem_append.mp hrow with hrow | hrow
      · exact hs row hrow
      · obtain rfl := List.mem_singleton.mp hrow
        exact Or.inr hfits
  rw [(migrate_eq hnd h).1, runStatements_fst]
  obtain ⟨-, -, hfit, -⟩ := effect_stage (P := fun _ => RowsFit start) hstep hrows
    (budget failure (statementsFrom (sortedFiles files) recorded).length)
  exact hfit

theorem migrateAgain_rowsFit (hnd : (files.map MigrationFile.version).Nodup) {start : SchemaDb}
    (h : Progress (sortedFiles files) k k db ∨ Progress (sortedFiles files) (k + 1) k db)
    (hrows : RowsFit start db) :
    RowsFit start (migrateAgain files failures db) := by
  induction failures generalizing k db with
  | nil => exact hrows
  | cons failure failures ih =>
    rw [migrateAgain_cons]
    rcases h with h | h
    · obtain ⟨k', -, hnext⟩ := migrate_progress hnd h
      exact ih hnext (migrate_rowsFit hnd h hrows)
    · exact ih (Or.inr (migrate_heldUp hnd h)) (migrate_rowsFit hnd h hrows)

end Calls

/-- At every point at most one file has committed without a record. A re-run without failures finishes
everything if and only if the versions to come fit their column and no call so far failed between a file and
its record; then no file is ever left so. -/
theorem migrate_crash_safe_iff (files : List MigrationFile) (hnd : (files.map MigrationFile.version).Nodup)
    (db : SchemaDb) (k : ℕ) (h : Progress (sortedFiles files) k k db) (failures : List (Option Failure)) :
    (∃ k', Progress (sortedFiles files) k' k' (migrateAgain files failures db) ∨
      Progress (sortedFiles files) (k' + 1) k' (migrateAgain files failures db)) ∧
    ((∃ result, (migrate none files (migrateAgain files failures db)).2 = some result ∧
        Finished files (migrate none files (migrateAgain files failures db)).1) ↔
      (∀ m ∈ pendingFiles files db, m.version ≤ MAX_INTEGER) ∧ Unsplit files failures db) ∧
    ((∀ m ∈ pendingFiles files db, m.version ≤ MAX_INTEGER) → Unsplit files failures db →
      ∃ k', k ≤ k' ∧ Progress (sortedFiles files) k' k' (migrateAgain files failures db)) := by
  have hstrict := sortedFiles_strict hnd
  have hpending : ∀ m, m ∈ pendingFiles files db ↔ m ∈ (sortedFiles files).drop k := by
    intro m
    rw [← pendingFiles_eq hstrict h]
    exact ((sortedFiles_perm files).filter _).mem_iff.symm
  simp only [hpending]
  refine ⟨migrateAgain_progress hnd h, ⟨?_, ?_⟩,
    fun hfits hunsplit => migrateAgain_unsplit hnd h hfits hunsplit⟩
  · rintro ⟨result, hresult, hfinished⟩
    have hfits : ∀ m ∈ (sortedFiles files).drop k, m.version ≤ MAX_INTEGER := by
      intro m hm
      have hfit : RowsFit db (migrate none files (migrateAgain files failures db)).1 := by
        have hall : migrateAgain files (failures ++ [none]) db =
            (migrate none files (migrateAgain files failures db)).1 := by
          rw [migrateAgain, List.foldl_append]
          rfl
        rw [← hall]
        exact migrateAgain_rowsFit hnd (Or.inl h) fun row hrow => Or.inl hrow
      have hrow : (m.version, m.name) ∈ (migrate none files (migrateAgain files failures db)).1.rows := by
        rw [hfinished.rows]
        exact List.mem_map_of_mem (f := fun m : MigrationFile => (m.version, m.name))
          (List.mem_of_mem_drop hm)
      refine (hfit _ hrow).resolve_left fun hbefore => ?_
      have hunrecorded : m.version ∉ db.appliedVersions := by
        rw [← pendingFiles_eq hstrict h] at hm
        exact of_decide_eq_true (List.mem_filter.mp hm).2
      exact hunrecorded (List.mem_map_of_mem (f := Prod.fst) hbefore)
    refine ⟨hfits, ?_⟩
    by_contra hsplit
    obtain ⟨k', hk', hheld⟩ := migrateAgain_split hnd h hfits hsplit
    rw [migrate_heldUp_throws hnd hheld hk'] at hresult
    cases hresult
  · rintro ⟨hfits, hunsplit⟩
    obtain ⟨k', hle, hprogress⟩ := migrateAgain_unsplit hnd h hfits hunsplit
    obtain ⟨hanswered, hfinished⟩ := migrate_finishes hnd hprogress
      fun m hm => hfits m (List.drop_subset_drop_left _ hle hm)
    obtain ⟨result, hresult⟩ := Option.isSome_iff_exists.mp hanswered
    exact ⟨result, hresult, hfinished⟩

section Examples

def firstFiles : List MigrationFile := [⟨2, js ['b']⟩, ⟨1, js ['a']⟩]

def emptyDb : SchemaDb := ⟨none, []⟩

/-- The connection fails after the first file's `COMMIT`: no later call gets past this file. -/
theorem migrate_not_crash_safe : (firstFiles.map MigrationFile.version).Nodup ∧
    (migrate (some ⟨2, true⟩) firstFiles emptyDb).1 = ⟨some [], [1]⟩ ∧
    ∀ failures, (migrate none firstFiles (migrateAgain firstFiles failures ⟨some [], [1]⟩)).2 = none ∧
      (migrateAgain firstFiles failures ⟨some [], [1]⟩).appliedVersions = [] := by
  have hnd : (firstFiles.map MigrationFile.version).Nodup := by decide
  refine ⟨hnd, by decide, fun failures => ?_⟩
  have hheld : Progress (sortedFiles firstFiles) (0 + 1) 0 ⟨some [], [1]⟩ := ⟨by decide, by decide⟩
  have hafter : Progress (sortedFiles firstFiles) (0 + 1) 0
      (migrateAgain firstFiles failures ⟨some [], [1]⟩) :=
    migrateAgain_heldUp hnd hheld
  exact ⟨migrate_heldUp_throws hnd hafter (by decide), hafter.appliedVersions⟩

theorem migrate_crash_safe_iff_retried :
    ∃ result,
    (migrate none firstFiles (migrateAgain firstFiles [some ⟨2, false⟩, some ⟨4, false⟩] emptyDb)).2 =
    some result ∧
      Finished firstFiles
        (migrate none firstFiles
        (migrateAgain firstFiles [some ⟨2, false⟩, some ⟨4, false⟩] emptyDb)).1 := by
  exact (migrate_crash_safe_iff firstFiles (by decide) emptyDb 0 ⟨by decide, by decide⟩ _).2.1.mpr
    ⟨by decide, by decide⟩

end Examples

end OpenOutliner
