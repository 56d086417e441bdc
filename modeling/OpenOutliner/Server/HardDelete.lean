import OpenOutliner.Server.GcSafety

namespace OpenOutliner

open Foundations

/-- What a map of the document shows: under each key the entries that were ever set; a merge keeps
them all, what one side erased stays erased, and a key is there only if an entry of it is not erased. -/
structure KeyLaws {S P : Type} [SemilatticeSup S] (docs : YjsDocs S P) (E : Type) where
  entries : S → JsString → Set E
  erased : S → Set E
  entries_sup : ∀ s t x, entries (s ⊔ t) x = entries s x ∪ entries t x
  erased_mono : ∀ s t, s ≤ t → erased s ⊆ erased t
  present : ∀ s x, x ∈ (docs.doc s).items.keys → ∃ e ∈ entries s x, e ∉ erased s
  -- deleting keys makes no entries and erases those that the state has under them
  removal_entries : ∀ room ids x, entries (docs.removal room ids) x = ∅
  removal_erases : ∀ room ids, ∀ x ∈ ids, entries room x ⊆ erased (docs.removal room ids)

section Keys

variable {S P T E : Type} [SemilatticeSup S] [OrderBot S] [DecidableEq P] [DecidableEq T] {docs : YjsDocs S P}
  {σ : Log T P} {Q : ℕ → Prop}

theorem exists_first_step {m n : ℕ} (hle : m ≤ n) (hno : ¬ Q m) (hyes : Q n) :
    ∃ k, m < k ∧ k ≤ n ∧ ¬ Q (k - 1) ∧ Q k := by
  induction n, hle using Nat.le_induction with
  | base => exact absurd hyes hno
  | succ n hmn ih =>
    by_cases hn : Q n
    · obtain ⟨k, hmk, hkn, hk⟩ := ih hn
      exact ⟨k, hmk, hkn.trans (Nat.le_succ n), hk⟩
    · exact ⟨n + 1, Nat.lt_succ_of_le hmn, le_rfl, hn, hyes⟩

omit [DecidableEq P] [DecidableEq T] in
theorem Log.mergeUpTo_pred {c : Codec S P} {k : ℕ} (hk : ∀ update, (k, update) ∉ σ.committed) :
    σ.mergeUpTo c k = σ.mergeUpTo c (k - 1) := by
  have hfilter : (σ.committed.filter fun e => e.1 ≤ k) = σ.committed.filter fun e => e.1 ≤ k - 1 := by
    apply Finset.filter_congr
    intro e he
    have hne : e.1 ≠ k := by
      rintro rfl
      exact hk e.2 he
    omega
  rw [Log.mergeUpTo, Log.mergeUpTo, hfilter]

omit [OrderBot S] [DecidableEq P] in
theorem KeyLaws.removed (laws : KeyLaws docs E) {s room : S} {ids : List JsString} {x : JsString}
    (hx : x ∈ ids) (hseen : laws.entries s x ⊆ laws.entries room x) :
    x ∉ (docs.doc (docs.removal room ids ⊔ s)).items.keys := by
  intro hin
  obtain ⟨e, he, hlive⟩ := laws.present _ x hin
  rw [laws.entries_sup, laws.removal_entries, Set.empty_union] at he
  exact hlive (laws.erased_mono _ _ le_sup_left (laws.removal_erases room ids x hx (hseen he)))

end Keys

namespace Server

variable {T S P Uuid E : Type} [DecidableEq T] [SemilatticeSup S] [OrderBot S] [DecidableEq P]
  [DecidableEq Uuid] {docs : YjsDocs S P} {lib : FractionalIndexing} {uuids : UuidText Uuid}
  {replicaId : JsString} {threshold batchSize : ℕ} {σ τ : Server T S P Uuid} {a : ServerAction T S P Uuid}

/-- A pass that is not refused loaded a snapshot that has all key removals and spells the ids of removed rows
as the database does; and a room has seen all that the log has under the keys that it removes. -/
def Fresh (laws : KeyLaws docs E) (uuids : UuidText Uuid) (σ : Server T S P Uuid) :
    ServerAction T S P Uuid → Prop
  | .project p _ _ => ∀ s r, σ.passes p = some (s, r) → σ.projectedRev < r →
      (∀ e ∈ σ.hardDeleted, e.2 ≤ r) ∧
      ∀ x ∈ (docs.doc s).items.keys, ∀ e ∈ σ.hardDeleted, uuids.parse x = some e.1 → uuids.text e.1 = x
  | .gcStored t => ∀ ids room w row, σ.gc t = .removing ids room w row → ∀ u ∈ ids,
      laws.entries (mergeRows docs.toCodec σ.log.rows) (uuids.text u) ⊆ laws.entries room (uuids.text u)
  | _ => True

structure KeysGone (docs : YjsDocs S P) (uuids : UuidText Uuid) (σ : Server T S P Uuid) : Prop
    extends Inv docs uuids σ where
  removed : ∀ t ids room rev, σ.gc t = .removed ids room rev → ∀ u ∈ ids,
    uuids.text u ∉ (σ.docUpTo docs rev).items.keys
  deleted_gone : ∀ e ∈ σ.hardDeleted, uuids.text e.1 ∉ (σ.docUpTo docs e.2).items.keys

omit [DecidableEq T] [DecidableEq P] in
theorem removed_rev (h : σ.Inv docs uuids) {t : T} {ids : List Uuid} {room : S} {rev : ℕ}
    (hg : σ.gc t = .removed ids room rev) : rev ≤ σ.log.rev := by
  have hgc := h.gc t
  rw [hg] at hgc
  exact (h.log.gens _ hgc.2).2

omit [DecidableEq T] [DecidableEq P] in
theorem deleted_rev (h : σ.Inv docs uuids) {e : Uuid × ℕ} (he : e ∈ σ.hardDeleted) : e.2 ≤ σ.log.rev := by
  obtain ⟨room, ids, -, hmem⟩ := h.deleted e he
  exact (h.log.gens _ hmem).2

theorem keysGone_quiet {laws : KeyLaws docs E} (h : σ.KeysGone docs uuids) (hi : τ.Inv docs uuids)
    (hok : Fresh laws uuids σ a) (hq : Quiet docs threshold a σ τ) : τ.KeysGone docs uuids := by
  have hext := quiet_extends h.toInv hq
  refine ⟨hi, ?_, ?_⟩
  · intro t ids room rev hg u hu
    obtain hold | ⟨rfl, w, row, hold, htx, hlog⟩ := hq.removed t ids room rev hg
    · rw [docUpTo_eq hext (removed_rev h.toInv hold)]
      exact h.removed t ids room rev hold u hu
    · -- the removal has just been committed
      obtain ⟨hrev, -, hrows⟩ := Log.commit_appended htx hlog
      have hgc := h.gc t
      rw [hold] at hgc
      rw [docUpTo, ← hrev, Log.mergeUpTo_rev hi.log, hrows, mergeRows_insert, hgc.2, docs.decode_encode,
        Option.getD_some]
      exact laws.removed (List.mem_map_of_mem hu) (hok ids room w row hold u hu)
  · intro e he
    rw [hq.hardDeleted] at he
    rw [docUpTo_eq hext (deleted_rev h.toInv he)]
    exact h.deleted_gone e he

theorem keysGone_step {laws : KeyLaws docs E} (h : σ.KeysGone docs uuids) (hok : Fresh laws uuids σ a)
    (hstep : σ.step docs lib uuids replicaId threshold batchSize a = some τ) : τ.KeysGone docs uuids := by
  have hi := inv_step h.toInv hstep
  obtain hquiet | ⟨t, rfl⟩ | ⟨p, now, foreign, rfl⟩ := step_cases hstep
  · exact keysGone_quiet h hi hok hquiet
  · obtain ⟨ids, room, rev, hg, rfl⟩ := gcDelete_cases hstep
    refine ⟨hi, ?_, ?_⟩
    · intro t' ids' room' rev' hg'
      have hidle : Plain (.idle : GcTx S P Uuid T) := trivial
      exact h.removed t' ids' room' rev' (plain_update hidle not_false hg')
    · intro e he
      cases List.mem_append.mp he with
      | inl hnew =>
        obtain ⟨id, hid, rfl⟩ := List.mem_map.mp hnew
        exact h.removed t ids room rev hg id hid
      | inr hkept => exact h.deleted_gone e hkept
  · obtain ⟨s, r, items, projectedRev, -, -, -, rfl⟩ := project_cases hstep
    exact ⟨hi, h.removed, h.deleted_gone⟩

omit [DecidableEq T] [DecidableEq P] in
theorem keysGone_initial {seed : Option ℕ} {items : Items Uuid} :
    (initial seed items : Server T S P Uuid).KeysGone docs uuids where
  toInv := inv_initial docs uuids seed items
  removed t ids room rev hg := by cases hg
  deleted_gone := by simp [initial]

omit [DecidableEq P] in
theorem project_inserts (h : σ.Inv docs uuids) {p : T} {now : ℤ} {foreign : Uuid → Bool} {u : Uuid}
    (hstep : σ.projectStep docs lib uuids replicaId p now foreign = some τ) (hold : σ.items.get u = none)
    (hnew : τ.items.get u ≠ none) : σ.projectedRev < τ.projectedRev ∧
      (∃ s, σ.passes p = some (s, τ.projectedRev)) ∧
      ∃ x ∈ (σ.docUpTo docs τ.projectedRev).items.keys, uuids.parse x = some u := by
  obtain ⟨-, hitems⟩ | ⟨hlt, hpass, after, hafter, hitems⟩ := project_applies h hstep
  · exact absurd (hitems ▸ hold) hnew
  · refine ⟨hlt, hpass, ?_⟩
    obtain ⟨row, hrow⟩ := Option.ne_none_iff_exists'.mp hnew
    rw [hitems] at hrow
    obtain ⟨item, hitem, hparse⟩ := applied_new hafter hold hrow
    exact ⟨item.id, projectedRows_key hitem, hparse⟩

theorem step_deletes {u : Uuid} (h : σ.Inv docs uuids)
    (hstep : σ.step docs lib uuids replicaId threshold batchSize a = some τ) (hold : σ.items.get u ≠ none)
    (hgone : τ.items.get u = none) : ∃ t ids room rev, a = .gcDelete t ∧ σ.gc t = .removed ids room rev ∧
      u ∈ ids ∧ (rev, docs.encode (docs.removal room (ids.map uuids.text))) ∈ σ.log.committed := by
  obtain hquiet | ⟨t, rfl⟩ | ⟨p, now, foreign, rfl⟩ := step_cases hstep
  · rw [hquiet.items] at hgone
    exact absurd hgone hold
  · obtain ⟨ids, room, rev, hg, rfl⟩ := gcDelete_cases hstep
    have hgc := h.gc t
    rw [hg] at hgc
    refine ⟨t, ids, room, rev, rfl, hg, ?_, hgc.2⟩
    by_contra hnot
    have hget : (ids.foldl OrderedMap.delete σ.items).get u = none := hgone
    rw [OrderedMap.get_foldl_delete, if_neg hnot] at hget
    exact hold hget
  · obtain ⟨-, hitems⟩ | ⟨-, -, after, hafter, hitems⟩ := project_applies h hstep
    · exact absurd (hitems ▸ hgone) hold
    · -- a pass keeps every row
      rw [hitems, markMissing_get, Option.map_eq_none_iff] at hgone
      exact absurd (hafter.get_none hgone) hold

end Server

/-- In every run a row goes only after the removal of its key is in the log; and in a run whose passes
have loaded the removals and whose rooms have seen the keys, a row comes back only with an update
that is later than the removal and makes the key again. -/
theorem gcDocument_sticks {T S P Uuid E : Type} [DecidableEq T] [SemilatticeSup S] [OrderBot S]
    [DecidableEq P] [DecidableEq Uuid] {docs : YjsDocs S P} {lib : FractionalIndexing}
    {uuids : UuidText Uuid} {replicaId : JsString} {threshold batchSize : ℕ} {seed : Option ℕ}
    {items : Items Uuid} {σ τ : Server T S P Uuid} {a : ServerAction T S P Uuid} (laws : KeyLaws docs E)
    (h : Runs (Server.step docs lib uuids replicaId threshold batchSize) (fun _ _ => True)
      (Server.initial seed items) σ)
    (hstep : σ.step docs lib uuids replicaId threshold batchSize a = some τ) :
    (∀ u, σ.items.get u ≠ none → τ.items.get u = none → ∃ t ids room rev, a = .gcDelete t ∧
        σ.gc t = .removed ids room rev ∧ u ∈ ids ∧
        (rev, docs.encode (docs.removal room (ids.map uuids.text))) ∈ σ.log.committed) ∧
      (Runs (Server.step docs lib uuids replicaId threshold batchSize) (Server.Fresh laws uuids)
          (Server.initial seed items) σ → Server.Fresh laws uuids σ a →
        ∀ e ∈ σ.hardDeleted, σ.items.get e.1 = none → τ.items.get e.1 ≠ none →
          ∃ g update, e.2 < g ∧ g ≤ τ.projectedRev ∧ (g, update) ∈ σ.log.committed ∧
            uuids.text e.1 ∉ (σ.docUpTo docs (g - 1)).items.keys ∧
            uuids.text e.1 ∈ (σ.docUpTo docs g).items.keys) := by
  have hinv := Server.runs_inv h
  refine ⟨fun u => Server.step_deletes hinv hstep, ?_⟩
  intro hfresh hok e he hold hnew
  have hgone : σ.KeysGone docs uuids := hfresh.invariant
    (fun hi hok hstep => Server.keysGone_step hi hok hstep) Server.keysGone_initial
  have hproj : ∃ p now foreign, a = .project p now foreign := by
    by_contra hnot
    simp only [not_exists] at hnot
    have hitems := (Server.step_unprojected hstep hnot).2
    by_cases hdel : ∀ t, a ≠ .gcDelete t
    · exact hnew (by rw [hitems hdel, hold])
    · simp only [not_forall, not_not] at hdel
      obtain ⟨t, rfl⟩ := hdel
      obtain ⟨ids, room, rev, -, rfl⟩ := Server.gcDelete_cases hstep
      apply hnew
      change (ids.foldl OrderedMap.delete σ.items).get e.1 = none
      rw [OrderedMap.get_foldl_delete, hold, ite_self]
  obtain ⟨p, now, foreign, rfl⟩ := hproj
  obtain ⟨hlt, ⟨s, hpass⟩, x, hx, hparse⟩ := Server.project_inserts hinv hstep hold hnew
  obtain ⟨hnewer, hcanon⟩ := hok s _ hpass hlt
  rw [Server.docUpTo, ← (hinv.passes p s _ hpass).2] at hx
  obtain rfl := hcanon x hx e he hparse
  rw [(hinv.passes p s _ hpass).2] at hx
  obtain ⟨g, hg, hgr, hbefore, hafter⟩ :=
    exists_first_step (Q := fun g => uuids.text e.1 ∈ (σ.docUpTo docs g).items.keys) (hnewer e he)
      (hgone.deleted_gone e he) hx
  have hmade : ∃ update, (g, update) ∈ σ.log.committed := by
    by_contra hnone
    simp only [not_exists] at hnone
    rw [Server.docUpTo, Log.mergeUpTo_pred hnone] at hafter
    exact hbefore hafter
  obtain ⟨update, hupdate⟩ := hmade
  exact ⟨g, update, hg, hgr, hupdate, hbefore, hafter⟩

section Examples

theorem entryNode_some {s : Finset MapEvent} {parentId key : JsString} {n : ℕ} {e : JsString × Node}
    (h : entryNode s parentId key n = some e) : e.1 = key ∧ .made key n ∈ s ∧ .erased key n ∉ s := by
  unfold entryNode at h
  split at h
  · rename_i hin
    cases h
    exact ⟨rfl, hin⟩
  · cases h

def mapLaws : KeyLaws mapDocs (JsString × ℕ) where
  entries s x := {e | e.1 = x ∧ .made e.1 e.2 ∈ s}
  erased s := {e | .erased e.1 e.2 ∈ s}
  entries_sup s t x := by
    ext e
    simp only [Set.mem_ofPred_eq, Set.mem_union, Finset.sup_eq_union, Finset.mem_union]
    tauto
  erased_mono s t hst e he := hst he
  present s x hx := by
    obtain ⟨e, he, rfl⟩ := List.mem_map.mp (OrderedMap.mem_keys_ofList hx)
    obtain ⟨⟨parentId, key⟩, -, hentry⟩ := List.mem_filterMap.mp he
    cases Option.or_eq_some_iff.mp hentry with
    | inl hone =>
      obtain ⟨rfl, hmade, herased⟩ := entryNode_some hone
      exact ⟨(e.1, 1), ⟨rfl, hmade⟩, herased⟩
    | inr hzero =>
      obtain ⟨rfl, hmade, herased⟩ := entryNode_some hzero.2
      exact ⟨(e.1, 0), ⟨rfl, hmade⟩, herased⟩
  removal_entries room ids x := by
    apply Set.eq_empty_of_forall_notMem
    rintro ⟨key, n⟩ ⟨-, hmade⟩
    obtain ⟨event, hevent, he⟩ := Finset.mem_image.mp hmade
    have hunder := (Finset.mem_filter.mp hevent).2
    cases event with
    | made key n => cases he
    | erased key n => cases hunder
    | deleted key n => cases hunder
    | restored key n => cases hunder
  removal_erases room ids x hx e he := by
    obtain ⟨rfl, hmade⟩ := he
    apply Finset.mem_image.mpr
    exact ⟨.made e.1 e.2, Finset.mem_filter.mpr ⟨hmade, decide_eq_true hx⟩, rfl⟩

def itemRemoved : Finset MapEvent := {.erased (js ['b']) 0}

def remade : Finset MapEvent := {.made (js ['b']) 1}

def collectRemove : List MapAction := collect ++ [.gcRemove 3 4 3, .log (.advanceRev 4)]

def deleteRemade : List MapAction := .gcDelete 3 :: appendEvents 5 6 remade ++ [.load 8]

theorem gcDocument_sticks_remade :
    ∃ σ τ, execute mapStep (Server.initial none .empty) (deleteLoaded ++ .project 7 5 (fun _ => false) ::
        collectRemove ++ .gcStored 3 :: deleteRemade) = some σ ∧
      mapStep σ (.project 8 20 fun _ => false) = some τ ∧ (11, 3) ∈ σ.hardDeleted ∧ σ.items.get 11 = none ∧
      τ.items.get 11 ≠ none ∧ ∃ g update, 3 < g ∧ g ≤ τ.projectedRev ∧ (g, update) ∈ σ.log.committed ∧
        js ['b'] ∉ (σ.docUpTo mapDocs (g - 1)).items.keys ∧ js ['b'] ∈ (σ.docUpTo mapDocs g).items.keys := by
  have hparts : ∃ σ₁, execute mapStep (Server.initial none .empty) deleteLoaded = some σ₁ ∧
      (σ₁.passes 7 = some (itemMade ∪ itemDeleted, 2) ∧ σ₁.hardDeleted = []) ∧
      ∃ σ₂, mapStep σ₁ (.project 7 5 fun _ => false) = some σ₂ ∧
      ∃ σ₃, execute mapStep σ₂ collectRemove = some σ₃ ∧
      (σ₃.gc 3 = .removing [11] (itemMade ∪ itemDeleted) 4 (3, some itemRemoved) ∧
        mergeRows mapDocs.toCodec σ₃.log.rows ⊆ itemMade ∪ itemDeleted) ∧
      ∃ σ₄, mapStep σ₃ (.gcStored 3) = some σ₄ ∧
      ∃ σ, execute mapStep σ₄ deleteRemade = some σ ∧
      (σ.passes 8 = some (itemMade ∪ itemDeleted ∪ itemRemoved ∪ remade, 4) ∧ σ.hardDeleted = [(11, 3)] ∧
        σ.items.get 11 = none) ∧
      (mapStep σ (.project 8 20 fun _ => false)).any (fun τ => (τ.items.get 11).isSome) = true :=
    ⟨_, rfl, ⟨by decide, rfl⟩, _, rfl, _, rfl, ⟨rfl, by decide⟩, _, rfl, _, rfl, ⟨by decide, rfl, rfl⟩,
      by decide +kernel⟩
  obtain ⟨σ₁, h₁, ⟨hpass₁, hnone⟩, σ₂, h₂, σ₃, h₃, ⟨hg, hseen⟩, σ₄, h₄, σ, h₅, ⟨hpass, hdeleted, hget⟩,
      hany⟩ := hparts
  obtain ⟨τ, hτ, hnew⟩ := Option.any_eq_true _ _ |>.mp hany
  have hσ := execute_trans (execute_trans h₁ (execute_cons h₂ h₃)) (execute_cons h₄ h₅)
  have hfresh₁ : Server.Fresh mapLaws hexDigits σ₁ (.project 7 5 fun _ => false) := by
    intro s r hs _
    rw [hpass₁] at hs
    cases hs
    rw [hnone]
    exact ⟨by simp, by simp⟩
  have hfresh₃ : Server.Fresh mapLaws hexDigits σ₃ (.gcStored 3) := by
    intro ids room w row hremoving u _
    rw [hg] at hremoving
    cases hremoving
    exact fun e he => ⟨he.1, hseen he.2⟩
  have hfresh : Server.Fresh mapLaws hexDigits σ (.project 8 20 fun _ => false) := by
    intro s r hs _
    rw [hpass] at hs
    cases hs
    rw [hdeleted]
    exact ⟨by simp, by decide⟩
  have hrun₁ : Runs mapStep (Server.Fresh mapLaws hexDigits) (Server.initial none .empty) σ₁ := by
    refine execute_runs_of ?_ h₁
    simp [deleteLoaded, appendEvents, Server.Fresh]
  have hrun₃ : Runs mapStep (Server.Fresh mapLaws hexDigits) σ₂ σ₃ := by
    refine execute_runs_of ?_ h₃
    simp [collectRemove, collect, Server.Fresh]
  have hrun₅ : Runs mapStep (Server.Fresh mapLaws hexDigits) σ₄ σ := by
    refine execute_runs_of ?_ h₅
    simp [deleteRemade, appendEvents, Server.Fresh]
  have hrun := (((Runs.step _ hrun₁ hfresh₁ h₂).trans hrun₃).trans (Runs.single hfresh₃ h₄)).trans hrun₅
  have hmem : ((11 : Fin 16), 3) ∈ σ.hardDeleted := by rw [hdeleted]; exact List.mem_singleton.mpr rfl
  have hsome : τ.items.get 11 ≠ none := Option.isSome_iff_ne_none.mp hnew
  exact ⟨σ, τ, hσ, hτ, hmem, hget, hsome,
    (gcDocument_sticks mapLaws (execute_runs hσ) hτ).2 hrun hfresh (11, 3) hmem hget hsome⟩

/-- A pass that loaded before the removal, of a later revision than the projected one, commits after
the hard delete and writes the row again. -/
theorem gcDocument_undone :
    ∃ σ τ, execute mapStep (Server.initial none .empty) (deleteLoaded ++
        appendEvents 1 5 {.made (js ['c']) 0} ++ .load 8 :: .project 7 5 (fun _ => false) ::
        collectRemove ++ [.gcStored 3, .gcDelete 3]) = some σ ∧
      mapStep σ (.project 8 20 fun _ => false) = some τ ∧ (11, 4) ∈ σ.hardDeleted ∧ σ.items.get 11 = none ∧
      (τ.items.get 11).isSome = true ∧ ∀ e ∈ σ.log.committed, e.1 ≤ 4 := by
  have hrun :
      (execute mapStep (Server.initial none .empty)
      (deleteLoaded ++ appendEvents 1 5 {.made (js ['c']) 0} ++
      .load 8 :: .project 7 5 (fun _ => false) :: collectRemove ++ [.gcStored 3, .gcDelete 3])).any (fun σ =>
      (mapStep σ (.project 8 20 fun _ => false)).any fun τ =>
      decide ((11, 4) ∈ σ.hardDeleted ∧ σ.items.get 11 = none ∧
        (τ.items.get 11).isSome = true ∧ ∀ e ∈ σ.log.committed, e.1 ≤ 4)) = true := by
    decide +kernel
  obtain ⟨σ, hσ, hany⟩ := (Option.any_eq_true _ _).mp hrun
  obtain ⟨τ, hτ, hfacts⟩ := (Option.any_eq_true _ _).mp hany
  exact ⟨σ, τ, hσ, hτ, of_decide_eq_true hfacts⟩

end Examples

end OpenOutliner
