import OpenOutliner.Server.GcSafety
import OpenOutliner.Server.ReplicaSync

namespace OpenOutliner

open Foundations

section Ledger

variable {ledger : ReplicaLedger} {touches : List ReplicaTouch} {touch : ReplicaTouch} {replica : JsString}
  {row : ReplicaSync} {at_ synced : ℤ}

theorem touchReplica_synced (hget : (touchReplica ledger touch at_).get replica = some row)
    (hsynced : row.lastSyncedAt = some synced) :
    (∃ old, ledger.get replica = some old ∧ old.lastSyncedAt = some synced) ∨
      synced = at_ ∧ touch = ⟨replica, true⟩ := by
  by_cases hr : replica = touch.replicaId
  · subst hr
    rw [touchReplica, OrderedMap.get_set_self] at hget
    obtain rfl := Option.some.inj hget
    obtain ⟨id, flag⟩ := touch
    cases hold : ledger.get id with
    | none =>
      simp only [hold, syncedStamp] at hsynced
      cases flag
      · cases hsynced
      · exact Or.inr ⟨(Option.some.inj hsynced).symm, rfl⟩
    | some old =>
      simp only [hold, syncedStamp] at hsynced
      cases flag
      · refine Or.inl ⟨old, rfl, ?_⟩
        cases hlast : old.lastSyncedAt <;> simp [greatestStamp, hlast] at hsynced ⊢
        exact hsynced
      · cases hlast : old.lastSyncedAt with
        | none =>
          simp [greatestStamp, hlast] at hsynced
          exact Or.inr ⟨hsynced.symm, rfl⟩
        | some last =>
          simp only [greatestStamp, hlast, if_true, Option.some.injEq] at hsynced
          cases max_choice last at_ with
          | inl hmax => exact Or.inl ⟨old, rfl, by rw [hlast, ← hsynced, hmax]⟩
          | inr hmax => exact Or.inr ⟨by rw [← hsynced, hmax], rfl⟩
  · rw [touchReplica, OrderedMap.get_set_of_ne _ _ hr] at hget
    exact Or.inl ⟨row, hget, hsynced⟩

theorem mem_coalesce (h : ⟨replica, true⟩ ∈ coalesce touches) : ⟨replica, true⟩ ∈ touches := by
  obtain ⟨id, -, he⟩ := List.mem_map.mp h
  simp only [ReplicaTouch.mk.injEq, List.any_eq_true, Bool.and_eq_true, decide_eq_true_eq] at he
  obtain ⟨rfl, touch, hmem, hid, hsynced⟩ := he
  obtain ⟨id', flag⟩ := touch
  cases hid
  cases hsynced
  exact hmem

theorem foldl_touchReplica_synced (touches : List ReplicaTouch)
    (hget : (touches.foldl (fun ledger touch => touchReplica ledger touch at_) ledger).get replica = some row)
    (hsynced : row.lastSyncedAt = some synced) :
    (∃ old, ledger.get replica = some old ∧ old.lastSyncedAt = some synced) ∨
      synced = at_ ∧ ⟨replica, true⟩ ∈ touches := by
  induction touches generalizing ledger with
  | nil => exact Or.inl ⟨row, hget, hsynced⟩
  | cons touch touches ih =>
    cases ih hget with
    | inl hold =>
      obtain ⟨old, hold, hlast⟩ := hold
      cases touchReplica_synced hold hlast with
      | inl hbefore => exact Or.inl hbefore
      | inr hnew => exact Or.inr ⟨hnew.1, hnew.2 ▸ List.mem_cons_self⟩
    | inr hnew => exact Or.inr ⟨hnew.1, List.mem_cons_of_mem _ hnew.2⟩

theorem touchReplicasBatch_synced (hget : (touchReplicasBatch ledger touches at_).get replica = some row)
    (hsynced : row.lastSyncedAt = some synced) :
    (∃ old, ledger.get replica = some old ∧ old.lastSyncedAt = some synced) ∨
      synced = at_ ∧ ⟨replica, true⟩ ∈ touches :=
  (foldl_touchReplica_synced _ hget hsynced).imp_right fun hnew => ⟨hnew.1, mem_coalesce hnew.2⟩

end Ledger

section Rows

variable {Uuid : Type} [DecidableEq Uuid]

theorem upsertRow_deleted_since {now deletedAt : ℤ} {parentId : Option Uuid} {item : ProjectedItem}
    {old : Option (ItemRow Uuid)} (h : (upsertRow now parentId item old).deletedAt = some deletedAt) :
    old.bind ItemRow.deletedAt = some deletedAt ∨ deletedAt = now := by
  rw [upsertRow_deletedAt] at h
  split at h
  · cases hbefore : old.bind ItemRow.deletedAt with
    | none =>
      rw [hbefore, Option.none_or] at h
      exact Or.inr (Option.some.inj h).symm
    | some t =>
      rw [hbefore, Option.some_or] at h
      exact Or.inl h
  · cases h

end Rows

section Messages

variable {S : Type} [SemilatticeSup S] [OrderBot S] {h : S} {messages : List (Message S)} {m : Message S}

def Linked (h : S) : List (Message S) → Prop
  | [] => True
  | m :: messages => m.room ≤ h ⊔ m.update ∧ Linked m.room messages

def lastRoom (h : S) : List (Message S) → S
  | [] => h
  | m :: messages => lastRoom m.room messages

omit [SemilatticeSup S] [OrderBot S] in
theorem lastRoom_append (m : Message S) : lastRoom h (messages ++ [m]) = m.room := by
  induction messages generalizing h with
  | nil => rfl
  | cons m' messages ih => exact ih

omit [OrderBot S] in
theorem Linked.append (hl : Linked h messages) (hm : m.room ≤ lastRoom h messages ⊔ m.update) :
    Linked h (messages ++ [m]) := by
  induction messages generalizing h with
  | nil => exact ⟨hm, trivial⟩
  | cons m' messages ih => exact ⟨hl.1, ih hl.2 hm⟩

end Messages

section Deletes

variable {S P : Type} [SemilatticeSup S] [OrderBot S]

def DeletedIn (docs : YjsDocs S P) (s : S) (x : JsString) : Prop :=
  ∃ row ∈ (docs.doc s).projectedRows, row.id = x ∧ row.deleted = true

/-- Who has received `received` has the delete of `x` that `s` shows, if it shows one: a part of `s` from
which `x` has stayed deleted. -/
def ReceivedDelete (docs : YjsDocs S P) (received s : S) (x : JsString) : Prop :=
  DeletedIn docs s x → ∃ s' ≤ s, s' ≤ received ∧ ∀ t, s' ≤ t → t ≤ s → DeletedIn docs t x

variable {docs : YjsDocs S P} {received more s : S} {x : JsString}

omit [OrderBot S] in
theorem ReceivedDelete.mono (h : ReceivedDelete docs received s x) (hle : received ≤ more) :
    ReceivedDelete docs more s x := by
  intro hdel
  obtain ⟨s', hs', hr, hstays⟩ := h hdel
  exact ⟨s', hs', hr.trans hle, hstays⟩

end Deletes

namespace Collab

variable {T S P Uuid : Type} [DecidableEq T] [SemilatticeSup S] [OrderBot S] [DecidableEq P]
  [DecidableEq Uuid] {docs : YjsDocs S P} {lib : FractionalIndexing} {uuids : UuidText Uuid}
  {replicaId : JsString} {threshold batchSize : ℕ} {σ τ : Collab T S P Uuid} {a : CollabAction T S P Uuid}

def Stamped (σ : Collab T S P Uuid) (replica : JsString) (at_ : ℤ) : Prop :=
  (∃ row, σ.ledger.get replica = some row ∧ row.lastSyncedAt = some at_) ∨
    ∃ w ∈ σ.writes, w.at_ = at_ ∧ ⟨replica, true⟩ ∈ w.touches

def Answered (docs : YjsDocs S P) (σ : Collab T S P Uuid) (since : ℤ) (s : S) (x : JsString) : Prop :=
  ∀ replica at_, σ.Stamped replica at_ → since < at_ → ReceivedDelete docs (σ.replicas replica) s x

def Acknowledges (socket : Socket S) : Prop := ∃ id, socket.touch = some ⟨id, true⟩

/-- When the room sent the last message that has arrived it had every delete that the log has now; and
the process's clock is not ahead of the database's. -/
def Caught (docs : YjsDocs S P) (σ : Collab T S P Uuid) (socket : Socket S) (at_ : ℤ) : Prop :=
  at_ ≤ σ.clock ∧ ∀ r ≤ σ.server.log.rev, ∀ x,
    ReceivedDelete docs socket.horizon (σ.server.log.mergeUpTo docs.toCodec r) x

/-- The sockets that a step stamps have caught up. -/
def CaughtUp (docs : YjsDocs S P) (σ : Collab T S P Uuid) : CollabAction T S P Uuid → Prop
  | .stateless k at_ => ∀ socket, σ.sockets.get k = some socket → Acknowledges socket.markSynced →
      Caught docs σ socket at_
  | .disconnect k at_ =>
    ∀ socket, σ.sockets.get k = some socket → Acknowledges socket → Caught docs σ socket at_
  | .heartbeat at_ => ∀ socket ∈ σ.sockets.values, Acknowledges socket → Caught docs σ socket at_
  | _ => True

structure SocketInv (room : Option S) (replicas : JsString → S) (socket : Socket S) : Prop where
  received : socket.horizon ≤ replicas socket.replica
  linked : Linked socket.horizon socket.messages
  cold : room = none → socket.replied = false
  brought : socket.replied = true → ∀ r ∈ room, r ≤ lastRoom socket.horizon socket.messages
  entry : ∀ touch ∈ socket.touch, touch.replicaId = socket.replica

omit [SemilatticeSup S] [OrderBot S] in
theorem touch_register {socket : Socket S} {touch : ReplicaTouch} (h : socket.register.touch = some touch) :
    touch = ⟨socket.replica, false⟩ := by
  obtain ⟨id, hid, rfl⟩ := Option.map_eq_some_iff.mp (h : Option.map _ _ = _)
  dsimp only at hid
  split at hid
  · rw [Option.some.inj hid]
  · cases hid

omit [SemilatticeSup S] [OrderBot S] in
theorem touch_markSynced {socket : Socket S} {touch : ReplicaTouch}
    (h : socket.markSynced.touch = some touch) :
    ∃ old ∈ socket.touch, old.replicaId = touch.replicaId := by
  obtain ⟨entry, hentry, htouch⟩ := Option.bind_eq_some_iff.mp h
  obtain ⟨old, hold, rfl⟩ := Option.map_eq_some_iff.mp hentry
  obtain ⟨id, hid, rfl⟩ := Option.map_eq_some_iff.mp htouch
  refine ⟨⟨id, old.synced⟩, ?_, rfl⟩
  rw [Option.mem_def, Socket.touch, hold, Option.bind_some, RegisteredConnection.touch,
    show old.replicaId = some id from hid]
  rfl

section

omit [OrderBot S]

theorem SocketInv.mono {room : Option S} {replicas replicas' : JsString → S} {socket : Socket S}
    (h : SocketInv room replicas socket) (hgrow : ∀ replica, replicas replica ≤ replicas' replica) :
    SocketInv room replicas' socket :=
  { h with received := h.received.trans (hgrow _) }

theorem SocketInv.register {room : Option S} {replicas : JsString → S} {socket : Socket S}
    (h : SocketInv room replicas socket) : SocketInv room replicas socket.register := by
  refine ⟨h.received, h.linked, h.cold, h.brought, ?_⟩
  intro touch htouch
  rw [touch_register htouch]
  rfl

theorem SocketInv.markSynced {room : Option S} {replicas : JsString → S} {socket : Socket S}
    (h : SocketInv room replicas socket) : SocketInv room replicas socket.markSynced := by
  refine ⟨h.received, h.linked, h.cold, h.brought, ?_⟩
  intro touch htouch
  obtain ⟨old, hold, hid⟩ := touch_markSynced htouch
  exact hid ▸ h.entry old hold

end

structure Inv (docs : YjsDocs S P) (uuids : UuidText Uuid) (σ : Collab T S P Uuid) : Prop where
  server : σ.server.Inv docs uuids
  sockets : ∀ k socket, σ.sockets.get k = some socket → SocketInv σ.room σ.replicas socket
  stamps : ∀ replica at_, σ.Stamped replica at_ → at_ ≤ σ.clock
  reading : ∀ p now s r, σ.begun p = some now → σ.server.passes p = some (s, r) → ∀ x, σ.Answered docs now s x
  buried : ∀ u item deletedAt, σ.server.items.get u = some item → item.deletedAt = some deletedAt →
    ∃ s r, σ.tombstones u = some s ∧ r ≤ σ.server.log.rev ∧ s = σ.server.log.mergeUpTo docs.toCodec r ∧
      σ.Answered docs deletedAt s (uuids.text u)

omit [DecidableEq T] [DecidableEq P] in
theorem inv_initial {seed : Option ℕ} {items : Items Uuid} {clock : ℤ} {replicas : JsString → S}
    (hitems : ∀ u item, items.get u = some item → item.deletedAt = none) :
    (initial seed items clock replicas : Collab T S P Uuid).Inv docs uuids where
  server := Server.inv_initial docs uuids seed items
  sockets k socket hget := by cases hget
  stamps replica at_ hst := by
    obtain ⟨row, hrow, -⟩ | ⟨w, hw, -⟩ := hst
    · cases hrow
    · cases hw
  reading p now s r hbegun := by cases hbegun
  buried u item deletedAt hget hdel := by
    rw [hitems u item hget] at hdel
    cases hdel

theorem projectTx_deletedAt {foreign : Uuid → Bool} {now : ℤ} {doc : Doc}
    {revision sourceRev projectedRev rev : ℕ}
    {items items' : Items Uuid} {u : Uuid} {item : ItemRow Uuid} {deletedAt : ℤ}
    (htx : projectTx lib uuids replicaId foreign now doc revision sourceRev items projectedRev =
      some (items', rev))
    (hget : items'.get u = some item) (hdel : item.deletedAt = some deletedAt) :
    (items.get u).bind ItemRow.deletedAt = some deletedAt ∨ deletedAt = now := by
  by_cases hguard : sourceRev ≤ projectedRev ∨ revision ≤ projectedRev
  · obtain ⟨rfl, -⟩ := projectTx_refused htx hguard
    exact Or.inl (by rw [hget, Option.bind_some, hdel])
  · obtain ⟨-, after, hafter, rfl⟩ := projectTx_applied htx hguard
    have hupsert : ∀ row, after.get u = some row → row.deletedAt = some deletedAt →
        (items.get u).bind ItemRow.deletedAt = some deletedAt ∨ deletedAt = now := by
      intro row hrow hrowdel
      by_cases hu : ∀ item ∈ projectable doc.projectedRows, uuids.parse item.id ≠ some u
      · rw [← hafter.kept u hu, hrow]
        exact Or.inl hrowdel
      · simp only [not_forall, not_not, exists_prop] at hu
        obtain ⟨winner, -, ⟨-, parent, -, hwritten⟩, -⟩ := hafter.row u hu
        rw [hrow] at hwritten
        obtain rfl := Option.some.inj hwritten
        exact upsertRow_deleted_since hrowdel
    rw [markMissing_get] at hget
    obtain ⟨row, hrow, rfl⟩ := Option.map_eq_some_iff.mp hget
    split at hdel
    · exact hupsert row hrow hdel
    · exact Or.inr (Option.some.inj hdel).symm

omit [DecidableEq T] [DecidableEq P] [OrderBot S] in
theorem Answered.mono {since : ℤ} {s : S} {x : JsString} (ha : σ.Answered docs since s x)
    (hreplicas : ∀ replica, σ.replicas replica ≤ τ.replicas replica)
    (hstamps : ∀ replica at_, τ.Stamped replica at_ → since < at_ →
      σ.Stamped replica at_ ∨ ReceivedDelete docs (τ.replicas replica) s x) : τ.Answered docs since s x := by
  intro replica at_ hst hlt
  cases hstamps replica at_ hst hlt with
  | inl hold => exact (ha replica at_ hold hlt).mono (hreplicas replica)
  | inr hnew => exact hnew

section Steps

variable (h : σ.Inv docs uuids)

include h

omit [DecidableEq T] [DecidableEq P] in
theorem Inv.evolve {clock : ℤ} {room : Option S} {replicas : JsString → S} {sockets : OrderedMap ℕ (Socket S)}
    {writes : List LedgerWrite} {ledger : ReplicaLedger} (hclock : σ.clock ≤ clock)
    (hreplicas : ∀ replica, σ.replicas replica ≤ replicas replica)
    (hsockets : ∀ k socket, sockets.get k = some socket → SocketInv room replicas socket)
    (hstamps : ∀ replica at_,
      (⟨σ.server, clock, room, replicas, sockets, writes, ledger, σ.begun, σ.tombstones⟩ :
      Collab T S P Uuid).Stamped replica at_ → σ.Stamped replica at_ ∨ at_ ≤ clock ∧
        ∀ r ≤ σ.server.log.rev, ∀ x, ReceivedDelete docs (replicas replica)
          (σ.server.log.mergeUpTo docs.toCodec r) x) :
    Inv docs uuids ⟨σ.server, clock, room, replicas, sockets, writes, ledger, σ.begun, σ.tombstones⟩ where
  server := h.server
  sockets := hsockets
  stamps replica at_ hst := by
    cases hstamps replica at_ hst with
    | inl hold => exact (h.stamps replica at_ hold).trans hclock
    | inr hnew => exact hnew.1
  reading p now s r hbegun hpass x := by
    refine (h.reading p now s r hbegun hpass x).mono hreplicas ?_
    intro replica at_ hst _
    obtain ⟨hr, rfl⟩ := h.server.passes p s r hpass
    exact (hstamps replica at_ hst).imp_right fun hnew => hnew.2 r hr x
  buried u item deletedAt hget hdel := by
    obtain ⟨s, r, hs, hr, rfl, hanswered⟩ := h.buried u item deletedAt hget hdel
    refine ⟨_, r, hs, hr, rfl, hanswered.mono hreplicas ?_⟩
    intro replica at_ hst _
    exact (hstamps replica at_ hst).imp_right fun hnew => hnew.2 r hr _

omit [DecidableEq T] in
theorem Inv.serve {server : Server T S P Uuid} (hinv : server.Inv docs uuids)
    (hitems : server.items = σ.server.items) (hext : Log.Extends σ.server.log server.log)
    (hpasses : ∀ p now, σ.begun p = some now → server.passes p = σ.server.passes p) :
    ({ σ with server } : Collab T S P Uuid).Inv docs uuids where
  server := hinv
  sockets := h.sockets
  stamps := h.stamps
  reading p now s r hbegun hpass := h.reading p now s r hbegun (hpasses p now hbegun ▸ hpass)
  buried u item deletedAt hget hdel := by
    obtain ⟨s, r, hs, hr, rfl, hanswered⟩ := h.buried u item deletedAt (hitems ▸ hget) hdel
    exact ⟨_, r, hs, hr.trans hext.rev, (hext.mergeUpTo hr).symm, hanswered⟩

theorem inv_log {b : LogAction T P}
    (hstep : σ.serverStep docs lib uuids replicaId threshold batchSize (.log b) = some τ) :
    τ.Inv docs uuids := by
  obtain ⟨server, hserver, rfl⟩ := Option.map_eq_some_iff.mp hstep
  have hinv := Server.inv_step h.server hserver
  simp only [Server.step] at hserver
  split at hserver
  · cases hserver
  · obtain ⟨log, hlog, rfl⟩ := Option.map_eq_some_iff.mp hserver
    exact h.serve hinv rfl (Log.step_extends h.server.log hlog) fun _ _ _ => rfl
  · cases hserver

omit [DecidableEq P] in
theorem inv_begun {p : T} {now : Option ℤ} (hnow : ∀ b ∈ now, σ.clock ≤ b) :
    ({ σ with begun := Function.update σ.begun p now } : Collab T S P Uuid).Inv docs uuids := by
  refine { h with reading := ?_ }
  intro p' b s r hbegun hpass x
  by_cases hp : p' = p
  · subst hp
    dsimp only at hbegun
    rw [Function.update_self] at hbegun
    intro replica at_ hst hlt
    have hclock := h.stamps replica at_ hst
    have := hnow b hbegun
    omega
  · dsimp only at hbegun
    rw [Function.update_of_ne hp] at hbegun
    exact h.reading p' b s r hbegun hpass x

theorem inv_begin {p : T} (hstep : σ.step docs lib uuids replicaId threshold batchSize (.begin p) = some τ) :
    τ.Inv docs uuids := by
  simp only [step] at hstep
  split at hstep
  · cases hstep
    apply inv_begun h
    rintro b ⟨⟩
    exact le_rfl
  · cases hstep

theorem inv_storeRoom {t : T} {id : ℕ}
    (hstep : σ.step docs lib uuids replicaId threshold batchSize (.storeRoom t id) = some τ) :
    τ.Inv docs uuids := by
  simp only [step] at hstep
  split at hstep
  · exact inv_log h hstep
  · cases hstep

theorem inv_load {p : T} (hstep : σ.step docs lib uuids replicaId threshold batchSize (.load p) = some τ) :
    τ.Inv docs uuids := by
  simp only [step] at hstep
  split at hstep
  case h_2 => cases hstep
  rename_i hnone
  obtain ⟨server, hserver, rfl⟩ := Option.map_eq_some_iff.mp hstep
  have hinv := Server.inv_step h.server hserver
  obtain ⟨snapshot, -, rfl⟩ := Option.map_eq_some_iff.mp hserver
  refine h.serve hinv rfl (Log.Extends.refl _) ?_
  intro p' now hbegun
  apply Function.update_of_ne
  rintro rfl
  rw [hnone] at hbegun
  cases hbegun

theorem inv_giveUp {p : T}
    (hstep : σ.step docs lib uuids replicaId threshold batchSize (.giveUp p) = some τ) :
    τ.Inv docs uuids := by
  simp only [step] at hstep
  obtain ⟨σ', hσ', rfl⟩ := Option.map_eq_some_iff.mp hstep
  obtain ⟨server, hserver, rfl⟩ := Option.map_eq_some_iff.mp hσ'
  have hinv := Server.inv_step h.server hserver
  cases hserver
  have hidle : ({ σ with begun := Function.update σ.begun p none } : Collab T S P Uuid).Inv docs uuids :=
    inv_begun h (by simp)
  refine hidle.serve hinv rfl (Log.Extends.refl _) ?_
  intro p' now hbegun
  apply Function.update_of_ne
  rintro rfl
  simp at hbegun

theorem inv_project {p : T} {foreign : Uuid → Bool}
    (hstep : σ.step docs lib uuids replicaId threshold batchSize (.project p foreign) = some τ) :
    τ.Inv docs uuids := by
  simp only [step] at hstep
  split at hstep
  case h_2 => cases hstep
  rename_i s r now hpass hbegun
  obtain ⟨server, hserver, rfl⟩ := Option.map_eq_some_iff.mp hstep
  have hinv := Server.inv_project h.server hserver
  obtain ⟨s', r', items, projectedRev, hpass', -, htx, rfl⟩ := Server.project_cases hserver
  obtain ⟨rfl, rfl⟩ := Prod.mk.inj (Option.some.inj (hpass.symm.trans hpass'))
  refine ⟨hinv, h.sockets, h.stamps, ?_, ?_⟩
  · intro p' b s' r' hbegun' hpass'
    have hp : p' ≠ p := by
      rintro rfl
      simp at hbegun'
    simp only [Function.update_of_ne hp] at hbegun' hpass'
    exact h.reading p' b s' r' hbegun' hpass'
  · intro u item deletedAt hget hdel
    dsimp only at hget ⊢
    by_cases hsame : (items.get u).bind ItemRow.deletedAt = (σ.server.items.get u).bind ItemRow.deletedAt
    · rw [bury, if_pos hsame]
      have hbefore := hsame
      rw [hget, Option.bind_some, hdel] at hbefore
      obtain ⟨old, hold, hdel'⟩ := Option.bind_eq_some_iff.mp hbefore.symm
      exact h.buried u old deletedAt hold hdel'
    · rw [bury, if_neg hsame]
      have hnow : deletedAt = now := by
        refine (projectTx_deletedAt htx hget hdel).resolve_left ?_
        intro hbefore
        rw [hget, Option.bind_some, hdel, hbefore] at hsame
        exact hsame rfl
      subst hnow
      obtain ⟨hr, hs⟩ := h.server.passes p s r hpass
      exact ⟨s, r, rfl, hr, hs, h.reading p deletedAt s r hbegun hpass (uuids.text u)⟩

omit [DecidableEq T] [DecidableEq P] in
theorem inv_enqueue {w : LedgerWrite} (hcaught : ∀ id, ⟨id, true⟩ ∈ w.touches → w.at_ ≤ σ.clock ∧
      ∀ r ≤ σ.server.log.rev, ∀ x, ReceivedDelete docs (σ.replicas id)
        (σ.server.log.mergeUpTo docs.toCodec r) x) :
    ({ σ with writes := σ.writes ++ [w] } : Collab T S P Uuid).Inv docs uuids := by
  refine h.evolve le_rfl (fun _ => le_rfl) h.sockets ?_
  rintro replica at_ (hledger | ⟨w', hw', rfl, hmem⟩)
  · exact Or.inl (Or.inl hledger)
  · cases List.mem_append.mp hw' with
    | inl hold => exact Or.inl (Or.inr ⟨w', hold, rfl, hmem⟩)
    | inr hnew =>
      obtain rfl := List.mem_singleton.mp hnew
      exact Or.inr (hcaught replica hmem)

omit [DecidableEq T] [DecidableEq P] in
theorem inv_touch {socket : Socket S} {at_ : ℤ}
    (hcaught : ∀ id, socket.touch = some ⟨id, true⟩ → at_ ≤ σ.clock ∧ ∀ r ≤ σ.server.log.rev, ∀ x,
      ReceivedDelete docs (σ.replicas id) (σ.server.log.mergeUpTo docs.toCodec r) x) :
    (σ.touch socket at_).Inv docs uuids := by
  unfold touch
  split
  · rename_i touch htouch
    refine inv_enqueue h fun id hmem => ?_
    obtain rfl := List.mem_singleton.mp hmem
    exact hcaught id htouch
  · exact h

theorem inv_write {i : ℕ} (hstep : σ.step docs lib uuids replicaId threshold batchSize (.write i) = some τ) :
    τ.Inv docs uuids := by
  simp only [step] at hstep
  split at hstep
  case h_2 => cases hstep
  rename_i w hw
  cases hstep
  refine h.evolve le_rfl (fun _ => le_rfl) h.sockets ?_
  rintro replica at_ (⟨row, hrow, hsynced⟩ | ⟨w', hw', hat, hmem⟩)
  · refine Or.inl ?_
    cases touchReplicasBatch_synced hrow hsynced with
    | inl hold => exact Or.inl hold
    | inr hnew => exact Or.inr ⟨w, List.mem_of_getElem? hw, hnew.1.symm, hnew.2⟩
  · exact Or.inl (Or.inr ⟨w', List.mem_of_mem_eraseIdx hw', hat, hmem⟩)

theorem inv_writeFails {i : ℕ}
    (hstep : σ.step docs lib uuids replicaId threshold batchSize (.writeFails i) = some τ) :
    τ.Inv docs uuids := by
  cases hstep
  refine h.evolve le_rfl (fun _ => le_rfl) h.sockets ?_
  rintro replica at_ (hledger | ⟨w, hw, hmem⟩)
  · exact Or.inl (Or.inl hledger)
  · exact Or.inl (Or.inr ⟨w, List.mem_of_mem_eraseIdx hw, hmem⟩)

theorem inv_time {elapsed : ℕ}
    (hstep : σ.step docs lib uuids replicaId threshold batchSize (.time elapsed) = some τ) :
    τ.Inv docs uuids := by
  cases hstep
  exact h.evolve (by omega) (fun _ => le_rfl) h.sockets (fun _ _ hst => Or.inl hst)

omit [DecidableEq T] [DecidableEq P] in
theorem inv_setSocket {k : ℕ} {socket : Socket S} (hsocket : SocketInv σ.room σ.replicas socket) :
    (σ.setSocket k socket).Inv docs uuids := by
  refine h.evolve le_rfl (fun _ => le_rfl) ?_ (fun _ _ hst => Or.inl hst)
  intro k' socket' hget
  by_cases hk : k' = k
  · subst hk
    rw [OrderedMap.get_set_self] at hget
    exact Option.some.inj hget ▸ hsocket
  · rw [OrderedMap.get_set_of_ne _ _ hk] at hget
    exact h.sockets k' socket' hget

theorem inv_openRoom (hstep : σ.step docs lib uuids replicaId threshold batchSize .openRoom = some τ) :
    τ.Inv docs uuids := by
  simp only [step] at hstep
  split at hstep
  case h_2 => cases hstep
  rename_i hnone
  cases hstep
  refine h.evolve le_rfl (fun _ => le_rfl) ?_ (fun _ _ hst => Or.inl hst)
  intro k socket hget
  have hsocket := h.sockets k socket hget
  refine { hsocket with cold := by simp, brought := ?_ }
  intro hreplied
  rw [hsocket.cold hnone] at hreplied
  cases hreplied

theorem inv_attach {k : ℕ} {replica : JsString}
    (hstep : σ.step docs lib uuids replicaId threshold batchSize (.attach k replica) = some τ) :
    τ.Inv docs uuids := by
  simp only [step] at hstep
  split at hstep
  · cases hstep
    exact inv_setSocket h ⟨bot_le, trivial, fun _ => rfl, by simp, by simp [Socket.touch]⟩
  · cases hstep

theorem inv_connected {k : ℕ} {at_ : ℤ}
    (hstep : σ.step docs lib uuids replicaId threshold batchSize (.connected k at_) = some τ) :
    τ.Inv docs uuids := by
  simp only [step] at hstep
  split at hstep
  case h_2 => cases hstep
  rename_i socket hget
  split at hstep
  · cases hstep
    refine inv_touch (inv_setSocket h (h.sockets k socket hget).register) ?_
    intro id htouch
    cases touch_register htouch
  · cases hstep

theorem inv_syncReply {k : ℕ}
    (hstep : σ.step docs lib uuids replicaId threshold batchSize (.syncReply k) = some τ) :
    τ.Inv docs uuids := by
  simp only [step] at hstep
  split at hstep
  case h_2 => cases hstep
  rename_i socket room hget hroom
  split at hstep
  case isTrue => cases hstep
  cases hstep
  have hsocket := h.sockets k socket hget
  refine inv_setSocket h ⟨hsocket.received, hsocket.linked.append le_sup_right, ?_, ?_, hsocket.entry⟩
  · rw [hroom]
    rintro ⟨⟩
  · intro _ r hr
    rw [hroom] at hr
    obtain rfl := Option.some.inj hr
    rw [lastRoom_append]

omit [DecidableEq T] [DecidableEq P] in
theorem inv_receive (replica : JsString) (s : S) :
    ({ σ with replicas := Function.update σ.replicas replica (σ.replicas replica ⊔ s) } :
      Collab T S P Uuid).Inv docs uuids := by
  have hgrow : ∀ r, σ.replicas r ≤ Function.update σ.replicas replica (σ.replicas replica ⊔ s) r := by
    intro r
    by_cases hr : r = replica
    · subst hr
      rw [Function.update_self]
      exact le_sup_left
    · rw [Function.update_of_ne hr]
  exact h.evolve le_rfl hgrow (fun k socket hget => (h.sockets k socket hget).mono hgrow)
    (fun _ _ hst => Or.inl hst)

theorem inv_edit {replica : JsString} {s : S}
    (hstep : σ.step docs lib uuids replicaId threshold batchSize (.edit replica s) = some τ) :
    τ.Inv docs uuids := by
  cases hstep
  exact inv_receive h replica s

theorem inv_deliver {k : ℕ}
    (hstep : σ.step docs lib uuids replicaId threshold batchSize (.deliver k) = some τ) :
    τ.Inv docs uuids := by
  simp only [step] at hstep
  split at hstep
  case h_2 => cases hstep
  rename_i socket hget
  split at hstep
  case h_1 => cases hstep
  rename_i m messages hm
  cases hstep
  have hsocket := h.sockets k socket hget
  have hlinked := hsocket.linked
  rw [hm] at hlinked
  apply inv_setSocket (inv_receive h socket.replica m.update)
  refine ⟨?_, hlinked.2, hsocket.cold, ?_, hsocket.entry⟩
  · dsimp only
    rw [Function.update_self]
    exact hlinked.1.trans (sup_le_sup_right hsocket.received _)
  · intro hreplied r hr
    have hroom := hsocket.brought hreplied r hr
    rwa [hm] at hroom

theorem inv_update {k : ℕ} {s : S}
    (hstep : σ.step docs lib uuids replicaId threshold batchSize (.update k s) = some τ) :
    τ.Inv docs uuids := by
  simp only [step] at hstep
  split at hstep
  case h_2 => cases hstep
  rename_i room hget hroom
  cases hstep
  refine h.evolve le_rfl (fun _ => le_rfl) ?_ (fun _ _ hst => Or.inl hst)
  intro k socket' hget
  rw [OrderedMap.get_mapValues] at hget
  obtain ⟨socket, hold, rfl⟩ := Option.map_eq_some_iff.mp hget
  have hsocket := h.sockets k socket hold
  refine ⟨hsocket.received, hsocket.linked.append ?_, by simp, ?_, hsocket.entry⟩
  · dsimp only
    split
    · rename_i hreplied
      exact sup_le_sup_right (hsocket.brought hreplied room hroom) s
    · exact bot_le
  · intro hreplied r hr
    have hreplied' : socket.replied = true := hreplied
    obtain rfl := Option.some.inj hr
    simp only [broadcast, lastRoom_append, if_pos hreplied', le_rfl]

omit [DecidableEq T] [DecidableEq P] in
theorem inv_deleteSocket (k : ℕ) :
    ({ σ with sockets := σ.sockets.delete k } : Collab T S P Uuid).Inv docs uuids := by
  refine h.evolve le_rfl (fun _ => le_rfl) ?_ (fun _ _ hst => Or.inl hst)
  intro k' socket hget
  rw [OrderedMap.get_delete] at hget
  split at hget
  · cases hget
  · exact h.sockets k' socket hget

omit [DecidableEq T] [DecidableEq P] in
theorem Inv.caught {k : ℕ} {socket : Socket S} {at_ : ℤ} {id : JsString}
    (hget : σ.sockets.get k = some socket)
    (hcaught : Caught docs σ socket at_) (hid : id = socket.replica) : at_ ≤ σ.clock ∧
      ∀ r ≤ σ.server.log.rev, ∀ x, ReceivedDelete docs (σ.replicas id)
        (σ.server.log.mergeUpTo docs.toCodec r) x := by
  subst hid
  exact ⟨hcaught.1, fun r hr x => (hcaught.2 r hr x).mono (h.sockets k socket hget).received⟩

theorem inv_stateless {k : ℕ} {at_ : ℤ} (hok : CaughtUp docs σ (.stateless k at_))
    (hstep : σ.step docs lib uuids replicaId threshold batchSize (.stateless k at_) = some τ) :
    τ.Inv docs uuids := by
  simp only [step] at hstep
  split at hstep
  case h_2 => cases hstep
  rename_i socket hget
  split at hstep
  · cases hstep
    have hmarked := (h.sockets k socket hget).markSynced
    refine inv_touch (inv_setSocket h hmarked) ?_
    intro id htouch
    exact h.caught hget (hok socket hget ⟨id, htouch⟩) (hmarked.entry _ htouch)
  · cases hstep

theorem inv_disconnect {k : ℕ} {at_ : ℤ} (hok : CaughtUp docs σ (.disconnect k at_))
    (hstep : σ.step docs lib uuids replicaId threshold batchSize (.disconnect k at_) = some τ) :
    τ.Inv docs uuids := by
  simp only [step] at hstep
  split at hstep
  · rename_i socket hget
    cases hstep
    refine inv_touch (inv_deleteSocket h k) ?_
    intro id htouch
    exact h.caught hget (hok socket hget ⟨id, htouch⟩) ((h.sockets k socket hget).entry _ htouch)
  · cases hstep

theorem inv_heartbeat {at_ : ℤ} (hok : CaughtUp docs σ (.heartbeat at_))
    (hstep : σ.step docs lib uuids replicaId threshold batchSize (.heartbeat at_) = some τ) :
    τ.Inv docs uuids := by
  simp only [step] at hstep
  split at hstep
  · cases hstep
  · cases hstep
    refine inv_enqueue h fun id hmem => ?_
    obtain ⟨socket, hsocket, htouch⟩ := List.mem_filterMap.mp hmem
    obtain ⟨⟨k, socket'⟩, hentry, rfl⟩ := List.mem_map.mp hsocket
    have hget := (OrderedMap.mem_entries_iff _ _ _).mp hentry
    exact h.caught hget (hok _ hsocket ⟨id, htouch⟩) ((h.sockets k _ hget).entry _ htouch)

theorem inv_step (hok : CaughtUp docs σ a)
    (hstep : σ.step docs lib uuids replicaId threshold batchSize a = some τ) : τ.Inv docs uuids := by
  cases a with
  | log b => exact inv_log h hstep
  | storeRoom t id => exact inv_storeRoom h hstep
  | load p => exact inv_load h hstep
  | begin p => exact inv_begin h hstep
  | project p foreign => exact inv_project h hstep
  | giveUp p => exact inv_giveUp h hstep
  | time elapsed => exact inv_time h hstep
  | openRoom => exact inv_openRoom h hstep
  | edit replica s => exact inv_edit h hstep
  | attach k replica => exact inv_attach h hstep
  | connected k at_ => exact inv_connected h hstep
  | syncReply k => exact inv_syncReply h hstep
  | deliver k => exact inv_deliver h hstep
  | update k s => exact inv_update h hstep
  | stateless k at_ => exact inv_stateless h hok hstep
  | disconnect k at_ => exact inv_disconnect h hok hstep
  | heartbeat at_ => exact inv_heartbeat h hok hstep
  | write i => exact inv_write h hstep
  | writeFails i => exact inv_writeFails h hstep

end Steps

end Collab

section Examples

end Examples

end OpenOutliner
