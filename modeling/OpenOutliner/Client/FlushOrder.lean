import OpenOutliner.Client.ExactlyOnce
import OpenOutliner.Client.Outbox
import OpenOutliner.Foundations.StableSort

namespace OpenOutliner

open Foundations

section Server

structure DocumentDb (P G Uuid : Type) where
  tenancy : TenancyDb Uuid
  receipts : Uuid × Uuid → Option (G × ℕ)
  updates : Uuid → List P
  sourceRev : Uuid → Option ℕ

structure PersistReceipt where
  batchId : JsString
  revision : ℕ
deriving DecidableEq

namespace DocumentDb

variable {S P G Uuid : Type} [SemilatticeSup S] [OrderBot S] [DecidableEq G] [DecidableEq Uuid]
  (payloads : Payloads S P G) (uuids : UuidText Uuid) (db : DocumentDb P G Uuid) (session : Option Uuid)

def WhoAmI : Except RpcErrorCode (JsString × List JsString) :=
  match session with
  | none => .error .unauthorized
  | some userId => .ok (uuids.text userId,
      (db.tenancy.workspaceMembers.filter fun m => m.userId = userId).map fun m => uuids.text m.workspaceId)

def requireDocumentAccess (documentId : JsString) : Except RpcErrorCode Uuid :=
  match session, uuids.parse documentId with
  | none, _ => .error .unauthorized
  -- not a UUID: the query throws
  | some _, none => .error .internal
  | some userId, some document =>
    if db.tenancy.canAccessDocument uuids documentId userId then .ok document else .error .forbidden

def CreateDocument (workspaceId documentId : JsString) : Except RpcErrorCode (DocumentDb P G Uuid) :=
  if documentId ≠ [] ∧ ¬ isBatchId documentId then .error .bad_request
  else match session, uuids.parse workspaceId, uuids.parse documentId with
    | none, _, _ => .error .unauthorized
    | some userId, some workspace, some document =>
      if ¬ db.tenancy.isWorkspaceMember workspace userId then .error .forbidden
      else match db.tenancy.documents.get document with
        | some owner => if owner = workspace then .ok db else .error .internal
        | none => .ok { db with
            tenancy := { db.tenancy with documents := db.tenancy.documents.set document workspace }
            sourceRev := Function.update db.sourceRev document (some ((db.sourceRev document).getD 0)) }
    | some _, _, _ => .error .internal

def appendDocumentUpdate (document : Uuid) (update : P) : DocumentDb P G Uuid × ℕ :=
  let revision := (db.sourceRev document).elim 1 (· + 1)
  ({ db with
      updates := Function.update db.updates document (db.updates document ++ [update])
      sourceRev := Function.update db.sourceRev document (some revision) }, revision)

def PersistDocumentUpdate (q : PersistRequest P) :
    Except RpcErrorCode (PersistReceipt × DocumentDb P G Uuid) := do
  let document ← db.requireDocumentAccess uuids session q.documentId
  if ¬ q.isValid payloads then throw .bad_request
  match uuids.parse q.batchId with
  | none => throw .internal
  | some batch =>
    match db.receipts (document, batch) with
    | some (digest, revision) =>
      if digest ≠ payloads.digest q.update then throw .conflict
      return (⟨q.batchId, revision⟩, db)
    | none =>
      let (db, revision) := db.appendDocumentUpdate document q.update
      return (⟨q.batchId, revision⟩,
        { db with
          receipts := Function.update db.receipts (document, batch)
            (some (payloads.digest q.update, revision)) })

/-- A row that does not decode fails the strict load. -/
def GetDocumentState (documentId : JsString) (schemaVersion : ℕ) : Except RpcErrorCode S := do
  let document ← db.requireDocumentAccess uuids session documentId
  if schemaVersion ≠ DOCUMENT_SCHEMA_VERSION then throw .bad_request
  match (db.updates document).mapM payloads.decode with
  | none => throw .internal
  | some states => return states.foldl (· ⊔ ·) ⊥

end DocumentDb

end Server

section Client

/-- The rows of `library.pending` in the order in which a collection returns them. -/
structure PendingTable (P Uuid : Type) where
  rows : List (PendingUpdate P Uuid)
  distinct : (rows.map PendingUpdate.id).Nodup

structure LocalDocument where
  accountId : JsString
  workspaceId : Option JsString
  registered : Bool

namespace PendingTable

variable {P Uuid : Type} [DecidableEq Uuid] (pending : PendingTable P Uuid)

def ofDocument (accountId documentId : JsString) : List (PendingUpdate P Uuid) :=
  pending.rows.filter fun update => update.accountId = accountId ∧ update.documentId = documentId

def sortedByCreatedAt (accountId documentId : JsString) : List (PendingUpdate P Uuid) :=
  (pending.ofDocument accountId documentId).insertionSort fun a b => a.createdAt ≤ b.createdAt

def delete (id : Uuid) : PendingTable P Uuid where
  rows := pending.rows.filter fun update => update.id ≠ id
  distinct := pending.distinct.sublist (List.filter_sublist.map _)

end PendingTable

structure SyncWorld (S P G Uuid : Type) where
  db : DocumentDb P G Uuid
  documents : OrderedMap JsString LocalDocument
  pending : PendingTable P Uuid
  doc : S

inductive FlushError
  | rpc (code : RpcErrorCode)
  | invalidReceipt
deriving DecidableEq

def FlushError.status : FlushError → SaveState
  | .rpc .unauthorized | .rpc .forbidden => .reconnectToSync
  | _ => .syncError

namespace SyncWorld

variable {S P G Uuid : Type} [SemilatticeSup S] [OrderBot S] [DecidableEq G] [DecidableEq Uuid]
  (payloads : Payloads S P G) (uuids : UuidText Uuid) (session : Option Uuid)

def uploadPending : List (PendingUpdate P Uuid) → SyncWorld S P G Uuid →
    SyncWorld S P G Uuid × Option FlushError
  | [], w => (w, none)
  | update :: rest, w =>
    match w.db.PersistDocumentUpdate payloads uuids session (update.request uuids) with
    | .error code => (w, some (.rpc code))
    | .ok (receipt, db) =>
      if receipt.batchId ≠ uuids.text update.id then ({ w with db }, some .invalidReceipt)
      else uploadPending rest { w with db, pending := w.pending.delete update.id }

def register (documentId workspaceId : JsString) (record : LocalDocument) (w : SyncWorld S P G Uuid) :
    Except RpcErrorCode (SyncWorld S P G Uuid) :=
  if record.registered then .ok w
  else (w.db.CreateDocument uuids session workspaceId documentId).map fun db =>
    { w with
      db
      documents := w.documents.set documentId
        { record with registered := true, workspaceId := some workspaceId } }

def upload (accountId documentId : JsString) (w : SyncWorld S P G Uuid) : SyncWorld S P G Uuid × SaveState :=
  match uploadPending payloads uuids session (w.pending.sortedByCreatedAt accountId documentId) w with
  | (w, some error) => (w, error.status)
  | (w, none) =>
    match w.db.GetDocumentState payloads uuids session documentId DOCUMENT_SCHEMA_VERSION with
    | .error code => (w, (FlushError.rpc code).status)
    | .ok state =>
      ({ w with doc := w.doc ⊔ state },
        if (w.pending.ofDocument accountId documentId).length ≠ 0 then .pendingSync else .savedOnServer)

/-- A flush that starts, that `stop` does not end, and that has each of its calls answered; none where no
state is shown. -/
def flush (accountId documentId : JsString) (w : SyncWorld S P G Uuid) :
    SyncWorld S P G Uuid × Option SaveState :=
  if accountId = localAccount then (w, none)
  else match w.db.WhoAmI uuids session with
    | .error code => (w, some (FlushError.rpc code).status)
    | .ok (userId, workspaceIds) =>
      if userId ≠ accountId then (w, some .reconnectToSync)
      else match w.documents.get documentId with
        | none => (w, none)
        | some record =>
          if record.accountId ≠ accountId then (w, none)
          else match record.workspaceId.or workspaceIds.head? with
            | none | some [] => (w, none)
            | some workspaceId =>
              match w.register uuids session documentId workspaceId record with
              | .error code => (w, some (FlushError.rpc code).status)
              | .ok w =>
                let (w, state) := w.upload payloads uuids session accountId documentId
                (w, some state)

end SyncWorld

end Client

namespace DocumentDb

variable {S P G Uuid : Type} [SemilatticeSup S] [OrderBot S] [DecidableEq G] [DecidableEq Uuid]
  {payloads : Payloads S P G} {uuids : UuidText Uuid} {db db' : DocumentDb P G Uuid}
  {session : Option Uuid} {q : PersistRequest P} {document batch : Uuid} {receipt : PersistReceipt}

/-- The server takes the update in. -/
def Accepts (payloads : Payloads S P G) (uuids : UuidText Uuid) (db : DocumentDb P G Uuid)
    (session : Option Uuid) (q : PersistRequest P) : Prop :=
  ∃ receipt db', db.PersistDocumentUpdate payloads uuids session q = .ok (receipt, db')

structure Admits (payloads : Payloads S P G) (uuids : UuidText Uuid) (db : DocumentDb P G Uuid)
    (session : Option Uuid) (q : PersistRequest P) (document batch : Uuid) : Prop where
  access : db.requireDocumentAccess uuids session q.documentId = .ok document
  valid : q.isValid payloads = true
  parsed : uuids.parse q.batchId = some batch
  unspent : ∀ digest revision, db.receipts (document, batch) = some (digest, revision) →
    digest = payloads.digest q.update

structure Recorded (payloads : Payloads S P G) (db db' : DocumentDb P G Uuid) (update : P)
    (document batch : Uuid) : Prop where
  tenancy : db'.tenancy = db.tenancy
  receipt : ∃ revision, db'.receipts (document, batch) = some (payloads.digest update, revision)
  others : ∀ key, key ≠ (document, batch) → db'.receipts key = db.receipts key
  appended : db.receipts (document, batch) = none → update ∈ db'.updates document
  kept : ∀ d, db.updates d ⊆ db'.updates d

omit [DecidableEq G] in
theorem appendDocumentUpdate_updates {update : P} {d : Uuid} :
    (db.appendDocumentUpdate document update).1.updates d =
    if d = document then db.updates document ++ [update] else db.updates d := by
  rw [appendDocumentUpdate]
  exact Function.update_apply ..

section

omit [SemilatticeSup S] [OrderBot S]

theorem persist_ok (h : db.PersistDocumentUpdate payloads uuids session q = .ok (receipt, db')) :
    receipt.batchId = q.batchId ∧ ∃ document batch, Admits payloads uuids db session q document batch ∧
      Recorded payloads db db' q.update document batch := by
  rw [PersistDocumentUpdate] at h
  cases haccess : db.requireDocumentAccess uuids session q.documentId with
  | error code =>
    rw [haccess] at h
    cases h
  | ok document =>
    rw [haccess] at h
    simp only [bind, Except.bind] at h
    by_cases hvalid : q.isValid payloads = true
    swap
    · rw [if_pos hvalid] at h
      cases h
    rw [if_neg (not_not.mpr hvalid)] at h
    cases hbatch : uuids.parse q.batchId with
    | none =>
      rw [hbatch] at h
      cases h
    | some batch =>
      rw [hbatch] at h
      simp only [pure, Except.pure] at h
      cases hprior : db.receipts (document, batch) with
      | some prior =>
        obtain ⟨digest, revision⟩ := prior
        rw [hprior] at h
        simp only at h
        by_cases hdigest : digest = payloads.digest q.update
        swap
        · rw [if_pos hdigest] at h
          cases h
        rw [if_neg (not_not.mpr hdigest)] at h
        cases h
        refine ⟨rfl, document, batch, ⟨haccess, hvalid, hbatch, ?_⟩, rfl, ⟨revision, hdigest ▸ hprior⟩,
          fun _ _ => rfl, ?_,
          fun d => List.Subset.refl _⟩
        · intro digest' revision' heq
          rw [hprior] at heq
          cases heq
          exact hdigest
        · intro hnone
          rw [hprior] at hnone
          cases hnone
      | none =>
        rw [hprior] at h
        cases h
        refine ⟨rfl, document, batch, ⟨haccess, hvalid, hbatch, ?_⟩, rfl, ⟨_, Function.update_self ..⟩,
          fun key hkey => Function.update_of_ne hkey .., ?_, ?_⟩
        · intro digest revision heq
          rw [hprior] at heq
          cases heq
        · intro _
          rw [appendDocumentUpdate_updates, if_pos rfl]
          exact List.mem_append_right _ (List.mem_singleton_self _)
        · intro d x hx
          rw [appendDocumentUpdate_updates]
          split
          · rename_i heq
            exact List.mem_append_left _ (heq ▸ hx)
          · exact hx

theorem accepts_of_admits (h : Admits payloads uuids db session q document batch) :
    Accepts payloads uuids db session q := by
  rw [Accepts, PersistDocumentUpdate, h.access]
  simp only [bind, Except.bind]
  rw [if_neg (not_not.mpr h.valid), h.parsed]
  simp only [pure, Except.pure]
  cases hprior : db.receipts (document, batch) with
  | none => exact ⟨_, _, rfl⟩
  | some prior =>
    obtain ⟨digest, revision⟩ := prior
    simp only
    rw [if_neg (not_not.mpr (h.unspent digest revision hprior))]
    exact ⟨_, _, rfl⟩

theorem accepts_iff : Accepts payloads uuids db session q ↔
    ∃ document batch, Admits payloads uuids db session q document batch := by
  constructor
  · rintro ⟨receipt, db', h⟩
    obtain ⟨-, document, batch, hadmits, -⟩ := persist_ok h
    exact ⟨document, batch, hadmits⟩
  · rintro ⟨document, batch, h⟩
    exact accepts_of_admits h

end

omit [DecidableEq G] in
theorem requireDocumentAccess_parse {documentId : JsString}
    (h : db.requireDocumentAccess uuids session documentId = .ok document) :
    uuids.parse documentId = some document := by
  rw [requireDocumentAccess.eq_def] at h
  split at h
  · cases h
  · cases h
  · rename_i hparse
    split at h
    · cases h
      exact hparse
    · cases h

omit [SemilatticeSup S] [OrderBot S] in
theorem accepts_congr (htenancy : db'.tenancy = db.tenancy)
    (hreceipts : ∀ d b, uuids.parse q.batchId = some b → db'.receipts (d, b) = db.receipts (d, b)) :
    Accepts payloads uuids db' session q ↔ Accepts payloads uuids db session q := by
  have haccess : db'.requireDocumentAccess uuids session q.documentId =
      db.requireDocumentAccess uuids session q.documentId := by
    simp only [requireDocumentAccess, htenancy]
  rw [accepts_iff, accepts_iff]
  refine exists_congr fun d => exists_congr fun b => ?_
  constructor
  · intro h
    exact ⟨haccess ▸ h.access, h.valid, h.parsed, hreceipts d b h.parsed ▸ h.unspent⟩
  · intro h
    exact ⟨haccess ▸ h.access, h.valid, h.parsed, (hreceipts d b h.parsed).symm ▸ h.unspent⟩

end DocumentDb

section Loop

variable {S P G Uuid : Type} [SemilatticeSup S] [OrderBot S] [DecidableEq G] [DecidableEq Uuid]
  {payloads : Payloads S P G} {uuids : UuidText Uuid} {session : Option Uuid}
  {w w' : SyncWorld S P G Uuid} {l : List (PendingUpdate P Uuid)} {update : PendingUpdate P Uuid}
  {accountId documentId : JsString}

def SyncWorld.Accepts (payloads : Payloads S P G) (uuids : UuidText Uuid) (session : Option Uuid)
    (w : SyncWorld S P G Uuid) (update : PendingUpdate P Uuid) : Prop :=
  w.db.Accepts payloads uuids session (update.request uuids)

def Uploaded (payloads : Payloads S P G) (uuids : UuidText Uuid) (w w' : SyncWorld S P G Uuid)
    (update : PendingUpdate P Uuid) :
    Prop :=
  ∃ document revision, uuids.parse update.documentId = some document ∧
    w'.db.receipts (document, update.id) = some (payloads.digest update.bytes, revision) ∧
    (w.db.receipts (document, update.id) = none → update.bytes ∈ w'.db.updates document)

structure Sent (payloads : Payloads S P G) (uuids : UuidText Uuid) (session : Option Uuid)
    (w w' : SyncWorld S P G Uuid) (sent : List (PendingUpdate P Uuid)) : Prop where
  accepted : ∀ update ∈ sent, w.Accepts payloads uuids session update
  uploaded : ∀ update ∈ sent, Uploaded payloads uuids w w' update
  pending : w'.pending.rows = w.pending.rows.filter fun update => update.id ∉ sent.map PendingUpdate.id
  documents : w'.documents = w.documents
  tenancy : w'.db.tenancy = w.db.tenancy
  receipts : ∀ key, key.2 ∉ sent.map PendingUpdate.id → w'.db.receipts key = w.db.receipts key
  kept : ∀ d, w.db.updates d ⊆ w'.db.updates d

section

omit [SemilatticeSup S] [OrderBot S]

theorem Sent.refl : Sent payloads uuids session w w [] where
  accepted := by simp
  uploaded := by simp
  pending := by simp
  documents := rfl
  tenancy := rfl
  receipts := fun _ _ => rfl
  kept := fun _ => List.Subset.refl _

theorem Sent.accepts_iff {sent : List (PendingUpdate P Uuid)} (h : Sent payloads uuids session w w' sent)
    (hid : update.id ∉ sent.map PendingUpdate.id) :
    w'.Accepts payloads uuids session update ↔ w.Accepts payloads uuids session update := by
  refine DocumentDb.accepts_congr h.tenancy fun d b hb => h.receipts _ ?_
  have hparse : uuids.parse (update.request uuids).batchId = some update.id := uuids.parse_text _
  rw [hparse] at hb
  obtain rfl := Option.some.inj hb
  exact hid

theorem accepts_after {receipt : PersistReceipt} {other : PendingUpdate P Uuid}
    (hanswer : w.db.PersistDocumentUpdate payloads uuids session (update.request uuids) =
      .ok (receipt, w'.db))
    (hne : other.id ≠ update.id) : w'.Accepts payloads uuids session other ↔
    w.Accepts payloads uuids session other := by
  obtain ⟨-, document, batch, hadmits, hrecorded⟩ := DocumentDb.persist_ok hanswer
  refine DocumentDb.accepts_congr hrecorded.tenancy fun d b hb => hrecorded.others _ fun heq => hne ?_
  have hother : b = other.id := Option.some.inj (hb.symm.trans (uuids.parse_text other.id))
  have hupdate : batch = update.id := Option.some.inj (hadmits.parsed.symm.trans (uuids.parse_text update.id))
  rw [← hother, (Prod.mk.inj heq).2, hupdate]

theorem Sent.cons {sent : List (PendingUpdate P Uuid)} {receipt : PersistReceipt} {db : DocumentDb P G Uuid}
    (hanswer : w.db.PersistDocumentUpdate payloads uuids session (update.request uuids) = .ok (receipt, db))
    (hfresh : update.id ∉ sent.map PendingUpdate.id)
    (h : Sent payloads uuids session { w with db, pending := w.pending.delete update.id } w' sent) :
    Sent payloads uuids session w w' (update :: sent) := by
  obtain ⟨-, document, batch, hadmits, hrecorded⟩ := DocumentDb.persist_ok hanswer
  have hparse : uuids.parse update.documentId = some document :=
    DocumentDb.requireDocumentAccess_parse hadmits.access
  obtain rfl : update.id = batch := Option.some.inj ((uuids.parse_text update.id).symm.trans hadmits.parsed)
  have hapart : ∀ other ∈ sent, other.id ≠ update.id := by
    intro other hother heq
    exact hfresh (heq ▸ List.mem_map_of_mem hother)
  constructor
  · intro other hother
    rcases List.mem_cons.mp hother with rfl | hother
    · exact ⟨receipt, db, hanswer⟩
    · exact (accepts_after hanswer (hapart other hother)).mp (h.accepted other hother)
  · intro other hother
    rcases List.mem_cons.mp hother with rfl | hother
    · obtain ⟨revision, hreceipt⟩ := hrecorded.receipt
      refine ⟨document, revision, hparse, ?_, fun hnone => h.kept _ (hrecorded.appended hnone)⟩
      rw [h.receipts _ hfresh]
      exact hreceipt
    · obtain ⟨d, revision, hd, hreceipt, happended⟩ := h.uploaded other hother
      refine ⟨d, revision, hd, hreceipt, fun hnone => happended ?_⟩
      change db.receipts _ = none
      rw [hrecorded.others _ fun heq => hapart other hother (Prod.mk.inj heq).2, hnone]
  · rw [h.pending]
    change (w.pending.rows.filter _).filter _ = _
    rw [List.filter_filter]
    apply List.filter_congr
    intro other _
    simp only [List.map_cons, List.mem_cons, not_or, Bool.decide_and, Bool.and_comm]
  · exact h.documents
  · exact h.tenancy.trans hrecorded.tenancy
  · intro key hkey
    rw [List.map_cons, List.mem_cons, not_or] at hkey
    rw [h.receipts key hkey.2]
    apply hrecorded.others
    rintro rfl
    exact hkey.1 rfl
  · exact fun d => List.Subset.trans (hrecorded.kept d) (h.kept d)

theorem uploadPending_spec (hnd : (l.map PendingUpdate.id).Nodup) :
    ∃ sent rest, l = sent ++ rest ∧
    Sent payloads uuids session w (w.uploadPending payloads uuids session l).1 sent ∧
      (rest = [] ∨ ∃ bad rest', rest = bad :: rest' ∧ ¬ w.Accepts payloads uuids session bad ∧
        ∃ error, (w.uploadPending payloads uuids session l).2 = some error) := by
  induction l generalizing w with
  | nil => exact ⟨[], [], rfl, .refl, Or.inl rfl⟩
  | cons update l ih =>
    obtain ⟨hnotin, hnd⟩ := List.nodup_cons.mp hnd
    rw [SyncWorld.uploadPending]
    cases hanswer : w.db.PersistDocumentUpdate payloads uuids session (update.request uuids) with
    | error code =>
      refine ⟨[], update :: l, rfl, .refl, Or.inr ⟨update, l, rfl, ?_, _, rfl⟩⟩
      rintro ⟨receipt, db, hok⟩
      rw [hanswer] at hok
      cases hok
    | ok answer =>
      obtain ⟨receipt, db⟩ := answer
      have hbatch : receipt.batchId = uuids.text update.id := (DocumentDb.persist_ok hanswer).1
      dsimp only
      rw [if_neg (not_not.mpr hbatch)]
      obtain ⟨sent, rest, rfl, hsent, hstop⟩ := @ih { w with db, pending := w.pending.delete update.id } hnd
      have hfresh : update.id ∉ sent.map PendingUpdate.id := by
        rw [List.map_append] at hnotin
        exact fun hin => hnotin (List.mem_append_left _ hin)
      have hall := Sent.cons hanswer hfresh hsent
      refine ⟨update :: sent, rest, rfl, hall, hstop.imp_right ?_⟩
      rintro ⟨bad, rest', rfl, hbad, herror⟩
      refine ⟨bad, rest', rfl, fun haccepts => hbad ?_, herror⟩
      refine (accepts_after hanswer fun heq => hnotin ?_).mpr haccepts
      rw [← heq, List.map_append]
      exact List.mem_append_right _ (List.mem_cons_self ..)

end

end Loop

section Blocking

variable {S P G Uuid : Type} [SemilatticeSup S] [OrderBot S] [DecidableEq G] [DecidableEq Uuid]
  {payloads : Payloads S P G} {uuids : UuidText Uuid} {session : Option Uuid} {w : SyncWorld S P G Uuid}
  {update : PendingUpdate P Uuid} {accountId documentId : JsString}

structure Registered (uuids : UuidText Uuid) (session : Option Uuid) (accountId documentId : JsString)
    (w : SyncWorld S P G Uuid) : Prop where
  signedIn : accountId ≠ localAccount
  user : ∃ userId, session = some userId ∧ uuids.text userId = accountId
  record : ∃ record workspaceId, w.documents.get documentId = some record ∧ record.accountId = accountId ∧
    record.registered = true ∧ record.workspaceId = some workspaceId ∧ workspaceId ≠ []

theorem flush_eq_upload (h : Registered uuids session accountId documentId w) :
    (w.flush payloads uuids session accountId documentId).1 =
    (w.upload payloads uuids session accountId documentId).1 := by
  obtain ⟨userId, rfl, huser⟩ := h.user
  obtain ⟨record, workspaceId, hget, howner, hregistered, hworkspace, hnonempty⟩ := h.record
  rw [SyncWorld.flush, if_neg h.signedIn]
  simp only [DocumentDb.WhoAmI]
  rw [if_neg (not_not.mpr huser), hget]
  simp only [howner, hworkspace, ne_eq, not_true_eq_false, if_false, Option.some_or]
  cases workspaceId with
  | nil => exact absurd rfl hnonempty
  | cons c rest =>
    rw [SyncWorld.register, if_pos hregistered]

omit [SemilatticeSup S] [OrderBot S] in
theorem Sent.congr {w' w'' : SyncWorld S P G Uuid} {sent : List (PendingUpdate P Uuid)}
    (h : Sent payloads uuids session w w' sent)
    (hdb : w''.db = w'.db) (hpending : w''.pending = w'.pending) (hdocuments : w''.documents = w'.documents) :
    Sent payloads uuids session w w'' sent where
  accepted := h.accepted
  uploaded := by
    simp only [Uploaded, hdb]
    exact h.uploaded
  pending := hpending ▸ h.pending
  documents := hdocuments ▸ h.documents
  tenancy := hdb ▸ h.tenancy
  receipts := hdb ▸ h.receipts
  kept := hdb ▸ h.kept

theorem Sent.upload {sent : List (PendingUpdate P Uuid)} (h : Sent payloads uuids session w
      (w.uploadPending payloads uuids session (w.pending.sortedByCreatedAt accountId documentId)).1 sent) :
    Sent payloads uuids session w (w.upload payloads uuids session accountId documentId).1 sent := by
  rw [SyncWorld.upload]
  split
  · rename_i heq
    rw [heq] at h
    exact h
  · rename_i heq
    rw [heq] at h
    split
    · exact h
    · exact h.congr rfl rfl rfl

omit [DecidableEq Uuid] in
theorem mem_sorted {pending : PendingTable P Uuid} : update ∈ pending.sortedByCreatedAt accountId documentId ↔
    update ∈ pending.rows ∧ update.accountId = accountId ∧ update.documentId = documentId := by
  rw [PendingTable.sortedByCreatedAt, List.mem_insertionSort, PendingTable.ofDocument, List.mem_filter,
    decide_eq_true_iff]

omit [DecidableEq Uuid] in
theorem sorted_nodup (pending : PendingTable P Uuid) (accountId documentId : JsString) :
    ((pending.sortedByCreatedAt accountId documentId).map PendingUpdate.id).Nodup := by
  have hperm : (pending.sortedByCreatedAt accountId documentId).Perm
      (pending.ofDocument accountId documentId) :=
    List.perm_insertionSort _ _
  exact (hperm.map _).nodup_iff.mpr (pending.distinct.sublist (List.filter_sublist.map _))

theorem sorted_after {pending pending' : PendingTable P Uuid} {sent rest : List (PendingUpdate P Uuid)}
    (hsorted : pending.sortedByCreatedAt accountId documentId = sent ++ rest)
    (h : pending'.rows = pending.rows.filter fun update => update.id ∉ sent.map PendingUpdate.id) :
    pending'.sortedByCreatedAt accountId documentId = rest := by
  have hnd := sorted_nodup pending accountId documentId
  rw [hsorted, List.map_append, List.nodup_append] at hnd
  have hpart : pending'.ofDocument accountId documentId =
      (pending.ofDocument accountId documentId).filter fun update =>
      update.id ∉ sent.map PendingUpdate.id := by
    rw [PendingTable.ofDocument, h, PendingTable.ofDocument, List.filter_filter, List.filter_filter]
    exact List.filter_congr fun _ _ => Bool.and_comm ..
  have hsort : pending'.sortedByCreatedAt accountId documentId =
      (pending.sortedByCreatedAt accountId documentId).filter fun update =>
      update.id ∉ sent.map PendingUpdate.id := by
    rw [PendingTable.sortedByCreatedAt, hpart, PendingTable.sortedByCreatedAt, filter_insertionSort]
  rw [hsort, hsorted, List.filter_append]
  have hsent : sent.filter (fun update => update.id ∉ sent.map PendingUpdate.id) = [] := by
    apply List.filter_eq_nil_iff.mpr
    intro update hin
    simpa using ⟨update, hin, rfl⟩
  have hrest : rest.filter (fun update => update.id ∉ sent.map PendingUpdate.id) = rest := by
    apply List.filter_eq_self.mpr
    intro update hin
    apply decide_eq_true
    intro hboth
    exact hnd.2.2 _ hboth _ (List.mem_map_of_mem hin) rfl
  rw [hsent, hrest, List.nil_append]

theorem flush_spec (h : Registered uuids session accountId documentId w) :
    ∃ sent rest, w.pending.sortedByCreatedAt accountId documentId = sent ++ rest ∧
      Sent payloads uuids session w (w.flush payloads uuids session accountId documentId).1 sent ∧
      ∀ bad rest', rest = bad :: rest' → ¬ w.Accepts payloads uuids session bad := by
  obtain ⟨sent, rest, hsplit, hsent, hstop⟩ : ∃ sent rest,
      w.pending.sortedByCreatedAt accountId documentId = sent ++ rest ∧
      Sent payloads uuids session w
        (w.uploadPending payloads uuids session (w.pending.sortedByCreatedAt accountId documentId)).1 sent ∧
          _ :=
    uploadPending_spec (sorted_nodup w.pending accountId documentId)
  refine ⟨sent, rest, hsplit, ?_, ?_⟩
  · rw [flush_eq_upload h]
    exact hsent.upload
  · rintro bad rest' rfl
    rcases hstop with hnil | ⟨bad', rest'', heq, hbad, -⟩
    · cases hnil
    · cases heq
      exact hbad

theorem Registered.flush (h : Registered uuids session accountId documentId w) :
    Registered uuids session accountId documentId
      (w.flush payloads uuids session accountId documentId).1 := by
  obtain ⟨sent, rest, -, hsent, -⟩ := flush_spec h
  exact ⟨h.signedIn, h.user, hsent.documents ▸ h.record⟩

def Stuck (payloads : Payloads S P G) (uuids : UuidText Uuid) (session : Option Uuid)
    (accountId documentId : JsString) (w : SyncWorld S P G Uuid) : Prop :=
  ∀ bad rest, w.pending.sortedByCreatedAt accountId documentId = bad :: rest →
    ¬ w.Accepts payloads uuids session bad

theorem stuck_flush (h : Registered uuids session accountId documentId w) :
    Stuck payloads uuids session accountId documentId
      (w.flush payloads uuids session accountId documentId).1 := by
  obtain ⟨sent, rest, hsplit, hsent, hstop⟩ := flush_spec h
  intro bad rest' hrest
  rw [sorted_after hsplit hsent.pending] at hrest
  have hnd := sorted_nodup w.pending accountId documentId
  rw [hsplit, List.map_append, List.nodup_append] at hnd
  rw [hsent.accepts_iff]
  · exact hstop bad rest' hrest
  · intro hin
    refine hnd.2.2 _ hin _ (List.mem_map_of_mem ?_) rfl
    rw [hrest]
    exact List.mem_cons_self ..

theorem Stuck.pending (h : Registered uuids session accountId documentId w)
    (hstuck : Stuck payloads uuids session accountId documentId w) :
    (w.flush payloads uuids session accountId documentId).1.pending.rows = w.pending.rows := by
  obtain ⟨sent, rest, hsplit, hsent, -⟩ := flush_spec h
  cases sent with
  | nil => simpa using hsent.pending
  | cons update sent => exact absurd (hsent.accepted update (List.mem_cons_self ..)) (hstuck update _ hsplit)

theorem Stuck.flushes (h : Registered uuids session accountId documentId w)
    (hstuck : Stuck payloads uuids session accountId documentId w) (n : ℕ) :
    ((fun w => (w.flush payloads uuids session accountId documentId).1)^[n] w).pending.rows =
    w.pending.rows := by
  induction n generalizing w with
  | zero => rfl
  | succ n ih =>
    rw [Function.iterate_succ_apply, ih h.flush (stuck_flush h)]
    exact hstuck.pending h

end Blocking

/-- Every update that the server would accept goes up and is removed if and only if none of them comes, in the
order of their times, after one that it would not; and what a flush leaves, no later flush removes. -/
theorem flush_sends_accepted_iff {S P G Uuid : Type} [SemilatticeSup S] [OrderBot S] [DecidableEq G]
    [DecidableEq Uuid] (payloads : Payloads S P G) (uuids : UuidText Uuid) (session : Option Uuid)
    (accountId documentId : JsString) (w : SyncWorld S P G Uuid)
    (h : Registered uuids session accountId documentId w) :
    ((∀ update ∈ w.pending.rows, update.accountId = accountId → update.documentId = documentId →
        w.Accepts payloads uuids session update →
          Uploaded payloads uuids w (w.flush payloads uuids session accountId documentId).1 update ∧
            update ∉ (w.flush payloads uuids session accountId documentId).1.pending.rows) ↔
      (w.pending.sortedByCreatedAt accountId documentId).Pairwise fun earlier later =>
        w.Accepts payloads uuids session later → w.Accepts payloads uuids session earlier) ∧
    ∀ n, ((fun w => (w.flush payloads uuids session accountId documentId).1)^[n + 1] w).pending.rows =
      (w.flush payloads uuids session accountId documentId).1.pending.rows := by
  obtain ⟨sent, rest, hsplit, hsent, hstop⟩ := flush_spec h
  have hnd := sorted_nodup w.pending accountId documentId
  rw [hsplit, List.map_append, List.nodup_append] at hnd
  refine ⟨⟨fun hall => ?_, fun hordered update hrow haccount hdocument haccepts => ?_⟩, fun n => ?_⟩
  · -- what is left over is not accepted, or it would have been removed
    have hleft : ∀ update ∈ rest, ¬ w.Accepts payloads uuids session update := by
      intro update hin haccepts
      obtain ⟨hrow, haccount, hdocument⟩ := mem_sorted.mp (hsplit ▸ List.mem_append_right sent hin)
      refine (hall update hrow haccount hdocument haccepts).2 ?_
      rw [hsent.pending]
      refine List.mem_filter.mpr ⟨hrow, decide_eq_true fun hboth => ?_⟩
      exact hnd.2.2 _ hboth _ (List.mem_map_of_mem hin) rfl
    rw [hsplit]
    refine List.pairwise_append.mpr ⟨?_, ?_, ?_⟩
    · exact List.pairwise_of_forall_mem_list fun earlier hin _ _ _ => hsent.accepted earlier hin
    · exact List.pairwise_of_forall_mem_list fun _ _ later hin haccepts => absurd haccepts (hleft later hin)
    · exact fun earlier hin _ _ _ => hsent.accepted earlier hin
  · have hin : update ∈ sent := by
      have hsorted : update ∈ sent ++ rest := hsplit ▸ mem_sorted.mpr ⟨hrow, haccount, hdocument⟩
      rcases List.mem_append.mp hsorted with hin | hin
      · exact hin
      · exfalso
        obtain ⟨bad, rest', rfl⟩ : ∃ bad rest', rest = bad :: rest' :=
          List.exists_cons_of_ne_nil (List.ne_nil_of_mem hin)
        rw [hsplit] at hordered
        have hbefore := (List.pairwise_cons.mp (List.pairwise_append.mp hordered).2.1).1
        rcases List.mem_cons.mp hin with rfl | hin
        · exact hstop update rest' rfl haccepts
        · exact hstop bad rest' rfl (hbefore update hin haccepts)
    refine ⟨hsent.uploaded update hin, fun hstill => ?_⟩
    rw [hsent.pending] at hstill
    exact of_decide_eq_true (List.mem_filter.mp hstill).2 (List.mem_map_of_mem hin)
  · rw [Function.iterate_succ_apply]
    exact Stuck.flushes h.flush (stuck_flush h) n

section Examples

def sizedPayloads : Payloads (Finset ℕ) (Finset ℕ × ℕ) (Finset ℕ × ℕ) :=
  { decode := fun p => some p.1
    encode := fun s => (s, 40)
    decode_encode := fun _ => rfl
    size := Prod.snd
    digest := id }

def registeredDb : DocumentDb (Finset ℕ × ℕ) (Finset ℕ × ℕ) (Fin 16) where
  tenancy := ⟨.empty, [⟨3, 2, .owner⟩], OrderedMap.empty.set 1 3⟩
  receipts := fun _ => none
  updates := fun _ => []
  sourceRev := fun _ => some 0

def pendingEdit (id : Fin 16) (bytes : Finset ℕ × ℕ) (createdAt : ℤ) :
    PendingUpdate (Finset ℕ × ℕ) (Fin 16) :=
  ⟨id, longDigits.text 2, longDigits.text 1, bytes, createdAt⟩

/-- An update of more than 4 MiB between two small edits. -/
def largePaste : SyncWorld (Finset ℕ) (Finset ℕ × ℕ) (Finset ℕ × ℕ) (Fin 16) where
  db := registeredDb
  documents := OrderedMap.empty.set (longDigits.text 1) ⟨longDigits.text 2, some (longDigits.text 3), true⟩
  pending :=
    ⟨[pendingEdit 5 ({1}, 40) 10, pendingEdit 6 ({1, 2}, 5000000) 20, pendingEdit 7 ({3}, 40) 30],
      by decide⟩
  doc := {1, 2, 3}

def pasteLast : SyncWorld (Finset ℕ) (Finset ℕ × ℕ) (Finset ℕ × ℕ) (Fin 16) :=
  { largePaste with
    pending :=
      ⟨[pendingEdit 5 ({1}, 40) 10, pendingEdit 6 ({1, 2}, 5000000) 40, pendingEdit 7 ({3}, 40) 30],
        by decide⟩ }

theorem largePaste_registered :
    Registered longDigits (some 2) (longDigits.text 2) (longDigits.text 1) largePaste where
  signedIn := by decide
  user := ⟨2, rfl, rfl⟩
  record := ⟨_, longDigits.text 3, OrderedMap.get_set_self .., rfl, rfl, rfl, by decide⟩

/-- The edit after the large update stays, flush after flush, though the server would take it. -/
theorem largePaste_blocks :
    Registered longDigits (some 2) (longDigits.text 2) (longDigits.text 1) largePaste ∧
    largePaste.Accepts sizedPayloads longDigits (some 2) (pendingEdit 7 ({3}, 40) 30) ∧
    largePaste.db.PersistDocumentUpdate sizedPayloads longDigits (some 2)
      ((pendingEdit 6 ({1, 2}, 5000000) 20).request longDigits) = .error .bad_request ∧
    ∃ w, largePaste.flush sizedPayloads longDigits (some 2) (longDigits.text 2) (longDigits.text 1) =
    (w, some .syncError) ∧
      w.pending.rows = [pendingEdit 6 ({1, 2}, 5000000) 20, pendingEdit 7 ({3}, 40) 30] ∧
      ¬ Uploaded sizedPayloads longDigits largePaste w (pendingEdit 7 ({3}, 40) 30) := by
  refine ⟨largePaste_registered, ⟨_, _, rfl⟩, rfl, _, rfl, by decide, ?_⟩
  rintro ⟨document, revision, hdocument, hreceipt, -⟩
  obtain rfl : 1 = document := Option.some.inj hdocument
  cases hreceipt

theorem flush_sends_accepted_iff_pasteLast :
    Registered longDigits (some 2) (longDigits.text 2) (longDigits.text 1) pasteLast ∧
    ∀ update ∈ pasteLast.pending.rows, update.accountId = longDigits.text 2 →
    update.documentId = longDigits.text 1 →
      pasteLast.Accepts sizedPayloads longDigits (some 2) update →
      Uploaded sizedPayloads longDigits pasteLast
          (pasteLast.flush sizedPayloads longDigits (some 2) (longDigits.text 2)
            (longDigits.text 1)).1 update ∧
        update ∉ (pasteLast.flush sizedPayloads longDigits (some 2) (longDigits.text 2)
          (longDigits.text 1)).1.pending.rows := by
  have hregistered : Registered longDigits (some 2) (longDigits.text 2) (longDigits.text 1) pasteLast :=
    ⟨largePaste_registered.signedIn, largePaste_registered.user, largePaste_registered.record⟩
  have hsorted : pasteLast.pending.sortedByCreatedAt (longDigits.text 2) (longDigits.text 1) =
      [pendingEdit 5 ({1}, 40) 10, pendingEdit 7 ({3}, 40) 30, pendingEdit 6 ({1, 2}, 5000000) 40] := by
    decide
  have hfirst : pasteLast.Accepts sizedPayloads longDigits (some 2) (pendingEdit 5 ({1}, 40) 10) :=
    ⟨_, _, rfl⟩
  have hsecond : pasteLast.Accepts sizedPayloads longDigits (some 2) (pendingEdit 7 ({3}, 40) 30) :=
    ⟨_, _, rfl⟩
  refine ⟨hregistered,
    (flush_sends_accepted_iff sizedPayloads longDigits (some 2) _ _ pasteLast hregistered).1.mpr ?_⟩
  rw [hsorted]
  simp [hfirst, hsecond]

end Examples

end OpenOutliner
