import OpenOutliner.Foundations.Machine
import OpenOutliner.Server.ItemsRepo

/-!
The blob plane: the `attachments` table, the bucket, the signed upload URLs, and the calls and passes that
are under way between two of their statements.
-/

namespace OpenOutliner

open Foundations

variable {Uuid : Type} [DecidableEq Uuid]

structure AttachmentRow (Uuid : Type) where
  documentId : Uuid
  itemId : Option Uuid
  s3Key : Option JsString
  mime : JsString
  size : ℤ
  checksum : JsString
  uploadedAt : Option ℤ
  deletedAt : Option ℤ
deriving DecidableEq

abbrev Attachments (Uuid : Type) := OrderedMap Uuid (AttachmentRow Uuid)

namespace Attachments

variable (rows : Attachments Uuid)

def pendingRow (documentId : Uuid) (itemId : Option Uuid) (mime : JsString) (size : ℤ) : AttachmentRow Uuid :=
  ⟨documentId, itemId, none, mime, size, [], none, none⟩

/-- The composite foreign key to `items`, whose rows are given by their documents; `none` where it is
violated. -/
def createAttachment (items : OrderedMap Uuid Uuid) (id documentId : Uuid) (itemId : Option Uuid)
    (mime : JsString) (size : ℤ) : Option (Attachments Uuid) :=
  if rows.has id = false ∧ ∀ item ∈ itemId, items.get item = some documentId then
    some (rows.set id (pendingRow documentId itemId mime size))
  else none

def finalizeAttachment (id documentId : Uuid) (s3Key : JsString) (size : ℤ) (checksum : JsString) (now : ℤ) :
    Option (AttachmentRow Uuid × Attachments Uuid) :=
  (rows.get id).bind fun row =>
    if row.documentId = documentId ∧ row.uploadedAt = none ∧ row.deletedAt = none then
      let row := { row with s3Key := some s3Key, size, checksum, uploadedAt := some now }
      some (row, rows.set id row)
    else none

def getAttachmentForDownload (id documentId : Uuid) : Option (AttachmentRow Uuid) :=
  (rows.get id).filter fun row => row.documentId = documentId ∧ row.uploadedAt ≠ none ∧ row.deletedAt = none

/-- The ids of the rows that the `UPDATE` takes. -/
def softDeleteAttachmentsForItem (documentId itemId : Uuid) : List Uuid :=
  (rows.filterMapEntries fun _ row =>
    if row.documentId = documentId ∧ row.itemId = some itemId ∧
    row.deletedAt = none then some () else none).keys

def detach (ids : List Uuid) (now : ℤ) : Attachments Uuid :=
  rows.mapEntries fun id row => if id ∈ ids then { row with deletedAt := some now, itemId := none } else row

def pendingDeletion (cutoff : ℤ) (row : AttachmentRow Uuid) : Option (JsString × ℤ) :=
  row.deletedAt.bind fun t => row.s3Key.bind fun key => if t < cutoff then some (key, t) else none

def getPendingS3Deletions (cutoff : ℤ) (limit : ℕ) : List (Uuid × JsString) :=
  (((rows.filterMapEntries fun _ row => pendingDeletion cutoff row).entries.insertionSort fun a b => a.2.2 ≤
    b.2.2).take limit).map
    fun e => (e.1, e.2.1)

def clearS3Key (id : Uuid) : Attachments Uuid :=
  match rows.get id with
  | none => rows
  | some row => rows.set id { row with s3Key := none }

def gcBacklogCount : ℕ := rows.values.countP fun row => row.deletedAt ≠ none ∧ row.s3Key ≠ none

end Attachments

def SLASH : CodeUnit := 0x2F

def s3Key (documentId attachmentId : JsString) : JsString := documentId ++ [SLASH] ++ attachmentId

def ALLOWED_MIME_TYPES : List JsString :=
  [js ['i', 'm', 'a', 'g', 'e', '/', 'j', 'p', 'e', 'g'], js ['i', 'm', 'a', 'g', 'e', '/', 'p', 'n', 'g'],
    js ['i', 'm', 'a', 'g', 'e', '/', 'g', 'i', 'f'], js ['i', 'm', 'a', 'g', 'e', '/', 'w', 'e', 'b', 'p'],
    js ['i', 'm', 'a', 'g', 'e', '/', 's', 'v', 'g', '+', 'x', 'm', 'l'],
    js ['a', 'p', 'p', 'l', 'i', 'c', 'a', 't', 'i', 'o', 'n', '/', 'p', 'd', 'f'],
    js ['t', 'e', 'x', 't', '/', 'p', 'l', 'a', 'i', 'n'],
    js ['t', 'e', 'x', 't', '/', 'm', 'a', 'r', 'k', 'd', 'o', 'w', 'n'],
    js ['a', 'p', 'p', 'l', 'i', 'c', 'a', 't', 'i', 'o', 'n', '/', 'z', 'i', 'p']]

def MAX_ATTACHMENT_BYTES : ℤ := 50 * 1024 * 1024

def PUT_PRESIGN_TTL : ℤ := 5 * 60 * 1000

def pendingLimit : ℕ := 500

structure S3Object where
  size : ℕ
  etag : JsString
deriving DecidableEq

structure Finalizing where
  documentId : JsString
  attachmentId : JsString
  head : S3Object

structure S3Pass (Uuid : Type) where
  pending : List (Uuid × JsString)
  deleted : Bool

/-- An open transaction of `gcDocument`: its clock, the items still to do, whether the attachments of the
first are soft-deleted, and what it has detached and deleted, which the others do not see before it commits.
-/
structure Collecting (Uuid : Type) where
  clock : ℤ
  rest : List Uuid
  softDeleted : Bool
  detached : List Uuid
  deleted : List Uuid

/-- `issued` keeps the key that each `PresignUpload` call computes; `signing` are the calls that have not
signed theirs, `urls` the URLs with the time of their signature. The lock of a document admits one
collection. -/
structure BlobPlane (Uuid : Type) where
  now : ℤ
  items : OrderedMap Uuid Uuid
  attachments : Attachments Uuid
  bucket : OrderedMap JsString S3Object
  issued : OrderedMap Uuid JsString
  signing : List JsString
  urls : List (JsString × ℤ)
  finalizing : List Finalizing
  passes : List (S3Pass Uuid)
  collecting : OrderedMap Uuid (Collecting Uuid)

/-- `clock` is what the party that takes the step reads. -/
inductive BlobAction (Uuid : Type)
  | tick (ms : ℕ)
  | insertItem (id documentId : Uuid)
  | createAttachment (id : Uuid) (documentId : JsString) (itemId : Option JsString)
      (mime : JsString) (size : ℤ)
  | presignPut (i : ℕ) (clock : ℤ)
  | put (i : ℕ) (object : S3Object) (clock : ℤ)
  | headObject (documentId attachmentId : JsString)
  | finalizeAttachment (i : ℕ) (clock : ℤ)
  | gcDocument (documentId : Uuid) (itemIds : List Uuid) (clock : ℤ)
  | softDeleteAttachmentsForItem (documentId : Uuid)
  | deleteItem (documentId : Uuid)
  | gcCommit (documentId : Uuid)
  | gcFails (documentId : Uuid)
  | getPendingS3Deletions (clock : ℤ)
  | deleteObject (i : ℕ) (deleted returned : Bool)
  | clearS3Key (i : ℕ) (written : Bool)
  | restart

namespace BlobPlane

def start (items : OrderedMap Uuid Uuid) (now : ℤ) : BlobPlane Uuid :=
  ⟨now, items, .empty, .empty, .empty, [], [], [], [], .empty⟩

/-- A collection has the row detached, or the item deleted: a statement that needs it waits. -/
def rowLocked (s : BlobPlane Uuid) (id : Uuid) : Prop := ∃ c ∈ s.collecting.values, id ∈ c.detached

def itemLocked (s : BlobPlane Uuid) (item : Uuid) : Prop := ∃ c ∈ s.collecting.values, item ∈ c.deleted

instance (s : BlobPlane Uuid) : DecidablePred s.rowLocked := fun _ => inferInstanceAs (Decidable (∃ _ ∈ _, _))

instance (s : BlobPlane Uuid) : DecidablePred s.itemLocked :=
  fun _ => inferInstanceAs (Decidable (∃ _ ∈ _, _))

def Refers (s : BlobPlane Uuid) (c : Collecting Uuid) (documentId item : Uuid) : Prop :=
  ∃ e ∈ s.attachments.entries, e.2.itemId = some item ∧ e.2.documentId = documentId ∧ e.1 ∉ c.detached

instance (s : BlobPlane Uuid) (c : Collecting Uuid) (documentId item : Uuid) :
    Decidable (s.Refers c documentId item) :=
  inferInstanceAs (Decidable (∃ _ ∈ _, _))

def setCollecting (s : BlobPlane Uuid) (documentId : Uuid) (c : Collecting Uuid) : BlobPlane Uuid :=
  { s with collecting := s.collecting.set documentId c }

def dropCollecting (s : BlobPlane Uuid) (documentId : Uuid) : BlobPlane Uuid :=
  { s with collecting := s.collecting.delete documentId }

def modifyPass (s : BlobPlane Uuid) (i : ℕ) (f : S3Pass Uuid → S3Pass Uuid) : BlobPlane Uuid :=
  { s with passes := s.passes.modify i f }

def nullableUuid (uuids : UuidText Uuid) : Option JsString → Option (Option Uuid)
  | none => some none
  | some text => (uuids.parse text).map some

variable (uuids : UuidText Uuid) (retentionMs : ℤ)

/-- `none` where the step is not possible or must wait, or its query fails. -/
def step (s : BlobPlane Uuid) : BlobAction Uuid → Option (BlobPlane Uuid)
  | .tick ms => some { s with now := s.now + ms }
  | .insertItem id documentId =>
    if s.items.has id then none else some { s with items := s.items.set id documentId }
  | .createAttachment id documentId itemId mime size =>
    if mime ∉ ALLOWED_MIME_TYPES ∨ size ≤ 0 ∨ MAX_ATTACHMENT_BYTES < size then none
    else do
      let document ← uuids.parse documentId
      let item ← nullableUuid uuids itemId
      if ∃ u ∈ item, s.itemLocked u then none
      else do
        let attachments ← s.attachments.createAttachment s.items id document item mime size
        let key := s3Key documentId (uuids.text id)
        some { s with attachments, issued := s.issued.set id key, signing := s.signing ++ [key] }
  | .presignPut i clock => do
    let key ← s.signing[i]?
    some { s with signing := s.signing.eraseIdx i, urls := s.urls ++ [(key, clock)] }
  | .put i object clock => do
    let url ← s.urls[i]?
    if clock ≤ url.2 + PUT_PRESIGN_TTL then some { s with bucket := s.bucket.set url.1 object } else none
  | .headObject documentId attachmentId => do
    let head ← s.bucket.get (s3Key documentId attachmentId)
    some { s with finalizing := s.finalizing ++ [⟨documentId, attachmentId, head⟩] }
  | .finalizeAttachment i clock => do
    let f ← s.finalizing[i]?
    let document ← uuids.parse f.documentId
    let id ← uuids.parse f.attachmentId
    if s.rowLocked id then none
    else do
      let (_, attachments) ← s.attachments.finalizeAttachment id document
          (s3Key f.documentId f.attachmentId) f.head.size
        f.head.etag clock
      some { s with attachments, finalizing := s.finalizing.eraseIdx i }
  | .gcDocument documentId itemIds clock =>
    if s.collecting.has documentId then none
      else some (s.setCollecting documentId ⟨clock, itemIds, false, [], []⟩)
  | .softDeleteAttachmentsForItem documentId => do
    let c ← s.collecting.get documentId
    let item ← c.rest.head?
    if c.softDeleted then none
    else some (s.setCollecting documentId { c with
      softDeleted := true, detached :=
        c.detached ++ s.attachments.softDeleteAttachmentsForItem documentId item })
  | .deleteItem documentId => do
    let c ← s.collecting.get documentId
    let item ← c.rest.head?
    if ¬ c.softDeleted then none
    else if item ∈ c.deleted ∨ s.items.get item ≠ some documentId then
      some (s.setCollecting documentId { c with rest := c.rest.tail, softDeleted := false })
    -- the restriction of the foreign key
    else if s.Refers c documentId item then some (s.dropCollecting documentId)
    else some (s.setCollecting documentId { c with
      rest := c.rest.tail, softDeleted := false, deleted := item :: c.deleted })
  | .gcCommit documentId => do
    let c ← s.collecting.get documentId
    if c.rest ≠ [] then none
    else some { s.dropCollecting documentId with
      items := c.deleted.foldl OrderedMap.delete s.items, attachments :=
        s.attachments.detach c.detached c.clock }
  | .gcFails documentId => some (s.dropCollecting documentId)
  | .getPendingS3Deletions clock =>
    some { s with
      passes := s.passes ++
        [⟨s.attachments.getPendingS3Deletions (clock - retentionMs) pendingLimit, false⟩] }
  | .deleteObject i deleted returned => do
    let pass ← s.passes[i]?
    let (_, key) ← pass.pending.head?
    if pass.deleted ∨ returned ∧ ¬ deleted then none
    else
      let s := if deleted then { s with bucket := s.bucket.delete key } else s
      some (s.modifyPass i fun pass => if returned then { pass with deleted := true }
        else { pass with pending := pass.pending.tail })
  | .clearS3Key i written => do
    let pass ← s.passes[i]?
    let (id, _) ← pass.pending.head?
    if ¬ pass.deleted ∨ s.rowLocked id then none
    else
      let s := if written then { s with attachments := s.attachments.clearS3Key id } else s
      some (s.modifyPass i fun pass => { pass with pending := pass.pending.tail, deleted := false })
  | .restart => some { s with signing := [], finalizing := [], passes := [], collecting := .empty }

def PresignDownload (s : BlobPlane Uuid) (documentId attachmentId : JsString) :
    Option (AttachmentRow Uuid × JsString) := do
  let document ← uuids.parse documentId
  let id ← uuids.parse attachmentId
  let row ← s.attachments.getAttachmentForDownload id document
  let key ← row.s3Key
  some (row, key)

/-- Every clock that a step goes by is within `slack` of the time. A transaction's clock is that of its
beginning, and an upload's that of its authorization: `slack` covers how long these take. -/
def Timely (slack : ℤ) (s : BlobPlane Uuid) : BlobAction Uuid → Prop
  | .presignPut _ clock | .put _ _ clock | .getPendingS3Deletions clock =>
    clock ≤ s.now + slack ∧ s.now ≤ clock + slack
  | .gcCommit documentId =>
    ∀ c ∈ s.collecting.get documentId, c.clock ≤ s.now + slack ∧ s.now ≤ c.clock + slack
  | _ => True

instance (slack : ℤ) (s : BlobPlane Uuid) : DecidablePred (Timely slack s)
  | .presignPut .. | .put .. | .getPendingS3Deletions .. => inferInstanceAs (Decidable (_ ∧ _))
  | .gcCommit .. => inferInstanceAs (Decidable (∀ _ ∈ _, _))
  | .tick .. | .insertItem .. | .createAttachment .. | .headObject .. | .finalizeAttachment ..
  | .gcDocument .. | .softDeleteAttachmentsForItem .. | .deleteItem .. | .gcFails .. | .deleteObject ..
  | .clearS3Key .. | .restart =>
    inferInstanceAs (Decidable True)

/-- No attachment is created for an item between the two statements of its collection. -/
def Undisturbed (uuids : UuidText Uuid) (s : BlobPlane Uuid) : BlobAction Uuid → Prop
  | .createAttachment _ _ itemId _ _ => ∀ item, nullableUuid uuids itemId = some (some item) →
    ∀ c ∈ s.collecting.values, c.softDeleted = true → c.rest.head? ≠ some item
  | _ => True

end BlobPlane

end OpenOutliner
