import OpenOutliner.Server.AttachmentRetention

namespace OpenOutliner

open Foundations

namespace BlobPlane

variable {Uuid : Type} [DecidableEq Uuid] {uuids : UuidText Uuid} {retentionMs slack : ℤ}
  {s t : BlobPlane Uuid} {id id' : Uuid} {key : JsString}

def Freed (s : BlobPlane Uuid) : Prop :=
  ∀ d c, s.collecting.get d = some c → c.softDeleted = true → ∀ item ∈ c.rest.head?, ∀ id row,
    s.attachments.get id = some row → row.itemId = some item → row.documentId = d → id ∈ c.detached

section Freed

variable (hfreed : Freed s)
include hfreed

theorem Freed.mono (hcollecting : ∀ d c, t.collecting.get d = some c → c.softDeleted = true →
    s.collecting.get d = some c)
    (hrows : ∀ id row, t.attachments.get id = some row → ∀ item, row.itemId = some item → ∃ old,
      s.attachments.get id = some old ∧ old.itemId = some item ∧
      old.documentId = row.documentId) : Freed t := by
  intro d c hc hsoft item hitem id row hrow hrefers hdoc
  obtain ⟨old, hold, hrefers', hdoc'⟩ := hrows id row hrow item hrefers
  exact hfreed d c (hcollecting d c hc hsoft) hsoft item hitem id old hold hrefers' (hdoc'.trans hdoc)

theorem Freed.quiet (hcollecting : t.collecting = s.collecting) (hrows : t.attachments = s.attachments) :
    Freed t := by
  unfold Freed
  rw [hcollecting, hrows]
  exact hfreed

theorem Freed.drop (documentId : Uuid) : Freed (s.dropCollecting documentId) := by
  refine hfreed.mono ?_ fun _ row hrow item hrefers => ⟨row, hrow, hrefers, rfl⟩
  intro d c hc _
  unfold dropCollecting at hc
  rw [OrderedMap.get_delete] at hc
  split at hc
  · cases hc
  · exact hc

theorem Freed.setNext {documentId : Uuid} {c : Collecting Uuid} (hnext : c.softDeleted = false) :
    Freed (s.setCollecting documentId c) := by
  refine hfreed.mono ?_ fun _ row hrow item hrefers => ⟨row, hrow, hrefers, rfl⟩
  intro d c' hc' hsoft
  unfold setCollecting at hc'
  rw [OrderedMap.get_set] at hc'
  split at hc'
  · obtain rfl := Option.some.inj hc'
    rw [hnext] at hsoft
    cases hsoft
  · exact hc'

theorem Freed.set {row row' : AttachmentRow Uuid} (hrow : s.attachments.get id = some row)
    (hrows : t.attachments = s.attachments.set id row') (hdoc : row'.documentId = row.documentId)
    (hitem : row'.itemId = row.itemId) (hcollecting : t.collecting = s.collecting) : Freed t := by
  refine hfreed.mono (fun d c hc _ => hcollecting ▸ hc) ?_
  intro id' new hnew item hrefers
  rw [hrows, OrderedMap.get_set] at hnew
  split at hnew
  · rename_i hsame
    obtain rfl := Option.some.inj hnew
    exact ⟨row, hsame ▸ hrow, hitem.symm.trans hrefers, hdoc.symm⟩
  · exact ⟨new, hnew, hrefers, rfl⟩

theorem freed_create {documentId : JsString} {itemId : Option JsString} {mime : JsString} {size : ℤ}
    (hok : Undisturbed uuids s (.createAttachment id documentId itemId mime size))
    (hstep : step uuids retentionMs s (.createAttachment id documentId itemId mime size) = some t) :
    Freed t := by
  rw [step] at hstep
  split at hstep
  · cases hstep
  · obtain ⟨document, -, hstep⟩ := Option.bind_eq_some_iff.mp hstep
    obtain ⟨item, hitem, hstep⟩ := Option.bind_eq_some_iff.mp hstep
    split at hstep
    · cases hstep
    · obtain ⟨attachments, hcreate, hstep⟩ := Option.bind_eq_some_iff.mp hstep
      obtain rfl := Option.some.inj hstep
      obtain ⟨-, -, rfl⟩ := createAttachment_eq hcreate
      intro d c hc hsoft u hu id' row hrow hrefers hdoc
      dsimp only at hrow
      rw [OrderedMap.get_set] at hrow
      split at hrow
      · obtain rfl := Option.some.inj hrow
        rw [show item = some u from hrefers] at hitem
        exact absurd hu (hok u hitem c ((OrderedMap.mem_values_iff _ _).mpr ⟨d, hc⟩) hsoft)
      · exact hfreed d c hc hsoft u hu id' row hrow hrefers hdoc

theorem freed_finalize {i : ℕ} {clock : ℤ}
    (hstep : step uuids retentionMs s (.finalizeAttachment i clock) = some t) :
    Freed t := by
  obtain ⟨f, -, hstep⟩ := Option.bind_eq_some_iff.mp hstep
  obtain ⟨document, -, hstep⟩ := Option.bind_eq_some_iff.mp hstep
  obtain ⟨id, -, hstep⟩ := Option.bind_eq_some_iff.mp hstep
  split at hstep
  · cases hstep
  · obtain ⟨⟨row, attachments⟩, hfinal, hstep⟩ := Option.bind_eq_some_iff.mp hstep
    obtain rfl := Option.some.inj hstep
    obtain ⟨old, hold, hset⟩ := Option.bind_eq_some_iff.mp hfinal
    split at hset
    · obtain ⟨rfl, rfl⟩ := Prod.mk.inj (Option.some.inj hset)
      exact hfreed.set hold rfl rfl rfl rfl
    · cases hset

theorem freed_softDelete (h : Sound uuids retentionMs slack s) {documentId : Uuid}
    (hstep : step uuids retentionMs s (.softDeleteAttachmentsForItem documentId) = some t) : Freed t := by
  obtain ⟨c, hc, hstep⟩ := Option.bind_eq_some_iff.mp hstep
  obtain ⟨item, hitem, hstep⟩ := Option.bind_eq_some_iff.mp hstep
  split at hstep
  · cases hstep
  · obtain rfl := Option.some.inj hstep
    intro d c' hc' hsoft u hu id row hrow hrefers hdoc
    unfold setCollecting at hc' hrow
    rw [OrderedMap.get_set] at hc'
    split at hc'
    · rename_i hsame
      obtain rfl := Option.some.inj hc'
      obtain rfl := Option.some.inj (hitem.symm.trans hu)
      refine List.mem_append_right _ (mem_softDelete.mpr ⟨row, hrow, hdoc.trans hsame, hrefers, ?_⟩)
      by_contra hdel
      rw [(h.rows id row hrow).detached hdel] at hrefers
      cases hrefers
    · exact hfreed d c' hc' hsoft u hu id row hrow hrefers hdoc

theorem freed_deleteItem {documentId : Uuid}
    (hstep : step uuids retentionMs s (.deleteItem documentId) = some t) :
    Freed t := by
  obtain ⟨c, -, hstep⟩ := Option.bind_eq_some_iff.mp hstep
  obtain ⟨item, -, hstep⟩ := Option.bind_eq_some_iff.mp hstep
  split at hstep
  · cases hstep
  · split at hstep
    · obtain rfl := Option.some.inj hstep
      exact hfreed.setNext rfl
    · split at hstep
      · obtain rfl := Option.some.inj hstep
        exact hfreed.drop documentId
      · obtain rfl := Option.some.inj hstep
        exact hfreed.setNext rfl

theorem freed_gcCommit {documentId : Uuid}
    (hstep : step uuids retentionMs s (.gcCommit documentId) = some t) : Freed t := by
  obtain ⟨c, -, hstep⟩ := Option.bind_eq_some_iff.mp hstep
  split at hstep
  · cases hstep
  · obtain rfl := Option.some.inj hstep
    refine (hfreed.drop documentId).mono (fun _ _ hc _ => hc) ?_
    intro id row hrow item hrefers
    dsimp only at hrow
    rw [get_detach] at hrow
    obtain ⟨old, hold, rfl⟩ := Option.map_eq_some_iff.mp hrow
    split at hrefers
    · cases hrefers
    · rename_i hout
      rw [if_neg hout]
      exact ⟨old, hold, hrefers, rfl⟩

theorem freed_deleteObject {i : ℕ} {deleted returned : Bool}
    (hstep : step uuids retentionMs s (.deleteObject i deleted returned) = some t) : Freed t := by
  obtain ⟨pass, -, hstep⟩ := Option.bind_eq_some_iff.mp hstep
  obtain ⟨⟨id, key⟩, -, hstep⟩ := Option.bind_eq_some_iff.mp hstep
  dsimp only at hstep
  split at hstep
  · cases hstep
  · obtain rfl := Option.some.inj hstep
    cases deleted <;> exact hfreed.quiet rfl rfl

theorem freed_clearS3Key {i : ℕ} {written : Bool}
    (hstep : step uuids retentionMs s (.clearS3Key i written) = some t) :
    Freed t := by
  obtain ⟨pass, -, hstep⟩ := Option.bind_eq_some_iff.mp hstep
  obtain ⟨⟨id, key⟩, -, hstep⟩ := Option.bind_eq_some_iff.mp hstep
  dsimp only at hstep
  split at hstep
  · cases hstep
  · obtain rfl := Option.some.inj hstep
    cases written with
    | false => exact hfreed.quiet rfl rfl
    | true =>
      cases hrow : s.attachments.get id with
      | none =>
        refine hfreed.quiet rfl ?_
        change s.attachments.clearS3Key id = s.attachments
        rw [Attachments.clearS3Key, hrow]
      | some row =>
        have hset : s.attachments.clearS3Key id = s.attachments.set id { row with s3Key := none } := by
          rw [Attachments.clearS3Key, hrow]
        exact hfreed.set hrow hset rfl rfl rfl

theorem freed_step (h : Sound uuids retentionMs slack s) {a : BlobAction Uuid} (hok : Undisturbed uuids s a)
    (hstep : step uuids retentionMs s a = some t) : Freed t := by
  cases a with
  | tick ms =>
    obtain rfl := Option.some.inj hstep
    exact hfreed.quiet rfl rfl
  | insertItem id documentId =>
    rw [step] at hstep
    split at hstep
    · cases hstep
    · obtain rfl := Option.some.inj hstep
      exact hfreed.quiet rfl rfl
  | createAttachment id documentId itemId mime size => exact freed_create hfreed hok hstep
  | presignPut i clock =>
    obtain ⟨key, -, hstep⟩ := Option.bind_eq_some_iff.mp hstep
    obtain rfl := Option.some.inj hstep
    exact hfreed.quiet rfl rfl
  | put i object clock =>
    obtain ⟨url, -, hstep⟩ := Option.bind_eq_some_iff.mp hstep
    split at hstep
    · obtain rfl := Option.some.inj hstep
      exact hfreed.quiet rfl rfl
    · cases hstep
  | headObject documentId attachmentId =>
    obtain ⟨head, -, hstep⟩ := Option.bind_eq_some_iff.mp hstep
    obtain rfl := Option.some.inj hstep
    exact hfreed.quiet rfl rfl
  | finalizeAttachment i clock => exact freed_finalize hfreed hstep
  | gcDocument documentId itemIds clock =>
    rw [step] at hstep
    split at hstep
    · cases hstep
    · obtain rfl := Option.some.inj hstep
      exact hfreed.setNext rfl
  | softDeleteAttachmentsForItem documentId => exact freed_softDelete hfreed h hstep
  | deleteItem documentId => exact freed_deleteItem hfreed hstep
  | gcCommit documentId => exact freed_gcCommit hfreed hstep
  | gcFails documentId =>
    obtain rfl := Option.some.inj hstep
    exact hfreed.drop documentId
  | getPendingS3Deletions clock =>
    obtain rfl := Option.some.inj hstep
    exact hfreed.quiet rfl rfl
  | deleteObject i deleted returned => exact freed_deleteObject hfreed hstep
  | clearS3Key i written => exact freed_clearS3Key hfreed hstep
  | restart =>
    obtain rfl := Option.some.inj hstep
    intro d c hc
    cases hc

theorem deleteItem_unstopped {documentId : Uuid}
    (hstep : step uuids retentionMs s (.deleteItem documentId) = some t) :
    ∃ c, t.collecting.get documentId = some c := by
  obtain ⟨c, hc, hstep⟩ := Option.bind_eq_some_iff.mp hstep
  obtain ⟨item, hitem, hstep⟩ := Option.bind_eq_some_iff.mp hstep
  split at hstep
  · cases hstep
  · rename_i hsoft
    split at hstep
    · obtain rfl := Option.some.inj hstep
      exact ⟨_, OrderedMap.get_set_self _ _ _⟩
    · split at hstep
      · rename_i hrefers
        obtain ⟨⟨id, row⟩, hrow, hitem', hdoc, hout⟩ := hrefers
        have hget := (OrderedMap.mem_entries_iff _ _ _).mp hrow
        exact absurd (hfreed documentId c hc (not_not.mp hsoft) item hitem id row hget hitem' hdoc) hout
      · obtain rfl := Option.some.inj hstep
        exact ⟨_, OrderedMap.get_set_self _ _ _⟩

end Freed

theorem freed_run (hslash : uuids.Slashless) (hretention : PUT_PRESIGN_TTL + 4 * slack ≤ retentionMs)
    {items : OrderedMap Uuid Uuid} {now : ℤ}
    (hrun : Runs (step uuids retentionMs) (fun s a => Timely slack s a ∧ Undisturbed uuids s a)
      (start items now) s) :
    Freed s := by
  have hboth : Sound uuids retentionMs slack s ∧ Freed s := by
    have hstart : Freed (start items now : BlobPlane Uuid) := by
      intro d c hc
      cases hc
    induction hrun with
    | refl => exact ⟨sound_start items now, hstart⟩
    | step a _ hok hstep ih =>
      exact ⟨sound_step ih.1 hslash hretention hok.1 hstep, freed_step ih.2 ih.1 hok.2 hstep⟩
  exact hboth.2

end BlobPlane

open BlobPlane

section Results

variable {Uuid : Type} [DecidableEq Uuid] {uuids : UuidText Uuid} {retentionMs slack : ℤ}
  (hslash : uuids.Slashless)
  (hretention : PUT_PRESIGN_TTL + 4 * slack ≤ retentionMs) {items : OrderedMap Uuid Uuid} {now : ℤ}
  {s t : BlobPlane Uuid} (hrun : Runs (step uuids retentionMs) (Timely slack) (start items now) s)
include hslash hretention hrun

/-- However the calls and the collectors' statements interleave: a finalized attachment that is not deleted
can be read and its object is there; every object is that of one attachment of the document in its key; an
attachment refers only to an item of its document that is there, a deleted one to none; and the foreign key
stops a collection only for an attachment that was created between the two statements on its item. -/
theorem attachments_served :
    (∀ id row, s.attachments.get id = some row → row.uploadedAt ≠ none → row.deletedAt = none →
      ∃ key o, s.bucket.get key = some o ∧ ∀ documentId attachmentId,
      uuids.parse documentId = some row.documentId →
        uuids.parse attachmentId = some id →
        PresignDownload uuids s documentId attachmentId = some (row, key)) ∧
    (∀ id row key, s.attachments.get id = some row → row.s3Key = some key →
      ∃ documentId, uuids.parse documentId = some row.documentId ∧ key = s3Key documentId (uuids.text id)) ∧
    (∀ key o, s.bucket.get key = some o → ∃ id row documentId, s.attachments.get id = some row ∧
      uuids.parse documentId = some row.documentId ∧ key = s3Key documentId (uuids.text id)) ∧
    (∀ id row, s.attachments.get id = some row → (row.deletedAt ≠ none → row.itemId = none) ∧
      ∀ item, row.itemId = some item → s.items.get item = some row.documentId) ∧
    (Runs (step uuids retentionMs) (fun s a => Timely slack s a ∧ Undisturbed uuids s a) (start items now) s →
      ∀ documentId t, step uuids retentionMs s (.deleteItem documentId) = some t →
      ∃ c, t.collecting.get documentId = some c) := by
  have h := sound_run hslash hretention hrun
  refine ⟨?_, ?_, ?_, fun id row hrow => ⟨(h.rows id row hrow).detached, (h.rows id row hrow).attached⟩, ?_⟩
  · intro id row hrow hup hdel
    obtain ⟨key, o, hkey, ho⟩ := (h.rows id row hrow).live hup hdel
    refine ⟨key, o, ho, ?_⟩
    intro documentId attachmentId hdocument hid
    have hread : s.attachments.getAttachmentForDownload id row.documentId = some row := by
      rw [Attachments.getAttachmentForDownload, hrow]
      exact if_pos (decide_eq_true ⟨rfl, hup, hdel⟩)
    unfold PresignDownload
    rw [hdocument, hid]
    simp only [Option.bind_eq_bind, Option.bind_some]
    rw [hread, Option.bind_some, hkey, Option.bind_some]
  · intro id row key hrow hkey
    obtain ⟨row', documentId, hrow', hdocument, he⟩ :=
      h.issuedRow id key ((h.rows id row hrow).keyed key hkey).1
    rw [hrow] at hrow'
    obtain rfl := Option.some.inj hrow'
    exact ⟨documentId, hdocument, he⟩
  · intro key o ho
    obtain ⟨id, hid⟩ := h.sent key (List.mem_append_right _ (h.stored key o ho))
    obtain ⟨row, documentId, hrow, hdocument, he⟩ := h.issuedRow id key hid
    exact ⟨id, row, documentId, hrow, hdocument, he⟩
  · exact fun hundisturbed documentId t hstep => deleteItem_unstopped
      (freed_run hslash hretention hundisturbed) hstep

/-- An object leaves the bucket only after the retention time of a finalized and deleted attachment, and
then for good, so that the object of an upload that is never finalized stays. -/
theorem attachments_collected (hlater : Runs (step uuids retentionMs) (Timely slack) s t) :
    (∀ key o, s.bucket.get key = some o → t.bucket.get key = none → ∃ id row d, t.issued.get id = some key ∧
      t.attachments.get id = some row ∧ row.uploadedAt ≠ none ∧ row.deletedAt = some d ∧
      d + retentionMs < t.now + slack) ∧
    (∀ id row key o, t.attachments.get id = some row → row.uploadedAt = none → s.issued.get id = some key →
      s.bucket.get key = some o → ∃ o', t.bucket.get key = some o') ∧
    ∀ id row key, s.attachments.get id = some row → row.uploadedAt ≠ none → s.issued.get id = some key →
      row.s3Key = none ∨ s.bucket.get key = none → t.bucket.get key = none := by
  have h := sound_run hslash hretention hrun
  have hadvances := advances_run hslash hretention h hlater
  have hlaterSound : Sound uuids retentionMs slack t := sound_run hslash hretention (hrun.trans hlater)
  refine ⟨?_, ?_, ?_⟩
  · intro key o ho hnone
    obtain ⟨o', ho'⟩ | ⟨id, row, d, hrow, hup, hdel, hold, hissued⟩ := hadvances.kept key o ho
    · rw [hnone] at ho'
      cases ho'
    · exact ⟨id, row, d, hissued, hrow, hup, hdel, hold⟩
  · intro id row key o hrow hup hkey ho
    obtain hkept | ⟨id', row', d, hrow', hup', -, -, hissued⟩ := hadvances.kept key o ho
    · exact hkept
    · obtain rfl := hlaterSound.issued_inj hslash (hadvances.issued id key hkey) hissued
      rw [hrow] at hrow'
      obtain rfl := Option.some.inj hrow'
      exact absurd hup hup'
  · intro id row key hrow hup hkey hgone
    have hwas := h.rows id row hrow
    have hnone : s.bucket.get key = none := by
      obtain hcleared | hnone := hgone
      · obtain ⟨d, -, -, hnone⟩ := hwas.collected hup hcleared
        exact hnone key hkey
      · exact hnone
    obtain ⟨d, hdel, hold⟩ := hwas.vanished hup key hkey hnone
    exact hadvances.gone id key ⟨row, d, hrow, hup, hdel, hold, hkey⟩ hnone

end Results

section Example

def uploadOnce : List (BlobAction Unit) :=
  [.insertItem () (), .createAttachment () (js ['r']) (some (js ['r']))
    (js ['i', 'm', 'a', 'g', 'e', '/', 'p', 'n', 'g']) 3,
    .presignPut 0 5, .put 0 ⟨3, js ['x']⟩ 6, .headObject (js ['r']) (js ['r']), .finalizeAttachment 0 7,
    .put 0 ⟨3, js ['y']⟩ 8]

def collectLater : List (BlobAction Unit) :=
  [.gcDocument () [()] 9, .softDeleteAttachmentsForItem (), .deleteItem (), .gcCommit (), .tick 691200000,
    .getPendingS3Deletions 691200000, .deleteObject 0 true true, .clearS3Key 0 true]

def executeTimely (s : BlobPlane Unit) (actions : List (BlobAction Unit)) : Option (BlobPlane Unit) :=
  executeIf (step oneUuid 604800000) (fun s a => decide (Timely 1000 s a)) s actions

theorem oneUuid_slashless : oneUuid.Slashless := by
  intro s u hparse
  unfold oneUuid at hparse
  dsimp only at hparse
  split at hparse
  · rename_i hs
    rw [hs]
    decide
  · cases hparse

theorem executeTimely_runs {s t : BlobPlane Unit} {actions : List (BlobAction Unit)}
    (h : executeTimely s actions = some t) :
    Runs (step oneUuid 604800000) (Timely 1000) s t :=
  executeIf_runs (fun _ _ => of_decide_eq_true) h

end Example

theorem attachments_served_once :
    ∃ s, executeTimely (start .empty 0) uploadOnce = some s ∧
      ∃ row key o, PresignDownload oneUuid s (js ['r']) (js ['r']) = some (row, key) ∧
      s.bucket.get key = some o := by
  have hends : ((executeTimely (start .empty 0) uploadOnce).bind fun s => s.attachments.get ()) =
      some ⟨(), some (), some (js ['r', '/', 'r']), js ['i', 'm', 'a', 'g', 'e', '/', 'p', 'n', 'g'], 3,
        js ['x'], some 7, none⟩ := by
    decide +kernel
  obtain ⟨s, hs, hrow⟩ := Option.bind_eq_some_iff.mp hends
  have hserved := attachments_served oneUuid_slashless (by decide) (executeTimely_runs hs)
  obtain ⟨key, o, ho, hread⟩ := hserved.1 _ _ hrow (Option.some_ne_none _) rfl
  exact ⟨s, hs, _, key, o, hread (js ['r']) (js ['r']) rfl rfl, ho⟩

theorem attachments_collected_once :
    ∃ s t, executeTimely (start .empty 0) uploadOnce = some s ∧ executeTimely s collectLater = some t ∧
      t.attachments.gcBacklogCount = 0 ∧ ∃ id row d, t.attachments.get id = some row ∧
      row.deletedAt = some d ∧
        d + 604800000 < t.now + 1000 := by
  have hends :
      ((executeTimely (start .empty 0) uploadOnce).bind fun s => (executeTimely s collectLater).map fun t =>
      (s.bucket.get (js ['r', '/', 'r']), t.bucket.get (js ['r', '/', 'r']), t.attachments.gcBacklogCount)) =
        some (some ⟨3, js ['y']⟩, none, 0) := by decide +kernel
  obtain ⟨s, hs, hends⟩ := Option.bind_eq_some_iff.mp hends
  obtain ⟨t, ht, hends⟩ := Option.map_eq_some_iff.mp hends
  obtain ⟨hbefore, hends⟩ := Prod.mk.inj hends
  obtain ⟨hafter, hbacklog⟩ := Prod.mk.inj hends
  have hcollected :=
    attachments_collected oneUuid_slashless (by decide) (executeTimely_runs hs) (executeTimely_runs ht)
  obtain ⟨id, row, d, -, hrow, -, hdel, hold⟩ := hcollected.1 _ _ hbefore hafter
  exact ⟨s, t, hs, ht, hbacklog, id, row, d, hrow, hdel, hold⟩

end OpenOutliner
