import OpenOutliner.Server.AttachmentInvariants

namespace OpenOutliner

open Foundations

namespace BlobPlane

variable {Uuid : Type} [DecidableEq Uuid] {uuids : UuidText Uuid} {retentionMs slack : ℤ}
  {s t : BlobPlane Uuid} {id id' : Uuid} {key : JsString}

def Persists (rows rows' : Attachments Uuid) : Prop :=
  ∀ id row, rows.get id = some row → ∃ row', rows'.get id = some row' ∧
    (row.uploadedAt ≠ none → row'.uploadedAt ≠ none) ∧ ∀ d, row.deletedAt = some d → row'.deletedAt = some d

namespace Persists

variable {rows rows' rows'' : Attachments Uuid}

theorem refl (rows : Attachments Uuid) : Persists rows rows :=
  fun _ row hrow => ⟨row, hrow, fun hup => hup, fun _ hd => hd⟩

theorem trans (h : Persists rows rows') (h' : Persists rows' rows'') : Persists rows rows'' := by
  intro id row hrow
  obtain ⟨row', hrow', hup, hdel⟩ := h id row hrow
  obtain ⟨row'', hrow'', hup', hdel'⟩ := h' id row' hrow'
  exact ⟨row'', hrow'', fun hne => hup' (hup hne), fun d hd => hdel' d (hdel d hd)⟩

theorem set {row row' : AttachmentRow Uuid} (hrow : rows.get id = some row)
    (hup : row.uploadedAt ≠ none → row'.uploadedAt ≠ none)
    (hdel : ∀ d, row.deletedAt = some d → row'.deletedAt = some d) :
    Persists rows (rows.set id row') := by
  intro id' old hold
  rw [OrderedMap.get_set]
  split
  · rename_i hsame
    rw [hsame, hrow] at hold
    obtain rfl := Option.some.inj hold
    exact ⟨row', rfl, hup, hdel⟩
  · exact ⟨old, hold, fun hup => hup, fun _ hd => hd⟩

theorem detach {ids : List Uuid} (hlive : ∀ id ∈ ids, ∃ row, rows.get id = some row ∧ row.deletedAt = none)
    (now : ℤ) :
    Persists rows (rows.detach ids now) := by
  intro id row hrow
  rw [get_detach, hrow, Option.map_some]
  refine ⟨_, rfl, ?_⟩
  split
  · rename_i hid
    obtain ⟨live, hget, hdel⟩ := hlive id hid
    rw [hrow] at hget
    obtain rfl := Option.some.inj hget
    refine ⟨fun hup => hup, ?_⟩
    intro d hd
    rw [hdel] at hd
    cases hd
  · exact ⟨fun hup => hup, fun _ hd => hd⟩

end Persists

structure Advances (retentionMs slack : ℤ) (s t : BlobPlane Uuid) : Prop where
  rows : Persists s.attachments t.attachments
  issued : ∀ id key, s.issued.get id = some key → t.issued.get id = some key
  time : s.now ≤ t.now
  kept : ∀ key o, s.bucket.get key = some o → (∃ o', t.bucket.get key = some o') ∨
    ∃ id, Condemned retentionMs slack t id key
  gone : ∀ id key, Condemned retentionMs slack s id key → s.bucket.get key = none → t.bucket.get key = none

namespace Advances

theorem condemned (h : Advances retentionMs slack s t) (hcond : Condemned retentionMs slack s id key) :
    Condemned retentionMs slack t id key := by
  obtain ⟨row, d, hrow, hup, hdel, hold, hissued⟩ := hcond
  obtain ⟨row', hrow', hup', hdel'⟩ := h.rows id row hrow
  have htime := h.time
  exact ⟨row', d, hrow', hup' hup, hdel' d hdel, by omega, h.issued id key hissued⟩

theorem refl (s : BlobPlane Uuid) : Advances retentionMs slack s s :=
  ⟨.refl _, fun _ _ hkey => hkey, le_rfl, fun _ o ho => Or.inl ⟨o, ho⟩, fun _ _ _ hnone => hnone⟩

theorem trans {u : BlobPlane Uuid} (h : Advances retentionMs slack s t)
    (h' : Advances retentionMs slack t u) :
    Advances retentionMs slack s u where
  rows := h.rows.trans h'.rows
  issued id key hkey := h'.issued id key (h.issued id key hkey)
  time := h.time.trans h'.time
  kept key o ho := by
    obtain ⟨o', ho'⟩ | ⟨id, hcond⟩ := h.kept key o ho
    · exact h'.kept key o' ho'
    · exact Or.inr ⟨id, h'.condemned hcond⟩
  gone id key hcond hnone := h'.gone id key (h.condemned hcond) (h.gone id key hcond hnone)

theorem ofRows (hrows : Persists s.attachments t.attachments)
    (hissued : ∀ id key, s.issued.get id = some key → t.issued.get id = some key) (htime : s.now ≤ t.now)
    (hbucket : t.bucket = s.bucket) : Advances retentionMs slack s t where
  rows := hrows
  issued := hissued
  time := htime
  kept _ o ho := Or.inl ⟨o, by rw [hbucket, ho]⟩
  gone _ _ _ hnone := by rw [hbucket, hnone]

end Advances

theorem Advances.quiet (hrows : t.attachments = s.attachments) (hissued : t.issued = s.issued)
    (htime : t.now = s.now) (hbucket : t.bucket = s.bucket) : Advances retentionMs slack s t :=
  .ofRows (hrows ▸ .refl _) (fun _ _ hkey => by rw [hissued, hkey]) htime.ge hbucket

section Steps

variable (h : Sound uuids retentionMs slack s)
include h

theorem advances_create {documentId : JsString} {itemId : Option JsString} {mime : JsString} {size : ℤ}
    (hstep : step uuids retentionMs s (.createAttachment id documentId itemId mime size) = some t) :
    Advances retentionMs slack s t := by
  rw [step] at hstep
  split at hstep
  · cases hstep
  · obtain ⟨document, -, hstep⟩ := Option.bind_eq_some_iff.mp hstep
    obtain ⟨item, -, hstep⟩ := Option.bind_eq_some_iff.mp hstep
    split at hstep
    · cases hstep
    · obtain ⟨attachments, hcreate, hstep⟩ := Option.bind_eq_some_iff.mp hstep
      obtain rfl := Option.some.inj hstep
      obtain ⟨hfresh, -, rfl⟩ := createAttachment_eq hcreate
      refine .ofRows ?_ (fun _ _ hkey => issue_other (h.issued_fresh hfresh) hkey) le_rfl rfl
      intro id' row hrow
      have hne : id' ≠ id := by
        rintro rfl
        rw [hfresh] at hrow
        cases hrow
      exact ⟨row, by dsimp only; rw [OrderedMap.get_set_of_ne _ _ hne, hrow], fun hup => hup, fun _ hd => hd⟩

theorem advances_put (hretention : PUT_PRESIGN_TTL + 4 * slack ≤ retentionMs) {i : ℕ}
    {object : S3Object} {clock : ℤ}
    (hclock : s.now ≤ clock + slack) (hstep : step uuids retentionMs s (.put i object clock) = some t) :
    Advances retentionMs slack s t := by
  obtain ⟨url, hurl, hstep⟩ := Option.bind_eq_some_iff.mp hstep
  split at hstep
  · rename_i hin
    obtain rfl := Option.some.inj hstep
    refine ⟨.refl _, fun _ _ hkey => hkey, le_rfl, ?_, ?_⟩
    · intro key o ho
      dsimp only
      rw [OrderedMap.get_set]
      split
      · exact Or.inl ⟨object, rfl⟩
      · exact Or.inl ⟨o, ho⟩
    · intro id key hcond hnone
      have hne : key ≠ url.1 := by
        rintro rfl
        exact h.put_late hretention hcond (List.mem_of_getElem? hurl) hclock hin
      dsimp only
      rw [OrderedMap.get_set_of_ne _ _ hne, hnone]
  · cases hstep

omit h in
theorem advances_finalize {i : ℕ} {clock : ℤ}
    (hstep : step uuids retentionMs s (.finalizeAttachment i clock) = some t) :
    Advances retentionMs slack s t := by
  obtain ⟨f, -, hstep⟩ := Option.bind_eq_some_iff.mp hstep
  obtain ⟨document, -, hstep⟩ := Option.bind_eq_some_iff.mp hstep
  obtain ⟨id, -, hstep⟩ := Option.bind_eq_some_iff.mp hstep
  split at hstep
  · cases hstep
  · obtain ⟨⟨row, attachments⟩, hfinal, hstep⟩ := Option.bind_eq_some_iff.mp hstep
    obtain rfl := Option.some.inj hstep
    obtain ⟨old, hold, hset⟩ := Option.bind_eq_some_iff.mp hfinal
    split at hset
    · obtain ⟨rfl, rfl⟩ := Prod.mk.inj (Option.some.inj hset)
      exact .ofRows (.set hold (fun _ => Option.some_ne_none clock) fun _ hd => hd)
        (fun _ _ hkey => hkey) le_rfl rfl
    · cases hset

omit h in
theorem advances_deleteItem {documentId : Uuid}
    (hstep : step uuids retentionMs s (.deleteItem documentId) = some t) :
    Advances retentionMs slack s t := by
  obtain ⟨c, -, hstep⟩ := Option.bind_eq_some_iff.mp hstep
  obtain ⟨item, -, hstep⟩ := Option.bind_eq_some_iff.mp hstep
  split at hstep
  · cases hstep
  · split at hstep
    · obtain rfl := Option.some.inj hstep
      exact .quiet rfl rfl rfl rfl
    · split at hstep
      · obtain rfl := Option.some.inj hstep
        exact .quiet rfl rfl rfl rfl
      · obtain rfl := Option.some.inj hstep
        exact .quiet rfl rfl rfl rfl

theorem advances_gcCommit {documentId : Uuid}
    (hstep : step uuids retentionMs s (.gcCommit documentId) = some t) :
    Advances retentionMs slack s t := by
  obtain ⟨c, hc, hstep⟩ := Option.bind_eq_some_iff.mp hstep
  split at hstep
  · cases hstep
  · obtain rfl := Option.some.inj hstep
    refine .ofRows (.detach ?_ c.clock) (fun _ _ hkey => hkey) le_rfl rfl
    intro id hid
    obtain ⟨row, hrow, -, hdel⟩ := (h.collections documentId c hc).detached id hid
    exact ⟨row, hrow, hdel⟩

theorem advances_deleteObject {i : ℕ} {deleted returned : Bool}
    (hstep : step uuids retentionMs s (.deleteObject i deleted returned) = some t) :
    Advances retentionMs slack s t := by
  obtain ⟨pass, hpass, hstep⟩ := Option.bind_eq_some_iff.mp hstep
  obtain ⟨⟨id, key⟩, hhead, hstep⟩ := Option.bind_eq_some_iff.mp hstep
  have hcond := condemned_head h hpass hhead
  dsimp only at hstep
  split at hstep
  · cases hstep
  · obtain rfl := Option.some.inj hstep
    cases deleted with
    | true =>
      refine ⟨.refl _, fun _ _ hkey => hkey, le_rfl, ?_, ?_⟩
      · intro k o ho
        by_cases hsame : k = key
        · exact Or.inr ⟨id, hsame ▸ hcond⟩
        · refine Or.inl ⟨o, ?_⟩
          change (s.bucket.delete key).get k = some o
          rw [OrderedMap.get_delete, if_neg hsame, ho]
      · intro _ k _ hnone
        change (s.bucket.delete key).get k = none
        rw [OrderedMap.get_delete, hnone, ite_self]
    | false => exact .quiet rfl rfl rfl rfl

theorem advances_clearS3Key {i : ℕ} {written : Bool}
    (hstep : step uuids retentionMs s (.clearS3Key i written) = some t) :
    Advances retentionMs slack s t := by
  obtain ⟨pass, hpass, hstep⟩ := Option.bind_eq_some_iff.mp hstep
  obtain ⟨⟨id, key⟩, hhead, hstep⟩ := Option.bind_eq_some_iff.mp hstep
  dsimp only at hstep
  split at hstep
  · cases hstep
  · obtain rfl := Option.some.inj hstep
    cases written with
    | true =>
      obtain ⟨row, -, hrow, -⟩ := condemned_head h hpass hhead
      refine .ofRows ?_ (fun _ _ hkey => hkey) le_rfl rfl
      change Persists s.attachments (s.attachments.clearS3Key id)
      rw [Attachments.clearS3Key, hrow]
      exact .set hrow (fun hup => hup) fun _ hd => hd
    | false => exact .quiet rfl rfl rfl rfl

theorem advances_step (hretention : PUT_PRESIGN_TTL + 4 * slack ≤ retentionMs)
    {a : BlobAction Uuid} (htimely : Timely slack s a) (hstep : step uuids retentionMs s a = some t) :
    Advances retentionMs slack s t := by
  cases a with
  | tick ms =>
    obtain rfl := Option.some.inj hstep
    exact .ofRows (.refl _) (fun _ _ hkey => hkey) (by dsimp only; omega) rfl
  | insertItem id documentId =>
    rw [step] at hstep
    split at hstep
    · cases hstep
    · obtain rfl := Option.some.inj hstep
      exact .quiet rfl rfl rfl rfl
  | createAttachment id documentId itemId mime size => exact advances_create h hstep
  | presignPut i clock =>
    obtain ⟨key, -, hstep⟩ := Option.bind_eq_some_iff.mp hstep
    obtain rfl := Option.some.inj hstep
    exact .quiet rfl rfl rfl rfl
  | put i object clock => exact advances_put h hretention htimely.2 hstep
  | headObject documentId attachmentId =>
    obtain ⟨head, -, hstep⟩ := Option.bind_eq_some_iff.mp hstep
    obtain rfl := Option.some.inj hstep
    exact .quiet rfl rfl rfl rfl
  | finalizeAttachment i clock => exact advances_finalize hstep
  | gcDocument documentId itemIds clock =>
    rw [step] at hstep
    split at hstep
    · cases hstep
    · obtain rfl := Option.some.inj hstep
      exact .quiet rfl rfl rfl rfl
  | softDeleteAttachmentsForItem documentId =>
    obtain ⟨c, -, hstep⟩ := Option.bind_eq_some_iff.mp hstep
    obtain ⟨item, -, hstep⟩ := Option.bind_eq_some_iff.mp hstep
    split at hstep
    · cases hstep
    · obtain rfl := Option.some.inj hstep
      exact .quiet rfl rfl rfl rfl
  | deleteItem documentId => exact advances_deleteItem hstep
  | gcCommit documentId => exact advances_gcCommit h hstep
  | gcFails documentId =>
    obtain rfl := Option.some.inj hstep
    exact .quiet rfl rfl rfl rfl
  | getPendingS3Deletions clock =>
    obtain rfl := Option.some.inj hstep
    exact .quiet rfl rfl rfl rfl
  | deleteObject i deleted returned => exact advances_deleteObject h hstep
  | clearS3Key i written => exact advances_clearS3Key h hstep
  | restart =>
    obtain rfl := Option.some.inj hstep
    exact .quiet rfl rfl rfl rfl

end Steps

theorem advances_run (hslash : uuids.Slashless) (hretention : PUT_PRESIGN_TTL + 4 * slack ≤ retentionMs)
    (h : Sound uuids retentionMs slack s) (hrun : Runs (step uuids retentionMs) (Timely slack) s t) :
    Advances retentionMs slack s t :=
  hrun.relates (fun s => .refl s) .trans
    (fun h htimely hstep => sound_step h hslash hretention htimely hstep)
    (fun h htimely hstep => advances_step h hretention htimely hstep) h

end BlobPlane

end OpenOutliner
