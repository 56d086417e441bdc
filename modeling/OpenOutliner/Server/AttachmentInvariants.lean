import OpenOutliner.Server.Attachments
import OpenOutliner.Server.UpsertHistory
import Mathlib.Tactic.Linarith

namespace OpenOutliner

open Foundations

variable {Uuid : Type} [DecidableEq Uuid]

def UuidText.Slashless (uuids : UuidText Uuid) : Prop := ∀ s u, uuids.parse s = some u → SLASH ∉ s

namespace BlobPlane

variable (uuids : UuidText Uuid) (retentionMs slack : ℤ)

structure RowSound (now : ℤ) (items : OrderedMap Uuid Uuid) (bucket : OrderedMap JsString S3Object)
    (issued : OrderedMap Uuid JsString) (urls : List (JsString × ℤ)) (id : Uuid)
    (row : AttachmentRow Uuid) : Prop where
  keyed : ∀ key, row.s3Key = some key → issued.get id = some key ∧ row.uploadedAt ≠ none
  uploaded : row.uploadedAt ≠ none → ∀ key, issued.get id = some key → key ∈ urls.map Prod.fst
  live : row.uploadedAt ≠ none → row.deletedAt = none → ∃ key o, row.s3Key = some key ∧
    bucket.get key = some o
  detached : row.deletedAt ≠ none → row.itemId = none
  attached : ∀ item, row.itemId = some item → items.get item = some row.documentId
  expired : row.uploadedAt ≠ none → ∀ t, row.deletedAt = some t → ∀ key at_, issued.get id = some key →
    (key, at_) ∈ urls → at_ ≤ t + 2 * slack
  collected : row.uploadedAt ≠ none → row.s3Key = none → ∃ t, row.deletedAt = some t ∧
    t + retentionMs < now + slack ∧
    ∀ key, issued.get id = some key → bucket.get key = none
  vanished : row.uploadedAt ≠ none → ∀ key, issued.get id = some key → bucket.get key = none →
    ∃ t, row.deletedAt = some t ∧ t + retentionMs < now + slack

/-- What an open collection relies on: what it has detached is live for the others, and the items that it
has deleted are there for the others, with no attachments but those. -/
structure CollectingSound (items : OrderedMap Uuid Uuid) (attachments : Attachments Uuid) (documentId : Uuid)
    (c : Collecting Uuid) : Prop where
  detached : ∀ id ∈ c.detached, ∃ row, attachments.get id = some row ∧ row.documentId = documentId ∧
    row.deletedAt = none
  deleted : ∀ item ∈ c.deleted, items.get item = some documentId
  freed : ∀ item ∈ c.deleted, ∀ id row, attachments.get id = some row → row.itemId = some item →
    id ∈ c.detached

def Condemned (s : BlobPlane Uuid) (id : Uuid) (key : JsString) : Prop :=
  ∃ row t, s.attachments.get id = some row ∧ row.uploadedAt ≠ none ∧ row.deletedAt = some t ∧
    t + retentionMs < s.now + slack ∧ s.issued.get id = some key

structure Sound (s : BlobPlane Uuid) : Prop where
  issuedRow : ∀ id key, s.issued.get id = some key → ∃ row dt, s.attachments.get id = some row ∧
    uuids.parse dt = some row.documentId ∧ key = s3Key dt (uuids.text id)
  rowIssued : ∀ id row, s.attachments.get id = some row → ∃ key, s.issued.get id = some key
  sent : ∀ key ∈ s.signing ++ s.urls.map Prod.fst, ∃ id, s.issued.get id = some key
  once : (s.signing ++ s.urls.map Prod.fst).Nodup
  signed : ∀ u ∈ s.urls, u.2 ≤ s.now + slack
  stored : ∀ key o, s.bucket.get key = some o → key ∈ s.urls.map Prod.fst
  finals : ∀ f ∈ s.finalizing, ∃ id, s.issued.get id = some (s3Key f.documentId f.attachmentId) ∧
    s3Key f.documentId f.attachmentId ∈ s.urls.map Prod.fst ∧ ∀ row, s.attachments.get id = some row →
      row.uploadedAt = none → row.deletedAt = none →
      ∃ o, s.bucket.get (s3Key f.documentId f.attachmentId) = some o
  rows : ∀ id row, s.attachments.get id = some row →
    RowSound retentionMs slack s.now s.items s.bucket s.issued s.urls id row
  passes : ∀ p ∈ s.passes, ∀ e ∈ p.pending, Condemned retentionMs slack s e.1 e.2
  emptied : ∀ p ∈ s.passes, p.deleted = true → ∀ e ∈ p.pending.head?, s.bucket.get e.2 = none
  collections : ∀ d c, s.collecting.get d = some c → CollectingSound s.items s.attachments d c

variable {uuids retentionMs slack} {s t : BlobPlane Uuid} {id id' : Uuid} {key : JsString}

theorem s3Key_inj {d a d' a' : JsString} (hd : SLASH ∉ d) (hd' : SLASH ∉ d') (h : s3Key d a = s3Key d' a') :
    d = d' ∧ a = a' := by
  have hsplit : ∀ {x y : JsString}, SLASH ∉ x → (s3Key x y).takeWhile (· ≠ SLASH) = x := by
    intro x y hx
    have hplain : ∀ c ∈ x, decide (c ≠ SLASH) = true := by
      intro c hc
      refine decide_eq_true ?_
      rintro rfl
      exact hx hc
    rw [s3Key, List.append_assoc, List.takeWhile_append_of_pos hplain]
    simp
  obtain rfl : d = d' := by rw [← hsplit (y := a) hd, h, hsplit hd']
  exact ⟨rfl, List.append_cancel_left h⟩

omit [DecidableEq Uuid] in
theorem text_inj {u u' : Uuid} (h : uuids.text u = uuids.text u') : u = u' := by
  have hparse := uuids.parse_text u
  rw [h, uuids.parse_text] at hparse
  exact (Option.some.inj hparse).symm

theorem CollectingSound.keep {items items' : OrderedMap Uuid Uuid}
    {attachments attachments' : Attachments Uuid} {d : Uuid}
    {c : Collecting Uuid} (h : CollectingSound items attachments d c)
    (hitems : ∀ item ∈ c.deleted, items.get item = some d → items'.get item = some d)
    (hrows : ∀ id ∈ c.detached, ∀ row, attachments.get id = some row → row.documentId = d →
      row.deletedAt = none →
      ∃ row', attachments'.get id = some row' ∧ row'.documentId = d ∧ row'.deletedAt = none)
    (hback : ∀ id row', attachments'.get id = some row' → ∀ item ∈ c.deleted, row'.itemId = some item →
      ∃ row, attachments.get id = some row ∧
      row.itemId = some item) : CollectingSound items' attachments' d c where
  detached id hid := by
    obtain ⟨row, hrow, hdoc, hdel⟩ := h.detached id hid
    exact hrows id hid row hrow hdoc hdel
  deleted item hitem := hitems item hitem (h.deleted item hitem)
  freed item hitem id row' hrow' hrefers := by
    obtain ⟨row, hrow, hitem'⟩ := hback id row' hrow' item hitem hrefers
    exact h.freed item hitem id row hrow hitem'

theorem CollectingSound.set {items : OrderedMap Uuid Uuid} {attachments : Attachments Uuid} {d : Uuid}
    {c : Collecting Uuid} {row row' : AttachmentRow Uuid} (h : CollectingSound items attachments d c)
    (hrow : attachments.get id = some row) (hdoc : row'.documentId = row.documentId)
    (hitem : row'.itemId = row.itemId) (hdel : row'.deletedAt = row.deletedAt) :
    CollectingSound items (attachments.set id row') d c := by
  refine h.keep (fun _ _ hget => hget) ?_ ?_
  · intro id' _ old hold hd hlive
    rw [OrderedMap.get_set]
    split
    · rename_i hsame
      rw [hsame, hrow] at hold
      obtain rfl := Option.some.inj hold
      exact ⟨row', rfl, hdoc.trans hd, hdel.trans hlive⟩
    · exact ⟨old, hold, hd, hlive⟩
  · intro id' new hnew item _ hrefers
    rw [OrderedMap.get_set] at hnew
    split at hnew
    · rename_i hsame
      obtain rfl := Option.some.inj hnew
      exact ⟨row, hsame ▸ hrow, hitem.symm.trans hrefers⟩
    · exact ⟨new, hnew, hrefers⟩

namespace Sound

theorem issued_inj (h : Sound uuids retentionMs slack s) (hslash : uuids.Slashless)
    (hid : s.issued.get id = some key) (hid' : s.issued.get id' = some key) : id = id' := by
  obtain ⟨row, dt, -, hdt, rfl⟩ := h.issuedRow id key hid
  obtain ⟨row', dt', -, hdt', he⟩ := h.issuedRow id' _ hid'
  exact text_inj (s3Key_inj (hslash _ _ hdt) (hslash _ _ hdt') he).2

theorem put_late (h : Sound uuids retentionMs slack s)
    (hretention : PUT_PRESIGN_TTL + 4 * slack ≤ retentionMs)
    (hcond : Condemned retentionMs slack s id key) {at_ clock : ℤ} (hurl : (key, at_) ∈ s.urls)
    (hclock : s.now ≤ clock + slack) : ¬ clock ≤ at_ + PUT_PRESIGN_TTL := by
  obtain ⟨row, t, hrow, hup, hdel, hold, hissued⟩ := hcond
  have hsigned := (h.rows id row hrow).expired hup t hdel key at_ hissued hurl
  intro hput
  linarith

end Sound

theorem sound_start (items : OrderedMap Uuid Uuid) (now : ℤ) :
    Sound uuids retentionMs slack (start items now) := by
  constructor <;> simp [start]

section Steps

variable (h : Sound uuids retentionMs slack s)
include h

theorem sound_tick (ms : ℕ) : Sound uuids retentionMs slack { s with now := s.now + ms } where
  issuedRow := h.issuedRow
  rowIssued := h.rowIssued
  sent := h.sent
  once := h.once
  signed u hu := by
    have := h.signed u hu
    dsimp only
    omega
  stored := h.stored
  finals := h.finals
  rows id row hrow :=
    { h.rows id row hrow with
      collected := by
        intro hup hnone
        obtain ⟨t, ht, hold, hgone⟩ := (h.rows id row hrow).collected hup hnone
        exact ⟨t, ht, by dsimp only; omega, hgone⟩
      vanished := by
        intro hup key hkey hnone
        obtain ⟨t, ht, hold⟩ := (h.rows id row hrow).vanished hup key hkey hnone
        exact ⟨t, ht, by dsimp only; omega⟩ }
  passes p hp e he := by
    obtain ⟨row, t, hrow, hup, hdel, hold, hissued⟩ := h.passes p hp e he
    exact ⟨row, t, hrow, hup, hdel, by dsimp only; omega, hissued⟩
  emptied := h.emptied
  collections := h.collections

theorem sound_insertItem {documentId : Uuid} (hfresh : s.items.has id = false) :
    Sound uuids retentionMs slack { s with items := s.items.set id documentId } := by
  have hkept : ∀ {item d}, s.items.get item = some d → (s.items.set id documentId).get item = some d := by
    intro item d hget
    have hne : item ≠ id := by
      rintro rfl
      rw [OrderedMap.has, hget] at hfresh
      cases hfresh
    rw [OrderedMap.get_set_of_ne _ _ hne, hget]
  exact { h with
    rows := fun id' row hrow =>
      { h.rows id' row hrow with
        attached := fun item hitem => hkept ((h.rows id' row hrow).attached item hitem) }
    collections := fun d c hc => (h.collections d c hc).keep (fun _ _ => hkept)
      (fun _ _ row hrow hdoc hdel => ⟨row, hrow, hdoc, hdel⟩) fun _ row hrow _ _ hrefers =>
      ⟨row, hrow, hrefers⟩ }

theorem sound_restart :
    Sound uuids retentionMs slack
      { s with signing := [], finalizing := [], passes := [], collecting := .empty } :=
  { h with
    sent := fun key hkey => h.sent key (List.mem_append_right _ hkey)
    once := (List.nodup_append.mp h.once).2.1
    finals := by simp
    passes := by simp
    emptied := by simp
    collections := fun d c hc => by cases hc }

theorem Sound.issued_fresh (hfresh : s.attachments.get id = none) : s.issued.get id = none := by
  rw [Option.eq_none_iff_forall_ne_some]
  intro key hkey
  obtain ⟨row, -, hrow, -⟩ := h.issuedRow id key hkey
  rw [hfresh] at hrow
  cases hrow

theorem Sound.key_fresh (hslash : uuids.Slashless) {documentId : JsString} {document : Uuid}
    (hdocument : uuids.parse documentId = some document) (hfresh : s.issued.get id = none) :
    s3Key documentId (uuids.text id) ∉ s.signing ++ s.urls.map Prod.fst := by
  intro hmem
  obtain ⟨id', hid'⟩ := h.sent _ hmem
  obtain ⟨row, dt, hrow, hdt, he⟩ := h.issuedRow id' _ hid'
  have hsame := text_inj (s3Key_inj (hslash _ _ hdocument) (hslash _ _ hdt) he).2
  rw [← hsame, hfresh] at hid'
  cases hid'

section

omit h

theorem issue_other {issued : OrderedMap Uuid JsString} {new : JsString} (hfresh : issued.get id = none)
    (hkey : issued.get id' = some key) : (issued.set id new).get id' = some key := by
  have hne : id' ≠ id := by
    rintro rfl
    rw [hfresh] at hkey
    cases hkey
  rw [OrderedMap.get_set_of_ne _ _ hne, hkey]

theorem RowSound.issue {now : ℤ} {items : OrderedMap Uuid Uuid} {bucket : OrderedMap JsString S3Object}
    {issued : OrderedMap Uuid JsString} {urls : List (JsString × ℤ)} {row : AttachmentRow Uuid}
    (hrow : RowSound retentionMs slack now items bucket issued urls id' row) (hne : id' ≠ id) :
    RowSound retentionMs slack now items bucket (issued.set id key) urls id' row := by
  have hget : (issued.set id key).get id' = issued.get id' := OrderedMap.get_set_of_ne _ _ hne
  constructor
  · rw [hget]
    exact hrow.keyed
  · rw [hget]
    exact hrow.uploaded
  · exact hrow.live
  · exact hrow.detached
  · exact hrow.attached
  · rw [hget]
    exact hrow.expired
  · rw [hget]
    exact hrow.collected
  · rw [hget]
    exact hrow.vanished

theorem pendingRow_sound {now : ℤ} {items : OrderedMap Uuid Uuid} {bucket : OrderedMap JsString S3Object}
    {issued : OrderedMap Uuid JsString} {urls : List (JsString × ℤ)} {document : Uuid}
    {item : Option Uuid} {mime : JsString} {size : ℤ} (hforeign : ∀ u ∈ item, items.get u = some document) :
    RowSound retentionMs slack now items bucket issued urls id
      (Attachments.pendingRow document item mime size) := by
  constructor <;> simp [Attachments.pendingRow]
  exact fun u hu => hforeign u hu

theorem createAttachment_eq {rows attachments : Attachments Uuid} {items : OrderedMap Uuid Uuid}
    {document : Uuid} {item : Option Uuid} {mime : JsString} {size : ℤ}
    (hcreate : rows.createAttachment items id document item mime size = some attachments) :
    rows.get id = none ∧ (∀ u ∈ item, items.get u = some document) ∧
      attachments = rows.set id (Attachments.pendingRow document item mime size) := by
  unfold Attachments.createAttachment at hcreate
  split at hcreate
  · rename_i hok
    obtain ⟨hfresh, hforeign⟩ := hok
    refine ⟨?_, hforeign, (Option.some.inj hcreate).symm⟩
    rwa [OrderedMap.has, Option.isSome_eq_false_iff, Option.isNone_iff_eq_none] at hfresh
  · cases hcreate

theorem CollectingSound.create {items : OrderedMap Uuid Uuid} {attachments : Attachments Uuid}
    {d document : Uuid} {c : Collecting Uuid} {item : Option Uuid} {mime : JsString} {size : ℤ}
    (hc : CollectingSound items attachments d c) (hfresh : attachments.get id = none)
    (hfree : ∀ u ∈ item, u ∉ c.deleted) :
    CollectingSound items (attachments.set id (Attachments.pendingRow document item mime size)) d c := by
  refine hc.keep (fun _ _ hget => hget) ?_ ?_
  · intro id' _ row hrow hdoc hdel
    have hne : id' ≠ id := by
      rintro rfl
      rw [hfresh] at hrow
      cases hrow
    exact ⟨row, by rw [OrderedMap.get_set_of_ne _ _ hne, hrow], hdoc, hdel⟩
  · intro id' row hrow u hu hrefers
    rw [OrderedMap.get_set] at hrow
    split at hrow
    · obtain rfl := Option.some.inj hrow
      exact absurd hu (hfree u hrefers)
    · exact ⟨row, hrow, hrefers⟩

end

theorem sound_createAttachment (hslash : uuids.Slashless) {documentId : JsString} {document : Uuid}
    {item : Option Uuid} {mime : JsString} {size : ℤ} {attachments : Attachments Uuid}
    (hdocument : uuids.parse documentId = some document) (hfree : ¬ ∃ u ∈ item, s.itemLocked u)
    (hcreate : s.attachments.createAttachment s.items id document item mime size = some attachments) :
    Sound uuids retentionMs slack { s with
      attachments, issued := s.issued.set id (s3Key documentId (uuids.text id)),
      signing := s.signing ++ [s3Key documentId (uuids.text id)] } := by
  obtain ⟨hfresh, hforeign, rfl⟩ := createAttachment_eq hcreate
  have hissued := h.issued_fresh hfresh
  have hne : ∀ {id' row}, s.attachments.get id' = some row → id' ≠ id := by
    rintro id' row hrow rfl
    rw [hfresh] at hrow
    cases hrow
  refine { h with
    issuedRow := ?_, rowIssued := ?_, sent := ?_, once := ?_, finals := ?_, rows := ?_, passes :=
      ?_, collections := ?_ }
  · intro id' key hkey
    dsimp only at hkey ⊢
    rw [OrderedMap.get_set] at hkey
    split at hkey
    · rename_i he
      subst he
      obtain rfl := Option.some.inj hkey
      exact ⟨_, documentId, OrderedMap.get_set_self _ _ _, hdocument, rfl⟩
    · obtain ⟨row, dt, hrow, hdt, he⟩ := h.issuedRow id' key hkey
      exact ⟨row, dt, by rw [OrderedMap.get_set_of_ne _ _ (hne hrow), hrow], hdt, he⟩
  · intro id' row hrow
    dsimp only at hrow ⊢
    rw [OrderedMap.get_set] at hrow ⊢
    split at hrow
    · rename_i he
      exact ⟨_, if_pos he⟩
    · rename_i he
      rw [if_neg he]
      exact h.rowIssued id' row hrow
  · intro key hkey
    simp only [List.mem_append, List.mem_singleton] at hkey
    obtain (hkey | rfl) | hkey := hkey
    · obtain ⟨id', hid'⟩ := h.sent key (List.mem_append_left _ hkey)
      exact ⟨id', issue_other hissued hid'⟩
    · exact ⟨id, OrderedMap.get_set_self _ _ _⟩
    · obtain ⟨id', hid'⟩ := h.sent key (List.mem_append_right _ hkey)
      exact ⟨id', issue_other hissued hid'⟩
  · rw [List.append_assoc, List.singleton_append]
    exact List.nodup_middle.mpr (List.nodup_cons.mpr ⟨h.key_fresh hslash hdocument hissued, h.once⟩)
  · intro f hf
    obtain ⟨id', hid', hurl, hstill⟩ := h.finals f hf
    refine ⟨id', issue_other hissued hid', hurl, ?_⟩
    obtain ⟨row', -, hrow', -⟩ := h.issuedRow id' _ hid'
    intro row hrow
    dsimp only at hrow
    rw [OrderedMap.get_set_of_ne _ _ (hne hrow')] at hrow
    exact hstill row hrow
  · intro id' row hrow
    dsimp only at hrow ⊢
    rw [OrderedMap.get_set] at hrow
    split at hrow
    · obtain rfl := Option.some.inj hrow
      exact pendingRow_sound hforeign
    · rename_i he
      exact (h.rows id' row hrow).issue he
  · intro p hp e he
    obtain ⟨row, t, hrow, hup, hdel, hold, hkey⟩ := h.passes p hp e he
    exact ⟨row, t, by dsimp only; rw [OrderedMap.get_set_of_ne _ _ (hne hrow), hrow], hup, hdel, hold,
      issue_other hissued hkey⟩
  · intro d c hc
    refine (h.collections d c hc).create hfresh ?_
    intro u hu hdeleted
    exact hfree ⟨u, hu, c, (OrderedMap.mem_values_iff _ _).mpr ⟨d, hc⟩, hdeleted⟩

theorem sound_presignPut {i : ℕ} {clock : ℤ} (hkey : s.signing[i]? = some key)
    (hclock : clock ≤ s.now + slack) :
    Sound uuids retentionMs slack
      { s with signing := s.signing.eraseIdx i, urls := s.urls ++ [(key, clock)] } := by
  obtain ⟨hi, hget⟩ := List.getElem?_eq_some_iff.mp hkey
  have hperm : (s.signing.eraseIdx i ++ (s.urls ++ [(key, clock)]).map Prod.fst).Perm
      (s.signing ++ s.urls.map Prod.fst) := by
    have herase : (key :: s.signing.eraseIdx i).Perm s.signing := by
      rw [← hget]
      exact List.getElem_cons_eraseIdx_perm hi
    rw [List.map_append, ← List.append_assoc, List.map_singleton]
    exact (List.perm_append_singleton _ _).trans (herase.append_right _)
  have hunsigned : key ∉ s.urls.map Prod.fst := fun hmem =>
    (List.nodup_append.mp h.once).2.2 key (hget ▸ List.getElem_mem hi) key hmem rfl
  have hsub : ∀ {k}, k ∈ s.urls.map Prod.fst → k ∈ (s.urls ++ [(key, clock)]).map Prod.fst := by
    intro k hk
    rw [List.map_append]
    exact List.mem_append_left _ hk
  exact { h with
    sent := fun k hk => h.sent k (hperm.mem_iff.mp hk)
    once := hperm.nodup_iff.mpr h.once
    signed := by
      intro u hu
      cases List.mem_append.mp hu with
      | inl hu => exact h.signed u hu
      | inr hu =>
        obtain rfl := List.mem_singleton.mp hu
        exact hclock
    stored := fun k o hk => hsub (h.stored k o hk)
    finals := by
      intro f hf
      obtain ⟨id, hid, hurl, hstill⟩ := h.finals f hf
      exact ⟨id, hid, hsub hurl, hstill⟩
    rows := fun id row hrow =>
      { h.rows id row hrow with
        uploaded := fun hup k hk => hsub ((h.rows id row hrow).uploaded hup k hk)
        expired := by
          intro hup t ht k at_ hk hmem
          cases List.mem_append.mp hmem with
          | inl hmem => exact (h.rows id row hrow).expired hup t ht k at_ hk hmem
          | inr hmem =>
            -- the key of a finalized attachment has been signed before
            obtain ⟨rfl, -⟩ := Prod.mk.inj (List.mem_singleton.mp hmem)
            exact absurd ((h.rows id row hrow).uploaded hup k hk) hunsigned } }

theorem sound_put (hretention : PUT_PRESIGN_TTL + 4 * slack ≤ retentionMs) {url : JsString × ℤ}
    {object : S3Object} {clock : ℤ} (hurl : url ∈ s.urls) (hin : clock ≤ url.2 + PUT_PRESIGN_TTL)
    (hclock : s.now ≤ clock + slack) :
    Sound uuids retentionMs slack { s with bucket := s.bucket.set url.1 object } := by
  have hkept : ∀ {k}, (∃ o, s.bucket.get k = some o) → ∃ o, (s.bucket.set url.1 object).get k = some o := by
    rintro k ⟨o, ho⟩
    rw [OrderedMap.get_set]
    split
    · exact ⟨object, rfl⟩
    · exact ⟨o, ho⟩
  have hspared : ∀ {id k}, Condemned retentionMs slack s id k → k ≠ url.1 := by
    rintro id k hcond rfl
    exact h.put_late hretention hcond hurl hclock hin
  exact { h with
    stored := by
      intro k o hk
      dsimp only at hk
      rw [OrderedMap.get_set] at hk
      split at hk
      · rename_i he
        rw [he]
        exact List.mem_map_of_mem hurl
      · exact h.stored k o hk
    finals := by
      intro f hf
      obtain ⟨id, hid, hsent, hstill⟩ := h.finals f hf
      exact ⟨id, hid, hsent, fun row hrow hup hdel => hkept (hstill row hrow hup hdel)⟩
    rows := fun id row hrow =>
      { h.rows id row hrow with
        live := by
          intro hup hdel
          obtain ⟨k, o, hk, ho⟩ := (h.rows id row hrow).live hup hdel
          obtain ⟨o', ho'⟩ := hkept ⟨o, ho⟩
          exact ⟨k, o', hk, ho'⟩
        collected := by
          intro hup hnone
          obtain ⟨t, ht, hold, hgone⟩ := (h.rows id row hrow).collected hup hnone
          refine ⟨t, ht, hold, ?_⟩
          intro k hk
          rw [OrderedMap.get_set_of_ne _ _ (hspared ⟨row, t, hrow, hup, ht, hold, hk⟩)]
          exact hgone k hk
        vanished := by
          intro hup k hk hnone
          refine (h.rows id row hrow).vanished hup k hk ?_
          rw [Option.eq_none_iff_forall_ne_some]
          intro o ho
          obtain ⟨o', ho'⟩ := hkept ⟨o, ho⟩
          dsimp only at hnone
          rw [hnone] at ho'
          cases ho' }
    emptied := by
      intro p hp hdeleted e he
      have hcond := h.passes p hp e (List.mem_of_mem_head? he)
      dsimp only
      rw [OrderedMap.get_set_of_ne _ _ (hspared hcond)]
      exact h.emptied p hp hdeleted e he }

theorem sound_headObject {documentId attachmentId : JsString} {head : S3Object}
    (hhead : s.bucket.get (s3Key documentId attachmentId) = some head) :
    Sound uuids retentionMs slack
      { s with finalizing := s.finalizing ++ [⟨documentId, attachmentId, head⟩] } :=
  { h with
    finals := by
      intro f hf
      cases List.mem_append.mp hf with
      | inl hf => exact h.finals f hf
      | inr hf =>
        obtain rfl := List.mem_singleton.mp hf
        have hurl := h.stored _ _ hhead
        obtain ⟨id, hid⟩ := h.sent _ (List.mem_append_right _ hurl)
        exact ⟨id, hid, hurl, fun _ _ _ _ => ⟨head, hhead⟩⟩ }

/-- One row gets other columns, and stays in its document, with its item and its deletion. -/
theorem Sound.setRow {row row' : AttachmentRow Uuid} (hrow : s.attachments.get id = some row)
    (hsound : RowSound retentionMs slack s.now s.items s.bucket s.issued s.urls id row')
    (hdoc : row'.documentId = row.documentId) (hitem : row'.itemId = row.itemId)
    (hdel : row'.deletedAt = row.deletedAt) (hup : row'.uploadedAt ≠ none) :
    Sound uuids retentionMs slack { s with attachments := s.attachments.set id row' } := by
  refine { h with
    issuedRow := ?_, rowIssued := ?_, finals := ?_, rows := ?_, passes := ?_
    collections := fun d c hc => (h.collections d c hc).set hrow hdoc hitem hdel }
  · intro id' k hk
    obtain ⟨old, dt, hold, hdt, he⟩ := h.issuedRow id' k hk
    dsimp only
    rw [OrderedMap.get_set]
    split
    · rename_i hsame
      rw [hsame, hrow] at hold
      obtain rfl := Option.some.inj hold
      exact ⟨row', dt, rfl, hdoc ▸ hdt, hsame ▸ he⟩
    · exact ⟨old, dt, hold, hdt, he⟩
  · intro id' new hnew
    dsimp only at hnew
    rw [OrderedMap.get_set] at hnew
    split at hnew
    · rename_i hsame
      exact h.rowIssued id' row (hsame ▸ hrow)
    · exact h.rowIssued id' new hnew
  · intro f hf
    obtain ⟨id', hid', hsent, hstill⟩ := h.finals f hf
    refine ⟨id', hid', hsent, ?_⟩
    intro new hnew hnone
    dsimp only at hnew
    rw [OrderedMap.get_set] at hnew
    split at hnew
    · obtain rfl := Option.some.inj hnew
      exact absurd hnone hup
    · exact hstill new hnew hnone
  · intro id' new hnew
    dsimp only at hnew
    rw [OrderedMap.get_set] at hnew
    split at hnew
    · rename_i hsame
      obtain rfl := Option.some.inj hnew
      exact hsame ▸ hsound
    · exact h.rows id' new hnew
  · intro p hp e he
    obtain ⟨old, t, hold, hup', hdel', hlate, hissued⟩ := h.passes p hp e he
    unfold Condemned
    dsimp only
    rw [OrderedMap.get_set]
    split
    · rename_i hsame
      rw [hsame, hrow] at hold
      obtain rfl := Option.some.inj hold
      exact ⟨row', t, rfl, hup, hdel.trans hdel', hlate, hissued⟩
    · exact ⟨old, t, hold, hup', hdel', hlate, hissued⟩

/-- The row after its upload was found under the key that was issued for it. -/
theorem finalizedRow_sound {row : AttachmentRow Uuid} {o : S3Object}
    (hrow : s.attachments.get id = some row) (hdel : row.deletedAt = none)
    (hissued : s.issued.get id = some key) (hurl : key ∈ s.urls.map Prod.fst)
    (ho : s.bucket.get key = some o) (size : ℤ) (checksum : JsString) (uploadedAt : ℤ) :
    RowSound retentionMs slack s.now s.items s.bucket s.issued s.urls id
      { row with s3Key := some key, size, checksum, uploadedAt := some uploadedAt } := by
  have hwas := h.rows id row hrow
  constructor
  · intro key' hkey
    obtain rfl := Option.some.inj hkey
    exact ⟨hissued, by simp⟩
  · intro _ key' hkey
    rw [hissued] at hkey
    obtain rfl := Option.some.inj hkey
    exact hurl
  · exact fun _ _ => ⟨key, o, rfl, ho⟩
  · exact hwas.detached
  · exact hwas.attached
  · intro _ t ht
    rw [hdel] at ht
    cases ht
  · intro _ hnone
    cases hnone
  · intro _ key' hkey hnone
    rw [hissued] at hkey
    obtain rfl := Option.some.inj hkey
    rw [ho] at hnone
    cases hnone

theorem sound_finalizeAttachment (hslash : uuids.Slashless) {i : ℕ} {clock : ℤ} {f : Finalizing}
    {document : Uuid} {row : AttachmentRow Uuid} {attachments : Attachments Uuid}
    (hf : s.finalizing[i]? = some f)
    (hdocument : uuids.parse f.documentId = some document) (hid : uuids.parse f.attachmentId = some id)
    (hfinal : s.attachments.finalizeAttachment id document
      (s3Key f.documentId f.attachmentId) f.head.size f.head.etag clock =
      some (row, attachments)) :
    Sound uuids retentionMs slack { s with attachments, finalizing := s.finalizing.eraseIdx i } := by
  obtain ⟨id', hissued, hurl, hstill⟩ := h.finals f (List.mem_of_getElem? hf)
  obtain ⟨row', dt, -, hdt, he⟩ := h.issuedRow id' _ hissued
  -- the key that the bucket was asked for is the attachment's own
  obtain ⟨-, htext⟩ := s3Key_inj (hslash _ _ hdocument) (hslash _ _ hdt) he
  obtain rfl : id = id' := by
    rw [htext, uuids.parse_text] at hid
    exact (Option.some.inj hid).symm
  obtain ⟨old, hold, hset⟩ := Option.bind_eq_some_iff.mp hfinal
  split at hset
  · rename_i hpending
    obtain ⟨hdoc, hup, hdel⟩ := hpending
    obtain ⟨rfl, rfl⟩ := Prod.mk.inj (Option.some.inj hset)
    obtain ⟨o, ho⟩ := hstill old hold hup hdel
    have hrow := finalizedRow_sound h hold hdel hissued hurl ho f.head.size f.head.etag clock
    have hset := h.setRow hold hrow rfl rfl rfl (Option.some_ne_none clock)
    exact { hset with finals := fun g hg => hset.finals g (List.mem_of_mem_eraseIdx hg) }
  · cases hset

omit h in
theorem mem_softDelete {rows : Attachments Uuid} {documentId item : Uuid} :
    id ∈ rows.softDeleteAttachmentsForItem documentId item ↔
      ∃ row, rows.get id = some row ∧ row.documentId = documentId ∧ row.itemId = some item ∧
      row.deletedAt = none := by
  rw [Attachments.softDeleteAttachmentsForItem, OrderedMap.mem_keys_iff]
  simp only [OrderedMap.get_filterMapEntries, Option.bind_eq_some_iff]
  constructor
  · rintro ⟨_, row, hrow, hcond⟩
    split at hcond
    · rename_i hok
      exact ⟨row, hrow, hok⟩
    · cases hcond
  · rintro ⟨row, hrow, hok⟩
    exact ⟨(), row, hrow, if_pos hok⟩

theorem sound_dropCollecting (documentId : Uuid) :
    Sound uuids retentionMs slack (s.dropCollecting documentId) :=
  { h with
    collections := by
      intro d c hc
      unfold dropCollecting at hc
      rw [OrderedMap.get_delete] at hc
      split at hc
      · cases hc
      · exact h.collections d c hc }

theorem sound_setCollecting {documentId : Uuid} {c : Collecting Uuid}
    (hc : CollectingSound s.items s.attachments documentId c) :
    Sound uuids retentionMs slack (s.setCollecting documentId c) :=
  { h with
    collections := by
      intro d c' hc'
      unfold setCollecting at hc'
      rw [OrderedMap.get_set] at hc'
      split at hc'
      · rename_i hsame
        obtain rfl := Option.some.inj hc'
        exact hsame ▸ hc
      · exact h.collections d c' hc' }

theorem sound_gcDocument {documentId : Uuid} {itemIds : List Uuid} {clock : ℤ}
    (hstep : step uuids retentionMs s (.gcDocument documentId itemIds clock) = some t) :
    Sound uuids retentionMs slack t := by
  rw [step] at hstep
  split at hstep
  · cases hstep
  · obtain rfl := Option.some.inj hstep
    exact sound_setCollecting h ⟨by simp, by simp, by simp⟩

theorem sound_softDelete {documentId : Uuid}
    (hstep : step uuids retentionMs s (.softDeleteAttachmentsForItem documentId) = some t) :
    Sound uuids retentionMs slack t := by
  obtain ⟨c, hc, hstep⟩ := Option.bind_eq_some_iff.mp hstep
  obtain ⟨item, -, hstep⟩ := Option.bind_eq_some_iff.mp hstep
  split at hstep
  · cases hstep
  · obtain rfl := Option.some.inj hstep
    have hold := h.collections documentId c hc
    refine sound_setCollecting h ⟨?_, hold.deleted, ?_⟩
    · intro id hid
      obtain hid | hid := List.mem_append.mp hid
      · exact hold.detached id hid
      · obtain ⟨row, hrow, hdoc, -, hdel⟩ := mem_softDelete.mp hid
        exact ⟨row, hrow, hdoc, hdel⟩
    · exact fun item' hitem' id row hrow hrefers => List.mem_append_left _
        (hold.freed item' hitem' id row hrow hrefers)

theorem sound_deleteItem {documentId : Uuid}
    (hstep : step uuids retentionMs s (.deleteItem documentId) = some t) :
    Sound uuids retentionMs slack t := by
  obtain ⟨c, hc, hstep⟩ := Option.bind_eq_some_iff.mp hstep
  obtain ⟨item, -, hstep⟩ := Option.bind_eq_some_iff.mp hstep
  have hold := h.collections documentId c hc
  split at hstep
  · cases hstep
  · split at hstep
    · obtain rfl := Option.some.inj hstep
      exact sound_setCollecting h ⟨hold.detached, hold.deleted, hold.freed⟩
    · rename_i hthere
      simp only [not_or, not_not] at hthere
      split at hstep
      · obtain rfl := Option.some.inj hstep
        exact sound_dropCollecting h documentId
      · rename_i hfree
        obtain rfl := Option.some.inj hstep
        refine sound_setCollecting h ⟨hold.detached, ?_, ?_⟩
        · exact List.forall_mem_cons.mpr ⟨hthere.2, hold.deleted⟩
        · refine List.forall_mem_cons.mpr ⟨?_, hold.freed⟩
          intro id row hrow hrefers
          by_contra hnot
          have hdoc : row.documentId = documentId :=
            Option.some.inj (((h.rows id row hrow).attached item hrefers).symm.trans hthere.2)
          exact hfree ⟨(id, row), (OrderedMap.mem_entries_iff _ _ _).mpr hrow, hrefers, hdoc, hnot⟩

omit h in
theorem get_detach {rows : Attachments Uuid} {ids : List Uuid} {now : ℤ} : (rows.detach ids now).get id =
    (rows.get id).map fun row => if id ∈ ids then
    { row with deletedAt := some now, itemId := none } else row :=
  rows.get_mapEntries _ _

theorem sound_detachRow {row : AttachmentRow Uuid} {clock : ℤ} {items : OrderedMap Uuid Uuid}
    (hrow : s.attachments.get id = some row) (hdel : row.deletedAt = none) (hclock : s.now ≤ clock + slack) :
    RowSound retentionMs slack s.now items s.bucket s.issued s.urls id
      { row with deletedAt := some clock, itemId := none } := by
  have hwas := h.rows id row hrow
  constructor
  · exact hwas.keyed
  · exact hwas.uploaded
  · intro _ hnone
    cases hnone
  · exact fun _ => rfl
  · intro item hitem
    cases hitem
  · intro _ t ht key at_ _ hurl
    obtain rfl := Option.some.inj ht
    have hsigned : at_ ≤ s.now + slack := h.signed _ hurl
    linarith
  · intro hup hnone
    obtain ⟨key, o, hkey, -⟩ := hwas.live hup hdel
    rw [hnone] at hkey
    cases hkey
  · intro hup key hkey hnone
    obtain ⟨key', o, hkey', ho⟩ := hwas.live hup hdel
    rw [(hwas.keyed key' hkey').1] at hkey
    obtain rfl := Option.some.inj hkey
    rw [ho] at hnone
    cases hnone

omit h in
theorem CollectingSound.commit {d documentId : Uuid} {c c' : Collecting Uuid} {clock : ℤ}
    (hc : CollectingSound s.items s.attachments documentId c)
    (hc' : CollectingSound s.items s.attachments d c') (hne : d ≠ documentId) :
    CollectingSound (c.deleted.foldl OrderedMap.delete s.items)
      (s.attachments.detach c.detached clock) d c' := by
  refine hc'.keep ?_ ?_ ?_
  · intro item _ hget
    rw [OrderedMap.get_foldl_delete, if_neg, hget]
    intro hmem
    rw [hc.deleted item hmem] at hget
    exact hne (Option.some.inj hget).symm
  · intro id _ row hrow hdoc hdel
    have hout : id ∉ c.detached := by
      intro hmem
      obtain ⟨row', hrow', hdoc', -⟩ := hc.detached id hmem
      rw [hrow] at hrow'
      obtain rfl := Option.some.inj hrow'
      exact hne (hdoc.symm.trans hdoc')
    exact ⟨row, by rw [get_detach, hrow, Option.map_some, if_neg hout], hdoc, hdel⟩
  · intro id row' hrow' item _ hrefers
    rw [get_detach] at hrow'
    obtain ⟨row, hrow, rfl⟩ := Option.map_eq_some_iff.mp hrow'
    split at hrefers
    · cases hrefers
    · exact ⟨row, hrow, hrefers⟩

theorem sound_commit {documentId : Uuid} {c : Collecting Uuid} (hget : s.collecting.get documentId = some c)
    (hclock : s.now ≤ c.clock + slack) :
    Sound uuids retentionMs slack { s.dropCollecting documentId with
      items := c.deleted.foldl OrderedMap.delete s.items, attachments :=
  s.attachments.detach c.detached c.clock } := by
  have hc := h.collections documentId c hget
  have hrows : ∀ {id row'}, (s.attachments.detach c.detached c.clock).get id = some row' → ∃ row,
      s.attachments.get id = some row ∧ row.deletedAt = none ∧
      row' = { row with deletedAt := some c.clock, itemId := none } ∨
        s.attachments.get id = some row' ∧ id ∉ c.detached := by
    intro id row' hrow'
    rw [get_detach] at hrow'
    obtain ⟨row, hrow, rfl⟩ := Option.map_eq_some_iff.mp hrow'
    by_cases hid : id ∈ c.detached
    · rw [if_pos hid]
      obtain ⟨live, hlive, -, hdel⟩ := hc.detached id hid
      rw [hrow] at hlive
      obtain rfl := Option.some.inj hlive
      exact ⟨row, Or.inl ⟨hrow, hdel, rfl⟩⟩
    · rw [if_neg hid]
      exact ⟨row, Or.inr ⟨hrow, hid⟩⟩
  have hkept : ∀ {id row}, s.attachments.get id = some row →
      ∃ row', (s.attachments.detach c.detached c.clock).get id = some row' ∧
      row'.documentId = row.documentId ∧ (row.deletedAt ≠ none → row' = row) := by
    intro id row hrow
    rw [get_detach, hrow, Option.map_some]
    refine ⟨_, rfl, ?_⟩
    split
    · rename_i hid
      obtain ⟨live, hlive, -, hdel⟩ := hc.detached id hid
      rw [hrow] at hlive
      obtain rfl := Option.some.inj hlive
      exact ⟨rfl, fun hne => absurd hdel hne⟩
    · exact ⟨rfl, fun _ => rfl⟩
  refine { sound_dropCollecting h documentId with
    issuedRow := ?_, rowIssued := ?_, finals := ?_, rows := ?_, passes := ?_, collections := ?_ }
  · intro id key hkey
    obtain ⟨row, dt, hrow, hdt, he⟩ := h.issuedRow id key hkey
    obtain ⟨row', hrow', hdoc, -⟩ := hkept hrow
    exact ⟨row', dt, hrow', by rw [hdoc, hdt], he⟩
  · intro id row' hrow'
    obtain ⟨row, ⟨hrow, -⟩ | ⟨hrow, -⟩⟩ := hrows hrow'
    · exact h.rowIssued id row hrow
    · exact h.rowIssued id row' hrow
  · intro f hf
    obtain ⟨id, hid, hurl, hstill⟩ := h.finals f hf
    refine ⟨id, hid, hurl, ?_⟩
    intro row' hrow' hup hdel
    obtain ⟨row, ⟨-, -, rfl⟩ | ⟨hrow, -⟩⟩ := hrows hrow'
    · cases hdel
    · exact hstill row' hrow hup hdel
  · intro id row' hrow'
    obtain ⟨row, ⟨hrow, hdel, rfl⟩ | ⟨hrow, hout⟩⟩ := hrows hrow'
    · exact sound_detachRow h hrow hdel hclock
    · refine { h.rows id row' hrow with attached := ?_ }
      intro item hitem
      dsimp only
      rw [OrderedMap.get_foldl_delete, if_neg, (h.rows id row' hrow).attached item hitem]
      exact fun hmem => hout (hc.freed item hmem id row' hrow hitem)
  · intro p hp e he
    obtain ⟨row, t, hrow, hup, hdel, hrest⟩ := h.passes p hp e he
    obtain ⟨row', hrow', -, hsame⟩ := hkept hrow
    obtain rfl := hsame (by rw [hdel]; exact Option.some_ne_none t)
    exact ⟨row', t, hrow', hup, hdel, hrest⟩
  · intro d c' hc'
    unfold dropCollecting at hc'
    rw [OrderedMap.get_delete] at hc'
    split at hc'
    · cases hc'
    · rename_i hne
      exact .commit hc (h.collections d c' hc') hne

theorem sound_gcCommit {documentId : Uuid} (htimely : Timely slack s (.gcCommit documentId))
    (hstep : step uuids retentionMs s (.gcCommit documentId) = some t) : Sound uuids retentionMs slack t := by
  obtain ⟨c, hc, hstep⟩ := Option.bind_eq_some_iff.mp hstep
  split at hstep
  · cases hstep
  · obtain rfl := Option.some.inj hstep
    exact sound_commit h hc (htimely c hc).2

theorem sound_getPendingS3Deletions {clock : ℤ} {limit : ℕ} (hclock : clock ≤ s.now + slack) :
    Sound uuids retentionMs slack { s with
      passes := s.passes ++ [⟨s.attachments.getPendingS3Deletions (clock - retentionMs) limit, false⟩] } :=
  { h with
    passes := by
      intro p hp e he
      cases List.mem_append.mp hp with
      | inl hp => exact h.passes p hp e he
      | inr hp =>
        obtain rfl := List.mem_singleton.mp hp
        obtain ⟨⟨id, key, t⟩, hmem, rfl⟩ := List.mem_map.mp he
        have hentry := (List.mem_insertionSort _).mp (List.mem_of_mem_take hmem)
        have hget := (OrderedMap.mem_entries_iff _ _ _).mp hentry
        rw [OrderedMap.get_filterMapEntries] at hget
        obtain ⟨row, hrow, hpending⟩ := Option.bind_eq_some_iff.mp hget
        obtain ⟨t', hdel, hpending⟩ := Option.bind_eq_some_iff.mp hpending
        obtain ⟨key', hkey, hpending⟩ := Option.bind_eq_some_iff.mp hpending
        split at hpending
        · rename_i hold
          obtain ⟨rfl, rfl⟩ := Prod.mk.inj (Option.some.inj hpending)
          obtain ⟨hissued, hup⟩ := (h.rows id row hrow).keyed _ hkey
          exact ⟨row, _, hrow, hup, hdel, by dsimp only; linarith, hissued⟩
        · cases hpending
    emptied := by
      intro p hp hdeleted
      cases List.mem_append.mp hp with
      | inl hp => exact h.emptied p hp hdeleted
      | inr hp =>
        obtain rfl := List.mem_singleton.mp hp
        cases hdeleted }

theorem sound_deleteKey (hslash : uuids.Slashless) (hcond : Condemned retentionMs slack s id key) :
    Sound uuids retentionMs slack { s with bucket := s.bucket.delete key } := by
  obtain ⟨row, t, hrow, hup, hdel, hold, hissued⟩ := hcond
  have hgone : ∀ {k}, s.bucket.get k = none → (s.bucket.delete key).get k = none := by
    intro k hk
    rw [OrderedMap.get_delete]
    split
    · rfl
    · exact hk
  have hkept : ∀ {k o}, k ≠ key → s.bucket.get k = some o → (s.bucket.delete key).get k = some o := by
    intro k o hne hk
    rw [OrderedMap.get_delete, if_neg hne, hk]
  exact { h with
    stored := by
      intro k o hk
      dsimp only at hk
      rw [OrderedMap.get_delete] at hk
      split at hk
      · cases hk
      · exact h.stored k o hk
    finals := by
      intro f hf
      obtain ⟨id', hid', hsent, hstill⟩ := h.finals f hf
      refine ⟨id', hid', hsent, ?_⟩
      intro row' hrow' hup' hdel'
      obtain ⟨o, ho⟩ := hstill row' hrow' hup' hdel'
      refine ⟨o, hkept ?_ ho⟩
      intro he
      rw [he] at hid'
      obtain rfl := h.issued_inj hslash hid' hissued
      rw [hrow] at hrow'
      obtain rfl := Option.some.inj hrow'
      exact hup hup'
    rows := fun id' row' hrow' =>
      { h.rows id' row' hrow' with
        live := by
          intro hup' hdel'
          obtain ⟨k, o, hk, ho⟩ := (h.rows id' row' hrow').live hup' hdel'
          refine ⟨k, o, hk, hkept ?_ ho⟩
          rintro rfl
          obtain rfl := h.issued_inj hslash ((h.rows id' row' hrow').keyed _ hk).1 hissued
          rw [hrow] at hrow'
          obtain rfl := Option.some.inj hrow'
          rw [hdel] at hdel'
          cases hdel'
        collected := by
          intro hup' hnone
          obtain ⟨t', ht', hold', hnot⟩ := (h.rows id' row' hrow').collected hup' hnone
          exact ⟨t', ht', hold', fun k hk => hgone (hnot k hk)⟩
        vanished := by
          intro hup' k hk hnone
          by_cases hsame : k = key
          · rw [hsame] at hk
            obtain rfl := h.issued_inj hslash hk hissued
            rw [hrow] at hrow'
            obtain rfl := Option.some.inj hrow'
            exact ⟨t, hdel, hold⟩
          · refine (h.rows id' row' hrow').vanished hup' k hk ?_
            dsimp only at hnone
            rwa [OrderedMap.get_delete, if_neg hsame] at hnone }
    emptied := fun p hp hdeleted e he => hgone (h.emptied p hp hdeleted e he) }

theorem sound_modifyPass {i : ℕ} {f : S3Pass Uuid → S3Pass Uuid}
    (hpending : ∀ p, ∀ e ∈ (f p).pending, e ∈ p.pending)
    (hdeleted : ∀ p, s.passes[i]? = some p → (f p).deleted = true →
      ∀ e ∈ (f p).pending.head?, s.bucket.get e.2 = none) :
    Sound uuids retentionMs slack (s.modifyPass i f) := by
  have hmem : ∀ p ∈ s.passes.modify i f, p ∈ s.passes ∨ ∃ q, s.passes[i]? = some q ∧ p = f q := by
    intro p hp
    obtain ⟨j, hj⟩ := List.mem_iff_getElem?.mp hp
    rw [List.getElem?_modify] at hj
    obtain ⟨q, hq, he⟩ := Option.map_eq_some_iff.mp hj
    split at he
    · rename_i hij
      subst hij
      exact Or.inr ⟨q, hq, he.symm⟩
    · exact Or.inl (he ▸ List.mem_of_getElem? hq)
  exact { h with
    passes := by
      intro p hp e he
      obtain hp | ⟨q, hq, rfl⟩ := hmem p hp
      · exact h.passes p hp e he
      · exact h.passes q (List.mem_of_getElem? hq) e (hpending q e he)
    emptied := by
      intro p hp hdel e he
      obtain hp | ⟨q, hq, rfl⟩ := hmem p hp
      · exact h.emptied p hp hdel e he
      · exact hdeleted q hq hdel e he }

theorem sound_clearS3Key (hcond : Condemned retentionMs slack s id key) (hgone : s.bucket.get key = none) :
    Sound uuids retentionMs slack { s with attachments := s.attachments.clearS3Key id } := by
  obtain ⟨row, t, hrow, hup, hdel, hold, hissued⟩ := hcond
  have hsound : RowSound retentionMs slack s.now s.items s.bucket s.issued s.urls id
      { row with s3Key := none } :=
    { h.rows id row hrow with
      keyed := by
        intro k hk
        cases hk
      live := by
        intro _ hnone
        dsimp only at hnone
        rw [hdel] at hnone
        cases hnone
      collected := by
        intro _ _
        refine ⟨t, hdel, hold, ?_⟩
        intro k hk
        rw [hissued] at hk
        obtain rfl := Option.some.inj hk
        exact hgone }
  rw [Attachments.clearS3Key, hrow]
  exact h.setRow hrow hsound rfl rfl rfl hup

theorem condemned_head {i : ℕ} {pass : S3Pass Uuid} (hpass : s.passes[i]? = some pass)
    (hhead : pass.pending.head? = some (id, key)) : Condemned retentionMs slack s id key :=
  h.passes pass (List.mem_of_getElem? hpass) (id, key) (List.mem_of_mem_head? hhead)

theorem sound_deleteObject (hslash : uuids.Slashless) {i : ℕ} {deleted returned : Bool}
    (hstep : step uuids retentionMs s (.deleteObject i deleted returned) = some t) :
    Sound uuids retentionMs slack t := by
  obtain ⟨pass, hpass, hstep⟩ := Option.bind_eq_some_iff.mp hstep
  obtain ⟨⟨id, key⟩, hhead, hstep⟩ := Option.bind_eq_some_iff.mp hstep
  have hcond := condemned_head h hpass hhead
  dsimp only at hstep
  split at hstep
  · cases hstep
  · rename_i hok
    simp only [not_or, not_and, not_not] at hok
    obtain rfl := Option.some.inj hstep
    cases deleted with
    | true =>
      rw [if_pos rfl]
      refine sound_modifyPass (sound_deleteKey h hslash hcond) ?_ ?_
      · intro p e he
        split at he
        · exact he
        · exact List.mem_of_mem_tail he
      · intro p hp hdeleted e he
        dsimp only at hp ⊢
        rw [hpass] at hp
        obtain rfl := Option.some.inj hp
        split at hdeleted
        · rename_i hreturned
          rw [if_pos hreturned] at he
          rw [hhead] at he
          obtain rfl := Option.some.inj he
          rw [OrderedMap.get_delete, if_pos rfl]
        · exact absurd hdeleted hok.1
    | false =>
      have hreturned : returned = false := Bool.eq_false_iff.mpr fun hr => absurd (hok.2 hr) (by decide)
      subst hreturned
      refine sound_modifyPass h (fun p e he => List.mem_of_mem_tail he) ?_
      intro p hp hdeleted
      rw [hpass] at hp
      obtain rfl := Option.some.inj hp
      exact absurd hdeleted hok.1

theorem sound_clearStep {i : ℕ} {written : Bool}
    (hstep : step uuids retentionMs s (.clearS3Key i written) = some t) :
    Sound uuids retentionMs slack t := by
  obtain ⟨pass, hpass, hstep⟩ := Option.bind_eq_some_iff.mp hstep
  obtain ⟨⟨id, key⟩, hhead, hstep⟩ := Option.bind_eq_some_iff.mp hstep
  dsimp only at hstep
  split at hstep
  · cases hstep
  · rename_i hok
    have hdeleted : pass.deleted = true := not_not.mp fun hnot => hok (Or.inl hnot)
    obtain rfl := Option.some.inj hstep
    have hgone := h.emptied pass (List.mem_of_getElem? hpass) hdeleted (id, key) hhead
    have hmodify : ∀ {s : BlobPlane Uuid}, Sound uuids retentionMs slack s →
        Sound uuids retentionMs slack
          (s.modifyPass i fun pass => { pass with pending := pass.pending.tail, deleted := false }) := by
      intro s hs
      refine sound_modifyPass hs (fun p e he => List.mem_of_mem_tail he) ?_
      intro p _ hfalse
      cases hfalse
    split
    · exact hmodify (sound_clearS3Key h (condemned_head h hpass hhead) hgone)
    · exact hmodify h

theorem sound_create (hslash : uuids.Slashless) {documentId : JsString} {itemId : Option JsString}
    {mime : JsString} {size : ℤ}
    (hstep : step uuids retentionMs s (.createAttachment id documentId itemId mime size) = some t) :
    Sound uuids retentionMs slack t := by
  rw [step] at hstep
  split at hstep
  · cases hstep
  · obtain ⟨document, hdocument, hstep⟩ := Option.bind_eq_some_iff.mp hstep
    obtain ⟨item, -, hstep⟩ := Option.bind_eq_some_iff.mp hstep
    split at hstep
    · cases hstep
    · rename_i hfree
      obtain ⟨attachments, hcreate, hstep⟩ := Option.bind_eq_some_iff.mp hstep
      obtain rfl := Option.some.inj hstep
      exact sound_createAttachment h hslash hdocument hfree hcreate

theorem sound_finalize (hslash : uuids.Slashless) {i : ℕ} {clock : ℤ}
    (hstep : step uuids retentionMs s (.finalizeAttachment i clock) = some t) :
    Sound uuids retentionMs slack t := by
  obtain ⟨f, hf, hstep⟩ := Option.bind_eq_some_iff.mp hstep
  obtain ⟨document, hdocument, hstep⟩ := Option.bind_eq_some_iff.mp hstep
  obtain ⟨id, hid, hstep⟩ := Option.bind_eq_some_iff.mp hstep
  split at hstep
  · cases hstep
  · obtain ⟨⟨row, attachments⟩, hfinal, hstep⟩ := Option.bind_eq_some_iff.mp hstep
    obtain rfl := Option.some.inj hstep
    exact sound_finalizeAttachment h hslash hf hdocument hid hfinal

theorem sound_step (hslash : uuids.Slashless) (hretention : PUT_PRESIGN_TTL + 4 * slack ≤ retentionMs)
    {a : BlobAction Uuid} (htimely : Timely slack s a) (hstep : step uuids retentionMs s a = some t) :
    Sound uuids retentionMs slack t := by
  cases a with
  | tick ms =>
    obtain rfl := Option.some.inj hstep
    exact sound_tick h ms
  | insertItem id documentId =>
    rw [step] at hstep
    split at hstep
    · cases hstep
    · rename_i hfresh
      obtain rfl := Option.some.inj hstep
      exact sound_insertItem h (Bool.eq_false_iff.mpr hfresh)
  | createAttachment id documentId itemId mime size => exact sound_create h hslash hstep
  | presignPut i clock =>
    obtain ⟨key, hkey, hstep⟩ := Option.bind_eq_some_iff.mp hstep
    obtain rfl := Option.some.inj hstep
    exact sound_presignPut h hkey htimely.1
  | put i object clock =>
    obtain ⟨url, hurl, hstep⟩ := Option.bind_eq_some_iff.mp hstep
    split at hstep
    · rename_i hin
      obtain rfl := Option.some.inj hstep
      exact sound_put h hretention (List.mem_of_getElem? hurl) hin htimely.2
    · cases hstep
  | headObject documentId attachmentId =>
    obtain ⟨head, hhead, hstep⟩ := Option.bind_eq_some_iff.mp hstep
    obtain rfl := Option.some.inj hstep
    exact sound_headObject h hhead
  | finalizeAttachment i clock => exact sound_finalize h hslash hstep
  | gcDocument documentId itemIds clock => exact sound_gcDocument h hstep
  | softDeleteAttachmentsForItem documentId => exact sound_softDelete h hstep
  | deleteItem documentId => exact sound_deleteItem h hstep
  | gcCommit documentId => exact sound_gcCommit h htimely hstep
  | gcFails documentId =>
    obtain rfl := Option.some.inj hstep
    exact sound_dropCollecting h documentId
  | getPendingS3Deletions clock =>
    obtain rfl := Option.some.inj hstep
    exact sound_getPendingS3Deletions h htimely.1
  | deleteObject i deleted returned => exact sound_deleteObject h hslash hstep
  | clearS3Key i written => exact sound_clearStep h hstep
  | restart =>
    obtain rfl := Option.some.inj hstep
    exact sound_restart h

end Steps

theorem sound_run (hslash : uuids.Slashless) (hretention : PUT_PRESIGN_TTL + 4 * slack ≤ retentionMs)
    {items : OrderedMap Uuid Uuid} {now : ℤ}
    (hrun : Runs (step uuids retentionMs) (Timely slack) (start items now) s) :
    Sound uuids retentionMs slack s :=
  hrun.invariant (fun h htimely hstep => sound_step h hslash hretention htimely hstep) (sound_start items now)

end BlobPlane

end OpenOutliner
