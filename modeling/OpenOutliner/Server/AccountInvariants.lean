import OpenOutliner.Server.Accounts

namespace OpenOutliner

open Foundations

variable {Uuid : Type} [DecidableEq Uuid]

namespace Accounts

variable (env : AccountEnv Uuid)

/-- The password behind a session: the one of the signup, or one that the login has verified. -/
def CredentialSound (users : OrderedMap Uuid UserRow) (userId : Uuid) (credential : Credential) : Prop :=
  ∃ row, users.get userId = some row ∧ match credential with
    | .signup password =>
      ∃ salt hash, Password.hashPassword env.scrypt password salt = some hash ∧ row.passwordHash = some hash
    | .login password => ∃ salt, verifies env row password salt = true

def CallerSound (s : Accounts Uuid) (caller : Caller Uuid) : Prop :=
  ∃ row, s.db.sessions.get caller.sessionId = some row ∧ row.userId = caller.userId

inductive Admitted (s : Accounts Uuid) (workspaceId : Uuid) : Uuid → Prop
  | founder {row : WorkspaceRow Uuid} {userId : Uuid} :
      s.workspaces.get workspaceId = some row → row.ownerId = userId →
    Admitted s workspaceId userId
  | invited {caller : Caller Uuid} {userId : Uuid} : Admitted s workspaceId caller.userId →
    .joined workspaceId caller userId ∈ s.log → Admitted s workspaceId userId

def CallSound (s : Accounts Uuid) : AccountCall Uuid → Prop
  | .signupFind .. | .loginFind .. => True
  | .signupInsert _ password _ _ hash => ∃ salt, Password.hashPassword env.scrypt password salt = some hash
  | .signupWorkspace userId password _ | .signupSession userId password =>
    CredentialSound env s.users userId (.signup password)
  | .loginSession userId password => CredentialSound env s.users userId (.login password)
  | .logout caller | .inviteCheck caller .. | .removeCheck caller .. | .createCheck caller .. =>
    CallerSound s caller
  | .inviteFind caller workspaceId _ | .inviteInsert caller workspaceId _ | .inviteAdd caller workspaceId _
  | .remove caller workspaceId _ | .create caller workspaceId _ =>
    CallerSound s caller ∧ Admitted s workspaceId caller.userId

structure Sound (s : Accounts Uuid) : Prop where
  emails : ∀ u v row row', s.users.get u = some row → s.users.get v = some row' →
    env.citext row.email = env.citext row'.email → u = v
  members : ∀ m ∈ s.db.workspaceMembers, Admitted s m.workspaceId m.userId
  owners : ∀ m ∈ s.db.workspaceMembers, m.role = .owner → ∃ row, s.workspaces.get m.workspaceId = some row ∧
    row.ownerId = m.userId
  owned : ∀ workspaceId row, s.workspaces.get workspaceId = some row →
    ⟨workspaceId, row.ownerId, .owner⟩ ∈ s.db.workspaceMembers
  sessions : ∀ id row, s.db.sessions.get id = some row → row.expiresAt ≤ s.now + env.sessionTtlMs ∧
    ∃ credential, s.issued.get id = some credential ∧ CredentialSound env s.users row.userId credential
  joined : ∀ workspaceId caller userId, .joined workspaceId caller userId ∈ s.log → CallerSound s caller
  calls : ∀ call ∈ s.calls, CallSound env s call

structure Grows (s t : Accounts Uuid) : Prop where
  time : s.now ≤ t.now
  users : ∀ u row, s.users.get u = some row → t.users.get u = some row
  workspaces : ∀ w row, s.workspaces.get w = some row → t.workspaces.get w = some row
  documents : ∀ d w, s.db.documents.get d = some w → t.db.documents.get d = some w
  sessions : ∀ id row, s.db.sessions.get id = some row → ∃ row', t.db.sessions.get id = some row' ∧
    row'.userId = row.userId ∧ row'.expiresAt = row.expiresAt ∧
    (row.revokedAt ≠ none → row'.revokedAt = row.revokedAt)
  issued : ∀ id row, s.db.sessions.get id = some row → t.issued.get id = s.issued.get id
  log : ∀ e ∈ s.log, e ∈ t.log

variable {env} {s t : Accounts Uuid} {fresh userId workspaceId id : Uuid} {salt : List UInt8}
  {caller : Caller Uuid}

namespace Grows

theorem refl (s : Accounts Uuid) : Grows s s :=
  ⟨le_rfl, fun _ _ h => h, fun _ _ h => h, fun _ _ h => h, fun _ row h => ⟨row, h, rfl, rfl, fun _ => rfl⟩,
    fun _ _ _ => rfl,
    fun _ h => h⟩

theorem trans {u : Accounts Uuid} (h : Grows s t) (h' : Grows t u) : Grows s u where
  time := h.time.trans h'.time
  users v row hrow := h'.users v row (h.users v row hrow)
  workspaces w row hrow := h'.workspaces w row (h.workspaces w row hrow)
  documents d w hw := h'.documents d w (h.documents d w hw)
  sessions id row hrow := by
    obtain ⟨row', hrow', huser, hexpires, hrevoked⟩ := h.sessions id row hrow
    obtain ⟨row'', hrow'', huser', hexpires', hrevoked'⟩ := h'.sessions id row' hrow'
    refine ⟨row'', hrow'', huser'.trans huser, hexpires'.trans hexpires, ?_⟩
    intro hne
    rw [hrevoked' (by rwa [hrevoked hne]), hrevoked hne]
  issued id row hrow := by
    obtain ⟨row', hrow', -⟩ := h.sessions id row hrow
    rw [h'.issued id row' hrow', h.issued id row hrow]
  log e he := h'.log e (h.log e he)

theorem ofSame (htime : s.now ≤ t.now) (husers : t.users = s.users)
    (hworkspaces : t.workspaces = s.workspaces) (hdocuments : t.db.documents = s.db.documents)
    (hsessions : t.db.sessions = s.db.sessions) (hissued : t.issued = s.issued)
    (hlog : ∀ e ∈ s.log, e ∈ t.log) : Grows s t where
  time := htime
  users _ _ hrow := by rw [husers, hrow]
  workspaces _ _ hrow := by rw [hworkspaces, hrow]
  documents _ _ hw := by rw [hdocuments, hw]
  sessions _ row hrow := ⟨row, by rw [hsessions, hrow], rfl, rfl, fun _ => rfl⟩
  issued _ _ _ := by rw [hissued]
  log := hlog

theorem credential (h : Grows s t) {credential : Credential}
    (hc : CredentialSound env s.users userId credential) :
    CredentialSound env t.users userId credential := by
  obtain ⟨row, hrow, hrest⟩ := hc
  exact ⟨row, h.users userId row hrow, hrest⟩

theorem callerSound (h : Grows s t) (hc : CallerSound s caller) : CallerSound t caller := by
  obtain ⟨row, hrow, huser⟩ := hc
  obtain ⟨row', hrow', huser', -⟩ := h.sessions _ row hrow
  exact ⟨row', hrow', huser'.trans huser⟩

theorem admitted (h : Grows s t) (ha : Admitted s workspaceId userId) : Admitted t workspaceId userId := by
  induction ha with
  | founder hrow howner => exact .founder (h.workspaces _ _ hrow) howner
  | invited _ hjoined ih => exact .invited ih (h.log _ hjoined)

theorem callSound (h : Grows s t) {call : AccountCall Uuid} (hc : CallSound env s call) :
    CallSound env t call := by
  cases call with
  | signupFind | loginFind => trivial
  | signupInsert => exact hc
  | signupWorkspace | signupSession | loginSession =>
    obtain ⟨row, hrow, hrest⟩ := hc
    exact ⟨row, h.users _ row hrow, hrest⟩
  | logout | inviteCheck | removeCheck | createCheck => exact h.callerSound hc
  | inviteFind | inviteInsert | inviteAdd | remove | create => exact ⟨h.callerSound hc.1, h.admitted hc.2⟩

end Grows

theorem find_email {email : JsString} {e : Uuid × UserRow} (h : s.findUserByEmail env email = some e) :
    s.users.get e.1 = some e.2 :=
  (OrderedMap.mem_entries_iff _ _ _).mp (List.mem_of_find?_eq_some h)

theorem createUser_spec {row : UserRow} (h : s.createUser env fresh row = some t) :
    s.users.get fresh = none ∧
    (∀ u row', s.users.get u = some row' → env.citext row'.email ≠ env.citext row.email) ∧
      t = { s with users := s.users.set fresh row } := by
  unfold createUser at h
  split at h
  · cases h
  · rename_i hfree
    rw [not_or, Bool.not_eq_true, Bool.not_eq_true, OrderedMap.has, Option.isSome_eq_false_iff,
      Option.isNone_iff_eq_none,
      Option.isSome_eq_false_iff, Option.isNone_iff_eq_none] at hfree
    refine ⟨hfree.1, ?_, (Option.some.inj h).symm⟩
    intro u row' hrow' hsame
    have hnone := List.find?_eq_none.mp hfree.2 (u, row') ((OrderedMap.mem_entries_iff _ _ _).mpr hrow')
    exact hnone (decide_eq_true hsame)

theorem createUser_grows {row : UserRow} (h : s.createUser env fresh row = some t) : Grows s t := by
  obtain ⟨hfresh, -, rfl⟩ := createUser_spec h
  refine { Grows.refl s with users := ?_ }
  intro u row' hrow'
  have hne : u ≠ fresh := by
    rintro rfl
    rw [hfresh] at hrow'
    cases hrow'
  dsimp only
  rw [OrderedMap.get_set_of_ne _ _ hne, hrow']

theorem createWorkspace_spec {name : JsString} (h : s.createWorkspace fresh userId name = some t) :
    s.workspaces.get fresh = none ∧ t = { s with
      workspaces := s.workspaces.set fresh ⟨userId, name⟩
      db := { s.db with workspaceMembers := s.db.workspaceMembers ++ [⟨fresh, userId, .owner⟩] }
      log := .founded fresh userId :: s.log } := by
  unfold createWorkspace at h
  split at h
  · cases h
  · rename_i hfree
    rw [Bool.not_eq_true, OrderedMap.has, Option.isSome_eq_false_iff, Option.isNone_iff_eq_none] at hfree
    exact ⟨hfree, (Option.some.inj h).symm⟩

theorem createWorkspace_grows {name : JsString} (h : s.createWorkspace fresh userId name = some t) :
    Grows s t := by
  obtain ⟨hfresh, rfl⟩ := createWorkspace_spec h
  refine { Grows.refl s with workspaces := ?_, log := fun e he => List.mem_cons_of_mem _ he }
  intro w row hrow
  have hne : w ≠ fresh := by
    rintro rfl
    rw [hfresh] at hrow
    cases hrow
  dsimp only
  rw [OrderedMap.get_set_of_ne _ _ hne, hrow]

theorem createSession_spec {credential : Credential}
    (h : s.createSession env fresh userId credential = some t) :
    s.db.sessions.get fresh = none ∧ t = { s with
      db := { s.db with sessions := s.db.sessions.set fresh ⟨userId, s.now + env.sessionTtlMs, none⟩ }
      issued := s.issued.set fresh credential } := by
  unfold createSession at h
  split at h
  · cases h
  · rename_i hfree
    rw [Bool.not_eq_true, OrderedMap.has, Option.isSome_eq_false_iff, Option.isNone_iff_eq_none] at hfree
    exact ⟨hfree, (Option.some.inj h).symm⟩

theorem createSession_grows {credential : Credential}
    (h : s.createSession env fresh userId credential = some t) : Grows s t := by
  obtain ⟨hfresh, rfl⟩ := createSession_spec h
  have hne : ∀ {id row}, s.db.sessions.get id = some row → id ≠ fresh := by
    rintro id row hrow rfl
    rw [hfresh] at hrow
    cases hrow
  refine { Grows.refl s with sessions := ?_, issued := ?_ }
  · intro id row hrow
    exact ⟨row, by dsimp only; rw [OrderedMap.get_set_of_ne _ _ (hne hrow), hrow], rfl, rfl, fun _ => rfl⟩
  · intro id row hrow
    exact OrderedMap.get_set_of_ne _ _ (hne hrow)

theorem addMember_grows : Grows s (s.addMember workspaceId userId caller) := by
  unfold addMember
  split
  · exact .refl s
  · exact .ofSame le_rfl rfl rfl rfl rfl rfl fun e he => List.mem_cons_of_mem _ he

theorem revoked_grows {sessions : OrderedMap Uuid (SessionRow Uuid)} {members : List (WorkspaceMember Uuid)}
    (h : ∀ id row, s.db.sessions.get id = some row → ∃ row', sessions.get id = some row' ∧
      row'.userId = row.userId ∧
      row'.expiresAt = row.expiresAt ∧ (row.revokedAt ≠ none → row'.revokedAt = row.revokedAt)) :
    Grows s { s with db := { s.db with sessions, workspaceMembers := members } } :=
  { Grows.refl s with sessions := h }

theorem revokeSession_grows : Grows s (s.revokeSession id) := by
  unfold revokeSession
  split
  · exact .refl s
  · rename_i row hrow
    split
    · rename_i hlive
      refine revoked_grows ?_
      intro id' row' hrow'
      rw [OrderedMap.get_set]
      split
      · rename_i hsame
        rw [hsame, hrow] at hrow'
        obtain rfl := Option.some.inj hrow'
        exact ⟨_, rfl, rfl, rfl, fun hne => absurd hlive hne⟩
      · exact ⟨row', hrow', rfl, rfl, fun _ => rfl⟩
    · exact .refl s

theorem removeMember_spec (db : TenancyDb Uuid) (now : ℤ) (workspaceId userId : Uuid) :
    (db.removeMember now workspaceId userId).1.documents = db.documents ∧
    (∀ m ∈ (db.removeMember now workspaceId userId).1.workspaceMembers, m ∈ db.workspaceMembers) ∧
    (∀ m ∈ db.workspaceMembers, m.role = .owner →
      m ∈ (db.removeMember now workspaceId userId).1.workspaceMembers) ∧
    ((db.removeMember now workspaceId userId).1.sessions = db.sessions ∨
      (db.removeMember now workspaceId userId).1.sessions = db.revokeSessions userId now) := by
  unfold TenancyDb.removeMember
  dsimp only
  split
  · exact ⟨rfl, fun _ hm => hm, fun _ hm _ => hm, Or.inl rfl⟩
  · have hkept : ∀ m ∈ db.workspaceMembers, m.role = .owner → m ∈ db.workspaceMembers.filter fun m =>
        ¬ (m.workspaceId = workspaceId ∧ m.userId = userId ∧ m.role ≠ .owner) := by
      intro m hm howner
      exact List.mem_filter.mpr ⟨hm, by simp [howner]⟩
    split
    · exact ⟨rfl, fun _ hm => List.mem_of_mem_filter hm, hkept, Or.inl rfl⟩
    · exact ⟨rfl, fun _ hm => List.mem_of_mem_filter hm, hkept, Or.inr rfl⟩

theorem revokeSessions_rows (db : TenancyDb Uuid) (now : ℤ) (userId : Uuid) {id : Uuid}
    {row : SessionRow Uuid}
    (h : db.sessions.get id = some row) : ∃ row', (db.revokeSessions userId now).get id = some row' ∧
    row'.userId = row.userId ∧
      row'.expiresAt = row.expiresAt ∧ (row.revokedAt ≠ none → row'.revokedAt = row.revokedAt) := by
  rw [TenancyDb.revokeSessions, OrderedMap.get_mapValues, h, Option.map_some]
  refine ⟨_, rfl, ?_⟩
  split
  · rename_i hlive
    exact ⟨rfl, rfl, fun hne => absurd hlive.2 hne⟩
  · exact ⟨rfl, rfl, fun _ => rfl⟩

theorem removeMember_grows : Grows s { s with db := (s.db.removeMember s.now workspaceId userId).1 } := by
  obtain ⟨hdocuments, -, -, hsessions⟩ := removeMember_spec s.db s.now workspaceId userId
  refine { Grows.refl s with documents := ?_, sessions := ?_ }
  · intro d w hw
    dsimp only
    rw [hdocuments, hw]
  · intro id row hrow
    dsimp only
    obtain hsame | hrevoked := hsessions
    · exact ⟨row, by rw [hsame, hrow], rfl, rfl, fun _ => rfl⟩
    · rw [hrevoked]
      exact revokeSessions_rows s.db s.now userId hrow

theorem createDocument_grows {documentId : Uuid} : Grows s (s.createDocument documentId workspaceId) := by
  unfold createDocument
  split
  · exact .refl s
  · rename_i hfree
    refine { Grows.refl s with documents := ?_ }
    intro d w hw
    have hne : d ≠ documentId := by
      rintro rfl
      rw [OrderedMap.has, hw] at hfree
      exact hfree rfl
    dsimp only
    rw [OrderedMap.get_set_of_ne _ _ hne, hw]

theorem proceed_grows (call : AccountCall Uuid) : Grows s (s.proceed env fresh salt call).1 := by
  cases call with
  | signupFind email password displayName workspaceName =>
    rw [proceed]
    split <;> exact .refl s
  | signupInsert email password displayName workspaceName hash =>
    rw [proceed]
    split
    · exact .refl s
    · rename_i t ht
      exact createUser_grows ht
  | signupWorkspace userId password workspaceName =>
    rw [proceed]
    split
    · exact .refl s
    · rename_i t ht
      exact createWorkspace_grows ht
  | signupSession userId password | loginSession userId password =>
    rw [proceed]
    dsimp only
    cases ht : s.createSession env fresh userId _ with
    | none => exact .refl s
    | some t => exact createSession_grows ht
  | loginFind email password =>
    rw [proceed]
    split <;> exact .refl s
  | logout caller => exact revokeSession_grows
  | inviteCheck caller workspaceId email => exact .refl s
  | inviteFind caller workspaceId email =>
    rw [proceed]
    split <;> exact .refl s
  | inviteInsert caller workspaceId email =>
    rw [proceed]
    split
    · exact .refl s
    · rename_i t ht
      exact createUser_grows ht
  | inviteAdd caller workspaceId userId => exact addMember_grows
  | removeCheck caller workspaceId userId => exact .refl s
  | remove caller workspaceId userId => exact removeMember_grows
  | createCheck caller workspaceId documentId => exact .refl s
  | create caller workspaceId documentId => exact createDocument_grows

theorem Sound.next (h : Sound env s) (hgrows : Grows s t)
    (hemails : ∀ u v row row', t.users.get u = some row → t.users.get v = some row' →
      env.citext row.email = env.citext row'.email → u = v)
    (hmembers : ∀ m ∈ t.db.workspaceMembers, m ∈ s.db.workspaceMembers ∨ Admitted t m.workspaceId m.userId ∧
      (m.role = .owner → ∃ row, t.workspaces.get m.workspaceId = some row ∧ row.ownerId = m.userId))
    (howned : ∀ workspaceId row, t.workspaces.get workspaceId = some row →
      ⟨workspaceId, row.ownerId, .owner⟩ ∈ t.db.workspaceMembers)
    (hsessions : ∀ id row, t.db.sessions.get id = some row →
      (∃ old, s.db.sessions.get id = some old ∧ row.userId = old.userId ∧ row.expiresAt = old.expiresAt) ∨
        row.expiresAt ≤ t.now + env.sessionTtlMs ∧
          ∃ credential, t.issued.get id = some credential ∧ CredentialSound env t.users row.userId credential)
    (hjoined : ∀ workspaceId caller userId, .joined workspaceId caller userId ∈ t.log →
      .joined workspaceId caller userId ∈ s.log ∨ CallerSound t caller)
    (hcalls : ∀ call ∈ t.calls, call ∈ s.calls ∨ CallSound env t call) : Sound env t where
  emails := hemails
  members m hm := by
    obtain hold | ⟨hnew, -⟩ := hmembers m hm
    · exact hgrows.admitted (h.members m hold)
    · exact hnew
  owners m hm howner := by
    obtain hold | ⟨-, hnew⟩ := hmembers m hm
    · obtain ⟨row, hrow, he⟩ := h.owners m hold howner
      exact ⟨row, hgrows.workspaces _ _ hrow, he⟩
    · exact hnew howner
  owned := howned
  sessions id row hrow := by
    obtain ⟨old, hold, huser, hexpires⟩ | hnew := hsessions id row hrow
    · obtain ⟨hle, credential, hissued, hcredential⟩ := h.sessions id old hold
      have htime := hgrows.time
      refine ⟨by omega, credential, ?_, ?_⟩
      · rw [hgrows.issued id old hold, hissued]
      · rw [huser]
        exact hgrows.credential hcredential
    · exact hnew
  joined workspaceId caller userId hmem := by
    obtain hold | hnew := hjoined workspaceId caller userId hmem
    · exact hgrows.callerSound (h.joined workspaceId caller userId hold)
    · exact hnew
  calls call hcall := by
    obtain hold | hnew := hcalls call hcall
    · exact hgrows.callSound (h.calls call hold)
    · exact hnew

theorem Sound.idle (h : Sound env s) {now : ℤ} {calls : List (AccountCall Uuid)} (htime : s.now ≤ now)
    (hcalls : ∀ call ∈ calls, call ∈ s.calls ∨ CallSound env s call) : Sound env { s with now, calls } := by
  have hgrows : Grows s { s with now, calls } := .ofSame htime rfl rfl rfl rfl rfl fun _ he => he
  refine h.next hgrows h.emails (fun m hm => Or.inl hm) h.owned ?_ (fun _ _ _ hmem => Or.inl hmem) ?_
  · exact fun id row hrow => Or.inl ⟨row, hrow, rfl, rfl⟩
  · intro call hcall
    obtain hold | hnew := hcalls call hcall
    · exact Or.inl hold
    · exact Or.inr (hgrows.callSound hnew)

section Statements

variable (h : Sound env s)
include h

theorem sound_createUser {row : UserRow} (ht : s.createUser env fresh row = some t) : Sound env t := by
  have hgrows := createUser_grows ht
  obtain ⟨hfresh, hfree, rfl⟩ := createUser_spec ht
  refine h.next hgrows ?_ (fun m hm => Or.inl hm) h.owned (fun id row hrow => Or.inl ⟨row, hrow, rfl, rfl⟩)
    (fun _ _ _ hmem => Or.inl hmem) fun call hcall => Or.inl hcall
  intro u v row₁ row₂ hu hv hsame
  dsimp only at hu hv
  rw [OrderedMap.get_set] at hu hv
  split at hu
  · rename_i hu'
    obtain rfl := Option.some.inj hu
    split at hv
    · rename_i hv'
      rw [hu', hv']
    · exact absurd hsame.symm (hfree v row₂ hv)
  · split at hv
    · obtain rfl := Option.some.inj hv
      exact absurd hsame (hfree u row₁ hu)
    · exact h.emails u v row₁ row₂ hu hv hsame

theorem sound_createWorkspace {name : JsString} (ht : s.createWorkspace fresh userId name = some t) :
    Sound env t := by
  have hgrows := createWorkspace_grows ht
  obtain ⟨hfresh, rfl⟩ := createWorkspace_spec ht
  refine h.next hgrows h.emails ?_ ?_ (fun id row hrow => Or.inl ⟨row, hrow, rfl, rfl⟩) ?_ fun call hcall =>
    Or.inl hcall
  · intro m hm
    cases List.mem_append.mp hm with
    | inl hm => exact Or.inl hm
    | inr hm =>
      obtain rfl := List.mem_singleton.mp hm
      have hrow := OrderedMap.get_set_self s.workspaces fresh ⟨userId, name⟩
      exact Or.inr ⟨.founder hrow rfl, fun _ => ⟨_, hrow, rfl⟩⟩
  · intro w row hrow
    dsimp only at hrow ⊢
    rw [OrderedMap.get_set] at hrow
    split at hrow
    · rename_i hsame
      obtain rfl := Option.some.inj hrow
      rw [hsame]
      exact List.mem_append_right _ (List.mem_singleton_self _)
    · exact List.mem_append_left _ (h.owned w row hrow)
  · intro w caller u hmem
    cases hmem with
    | tail _ hmem => exact Or.inl hmem

theorem sound_createSession {credential : Credential}
    (hcredential : CredentialSound env s.users userId credential)
    (ht : s.createSession env fresh userId credential = some t) : Sound env t := by
  have hgrows := createSession_grows ht
  obtain ⟨hfresh, rfl⟩ := createSession_spec ht
  refine h.next hgrows h.emails (fun m hm => Or.inl hm) h.owned ?_ (fun _ _ _ hmem => Or.inl hmem)
    fun call hcall => Or.inl hcall
  intro id row hrow
  dsimp only at hrow ⊢
  rw [OrderedMap.get_set] at hrow
  split at hrow
  · rename_i hsame
    obtain rfl := Option.some.inj hrow
    exact Or.inr ⟨le_rfl, credential, by rw [hsame]; exact OrderedMap.get_set_self _ _ _, hcredential⟩
  · exact Or.inl ⟨row, hrow, rfl, rfl⟩

theorem sound_addMember (hcaller : CallerSound s caller) (hadmitted : Admitted s workspaceId caller.userId) :
    Sound env (s.addMember workspaceId userId caller) := by
  have hgrows : Grows s (s.addMember workspaceId userId caller) := addMember_grows
  unfold addMember at hgrows ⊢
  split at hgrows
  · rename_i hmember
    rw [if_pos hmember]
    exact h
  · rename_i hmember
    rw [if_neg hmember]
    refine h.next hgrows h.emails ?_ ?_ (fun id row hrow => Or.inl ⟨row, hrow, rfl, rfl⟩) ?_
      fun call hcall => Or.inl hcall
    · intro m hm
      cases List.mem_append.mp hm with
      | inl hm => exact Or.inl hm
      | inr hm =>
        obtain rfl := List.mem_singleton.mp hm
        refine Or.inr ⟨.invited (hgrows.admitted hadmitted) (List.mem_cons_self ..), ?_⟩
        intro howner
        cases howner
    · exact fun w row hrow => List.mem_append_left _ (h.owned w row hrow)
    · intro w caller' u hmem
      cases hmem with
      | head => exact Or.inr hcaller
      | tail _ hmem => exact Or.inl hmem

theorem sound_revokeSession : Sound env (s.revokeSession id) := by
  have hgrows : Grows s (s.revokeSession id) := revokeSession_grows
  unfold revokeSession at hgrows ⊢
  split at hgrows
  · exact h
  · rename_i row hrow
    split at hgrows
    · rename_i hlive
      rw [if_pos hlive]
      refine h.next hgrows h.emails (fun m hm => Or.inl hm) h.owned ?_ (fun _ _ _ hmem => Or.inl hmem)
        fun call hcall => Or.inl hcall
      intro id' row' hrow'
      dsimp only at hrow'
      rw [OrderedMap.get_set] at hrow'
      split at hrow'
      · rename_i hsame
        obtain rfl := Option.some.inj hrow'
        exact Or.inl ⟨row, by rw [hsame, hrow], rfl, rfl⟩
      · exact Or.inl ⟨row', hrow', rfl, rfl⟩
    · rename_i hdead
      rw [if_neg hdead]
      exact h

theorem sound_removeMember : Sound env { s with db := (s.db.removeMember s.now workspaceId userId).1 } := by
  obtain ⟨-, hsub, howners, hsessions⟩ := removeMember_spec s.db s.now workspaceId userId
  refine h.next removeMember_grows h.emails (fun m hm => Or.inl (hsub m hm))
    (fun w row hrow => howners _ (h.owned w row hrow) rfl) ?_ (fun _ _ _ hmem => Or.inl hmem)
      fun call hcall => Or.inl hcall
  intro id row hrow
  dsimp only at hrow
  obtain hsame | hrevoked := hsessions
  · rw [hsame] at hrow
    exact Or.inl ⟨row, hrow, rfl, rfl⟩
  · rw [hrevoked, TenancyDb.revokeSessions, OrderedMap.get_mapValues] at hrow
    obtain ⟨old, hold, he⟩ := Option.map_eq_some_iff.mp hrow
    refine Or.inl ⟨old, hold, ?_⟩
    split at he <;> subst he <;> exact ⟨rfl, rfl⟩

theorem sound_createDocument {documentId : Uuid} : Sound env (s.createDocument documentId workspaceId) := by
  have hgrows : Grows s (s.createDocument documentId workspaceId) := createDocument_grows
  unfold createDocument at hgrows ⊢
  split at hgrows
  · rename_i htaken
    rw [if_pos htaken]
    exact h
  · rename_i hfree
    rw [if_neg hfree]
    exact h.next hgrows h.emails (fun m hm => Or.inl hm) h.owned
      (fun id row hrow => Or.inl ⟨row, hrow, rfl, rfl⟩)
      (fun _ _ _ hmem => Or.inl hmem) fun call hcall => Or.inl hcall

theorem admitted_member (hmember : s.db.isWorkspaceMember workspaceId userId = true) :
    Admitted s workspaceId userId := by
  obtain ⟨m, hm, he⟩ := List.any_eq_true.mp hmember
  obtain ⟨rfl, rfl⟩ := of_decide_eq_true he
  exact h.members m hm

end Statements

structure SoundAfter (env : AccountEnv Uuid) (after : Accounts Uuid × Option (AccountCall Uuid)) : Prop where
  state : Sound env after.1
  call : ∀ next ∈ after.2, CallSound env after.1 next

section Proceed

variable {call : AccountCall Uuid} (h : Sound env s)
include h

theorem sound_ends : SoundAfter env (s, none) := ⟨h, by simp⟩

theorem sound_check {caller : Caller Uuid} (hcaller : CallerSound s caller)
    (hcall : CallerSound s caller ∧ Admitted s workspaceId caller.userId → CallSound env s call) :
    SoundAfter env (s, if s.db.isWorkspaceMember workspaceId caller.userId then some call else none) := by
  refine ⟨h, ?_⟩
  intro next hnext
  dsimp only at hnext
  split at hnext
  · rename_i hmember
    obtain rfl := Option.some.inj hnext
    exact hcall ⟨hcaller, admitted_member h hmember⟩
  · cases hnext

theorem sound_session {userId : Uuid} {credential : Credential}
    (hsound : CredentialSound env s.users userId credential) :
    SoundAfter env ((s.createSession env fresh userId credential).getD s, none) := by
  refine ⟨?_, by simp⟩
  dsimp only
  cases ht : s.createSession env fresh userId credential with
  | none => exact h
  | some t => exact sound_createSession h hsound ht

theorem sound_signupFind {email password workspaceName : JsString} {displayName : Option JsString} :
    SoundAfter env (s.proceed env fresh salt (.signupFind email password displayName workspaceName)) := by
  rw [proceed]
  split
  · exact sound_ends h
  · refine ⟨h, ?_⟩
    intro next hnext
    obtain ⟨hash, hhash, rfl⟩ := Option.map_eq_some_iff.mp hnext
    exact ⟨salt, hhash⟩

theorem sound_signupInsert {email password workspaceName hash : JsString} {displayName : Option JsString}
    (hcall : CallSound env s (.signupInsert email password displayName workspaceName hash)) :
    SoundAfter env
      (s.proceed env fresh salt (.signupInsert email password displayName workspaceName hash)) := by
  rw [proceed]
  split
  · exact sound_ends h
  · rename_i t ht
    refine ⟨sound_createUser h ht, ?_⟩
    rintro next ⟨⟩
    obtain ⟨salt, hhash⟩ := hcall
    obtain ⟨-, -, rfl⟩ := createUser_spec ht
    exact ⟨_, OrderedMap.get_set_self _ _ _, salt, hash, hhash, rfl⟩

theorem sound_signupWorkspace {userId : Uuid} {password workspaceName : JsString}
    (hcall : CallSound env s (.signupWorkspace userId password workspaceName)) :
    SoundAfter env (s.proceed env fresh salt (.signupWorkspace userId password workspaceName)) := by
  rw [proceed]
  split
  · exact sound_ends h
  · rename_i t ht
    refine ⟨sound_createWorkspace h ht, ?_⟩
    rintro next ⟨⟩
    obtain ⟨-, rfl⟩ := createWorkspace_spec ht
    exact hcall

theorem sound_loginFind {email password : JsString} :
    SoundAfter env (s.proceed env fresh salt (.loginFind email password)) := by
  rw [proceed]
  split
  · exact sound_ends h
  · rename_i userId row hfind
    refine ⟨h, ?_⟩
    intro next hnext
    dsimp only at hnext
    split at hnext
    · rename_i hverifies
      obtain rfl := Option.some.inj hnext
      exact ⟨row, find_email hfind, salt, hverifies⟩
    · cases hnext

theorem sound_inviteFind {caller : Caller Uuid} {email : JsString}
    (hcall : CallSound env s (.inviteFind caller workspaceId email)) :
    SoundAfter env (s.proceed env fresh salt (.inviteFind caller workspaceId email)) := by
  rw [proceed]
  split
  · refine ⟨h, ?_⟩
    rintro next ⟨⟩
    exact hcall
  · refine ⟨h, ?_⟩
    rintro next ⟨⟩
    exact hcall

theorem sound_inviteInsert {caller : Caller Uuid} {email : JsString}
    (hcall : CallSound env s (.inviteInsert caller workspaceId email)) :
    SoundAfter env (s.proceed env fresh salt (.inviteInsert caller workspaceId email)) := by
  rw [proceed]
  split
  · exact sound_ends h
  · rename_i t ht
    refine ⟨sound_createUser h ht, ?_⟩
    rintro next ⟨⟩
    have hgrows := createUser_grows ht
    exact ⟨hgrows.callerSound hcall.1, hgrows.admitted hcall.2⟩

theorem sound_proceed (hcall : CallSound env s call) : SoundAfter env (s.proceed env fresh salt call) := by
  cases call with
  | signupFind email password displayName workspaceName => exact sound_signupFind h
  | signupInsert email password displayName workspaceName hash => exact sound_signupInsert h hcall
  | signupWorkspace userId password workspaceName => exact sound_signupWorkspace h hcall
  | signupSession userId password => exact sound_session h hcall
  | loginSession userId password => exact sound_session h hcall
  | loginFind email password => exact sound_loginFind h
  | logout caller => exact ⟨sound_revokeSession h, by simp [proceed]⟩
  | inviteCheck caller workspaceId email => exact sound_check h hcall id
  | inviteFind caller workspaceId email => exact sound_inviteFind h hcall
  | inviteInsert caller workspaceId email => exact sound_inviteInsert h hcall
  | inviteAdd caller workspaceId userId => exact ⟨sound_addMember h hcall.1 hcall.2, by simp [proceed]⟩
  | removeCheck caller workspaceId userId => exact sound_check h hcall id
  | remove caller workspaceId userId => exact ⟨sound_removeMember h, by simp [proceed]⟩
  | createCheck caller workspaceId documentId => exact sound_check h hcall id
  | create caller workspaceId documentId => exact ⟨sound_createDocument h, by simp [proceed]⟩

end Proceed

omit [DecidableEq Uuid] in
theorem publicCall_cases {allowed : Bool} {body : AccountRequest} {call : AccountCall Uuid}
    (h : publicCall env allowed body = .ok call) :
    (∃ email password displayName workspaceName,
      call = .signupFind email password displayName workspaceName) ∨
      ∃ email password, call = .loginFind email password := by
  unfold publicCall at h
  split at h
  · dsimp only at h
    split_ifs at h
    exact Or.inl ⟨_, _, _, _, (Except.ok.inj h).symm⟩
  · split_ifs at h
    exact Or.inr ⟨_, _, (Except.ok.inj h).symm⟩
  · cases h

theorem privateCall_sound (hcaller : CallerSound s caller) {body : AccountRequest} {call : AccountCall Uuid}
    (h : privateCall env caller body = .ok call) : CallSound env s call := by
  unfold privateCall at h
  split at h
  · rename_i workspaceId email
    cases hworkspace : parseUuid env workspaceId with
    | error e =>
      rw [hworkspace] at h
      cases h
    | ok workspace =>
      rw [hworkspace] at h
      obtain rfl := Except.ok.inj h
      exact hcaller
  · rename_i workspaceId userId
    cases hworkspace : parseUuid env workspaceId with
    | error e =>
      rw [hworkspace] at h
      cases h
    | ok workspace =>
      cases huser : parseUuid env userId with
      | error e =>
        rw [hworkspace, huser] at h
        cases h
      | ok user =>
        rw [hworkspace, huser] at h
        obtain rfl := Except.ok.inj h
        exact hcaller
  · rename_i workspaceId
    cases hworkspace : parseUuid env workspaceId with
    | error e =>
      rw [hworkspace] at h
      cases h
    | ok workspace =>
      rw [hworkspace] at h
      obtain rfl := Except.ok.inj h
      exact hcaller
  · rename_i workspaceId documentId
    split at h
    · cases h
    · cases hworkspace : parseUuid env workspaceId with
      | error e =>
        rw [hworkspace] at h
        cases h
      | ok workspace =>
        cases hdocument : parseUuid env documentId with
        | error e =>
          rw [hworkspace, hdocument] at h
          cases h
        | ok document =>
          rw [hworkspace, hdocument] at h
          obtain rfl := Except.ok.inj h
          exact hcaller
  · obtain rfl := Except.ok.inj h
    exact hcaller

theorem resolveSession_row {db : TenancyDb Uuid} {uuids : UuidText Uuid} {now : ℤ} {text : JsString}
    (h : db.resolveSession uuids now text = some userId) : ∃ id row, uuids.parse text = some id ∧
      db.sessions.get id = some row ∧ row.userId = userId ∧ row.revokedAt = none ∧ now < row.expiresAt := by
  unfold TenancyDb.resolveSession at h
  split at h
  · obtain ⟨id, hid, h⟩ := Option.bind_eq_some_iff.mp h
    obtain ⟨row, hrow, hlive⟩ := Option.bind_eq_some_iff.mp h
    split at hlive
    · rename_i hopen
      exact ⟨id, row, hid, hrow, Option.some.inj hlive, hopen.1, hopen.2⟩
    · cases hlive
  · cases h

theorem handle_sound {r : HttpRequest} {allowed : Bool} {call : AccountCall Uuid}
    (h : handle env s r allowed = .ok call) :
    CallSound env s call := by
  unfold handle at h
  dsimp only at h
  split at h
  · split at h
    · cases h
    · obtain ⟨_, _, _, _, rfl⟩ | ⟨_, _, rfl⟩ := publicCall_cases h <;> trivial
  · split at h
    · cases h
    · rename_i userId sessionId hsession
      obtain ⟨text, -, hsession⟩ := Option.bind_eq_some_iff.mp hsession
      obtain ⟨id, hid, hsession⟩ := Option.bind_eq_some_iff.mp hsession
      obtain ⟨u, hresolve, he⟩ := Option.map_eq_some_iff.mp hsession
      obtain ⟨rfl, rfl⟩ := Prod.mk.inj he
      obtain ⟨id', row, hid', hrow, huser, -⟩ := resolveSession_row hresolve
      rw [hid] at hid'
      obtain rfl := Option.some.inj hid'
      split at h
      · split at h
        · cases h
        · exact privateCall_sound ⟨row, hrow, huser⟩ h
      · cases h

theorem step_grows {a : AccountAction Uuid} (hstep : step env s a = some t) : Grows s t := by
  cases a with
  | tick ms =>
    obtain rfl := Option.some.inj hstep
    exact .ofSame (by dsimp only; omega) rfl rfl rfl rfl rfl fun _ he => he
  | request r allowed =>
    rw [step] at hstep
    split at hstep
    · cases hstep
    · obtain rfl := Option.some.inj hstep
      exact .ofSame le_rfl rfl rfl rfl rfl rfl fun _ he => he
  | advance i fresh salt =>
    obtain ⟨call, -, rfl⟩ := Option.map_eq_some_iff.mp hstep
    exact (@proceed_grows _ _ env _ fresh salt call).trans
      (.ofSame le_rfl rfl rfl rfl rfl rfl fun _ he => he)
  | abort i =>
    obtain rfl := Option.some.inj hstep
    exact .ofSame le_rfl rfl rfl rfl rfl rfl fun _ he => he

theorem sound_step (h : Sound env s) {a : AccountAction Uuid} (hstep : step env s a = some t) :
    Sound env t := by
  cases a with
  | tick ms =>
    obtain rfl := Option.some.inj hstep
    exact h.idle (by omega) fun call hcall => Or.inl hcall
  | request r allowed =>
    rw [step] at hstep
    split at hstep
    · cases hstep
    · rename_i call hhandle
      obtain rfl := Option.some.inj hstep
      refine h.idle le_rfl ?_
      intro call' hcall
      cases List.mem_append.mp hcall with
      | inl hold => exact Or.inl hold
      | inr hnew =>
        obtain rfl := List.mem_singleton.mp hnew
        exact Or.inr (handle_sound hhandle)
  | advance i fresh salt =>
    obtain ⟨call, hcall, rfl⟩ := Option.map_eq_some_iff.mp hstep
    obtain ⟨hnext, hleft⟩ := @sound_proceed _ _ _ _ fresh salt _ h (h.calls call (List.mem_of_getElem? hcall))
    refine hnext.idle le_rfl ?_
    intro call' hcall'
    split at hcall'
    · exact Or.inl (List.mem_of_mem_eraseIdx hcall')
    · rename_i next hsome
      obtain hold | rfl := List.mem_or_eq_of_mem_set hcall'
      · exact Or.inl hold
      · exact Or.inr (hleft _ hsome)
  | abort i =>
    obtain rfl := Option.some.inj hstep
    exact h.idle le_rfl fun call hcall => Or.inl (List.mem_of_mem_eraseIdx hcall)

theorem sound_start (now : ℤ) : Sound env (start now : Accounts Uuid) := by
  constructor <;> simp [start]

theorem sound_run {now : ℤ} (hrun : Runs (step env) (fun _ _ => True) (start now) s) : Sound env s :=
  hrun.invariant (fun h _ hstep => sound_step h hstep) (sound_start now)

theorem grows_run (hrun : Runs (step env) (fun _ _ => True) s t) : Grows s t := by
  induction hrun with
  | refl => exact .refl s
  | step a _ _ hstep ih => exact ih.trans (step_grows hstep)

end Accounts

open Accounts

section Results

variable {env : AccountEnv Uuid} {now : ℤ} {s t : Accounts Uuid}
  (hrun : Runs (step env) (fun _ _ => True) (Accounts.start now) s)
include hrun

end Results

section Example

def plainScrypt (password : JsString) (salt : List UInt8) (keylen : ℕ) (_ : ScryptOptions) :
    Option (List UInt8) :=
  some ((password.map (fun (unit : CodeUnit) => UInt8.ofNat unit.val) ++ salt ++
    List.replicate keylen 0).take keylen)

def plainEnv : AccountEnv JsString := ⟨rawUuids, plainScrypt, id, id, js ['s'], js ['c'], 1000⟩

def oneByte : List UInt8 := [1]

def aliceMail : JsString := js ['a', '@', 'x']

def bobMail : JsString := js ['b', '@', 'x']

def aliceCalls (body : AccountRequest) : AccountAction JsString :=
  .request ⟨some (js ['s', '='] ++ uuidOf 0x35 ++ js [';', ' ', 'c', '=', 't']), some (js ['t']),
    some (js ['q']), body⟩ true

def aliceInvites : List (AccountAction JsString) :=
  [.request ⟨none, none, some (js ['q']),
    .Signup aliceMail (js ['p', 'a', 's', 's', 'w', 'o', 'r', 'd']) none none⟩ true,
    .advance 0 [] oneByte, .advance 0 (uuidOf 0x31) [], .advance 0 (uuidOf 0x33) [],
    .advance 0 (uuidOf 0x35) [],
    aliceCalls (.CreateDocument (uuidOf 0x33) (some (uuidOf 0x34))), .advance 0 [] [], .advance 0 [] [],
    aliceCalls (.InviteMember (uuidOf 0x33) bobMail), .advance 0 [] [], .advance 0 [] [],
    .advance 0 (uuidOf 0x32) [],
    .advance 0 [] []]

def bobLogsIn : List (AccountAction JsString) :=
  [.request ⟨none, none, some (js ['q']), .Login bobMail dummyPassword⟩ true, .advance 0 [] oneByte,
    .advance 0 (uuidOf 0x36) []]

end Example

section Results

variable {env : AccountEnv Uuid} {now : ℤ} {s t : Accounts Uuid}
  (hrun : Runs (step env) (fun _ _ => True) (Accounts.start now) s)
include hrun

/-- Whatever calls run later: accounts, the owners of workspaces and the workspaces of documents stay, an
owner stays a member, a session is never another user's, and one that is revoked, expired or as old as its
lifetime is never accepted again. -/
theorem identities_stay (hlater : Runs (step env) (fun _ _ => True) s t) :
    (∀ u row, s.users.get u = some row → t.users.get u = some row ∧
      ∀ v row', t.users.get v = some row' → env.citext row'.email = env.citext row.email → v = u) ∧
    (∀ w row, s.workspaces.get w = some row → t.workspaces.get w = some row ∧
      ∀ u, ⟨w, u, .owner⟩ ∈ t.db.workspaceMembers ↔ u = row.ownerId) ∧
    (∀ d w, s.db.documents.get d = some w → t.db.documents.get d = some w) ∧
    ∀ id row text, s.db.sessions.get id = some row → env.uuids.parse text = some id →
      (∀ u, t.db.resolveSession env.uuids t.now text = some u → u = row.userId) ∧
      (row.revokedAt ≠ none ∨ row.expiresAt ≤ t.now ∨ s.now + env.sessionTtlMs ≤ t.now →
        t.db.resolveSession env.uuids t.now text = none) := by
  have h := sound_run hrun
  have ht := sound_run (hrun.trans hlater)
  have hgrows := grows_run hlater
  refine ⟨?_, ?_, hgrows.documents, ?_⟩
  · intro u row hrow
    exact ⟨hgrows.users u row hrow,
      fun v row' hrow' hsame => ht.emails v u row' row hrow' (hgrows.users u row hrow) hsame⟩
  · intro w row hrow
    have hlaterRow := hgrows.workspaces w row hrow
    refine ⟨hlaterRow, ?_⟩
    intro u
    constructor
    · intro hmember
      obtain ⟨row', hrow', howner⟩ := ht.owners _ hmember rfl
      rw [hlaterRow] at hrow'
      obtain rfl := Option.some.inj hrow'
      exact howner.symm
    · rintro rfl
      exact ht.owned w row hlaterRow
  · intro id row text hrow hid
    obtain ⟨row', hrow', huser, hexpires, hrevoked⟩ := hgrows.sessions id row hrow
    have hage := (h.sessions id row hrow).1
    have hlive : ∀ u, t.db.resolveSession env.uuids t.now text = some u →
        u = row.userId ∧ row'.revokedAt = none ∧ t.now < row'.expiresAt := by
      intro u hresolve
      obtain ⟨id', row'', hid', hrow'', huser'', hnone, hopen⟩ := resolveSession_row hresolve
      rw [hid] at hid'
      obtain rfl := Option.some.inj hid'
      rw [hrow'] at hrow''
      obtain rfl := Option.some.inj hrow''
      exact ⟨huser''.symm.trans huser, hnone, hopen⟩
    refine ⟨fun u hresolve => (hlive u hresolve).1, ?_⟩
    intro hdead
    rw [Option.eq_none_iff_forall_ne_some]
    intro u hresolve
    obtain ⟨-, hnone, hopen⟩ := hlive u hresolve
    obtain hwas | hover | hold := hdead
    · rw [hrevoked hwas] at hnone
      exact hwas hnone
    · omega
    · omega

end Results

theorem identities_stay_logout :
    ∃ s t, execute (step plainEnv) (Accounts.start 0) aliceInvites = some s ∧
      execute (step plainEnv) s [aliceCalls .Logout, .advance 0 [] []] = some t ∧
      s.db.resolveSession rawUuids s.now (uuidOf 0x35) = some (uuidOf 0x31) ∧
      t.db.resolveSession rawUuids t.now (uuidOf 0x35) = none ∧
      ∀ u, execute (step plainEnv) t bobLogsIn = some u →
      u.db.resolveSession rawUuids u.now (uuidOf 0x35) = none := by
  have hends : ((execute (step plainEnv) (Accounts.start 0) aliceInvites).bind fun s =>
      (execute (step plainEnv) s [aliceCalls .Logout, .advance 0 [] []]).map fun t =>
        (s.db.resolveSession rawUuids s.now (uuidOf 0x35), t.db.resolveSession rawUuids t.now (uuidOf 0x35),
          (t.db.sessions.get (uuidOf 0x35)).map SessionRow.revokedAt)) =
            some (some (uuidOf 0x31), none, some (some 0)) := by decide +kernel
  obtain ⟨s, hs, hends⟩ := Option.bind_eq_some_iff.mp hends
  obtain ⟨t, ht, hends⟩ := Option.map_eq_some_iff.mp hends
  obtain ⟨hbefore, hends⟩ := Prod.mk.inj hends
  obtain ⟨hafter, hrevoked⟩ := Prod.mk.inj hends
  obtain ⟨row, hrow, hrevoked⟩ := Option.map_eq_some_iff.mp hrevoked
  refine ⟨s, t, hs, ht, hbefore, hafter, ?_⟩
  intro u hu
  have hstay :=
    @identities_stay _ _ plainEnv _ _ _ ((execute_runs hs).trans (execute_runs ht)) (execute_runs hu)
  exact (hstay.2.2.2 _ row _ hrow rfl).2 (Or.inl (by rw [hrevoked]; exact Option.some_ne_none 0))

end OpenOutliner
