import OpenOutliner.Server.ReplicaSync

/-!
Removing a member of a workspace: what happens to the sessions, and to the live connections that the
sessions authenticated. Access is checked for a document when a socket connects, and later for the
session only.
-/

namespace OpenOutliner

open Foundations

variable {Uuid : Type} [DecidableEq Uuid]

structure SessionRow (Uuid : Type) where
  userId : Uuid
  expiresAt : ℤ
  revokedAt : Option ℤ
deriving DecidableEq

inductive WorkspaceRole
  | owner | member
deriving DecidableEq

structure WorkspaceMember (Uuid : Type) where
  workspaceId : Uuid
  userId : Uuid
  role : WorkspaceRole
deriving DecidableEq

/-- The tables `sessions`, `workspace_members` and, of `documents`, the workspace of each. -/
structure TenancyDb (Uuid : Type) where
  sessions : OrderedMap Uuid (SessionRow Uuid)
  workspaceMembers : List (WorkspaceMember Uuid)
  documents : OrderedMap Uuid Uuid

namespace TenancyDb

variable (uuids : UuidText Uuid) (db : TenancyDb Uuid)

def resolveSession (now : ℤ) (sessionId : JsString) : Option Uuid :=
  -- `UUID_RE` is the pattern of replica ids
  if isValidReplicaId sessionId then
    (uuids.parse sessionId).bind fun id => (db.sessions.get id).bind fun row =>
      if row.revokedAt = none ∧ now < row.expiresAt then some row.userId else none
  else none

def isWorkspaceMember (workspaceId userId : Uuid) : Bool :=
  db.workspaceMembers.any fun m => m.workspaceId = workspaceId ∧ m.userId = userId

def canAccessDocument (documentId : JsString) (userId : Uuid) : Bool :=
  (((uuids.parse documentId).bind db.documents.get).map fun workspaceId =>
    db.isWorkspaceMember workspaceId userId).getD false

def revokeSessions (userId : Uuid) (now : ℤ) : OrderedMap Uuid (SessionRow Uuid) :=
  db.sessions.mapValues fun row =>
    if row.userId = userId ∧ row.revokedAt = none then { row with revokedAt := some now } else row

structure Removal (Uuid : Type) where
  removed : Bool
  revokedSessionIds : List Uuid

def removeMember (now : ℤ) (workspaceId userId : Uuid) : TenancyDb Uuid × Removal Uuid :=
  let leaves := fun m : WorkspaceMember Uuid => m.workspaceId = workspaceId ∧ m.userId = userId ∧
      m.role ≠ .owner
  if db.workspaceMembers.all fun m => ¬ leaves m then (db, ⟨false, []⟩)
  else
    let db := { db with workspaceMembers := db.workspaceMembers.filter fun m => ¬ leaves m }
    if db.workspaceMembers.any fun m => m.userId = userId then (db, ⟨true, []⟩)
    else
      ({ db with sessions := db.revokeSessions userId now },
        ⟨true, (db.sessions.entries.filter fun e => e.2.userId = userId ∧ e.2.revokedAt = none).map Prod.fst⟩)

end TenancyDb

inductive WsAuthError
  | tooManyAttempts | noCookie | invalidSession | notAUuid | notAMember
deriving DecidableEq

def isRoomName (documentName : JsString) : Bool :=
  isValidReplicaId documentName &&
    ((documentName[14]?).any fun c => decide (0x31 ≤ c.val ∧ c.val ≤ 0x35)) &&
    (documentName[19]?).any fun c => decide (c.val ∈ [0x38, 0x39, 0x61, 0x62, 0x41, 0x42])

def resolveWsConnection (uuids : UuidText Uuid) (db : TenancyDb Uuid) (now : ℤ) (allowed : Bool)
    (documentName : JsString) (cookie : Option JsString) : Except WsAuthError (Uuid × JsString) := do
  if ¬ allowed then throw .tooManyAttempts
  let some sessionId := cookie | throw .noCookie
  let some userId := db.resolveSession uuids now sessionId | throw .invalidSession
  if ¬ isRoomName documentName then throw .notAUuid
  if ¬ db.canAccessDocument uuids documentName userId then throw .notAMember
  return (userId, sessionId)

inductive RpcError
  | unauthorized | forbidden
deriving DecidableEq

/-- The second result is what it adds to `effects.revokedSessionIds`. -/
def RemoveMember (uuids : UuidText Uuid) (db : TenancyDb Uuid) (now : ℤ) (session : Option Uuid)
    (workspaceId userId : Uuid) : Except RpcError (TenancyDb Uuid × List JsString) := do
  let some caller := session | throw .unauthorized
  if ¬ db.isWorkspaceMember workspaceId caller then throw .forbidden
  let (db, removal) := db.removeMember now workspaceId userId
  return (db, removal.revokedSessionIds.map uuids.text)

structure LiveConnection where
  socketId : JsString
  sessionId : JsString
  documentName : JsString
  connection : ℕ
deriving DecidableEq

structure ConnectionRegistry where
  bySocket : OrderedMap JsString LiveConnection
  bySession : OrderedMap JsString (List JsString)
  listed : ∀ socketId e, bySocket.get socketId = some e →
    ∃ sockets, bySession.get e.sessionId = some sockets ∧ socketId ∈ sockets

namespace ConnectionRegistry

def createConnectionRegistry : ConnectionRegistry := ⟨.empty, .empty, by simp⟩

def addSocket (bySession : OrderedMap JsString (List JsString)) (sessionId socketId : JsString) :
    OrderedMap JsString (List JsString) :=
  let sockets := (bySession.get sessionId).getD []
  bySession.set sessionId (if socketId ∈ sockets then sockets else sockets ++ [socketId])

def dropSocket (bySession : OrderedMap JsString (List JsString)) (sessionId socketId : JsString) :
    OrderedMap JsString (List JsString) :=
  match bySession.get sessionId with
  | none => bySession
  | some sockets =>
    let sockets := sockets.filter (· ≠ socketId)
    if sockets = [] then bySession.delete sessionId else bySession.set sessionId sockets

theorem addSocket_listed {bySession : OrderedMap JsString (List JsString)} {sessionId socketId s x : JsString}
    (h : s = sessionId ∧ x = socketId ∨ ∃ sockets, bySession.get s = some sockets ∧ x ∈ sockets) :
    ∃ sockets, (addSocket bySession sessionId socketId).get s = some sockets ∧ x ∈ sockets := by
  unfold addSocket
  by_cases hs : s = sessionId
  · subst hs
    refine ⟨_, OrderedMap.get_set_self _ _ _, ?_⟩
    have hx : x ∈ (bySession.get s).getD [] ∨ x = socketId := by
      rcases h with ⟨-, hx⟩ | ⟨sockets, hget, hx⟩
      · exact Or.inr hx
      · exact Or.inl (by rwa [hget])
    split
    · rename_i hmem
      exact hx.elim id fun he => he ▸ hmem
    · exact List.mem_append.mpr (hx.imp id List.mem_singleton.mpr)
  · rw [OrderedMap.get_set_of_ne _ _ hs]
    exact h.resolve_left fun he => hs he.1

def register (r : ConnectionRegistry) (e : LiveConnection) : ConnectionRegistry where
  bySocket := r.bySocket.set e.socketId e
  bySession := addSocket r.bySession e.sessionId e.socketId
  listed socketId e' h := by
    apply addSocket_listed
    rw [OrderedMap.get_set] at h
    split at h
    · rename_i hid
      exact Or.inl ⟨congrArg _ (Option.some.inj h).symm, hid⟩
    · exact Or.inr (r.listed socketId e' h)

def closeSession (r : ConnectionRegistry) (sessionId : JsString) : List ℕ :=
  ((r.bySession.get sessionId).getD []).filterMap fun socketId =>
    (r.bySocket.get socketId).map LiveConnection.connection

def liveSessionIds (r : ConnectionRegistry) : List JsString := r.bySession.keys

end ConnectionRegistry

/-- A server process: a closed connection may still be in the registry. -/
structure CollabProcess (Uuid : Type) where
  db : TenancyDb Uuid
  registry : ConnectionRegistry
  closed : List ℕ

namespace CollabProcess

variable (uuids : UuidText Uuid)

def onSessionsRevoked (p : CollabProcess Uuid) (sessionIds : List JsString) : CollabProcess Uuid :=
  { p with closed := p.closed ++ sessionIds.flatMap p.registry.closeSession }

def authHeartbeat (p : CollabProcess Uuid) (now : ℤ) : CollabProcess Uuid :=
  p.onSessionsRevoked
    (p.registry.liveSessionIds.filter fun sessionId => (p.db.resolveSession uuids now sessionId).isNone)

/-- A registered connection that is not closed, of a session of the user, on a document of the workspace. -/
structure Attached (p : CollabProcess Uuid) (workspaceId userId : Uuid) (e : LiveConnection) : Prop where
  registered : p.registry.bySocket.get e.socketId = some e
  live : e.connection ∉ p.closed
  user : ((uuids.parse e.sessionId).bind p.db.sessions.get).map SessionRow.userId = some userId
  document : (uuids.parse e.documentName).bind p.db.documents.get = some workspaceId

/-- The removal, its effects, and a tick of the heartbeat. -/
def afterRemoval (p : CollabProcess Uuid) (db : TenancyDb Uuid) (revoked : List JsString) (tick : ℤ) :
    CollabProcess Uuid :=
  (onSessionsRevoked { p with db } revoked).authHeartbeat uuids tick

end CollabProcess

def TenancyDb.OnlyMember (db : TenancyDb Uuid) (workspaceId userId : Uuid) : Prop :=
  (∃ m ∈ db.workspaceMembers, m.workspaceId = workspaceId ∧ m.userId = userId) ∧
    ∀ m ∈ db.workspaceMembers, m.userId = userId → m.workspaceId = workspaceId

section Removal

variable {uuids : UuidText Uuid} {db db' : TenancyDb Uuid} {now tick : ℤ} {workspaceId userId : Uuid}
  {session : Option Uuid} {revoked : List JsString}

theorem removeMember_onlyMember (h : db.OnlyMember workspaceId userId)
    (howner : ∀ m ∈ db.workspaceMembers, m.workspaceId = workspaceId → m.userId = userId → m.role ≠ .owner) :
    (db.removeMember now workspaceId userId).1.sessions = db.revokeSessions userId now := by
  obtain ⟨⟨m, hm, hworkspace, huser⟩, honly⟩ := h
  have hleaves : ¬ (db.workspaceMembers.all fun m =>
      decide (¬ (m.workspaceId = workspaceId ∧ m.userId = userId ∧ m.role ≠ .owner))) = true := by
    intro hall
    have hstays := List.all_eq_true.mp hall m hm
    exact of_decide_eq_true hstays ⟨hworkspace, huser, howner m hm hworkspace huser⟩
  have hgone : ¬ ((db.workspaceMembers.filter fun m =>
      decide (¬ (m.workspaceId = workspaceId ∧ m.userId = userId ∧ m.role ≠ .owner))).any fun m =>
        decide (m.userId = userId)) = true := by
    intro hany
    obtain ⟨m', hm', hu⟩ := List.any_eq_true.mp hany
    obtain ⟨hmem, hstays⟩ := List.mem_filter.mp hm'
    have hu' := of_decide_eq_true hu
    have hw' := honly m' hmem hu'
    exact of_decide_eq_true hstays ⟨hw', hu', howner m' hmem hw' hu'⟩
  simp only [TenancyDb.removeMember, if_neg hleaves, if_neg hgone]
  rfl

theorem removeMember_stillMember (now : ℤ) (h : ¬ db.OnlyMember workspaceId userId) :
    (db.removeMember now workspaceId userId).1.sessions = db.sessions ∧
      (db.removeMember now workspaceId userId).2.revokedSessionIds = [] := by
  unfold TenancyDb.removeMember
  dsimp only
  split
  · exact ⟨rfl, rfl⟩
  · rename_i hleaves
    split
    · exact ⟨rfl, rfl⟩
    · rename_i hgone
      refine absurd ⟨?_, ?_⟩ h
      · rw [List.all_eq_true, not_forall] at hleaves
        obtain ⟨m, hleaves⟩ := hleaves
        rw [Classical.not_imp, decide_eq_true_iff, not_not] at hleaves
        exact ⟨m, hleaves.1, hleaves.2.1, hleaves.2.2.1⟩
      · intro m hm huser
        by_contra hother
        apply hgone
        refine List.any_eq_true.mpr ⟨m, List.mem_filter.mpr ⟨hm, ?_⟩, decide_eq_true huser⟩
        exact decide_eq_true fun hm' => hother hm'.1

theorem removeMember_documents : (db.removeMember now workspaceId userId).1.documents = db.documents := by
  unfold TenancyDb.removeMember
  dsimp only
  split
  · rfl
  · split <;> rfl

theorem RemoveMember_ok (h : RemoveMember uuids db now session workspaceId userId = .ok (db', revoked)) :
    db' = (db.removeMember now workspaceId userId).1 ∧
      revoked = (db.removeMember now workspaceId userId).2.revokedSessionIds.map uuids.text := by
  unfold RemoveMember at h
  cases session with
  | none => cases h
  | some caller =>
    dsimp only at h
    split at h
    · cases h
    · cases h
      exact ⟨rfl, rfl⟩

theorem revokeSessions_user (id : Uuid) :
    ((db.revokeSessions userId now).get id).map SessionRow.userId =
    (db.sessions.get id).map SessionRow.userId := by
  rw [TenancyDb.revokeSessions, OrderedMap.get_mapValues, Option.map_map]
  congr 1
  funext row
  rw [Function.comp_apply]
  split <;> rfl

theorem resolveSession_revoked {sessionId : JsString} (tick : ℤ)
    (hsessions : db'.sessions = db.revokeSessions userId now)
    (huser : ((uuids.parse sessionId).bind db'.sessions.get).map SessionRow.userId = some userId) :
    db'.resolveSession uuids tick sessionId = none := by
  unfold TenancyDb.resolveSession
  split
  · cases hparse : uuids.parse sessionId with
    | none => rfl
    | some id =>
      rw [hparse, Option.bind_some, hsessions, revokeSessions_user] at huser
      obtain ⟨row, hget, hrow⟩ := Option.map_eq_some_iff.mp huser
      rw [Option.bind_some, hsessions, TenancyDb.revokeSessions, OrderedMap.get_mapValues, hget,
        Option.map_some,
        Option.bind_some]
      by_cases hlive : row.revokedAt = none
      · simp [hrow, hlive]
      · simp [hlive]
  · rfl

end Removal

section Attached

variable {uuids : UuidText Uuid} {p : CollabProcess Uuid} {db : TenancyDb Uuid} {tick : ℤ}
  {revoked : List JsString} {e : LiveConnection}

theorem mem_closeSession (r : ConnectionRegistry) (h : r.bySocket.get e.socketId = some e) :
    e.connection ∈ r.closeSession e.sessionId := by
  obtain ⟨sockets, hsockets, hmem⟩ := r.listed _ _ h
  rw [ConnectionRegistry.closeSession, hsockets]
  exact List.mem_filterMap.mpr ⟨e.socketId, hmem, by rw [h]; rfl⟩

theorem closeSession_key {r : ConnectionRegistry} {sessionId : JsString} {c : ℕ}
    (h : c ∈ r.closeSession sessionId) :
    sessionId ∈ r.liveSessionIds := by
  rw [ConnectionRegistry.liveSessionIds, OrderedMap.mem_keys_iff]
  cases hget : r.bySession.get sessionId with
  | none =>
    rw [ConnectionRegistry.closeSession, hget] at h
    cases h
  | some sockets => exact ⟨sockets, rfl⟩

theorem mem_closed {c : ℕ} : c ∈ (p.afterRemoval uuids db revoked tick).closed ↔
    c ∈ p.closed ∨ (∃ s ∈ revoked, c ∈ p.registry.closeSession s) ∨
      ∃ s, c ∈ p.registry.closeSession s ∧ db.resolveSession uuids tick s = none := by
  unfold CollabProcess.afterRemoval CollabProcess.authHeartbeat CollabProcess.onSessionsRevoked
  simp only [List.mem_append, List.mem_flatMap, List.mem_filter, Option.isNone_iff_eq_none, or_assoc]
  refine or_congr_right (or_congr_right ⟨?_, ?_⟩)
  · rintro ⟨s, ⟨-, hnone⟩, hc⟩
    exact ⟨s, hc, hnone⟩
  · rintro ⟨s, hc, hnone⟩
    exact ⟨s, ⟨closeSession_key hc, hnone⟩, hc⟩

end Attached

/-- The removal leaves the user no live connection to the workspace exactly if it is the user's only
workspace, or each connection is closed for another reason: the tick finds a session it is listed under
dead. -/
theorem RemoveMember_dropsAccess (uuids : UuidText Uuid) (p : CollabProcess Uuid) (now tick : ℤ)
    (session : Option Uuid) (workspaceId userId : Uuid) {db : TenancyDb Uuid} {revoked : List JsString}
    (hcommit : RemoveMember uuids p.db now session workspaceId userId = .ok (db, revoked))
    (howner : ∀ m ∈ p.db.workspaceMembers, m.workspaceId = workspaceId → m.userId = userId →
      m.role ≠ .owner) :
    (∀ e, ¬ (p.afterRemoval uuids db revoked tick).Attached uuids workspaceId userId e) ↔
      p.db.OnlyMember workspaceId userId ∨
        ∀ e, p.Attached uuids workspaceId userId e →
          ∃ s, e.connection ∈ p.registry.closeSession s ∧ p.db.resolveSession uuids tick s = none := by
  obtain ⟨rfl, rfl⟩ := RemoveMember_ok hcommit
  by_cases honly : p.db.OnlyMember workspaceId userId
  · refine iff_of_true ?_ (Or.inl honly)
    intro e he
    have hdead := resolveSession_revoked tick (removeMember_onlyMember honly howner) he.user
    exact he.live (mem_closed.mpr (Or.inr (Or.inr ⟨_, mem_closeSession _ he.registered, hdead⟩)))
  · obtain ⟨hsessions, hrevoked⟩ := removeMember_stillMember now honly
    have hresolve : ∀ s, (p.db.removeMember now workspaceId userId).1.resolveSession uuids tick s =
        p.db.resolveSession uuids tick s := fun s => by
      simp only [TenancyDb.resolveSession, hsessions]
    rw [or_iff_right honly]
    constructor
    · intro h e he
      by_contra hopen
      refine h e ⟨he.registered, ?_, ?_, ?_⟩
      · rw [mem_closed, hrevoked]
        simp only [hresolve]
        rintro (hclosed | ⟨s, hs, -⟩ | hdead)
        · exact he.live hclosed
        · cases hs
        · exact hopen hdead
      · change ((uuids.parse e.sessionId).bind
          (p.db.removeMember now workspaceId userId).1.sessions.get).map _ = _
        rw [hsessions]
        exact he.user
      · change (uuids.parse e.documentName).bind
          (p.db.removeMember now workspaceId userId).1.documents.get = _
        rw [removeMember_documents]
        exact he.document
    · intro h e he
      have hlive := he.live
      rw [mem_closed, not_or, not_or] at hlive
      have hpre : p.Attached uuids workspaceId userId e := by
        refine ⟨he.registered, hlive.1, ?_, ?_⟩
        · have huser : ((uuids.parse e.sessionId).bind
            (p.db.removeMember now workspaceId userId).1.sessions.get).map SessionRow.userId =
            some userId := he.user
          rwa [hsessions] at huser
        · have hdocument : (uuids.parse e.documentName).bind
            (p.db.removeMember now workspaceId userId).1.documents.get = some workspaceId := he.document
          rwa [removeMember_documents] at hdocument
      obtain ⟨s, hs, hnone⟩ := h e hpre
      exact hlive.2.2 ⟨s, hs, (hresolve s).trans hnone⟩

section Example

def rawUuids : UuidText JsString := ⟨some, id, fun _ => rfl⟩

def uuidOf (c : CodeUnit) : JsString :=
  List.replicate 8 c ++ 0x2D :: List.replicate 4 c ++ 0x2D :: 0x34 :: List.replicate 3 c ++
    0x2D :: 0x61 :: List.replicate 3 c ++ 0x2D :: List.replicate 12 c

def tenancy (others : List JsString) : TenancyDb JsString :=
  ⟨OrderedMap.empty.set (uuidOf 0x35) ⟨uuidOf 0x32, 10, none⟩,
    ⟨uuidOf 0x33, uuidOf 0x31, .owner⟩ :: ⟨uuidOf 0x33, uuidOf 0x32, .member⟩ ::
      others.map fun w => ⟨w, uuidOf 0x32, .member⟩,
    OrderedMap.empty.set (uuidOf 0x34) (uuidOf 0x33)⟩

def memberSocket : LiveConnection := ⟨[0], uuidOf 0x35, uuidOf 0x34, 0⟩

def collab (others : List JsString) : CollabProcess JsString :=
  ⟨tenancy others, ConnectionRegistry.createConnectionRegistry.register memberSocket, []⟩

theorem RemoveMember_dropsAccess_onlyWorkspace :
    ∃ db revoked, RemoveMember rawUuids (collab []).db 1 (some (uuidOf 0x31)) (uuidOf 0x33) (uuidOf 0x32) =
    .ok (db, revoked) ∧
      ∀ e, ¬ ((collab []).afterRemoval rawUuids db revoked 2).Attached rawUuids (uuidOf 0x33)
        (uuidOf 0x32) e :=
  ⟨_, _, rfl, (RemoveMember_dropsAccess rawUuids (collab []) 1 2 (some (uuidOf 0x31)) _ _ rfl (by decide)).mpr
    (Or.inl (by unfold TenancyDb.OnlyMember; decide))⟩

theorem RemoveMember_keepsAccess :
    ∃ db revoked, resolveWsConnection rawUuids (tenancy [uuidOf 0x36]) 0 true memberSocket.documentName
        (some memberSocket.sessionId) = .ok (uuidOf 0x32, memberSocket.sessionId) ∧
      RemoveMember rawUuids (collab [uuidOf 0x36]).db 1 (some (uuidOf 0x31)) (uuidOf 0x33) (uuidOf 0x32) =
      .ok (db, revoked) ∧
      (∀ m ∈ (collab [uuidOf 0x36]).db.workspaceMembers, m.workspaceId = uuidOf 0x33 →
        m.userId = uuidOf 0x32 →
        m.role ≠ .owner) ∧
      ((collab [uuidOf 0x36]).afterRemoval rawUuids db revoked 2).Attached rawUuids (uuidOf 0x33)
      (uuidOf 0x32)
        memberSocket :=
  ⟨_, _, rfl, rfl, by decide, by decide, by decide, by decide, by decide⟩

end Example

end OpenOutliner
