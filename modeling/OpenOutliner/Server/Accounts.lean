import OpenOutliner.Foundations.Machine
import OpenOutliner.Server.Cookies
import OpenOutliner.Server.Password
import OpenOutliner.Server.Receipts
import OpenOutliner.Server.Revocation

/-!
Accounts, sessions and membership: the calls that change them, as the HTTP edge lets them in, one statement
after the other.
-/

namespace OpenOutliner

open Foundations

variable {Uuid : Type} [DecidableEq Uuid]

structure UserRow where
  email : JsString
  displayName : Option JsString
  passwordHash : Option JsString
deriving DecidableEq

structure WorkspaceRow (Uuid : Type) where
  ownerId : Uuid
  name : JsString
deriving DecidableEq

/-- What the accounts need of the server's surroundings: the text forms of UUIDs, the key derivation,
`toLowerCase`, and the form that `CITEXT` compares. -/
structure AccountEnv (Uuid : Type) where
  uuids : UuidText Uuid
  scrypt : Scrypt
  toLowerCase : JsString → JsString
  citext : JsString → JsString
  sessionCookieName : JsString
  csrfCookieName : JsString
  sessionTtlMs : ℤ

def utf8Bytes : JsString → List UInt8
  | [] => []
  | [c] => String.utf8EncodeChar
      (Char.ofNat (if isHighSurrogate c || isLowSurrogate c then 0xFFFD else c.val))
  | c :: d :: rest =>
    if isHighSurrogate c && isLowSurrogate d then String.utf8EncodeChar (pairedChar c d) ++ utf8Bytes rest
    else String.utf8EncodeChar
      (Char.ofNat (if isHighSurrogate c || isLowSurrogate c then 0xFFFD else c.val)) ++
      utf8Bytes (d :: rest)

def verifyCsrfToken (cookieToken headerToken : Option JsString) : Bool :=
  match cookieToken, headerToken with
  | some cookie, some header => cookie ≠ [] && header ≠ [] && utf8Bytes cookie = utf8Bytes header
  | _, _ => false

/-- Who makes a call that changes something: a session, and the tokens that the edge has compared. -/
structure Caller (Uuid : Type) where
  userId : Uuid
  sessionId : Uuid
  cookieToken : Option JsString
  headerToken : Option JsString
  checked : verifyCsrfToken cookieToken headerToken = true

inductive AccountRequest
  | Signup (email password : JsString) (displayName workspaceName : Option JsString)
  | Login (email password : JsString)
  | Logout
  | InviteMember (workspaceId email : JsString)
  | RemoveMember (workspaceId userId : JsString)
  | CreateDocument (workspaceId : JsString) (documentId : Option JsString)

def AccountRequest.isPublic : AccountRequest → Bool
  | Signup .. | Login .. => true
  | _ => false

/-- The headers that the edge reads, and the body; `requestId` is missing where it is not a string. -/
structure HttpRequest where
  cookie : Option JsString
  csrfToken : Option JsString
  requestId : Option JsString
  body : AccountRequest

inductive AccountError
  | csrf | missingRequestId | unauthorized | rateLimited | invalidEmail | shortPassword | invalidDocumentId
  | invalidUuid
deriving DecidableEq

inductive AccountCall (Uuid : Type)
  | signupFind (email password : JsString) (displayName : Option JsString) (workspaceName : JsString)
  | signupInsert (email password : JsString) (displayName : Option JsString)
      (workspaceName passwordHash : JsString)
  | signupWorkspace (userId : Uuid) (password workspaceName : JsString)
  | signupSession (userId : Uuid) (password : JsString)
  | loginFind (email password : JsString)
  | loginSession (userId : Uuid) (password : JsString)
  | logout (caller : Caller Uuid)
  | inviteCheck (caller : Caller Uuid) (workspaceId : Uuid) (email : JsString)
  | inviteFind (caller : Caller Uuid) (workspaceId : Uuid) (email : JsString)
  | inviteInsert (caller : Caller Uuid) (workspaceId : Uuid) (email : JsString)
  | inviteAdd (caller : Caller Uuid) (workspaceId userId : Uuid)
  | removeCheck (caller : Caller Uuid) (workspaceId userId : Uuid)
  | remove (caller : Caller Uuid) (workspaceId userId : Uuid)
  | createCheck (caller : Caller Uuid) (workspaceId : Uuid) (documentId : Option Uuid)
  | create (caller : Caller Uuid) (workspaceId : Uuid) (documentId : Option Uuid)

inductive Credential
  | signup (password : JsString)
  | login (password : JsString)
deriving DecidableEq

inductive TenancyEvent (Uuid : Type)
  | founded (workspaceId ownerId : Uuid)
  | joined (workspaceId : Uuid) (caller : Caller Uuid) (userId : Uuid)

/-- `issued` and `log` are history: no statement reads them. -/
structure Accounts (Uuid : Type) where
  now : ℤ
  users : OrderedMap Uuid UserRow
  workspaces : OrderedMap Uuid (WorkspaceRow Uuid)
  db : TenancyDb Uuid
  calls : List (AccountCall Uuid)
  issued : OrderedMap Uuid Credential
  log : List (TenancyEvent Uuid)

/-- `fresh` is the id of the row that an `INSERT` may add, `salt` the random bytes of a `hashPassword`. -/
inductive AccountAction (Uuid : Type)
  | tick (ms : ℕ)
  | request (r : HttpRequest) (allowed : Bool)
  | advance (i : ℕ) (fresh : Uuid) (salt : List UInt8)
  | abort (i : ℕ)

namespace Accounts

variable (env : AccountEnv Uuid) (s : Accounts Uuid)

def start (now : ℤ) : Accounts Uuid := ⟨now, .empty, .empty, ⟨.empty, [], .empty⟩, [], .empty, []⟩

def AT : CodeUnit := 0x40

def dummyPassword : JsString :=
  js ['d', 'u', 'm', 'm', 'y', '-', 'p', 'a', 's', 's', 'w', 'o', 'r', 'd', '-', 'f', 'o', 'r', '-', 't',
    'i', 'm', 'i', 'n', 'g']

def myWorkspace : JsString := js ['M', 'y', ' ', 'W', 'o', 'r', 'k', 's', 'p', 'a', 'c', 'e']

def normalizeEmail (email : JsString) : JsString := env.toLowerCase (trim email)

def parseUuid (text : JsString) : Except AccountError Uuid :=
  match env.uuids.parse text with
  | some u => .ok u
  | none => .error .invalidUuid

def publicCall (allowed : Bool) : AccountRequest → Except AccountError (AccountCall Uuid)
  | .Signup email password displayName workspaceName =>
    if ¬ allowed then .error .rateLimited
    else
      let email := normalizeEmail env email
      if email = [] ∨ ¬ email.contains AT then .error .invalidEmail
      else if password.length < 8 then .error .shortPassword
      else .ok (.signupFind email password displayName (workspaceName.getD myWorkspace))
  | .Login email password =>
    if ¬ allowed then .error .rateLimited else .ok (.loginFind (normalizeEmail env email) password)
  | _ => .error .unauthorized

def privateCall (caller : Caller Uuid) : AccountRequest → Except AccountError (AccountCall Uuid)
  | .InviteMember workspaceId email =>
    (parseUuid env workspaceId).map fun workspace => .inviteCheck caller workspace (normalizeEmail env email)
  | .RemoveMember workspaceId userId =>
    (parseUuid env workspaceId).bind fun workspace => (parseUuid env userId).map fun user =>
    .removeCheck caller workspace user
  | .CreateDocument workspaceId none =>
    (parseUuid env workspaceId).map fun workspace => .createCheck caller workspace none
  | .CreateDocument workspaceId (some documentId) =>
    if documentId ≠ [] ∧ ¬ isBatchId documentId then .error .invalidDocumentId
    else
      (parseUuid env workspaceId).bind fun workspace =>
        (parseUuid env documentId).map fun document => .createCheck caller workspace (some document)
  | _ => .ok (.logout caller)

def openSession (cookies : CookieRecord) : Option (Uuid × Uuid) :=
  (cookies.get env.sessionCookieName).bind fun text => (env.uuids.parse text).bind fun id =>
    (s.db.resolveSession env.uuids s.now text).map fun userId => (userId, id)

def missingRequestId (r : HttpRequest) : Prop := r.requestId.getD [] = []

instance (r : HttpRequest) : Decidable (missingRequestId r) := inferInstanceAs (Decidable (_ = _))

def handle (r : HttpRequest) (allowed : Bool) : Except AccountError (AccountCall Uuid) :=
  let cookies := parseCookies r.cookie
  let cookieToken := cookies.get env.csrfCookieName
  if r.body.isPublic then if missingRequestId r then .error .missingRequestId
    else publicCall env allowed r.body
  else
    match openSession env s cookies with
    | none => .error (if missingRequestId r then .missingRequestId else .unauthorized)
    | some (userId, sessionId) =>
      if checked : verifyCsrfToken cookieToken r.csrfToken = true then
        if missingRequestId r then .error .missingRequestId
        else privateCall env ⟨userId, sessionId, cookieToken, r.csrfToken, checked⟩ r.body
      else .error .csrf

def findUserByEmail (email : JsString) : Option (Uuid × UserRow) :=
  s.users.entries.find? fun e => env.citext e.2.email = env.citext email

def createUser (fresh : Uuid) (row : UserRow) : Option (Accounts Uuid) :=
  if s.users.has fresh ∨ (s.findUserByEmail env row.email).isSome then none
  else some { s with users := s.users.set fresh row }

def createWorkspace (fresh ownerId : Uuid) (name : JsString) : Option (Accounts Uuid) :=
  if s.workspaces.has fresh then none
  else some { s with
    workspaces := s.workspaces.set fresh ⟨ownerId, name⟩
    db := { s.db with workspaceMembers := s.db.workspaceMembers ++ [⟨fresh, ownerId, .owner⟩] }
    log := .founded fresh ownerId :: s.log }

def createSession (fresh userId : Uuid) (credential : Credential) : Option (Accounts Uuid) :=
  if s.db.sessions.has fresh then none
  else some { s with
    db := { s.db with sessions := s.db.sessions.set fresh ⟨userId, s.now + env.sessionTtlMs, none⟩ }
    issued := s.issued.set fresh credential }

def addMember (workspaceId userId : Uuid) (caller : Caller Uuid) : Accounts Uuid :=
  if s.db.isWorkspaceMember workspaceId userId then s
  else { s with
    db := { s.db with workspaceMembers := s.db.workspaceMembers ++ [⟨workspaceId, userId, .member⟩] }
    log := .joined workspaceId caller userId :: s.log }

def revokeSession (id : Uuid) : Accounts Uuid :=
  match s.db.sessions.get id with
  | none => s
  | some row =>
    if row.revokedAt = none then
      { s with db := { s.db with sessions := s.db.sessions.set id { row with revokedAt := some s.now } } }
    else s

def createDocument (documentId workspaceId : Uuid) : Accounts Uuid :=
  if s.db.documents.has documentId then s
  else { s with db := { s.db with documents := s.db.documents.set documentId workspaceId } }

def storedHash (row : UserRow) : Option JsString := row.passwordHash.filter fun h => h ≠ []

/-- The comparison of a login; without a stored hash it is made with that of a constant. -/
def verifies (row : UserRow) (password : JsString) (salt : List UInt8) : Bool :=
  match storedHash row with
  | some stored => Password.verifyPassword env.scrypt password stored = some true
  | none =>
    ((Password.hashPassword env.scrypt dummyPassword salt).bind
      (Password.verifyPassword env.scrypt password)) = some true

def proceed (fresh : Uuid) (salt : List UInt8) : AccountCall Uuid → Accounts Uuid × Option (AccountCall Uuid)
  | .signupFind email password displayName workspaceName =>
    if (s.findUserByEmail env email).isSome then (s, none)
    else (s, (Password.hashPassword env.scrypt password salt).map
      (.signupInsert email password displayName workspaceName))
  | .signupInsert email password displayName workspaceName hash =>
    match s.createUser env fresh ⟨email, displayName, some hash⟩ with
    | none => (s, none)
    | some s => (s, some (.signupWorkspace fresh password workspaceName))
  | .signupWorkspace userId password workspaceName =>
    match s.createWorkspace fresh userId workspaceName with
    | none => (s, none)
    | some s => (s, some (.signupSession userId password))
  | .signupSession userId password => ((s.createSession env fresh userId (.signup password)).getD s, none)
  | .loginFind email password =>
    match s.findUserByEmail env email with
    | none => (s, none)
    | some (userId, row) =>
    (s, if verifies env row password salt then some (.loginSession userId password) else none)
  | .loginSession userId password => ((s.createSession env fresh userId (.login password)).getD s, none)
  | .logout caller => (s.revokeSession caller.sessionId, none)
  | .inviteCheck caller workspaceId email =>
    (s, if s.db.isWorkspaceMember workspaceId caller.userId
      then some (.inviteFind caller workspaceId email) else none)
  | .inviteFind caller workspaceId email =>
    match s.findUserByEmail env email with
    | some (userId, _) => (s, some (.inviteAdd caller workspaceId userId))
    | none => (s, some (.inviteInsert caller workspaceId email))
  | .inviteInsert caller workspaceId email =>
    match s.createUser env fresh ⟨email, none, none⟩ with
    | none => (s, none)
    | some s => (s, some (.inviteAdd caller workspaceId fresh))
  | .inviteAdd caller workspaceId userId => (s.addMember workspaceId userId caller, none)
  | .removeCheck caller workspaceId userId =>
    (s, if s.db.isWorkspaceMember workspaceId caller.userId
      then some (.remove caller workspaceId userId) else none)
  | .remove _ workspaceId userId => ({ s with db := (s.db.removeMember s.now workspaceId userId).1 }, none)
  | .createCheck caller workspaceId documentId =>
    (s, if s.db.isWorkspaceMember workspaceId caller.userId
      then some (.create caller workspaceId documentId) else none)
  | .create _ workspaceId documentId => (s.createDocument (documentId.getD fresh) workspaceId, none)

/-- `abort` ends a call between two statements. -/
def step (s : Accounts Uuid) : AccountAction Uuid → Option (Accounts Uuid)
  | .tick ms => some { s with now := s.now + ms }
  | .request r allowed =>
    match handle env s r allowed with
    | .error _ => none
    | .ok call => some { s with calls := s.calls ++ [call] }
  | .advance i fresh salt =>
    s.calls[i]?.map fun call =>
      let (s', next) := s.proceed env fresh salt call
      { s' with calls := match next with
        | none => s'.calls.eraseIdx i
        | some call => s'.calls.set i call }
  | .abort i => some { s with calls := s.calls.eraseIdx i }

end Accounts

end OpenOutliner
