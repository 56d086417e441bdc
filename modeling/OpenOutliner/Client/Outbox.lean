import OpenOutliner.Foundations.Machine
import OpenOutliner.Server.Revocation
import Mathlib.Logic.Function.Basic

/-!
The durable outbox of queued API calls. Every trigger starts a flush of its own over its own snapshot of the
queue; a flush awaits each call and each deletion, and what happens between these awaits is the step of the
model.
-/

namespace OpenOutliner

open Foundations

inductive RpcErrorCode
  | bad_request | unauthorized | forbidden | not_found | version_conflict | rate_limited | conflict | internal
deriving DecidableEq

inductive RpcAnswer
  | ok
  | error (code : RpcErrorCode)
deriving DecidableEq

structure OutboxEntry (C : Type) where
  seq : ℕ
  call : C
deriving DecidableEq

inductive FlushPhase
  | ready
  | calling (answer : Option RpcAnswer)
  | deleting
  | clearing
deriving DecidableEq

/-- What a flush does next on an answer; none where it returns. -/
def onAnswer : RpcAnswer → Option FlushPhase
  | .ok => some .deleting
  | .error .version_conflict => some .deleting
  | .error .not_found => some .deleting
  | .error .unauthorized => some .clearing
  | .error .bad_request => some .deleting
  | .error .forbidden => some .deleting
  | .error .rate_limited => none
  | .error .conflict => none
  | .error .internal => none

structure FlushLoop (C : Type) where
  current : OutboxEntry C
  rest : List (OutboxEntry C)
  phase : FlushPhase

def replayFrom {C : Type} : List (OutboxEntry C) → Option (FlushLoop C)
  | [] => none
  | entry :: rest => some ⟨entry, rest, .ready⟩

structure Handled (C : Type) where
  entry : OutboxEntry C
  answer : RpcAnswer

/-- Flushes are numbered as they start; a flush has one request under way at most. `enqueued`, `purged` and
`handled` record what has happened. -/
structure Outbox (C S : Type) where
  queue : List (OutboxEntry C)
  nextSeq : ℕ
  flushes : ℕ
  loops : ℕ → Option (FlushLoop C)
  requests : ℕ → Option (OutboxEntry C)
  server : S
  enqueued : List (OutboxEntry C)
  purged : List (OutboxEntry C)
  handled : List (Handled C)

/-- `arrive` lets the server refuse a request before its handler runs; `stop` is a call or a local write
that failed, or a closed page. -/
inductive OutboxAction (C : Type)
  | enqueue (call : C)
  | flush
  | send (i : ℕ)
  | arrive (i : ℕ) (refusal : Option RpcErrorCode)
  | lose (i : ℕ)
  | receive (i : ℕ)
  | deleted (i : ℕ)
  | cleared (i : ℕ)
  | stop (i : ℕ)

section Server

variable {C S : Type} (serve : C → S → Except RpcErrorCode S)

def answerTo (refusal : Option RpcErrorCode) (call : C) (server : S) : RpcAnswer :=
  match refusal with
  | some code => .error code
  | none =>
    match serve call server with
    | .ok _ => .ok
    | .error code => .error code

def perform (server : S) (h : Handled C) : S :=
  match h.answer, serve h.entry.call server with
  | .ok, .ok server' => server'
  | _, _ => server

end Server

section Membership

variable {Uuid : Type} [DecidableEq Uuid]

def TenancyDb.addMember (db : TenancyDb Uuid) (workspaceId userId : Uuid) : TenancyDb Uuid :=
  if db.isWorkspaceMember workspaceId userId then db
  else { db with workspaceMembers := db.workspaceMembers ++ [⟨workspaceId, userId, .member⟩] }

inductive MembershipCall (Uuid : Type)
  | InviteMember (workspaceId : Uuid) (email : JsString)
  | RemoveMember (workspaceId userId : Uuid)
deriving DecidableEq

structure MembershipDb (Uuid : Type) where
  db : TenancyDb Uuid
  users : OrderedMap JsString Uuid

/-- `canonical` trims an address and puts it in lower case; a new user gets the id `newId`. -/
def InviteMember (canonical : JsString → JsString) (newId : OrderedMap JsString Uuid → Uuid)
    (server : MembershipDb Uuid) (session : Option Uuid) (workspaceId : Uuid) (email : JsString) :
    Except RpcError (MembershipDb Uuid) := do
  let some caller := session | throw .unauthorized
  if ¬ server.db.isWorkspaceMember workspaceId caller then throw .forbidden
  match server.users.get (canonical email) with
  | some invited => return { server with db := server.db.addMember workspaceId invited }
  | none =>
    let created := newId server.users
    return ⟨server.db.addMember workspaceId created, server.users.set (canonical email) created⟩

def RpcError.code : RpcError → RpcErrorCode
  | .unauthorized => .unauthorized
  | .forbidden => .forbidden

def serveMembership (canonical : JsString → JsString) (newId : OrderedMap JsString Uuid → Uuid)
    (uuids : UuidText Uuid)
    (now : ℤ) (session : Option Uuid) (call : MembershipCall Uuid) (server : MembershipDb Uuid) :
    Except RpcErrorCode (MembershipDb Uuid) :=
  match call with
  | .InviteMember workspaceId email =>
    (InviteMember canonical newId server session workspaceId email).mapError RpcError.code
  | .RemoveMember workspaceId userId =>
    ((RemoveMember uuids server.db now session workspaceId userId).map fun r =>
      { server with db := r.1 }).mapError
      RpcError.code

end Membership

namespace Outbox

variable {C S : Type} (serve : C → S → Except RpcErrorCode S) (s : Outbox C S)

def enqueue (call : C) : Outbox C S :=
  { s with
    queue := s.queue ++ [⟨s.nextSeq, call⟩]
    nextSeq := s.nextSeq + 1
    enqueued := s.enqueued ++ [⟨s.nextSeq, call⟩] }

def setLoop (i : ℕ) (l : Option (FlushLoop C)) : Outbox C S := { s with loops := Function.update s.loops i l }

def flushOutbox : Outbox C S := { s.setLoop s.flushes (replayFrom s.queue) with flushes := s.flushes + 1 }

def sendCall (i : ℕ) (entry : OutboxEntry C) (rest : List (OutboxEntry C)) : Outbox C S :=
  { s.setLoop i (some ⟨entry, rest, .calling none⟩) with
    requests := Function.update s.requests i (some entry) }

def handle (i : ℕ) (entry : OutboxEntry C) (answer : RpcAnswer) : Outbox C S :=
  { s.setLoop i ((s.loops i).map fun l => { l with phase := .calling (some answer) }) with
    requests := Function.update s.requests i none
    server := perform serve s.server ⟨entry, answer⟩
    handled := s.handled ++ [⟨entry, answer⟩] }

def loseRequest (i : ℕ) : Outbox C S := { s with requests := Function.update s.requests i none }

def deleteEntry (i : ℕ) (entry : OutboxEntry C) (rest : List (OutboxEntry C)) : Outbox C S :=
  { s.setLoop i (replayFrom rest) with queue := s.queue.filter fun e => e.seq ≠ entry.seq }

def clear (i : ℕ) : Outbox C S := { s.setLoop i none with queue := [], purged := s.purged ++ s.queue }

def step (s : Outbox C S) : OutboxAction C → Option (Outbox C S)
  | .enqueue call => some (s.enqueue call)
  | .flush => some s.flushOutbox
  | .send i =>
    match s.loops i with
    | some ⟨entry, rest, .ready⟩ => some (s.sendCall i entry rest)
    | _ => none
  | .arrive i refusal =>
    (s.requests i).map fun entry => s.handle serve i entry (answerTo serve refusal entry.call s.server)
  | .lose i => some (s.loseRequest i)
  | .receive i =>
    match s.loops i with
    | some ⟨entry, rest, .calling (some answer)⟩ =>
      some (s.setLoop i ((onAnswer answer).map fun phase => ⟨entry, rest, phase⟩))
    | _ => none
  | .deleted i =>
    match s.loops i with
    | some ⟨entry, rest, .deleting⟩ => some (s.deleteEntry i entry rest)
    | _ => none
  | .cleared i =>
    match s.loops i with
    | some ⟨_, _, .clearing⟩ => some (s.clear i)
    | _ => none
  | .stop i => some (s.setLoop i none)

def initial (server : S) : Outbox C S := ⟨[], 1, 0, fun _ => none, fun _ => none, server, [], [], []⟩

/-- The entry was answered so that it leaves the queue. -/
def Settled (e : OutboxEntry C) : Prop := ∃ h ∈ s.handled, h.entry = e ∧ onAnswer h.answer = some .deleting

/-- What the replay promises: requests take effect in the order of the keys, an entry only after those
before it were settled, and nothing leaves the queue that was not settled or purged with a dead session. -/
structure SerialFifo (server : S) (s : Outbox C S) : Prop where
  effect : s.server = s.handled.foldl (perform serve) server
  ordered : s.handled.Pairwise fun a b => a.entry.seq ≤ b.entry.seq
  inTurn : ∀ e ∈ s.enqueued, ∀ h ∈ s.handled, e.seq < h.entry.seq → s.Settled e ∨ e ∈ s.purged
  kept : ∀ e ∈ s.enqueued, e ∈ s.queue ∨ s.Settled e ∨ e ∈ s.purged

end Outbox

namespace FlushLoop

variable {C : Type}

def entries (l : FlushLoop C) : List (OutboxEntry C) := l.current :: l.rest

def unsent (l : FlushLoop C) : List (OutboxEntry C) :=
  match l.phase with
  | .ready => l.entries
  | .clearing => []
  | _ => l.rest

end FlushLoop

namespace Outbox

variable {C S : Type}

def Sends (s : Outbox C S) (i : ℕ) (e : OutboxEntry C) : Prop :=
  s.requests i = some e ∨ ∃ l, s.loops i = some l ∧ e ∈ l.unsent

/-- A flush may start where no other entry than a single queued one can still be sent by an earlier flush. -/
def Unrivalled (s : Outbox C S) : OutboxAction C → Prop
  | .flush => ∀ i e, s.Sends i e → ∀ e' ∈ s.queue, e' = e
  | _ => True

end Outbox

end OpenOutliner
