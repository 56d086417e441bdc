import OpenOutliner.Server.Revocation
import OpenOutliner.Foundations.Machine

/-!
The registry of live connections against the attachments of the collaboration protocol, where a socket can
be attached to several documents. The registry keeps one entry for a socket.
-/

namespace OpenOutliner

open Foundations

structure TrackedConnection where
  socketId : JsString
  sessionId : JsString
  documentName : JsString
  replicaId : Option JsString
  synced : Bool
  connection : ℕ
deriving DecidableEq

structure SocketRegistry where
  bySocket : OrderedMap JsString TrackedConnection
  bySession : OrderedMap JsString (List JsString)

def REPLICA_SYNCED_PAYLOAD : JsString :=
  js ['r', 'e', 'p', 'l', 'i', 'c', 'a', '.', 's', 'y', 'n', 'c', 'e', 'd']

namespace SocketRegistry

variable (r : SocketRegistry)

def empty : SocketRegistry := ⟨.empty, .empty⟩

def register (socketId sessionId documentName : JsString) (replicaId : Option JsString) (connection : ℕ) :
    SocketRegistry where
  bySocket := r.bySocket.set socketId ⟨socketId, sessionId, documentName, replicaId, false, connection⟩
  bySession := ConnectionRegistry.addSocket r.bySession sessionId socketId

def unregister (socketId : JsString) : SocketRegistry :=
  match r.bySocket.get socketId with
  | none => r
  | some entry =>
    ⟨r.bySocket.delete socketId, ConnectionRegistry.dropSocket r.bySession entry.sessionId socketId⟩

def markSynced (socketId : JsString) : SocketRegistry :=
  match r.bySocket.get socketId with
  | none => r
  | some entry => { r with bySocket := r.bySocket.set socketId { entry with synced := true } }

def closeSession (sessionId : JsString) : List ℕ :=
  ((r.bySession.get sessionId).getD []).filterMap fun socketId =>
    (r.bySocket.get socketId).map TrackedConnection.connection

def liveSessionIds : List JsString := r.bySession.keys

def liveConnections : List TrackedConnection := r.bySocket.values

end SocketRegistry

def hasUnsyncedConnection (liveConnections : List TrackedConnection) (documentId : JsString) : Bool :=
  liveConnections.any fun entry => entry.documentName = documentId && !entry.synced

/-- A connection of a socket to a document, with the session that authenticated it and the `replicaId`
parameter. -/
structure Attachment where
  socketId : JsString
  sessionId : JsString
  documentName : JsString
  replicaId : Option JsString
  connection : ℕ
  authenticated : sessionId ≠ []

inductive ConnectionEvent
  | connected (a : Attachment)
  | stateless (socketId documentName payload : JsString)
  | disconnect (socketId documentName : JsString)

def SocketRegistry.connected (r : SocketRegistry) (socketId documentName : JsString)
    (sessionId raw : Option JsString) (connection : ℕ) : SocketRegistry :=
  match sessionId with
  | none => r
  | some [] => r
  | some sessionId => r.register socketId sessionId documentName (raw.filter isValidReplicaId) connection

def SocketRegistry.onStateless (r : SocketRegistry) (socketId payload : JsString) : SocketRegistry :=
  if payload ≠ REPLICA_SYNCED_PAYLOAD then r else r.markSynced socketId

/-- `attached` is what the protocol holds: one connection for each attached pair of a socket and a document,
synced once its client has said so. -/
structure CollabConnections where
  registry : SocketRegistry
  attached : List TrackedConnection

namespace CollabConnections

def initial : CollabConnections := ⟨.empty, []⟩

def isPair (socketId documentName : JsString) (b : TrackedConnection) : Bool :=
  b.socketId = socketId && b.documentName = documentName

def Attachment.tracked (a : Attachment) : TrackedConnection :=
  ⟨a.socketId, a.sessionId, a.documentName, a.replicaId.filter isValidReplicaId, false, a.connection⟩

def step (s : CollabConnections) : ConnectionEvent → Option CollabConnections
  | .connected a => some {
      registry := s.registry.connected a.socketId a.documentName (some a.sessionId) a.replicaId a.connection
      attached :=
  (s.attached.filter fun b => ¬ isPair a.socketId a.documentName b) ++ [Attachment.tracked a] }
  | .stateless socketId documentName payload => some {
      registry := s.registry.onStateless socketId payload
      attached := if payload ≠ REPLICA_SYNCED_PAYLOAD then s.attached
        else s.attached.map fun b => if isPair socketId documentName b then { b with synced := true } else b }
  | .disconnect socketId documentName => some {
      registry := s.registry.unregister socketId
      attached := s.attached.filter fun b => ¬ isPair socketId documentName b }

/-- What callers of the registry rely on. -/
structure RegistryExact (s : CollabConnections) : Prop where
  pairs : ∀ socketId documentName, (∃ e ∈ s.registry.liveConnections, isPair socketId documentName e = true) ↔
    ∃ b ∈ s.attached, isPair socketId documentName b = true
  sessions : ∀ sessionId, sessionId ∈ s.registry.liveSessionIds ↔ ∃ b ∈ s.attached, b.sessionId = sessionId
  reached : ∀ b ∈ s.attached, b.connection ∈ s.registry.closeSession b.sessionId
  gated : ∀ b ∈ s.attached, b.synced = false →
    hasUnsyncedConnection s.registry.liveConnections b.documentName = true

/-- The event is about the one document that its socket is attached to, if it is attached, and a connect
comes with the session of that attachment. Stateless messages other than the acknowledgement have no effect.
-/
def OneDocument (s : CollabConnections) : ConnectionEvent → Prop
  | .connected a => ∀ b ∈ s.attached, b.socketId = a.socketId → b.documentName = a.documentName ∧
      b.sessionId = a.sessionId
  | .stateless socketId documentName payload => payload = REPLICA_SYNCED_PAYLOAD →
      ∀ b ∈ s.attached, b.socketId = socketId → b.documentName = documentName
  | .disconnect socketId documentName =>
    ∀ b ∈ s.attached, b.socketId = socketId → b.documentName = documentName

instance (s : CollabConnections) : ∀ a, Decidable (OneDocument s a)
  | .connected a => inferInstanceAs (Decidable (∀ b ∈ s.attached,
      b.socketId = a.socketId → b.documentName = a.documentName ∧ b.sessionId = a.sessionId))
  | .stateless socketId documentName payload => inferInstanceAs (Decidable (payload = REPLICA_SYNCED_PAYLOAD →
      ∀ b ∈ s.attached, b.socketId = socketId → b.documentName = documentName))
  | .disconnect socketId documentName => inferInstanceAs (Decidable (∀ b ∈ s.attached,
      b.socketId = socketId → b.documentName = documentName))

end CollabConnections

section Sessions

def Listed (bySession : OrderedMap JsString (List JsString)) (sessionId socketId : JsString) : Prop :=
  socketId ∈ (bySession.get sessionId).getD []

def NoneEmpty (bySession : OrderedMap JsString (List JsString)) : Prop :=
  ∀ sessionId, bySession.get sessionId ≠ some []

variable {bySession : OrderedMap JsString (List JsString)} {sessionId socketId s x : JsString}

theorem listed_addSocket : Listed (ConnectionRegistry.addSocket bySession sessionId socketId) s x ↔
    s = sessionId ∧ x = socketId ∨ Listed bySession s x := by
  unfold Listed ConnectionRegistry.addSocket
  rw [OrderedMap.get_set]
  by_cases hs : s = sessionId
  · subst hs
    rw [if_pos rfl, Option.getD_some]
    split_ifs with hmem
    · constructor
      · exact Or.inr
      · rintro (⟨-, rfl⟩ | h)
        · exact hmem
        · exact h
    · rw [List.mem_append, List.mem_singleton]
      tauto
  · simp [hs]

theorem noneEmpty_addSocket (h : NoneEmpty bySession) :
    NoneEmpty (ConnectionRegistry.addSocket bySession sessionId socketId) := by
  intro s hempty
  rw [ConnectionRegistry.addSocket, OrderedMap.get_set] at hempty
  split_ifs at hempty with hs hmem
  · rw [Option.some.inj hempty] at hmem
    cases hmem
  · simp at hempty
  · exact h s hempty

theorem listed_dropSocket : Listed (ConnectionRegistry.dropSocket bySession sessionId socketId) s x ↔
    Listed bySession s x ∧ ¬ (s = sessionId ∧ x = socketId) := by
  unfold Listed ConnectionRegistry.dropSocket
  cases hget : bySession.get sessionId with
  | none =>
    constructor
    · intro h
      refine ⟨h, ?_⟩
      rintro ⟨rfl, -⟩
      rw [hget] at h
      cases h
    · exact And.left
  | some sockets =>
    dsimp only
    by_cases hs : s = sessionId
    · subst hs
      split_ifs with hnil
      · have hall := List.filter_eq_nil_iff.mp hnil
        simp only [OrderedMap.get_delete, ↓reduceIte, Option.getD_none, List.not_mem_nil, hget,
          Option.getD_some, true_and,
          false_iff, not_and, not_not]
        intro hx
        simpa using hall x hx
      · simp [hget]
    · split_ifs <;> simp [OrderedMap.get_delete, OrderedMap.get_set, hs]

theorem noneEmpty_dropSocket (h : NoneEmpty bySession) :
    NoneEmpty (ConnectionRegistry.dropSocket bySession sessionId socketId) := by
  unfold ConnectionRegistry.dropSocket
  cases hget : bySession.get sessionId with
  | none => exact h
  | some sockets =>
    intro s hempty
    dsimp only at hempty
    split_ifs at hempty with hnil
    · rw [OrderedMap.get_delete] at hempty
      split_ifs at hempty
      exact h s hempty
    · rw [OrderedMap.get_set] at hempty
      split_ifs at hempty
      · exact hnil (Option.some.inj hempty)
      · exact h s hempty

theorem mem_sessions (h : NoneEmpty bySession) : s ∈ bySession.keys ↔ ∃ x, Listed bySession s x := by
  rw [OrderedMap.mem_keys_iff]
  constructor
  · rintro ⟨sockets, hget⟩
    obtain ⟨x, hx⟩ := List.exists_mem_of_ne_nil sockets fun hnil => h s (hnil ▸ hget)
    refine ⟨x, ?_⟩
    rw [Listed, hget]
    exact hx
  · rintro ⟨x, hx⟩
    apply Option.isSome_iff_exists.mp
    by_contra hnone
    rw [Listed, Option.not_isSome_iff_eq_none.mp hnone] at hx
    cases hx

end Sessions

namespace CollabConnections

variable {s t : CollabConnections} {a : ConnectionEvent} {b e : TrackedConnection}
  {k documentName sessionId : JsString}

structure Inv (s : CollabConnections) : Prop where
  entries : ∀ k e, s.registry.bySocket.get k = some e ↔ e ∈ s.attached ∧ e.socketId = k
  listed : ∀ sessionId k, Listed s.registry.bySession sessionId k ↔
    ∃ e, s.registry.bySocket.get k = some e ∧ e.sessionId = sessionId
  noneEmpty : NoneEmpty s.registry.bySession

theorem Inv.initial : Inv initial where
  entries := by simp [CollabConnections.initial, SocketRegistry.empty]
  listed := by simp [CollabConnections.initial, SocketRegistry.empty, Listed]
  noneEmpty := by simp [CollabConnections.initial, SocketRegistry.empty, NoneEmpty]

theorem isPair_iff : isPair k documentName b = true ↔ b.socketId = k ∧ b.documentName = documentName := by
  simp [isPair]

namespace Inv

variable (hs : Inv s)
include hs

theorem connected {a : Attachment} (hok : OneDocument s (.connected a))
    (h : step s (.connected a) = some t) : Inv t := by
  cases h
  have hregister : s.registry.connected a.socketId a.documentName
      (some a.sessionId) a.replicaId a.connection =
      s.registry.register a.socketId a.sessionId a.documentName
        (a.replicaId.filter isValidReplicaId) a.connection := by
    unfold SocketRegistry.connected
    split
    · rename_i hnone
      cases hnone
    · rename_i hempty
      exact absurd (Option.some.inj hempty) a.authenticated
    · rename_i hsome
      rw [← Option.some.inj hsome]
  rw [hregister]
  refine ⟨?_, ?_, noneEmpty_addSocket hs.noneEmpty⟩
  · intro k e
    change (s.registry.bySocket.set _ _).get k = some e ↔ _
    rw [OrderedMap.get_set, List.mem_append, List.mem_singleton, List.mem_filter]
    split_ifs with hk
    · subst hk
      constructor
      · intro he
        have he : Attachment.tracked a = e := Option.some.inj he
        exact ⟨Or.inr he.symm, he ▸ rfl⟩
      · rintro ⟨⟨hold, hpair⟩ | rfl, hsocket⟩
        · have hdocument := (hok e hold hsocket).1
          simp [isPair, hsocket, hdocument] at hpair
        · rfl
    · rw [hs.entries]
      constructor
      · rintro ⟨hold, rfl⟩
        exact ⟨Or.inl ⟨hold, by simp [isPair, hk]⟩, rfl⟩
      · rintro ⟨⟨hold, -⟩ | rfl, hsocket⟩
        · exact ⟨hold, hsocket⟩
        · exact absurd hsocket.symm hk
  · intro sessionId k
    change Listed (ConnectionRegistry.addSocket _ _ _) _ _ ↔
      ∃ e, (s.registry.bySocket.set _ _).get k = some e ∧ _
    rw [listed_addSocket, hs.listed, OrderedMap.get_set]
    split_ifs with hk
    · subst hk
      constructor
      · rintro (⟨rfl, -⟩ | ⟨e, he, rfl⟩)
        · exact ⟨_, rfl, rfl⟩
        · obtain ⟨hold, hsocket⟩ := (hs.entries _ _).mp he
          exact ⟨_, rfl, (hok e hold hsocket).2.symm⟩
      · rintro ⟨e, he, rfl⟩
        exact Or.inl ⟨(congrArg _ (Option.some.inj he)).symm, rfl⟩
    · simp [hk]

theorem absent (hnone : s.registry.bySocket.get k = none) (hb : b ∈ s.attached) : b.socketId ≠ k := by
  intro hk
  have hget := (hs.entries k b).mpr ⟨hb, hk⟩
  rw [hnone] at hget
  cases hget

theorem stateless {k documentName payload : JsString}
    (hok : OneDocument s (.stateless k documentName payload))
    (h : step s (.stateless k documentName payload) = some t) : Inv t := by
  cases h
  unfold SocketRegistry.onStateless
  split_ifs with hpayload
  · exact hs
  have hmark : (s.attached.map fun b => if isPair k documentName b then { b with synced := true } else b) =
      s.attached.map fun b => if b.socketId = k then { b with synced := true } else b := by
    apply List.map_congr_left
    intro b hb
    by_cases hk : b.socketId = k
    · rw [if_pos (isPair_iff.mpr ⟨hk, hok (not_not.mp hpayload) b hb hk⟩), if_pos hk]
    · rw [if_neg fun hpair => hk (isPair_iff.mp hpair).1, if_neg hk]
  rw [hmark]
  unfold SocketRegistry.markSynced
  cases hget : s.registry.bySocket.get k with
  | none =>
    have hsame : (s.attached.map fun b => if b.socketId = k then { b with synced := true } else b) =
        s.attached := by
      rw [List.map_congr_left fun b hb => if_neg (hs.absent hget hb), List.map_id']
    rw [hsame]
    exact hs
  | some entry =>
    obtain ⟨hentry, hsocket⟩ := (hs.entries k entry).mp hget
    refine ⟨?_, ?_, hs.noneEmpty⟩
    · intro x e
      rw [OrderedMap.get_set, List.mem_map]
      split_ifs with hx
      · subst hx
        constructor
        · intro he
          cases he
          exact ⟨⟨entry, hentry, if_pos hsocket⟩, hsocket⟩
        · rintro ⟨⟨b, hb, rfl⟩, hbsocket⟩
          by_cases hbx : b.socketId = x
          · have hbentry := (hs.entries x b).mpr ⟨hb, hbx⟩
            rw [hget] at hbentry
            cases hbentry
            rw [if_pos hbx]
          · rw [if_neg hbx] at hbsocket
            exact absurd hbsocket hbx
      · rw [hs.entries]
        constructor
        · rintro ⟨he, rfl⟩
          exact ⟨⟨e, he, if_neg hx⟩, rfl⟩
        · rintro ⟨⟨b, hb, rfl⟩, hbsocket⟩
          by_cases hbk : b.socketId = k
          · rw [if_pos hbk] at hbsocket
            exact absurd (hbsocket.symm.trans hbk) hx
          · rw [if_neg hbk] at hbsocket ⊢
            exact ⟨hb, hbsocket⟩
    · intro sessionId x
      rw [hs.listed, OrderedMap.get_set]
      split_ifs with hx
      · subst hx
        simp [hget]
      · rfl

theorem disconnect {k documentName : JsString} (hok : OneDocument s (.disconnect k documentName))
    (h : step s (.disconnect k documentName) = some t) : Inv t := by
  cases h
  have hkept : ∀ {b}, b ∈ s.attached →
      (b ∈ s.attached.filter (fun b => ¬ isPair k documentName b) ↔ b.socketId ≠ k) := by
    intro b hb
    rw [List.mem_filter]
    constructor
    · rintro ⟨-, hpair⟩ hk
      simp [isPair, hk, hok b hb hk] at hpair
    · intro hk
      exact ⟨hb, by simp [isPair, hk]⟩
  unfold SocketRegistry.unregister
  cases hget : s.registry.bySocket.get k with
  | none =>
    refine ⟨?_, hs.listed, hs.noneEmpty⟩
    intro x e
    rw [hs.entries]
    constructor
    · rintro ⟨he, hx⟩
      exact ⟨(hkept he).mpr (hs.absent hget he), hx⟩
    · rintro ⟨he, hx⟩
      exact ⟨List.mem_of_mem_filter he, hx⟩
  | some entry =>
    refine ⟨?_, ?_, noneEmpty_dropSocket hs.noneEmpty⟩
    · intro x e
      rw [OrderedMap.get_delete]
      split_ifs with hx
      · subst hx
        constructor
        · nofun
        · rintro ⟨he, hsocket⟩
          exact absurd hsocket ((hkept (List.mem_of_mem_filter he)).mp he)
      · rw [hs.entries]
        constructor
        · rintro ⟨he, rfl⟩
          exact ⟨(hkept he).mpr hx, rfl⟩
        · rintro ⟨he, hsocket⟩
          exact ⟨List.mem_of_mem_filter he, hsocket⟩
    · intro sessionId x
      rw [listed_dropSocket, hs.listed, OrderedMap.get_delete]
      split_ifs with hx
      · subst hx
        simp [hget]
        tauto
      · simp [hx]

theorem step (hok : OneDocument s a) (h : CollabConnections.step s a = some t) : Inv t := by
  cases a with
  | connected a => exact hs.connected hok h
  | stateless k documentName payload => exact hs.stateless hok h
  | disconnect k documentName => exact hs.disconnect hok h

theorem mem_liveConnections : e ∈ s.registry.liveConnections ↔ e ∈ s.attached := by
  rw [SocketRegistry.liveConnections, OrderedMap.mem_values_iff]
  constructor
  · rintro ⟨k, hget⟩
    exact ((hs.entries k e).mp hget).1
  · intro he
    exact ⟨e.socketId, (hs.entries e.socketId e).mpr ⟨he, rfl⟩⟩

theorem registryExact : RegistryExact s where
  pairs := by
    intro k documentName
    simp only [hs.mem_liveConnections]
  sessions := by
    intro sessionId
    rw [SocketRegistry.liveSessionIds, mem_sessions hs.noneEmpty]
    constructor
    · rintro ⟨k, hk⟩
      obtain ⟨e, he, hsession⟩ := (hs.listed sessionId k).mp hk
      exact ⟨e, ((hs.entries k e).mp he).1, hsession⟩
    · rintro ⟨b, hb, hsession⟩
      exact ⟨b.socketId, (hs.listed _ _).mpr ⟨b, (hs.entries _ _).mpr ⟨hb, rfl⟩, hsession⟩⟩
  reached := by
    intro b hb
    have hget := (hs.entries _ _).mpr ⟨hb, rfl⟩
    apply List.mem_filterMap.mpr
    exact ⟨b.socketId, (hs.listed _ _).mpr ⟨b, hget, rfl⟩, by rw [hget]; rfl⟩
  gated := by
    intro b hb hsynced
    apply List.any_eq_true.mpr
    exact ⟨b, hs.mem_liveConnections.mpr hb, by simp [hsynced]⟩

end Inv

theorem registry_exact (s : CollabConnections) (hrun : Runs step OneDocument initial s) : RegistryExact s :=
  (hrun.invariant (fun hs hok h => hs.step hok h) Inv.initial).registryExact

section Example

def documentA : JsString := js ['a']

def documentB : JsString := js ['b']

def attach (documentName : JsString) (connection : ℕ) : ConnectionEvent :=
  .connected ⟨[1], [2], documentName, none, connection, by decide⟩

def oneAfterAnother : List ConnectionEvent :=
  [attach documentA 0, .stateless [1] documentA REPLICA_SYNCED_PAYLOAD, .disconnect [1] documentA,
    attach documentB 1]

theorem registry_exact_oneAfterAnother :
    ∃ s, executeIf step (fun s a => decide (OneDocument s a)) initial oneAfterAnother =
    some s ∧ s.attached.length = 1 ∧ RegistryExact s :=
  ⟨_, rfl, rfl,
    registry_exact _
    (executeIf_runs (fun _ _ => of_decide_eq_true) (rfl : executeIf _ _ _ oneAfterAnother = some _))⟩

def multiplexed : List ConnectionEvent :=
  [attach documentA 0, attach documentB 1, .stateless [1] documentB REPLICA_SYNCED_PAYLOAD]

theorem registry_multiplexed : ∃ s, execute step initial multiplexed = some s ∧ ¬ RegistryExact s ∧
    s.registry.closeSession [2] = [1] ∧ hasUnsyncedConnection s.registry.liveConnections documentA = false ∧
    ∃ b ∈ s.attached, b.documentName = documentA ∧ b.sessionId = [2] ∧ b.connection = 0 ∧
    b.synced = false := by
  refine ⟨_, rfl, ?_, by decide, by decide, by decide⟩
  intro h
  have hreached := h.reached ⟨[1], [2], documentA, none, false, 0⟩ (by decide)
  exact absurd hreached (by decide)

/-- The document that stays attached has no entry, and its session none either. -/
example : ∃ s, execute step initial [attach documentA 0, attach documentB 1, .disconnect [1] documentA] =
    some s ∧ s.registry.liveConnections = [] ∧ s.registry.liveSessionIds = [] ∧ s.attached.length = 1 :=
  ⟨_, rfl, by decide, by decide, by decide⟩

end Example

end CollabConnections

end OpenOutliner
