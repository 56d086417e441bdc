import OpenOutliner.Foundations.Broadcast
import OpenOutliner.Foundations.Machine
import OpenOutliner.Shared.Schema
import Mathlib.Data.Finset.Union

/-!
The duel over a copied replica id. A tab reads or mints its id and announces it on a channel; a tab that
hears its own id announced answers that it is taken, and a tab that hears its own id taken mints another.
-/

namespace OpenOutliner

open Foundations

def CLAIM : JsString := js ['c', 'l', 'a', 'i', 'm', ':']

def TAKEN : JsString := js ['t', 'a', 'k', 'e', 'n', ':']

def getOrCreateReplicaId (stored : Option JsString) (fresh : JsString) : JsString × Option JsString :=
  match stored.filter (· ≠ []) with
  | some existing => (existing, stored)
  | none => (fresh, some fresh)

theorem claim_injective {x y : JsString} (h : CLAIM ++ x = CLAIM ++ y) : x = y := List.append_cancel_left h

theorem taken_injective {x y : JsString} (h : TAKEN ++ x = TAKEN ++ y) : x = y := List.append_cancel_left h

theorem claim_ne_taken (x y : JsString) : CLAIM ++ x ≠ TAKEN ++ y := by
  intro h
  have hhead := congrArg List.head? h
  rw [List.head?_append_of_ne_nil _ (by decide), List.head?_append_of_ne_nil _ (by decide)] at hhead
  exact absurd hhead (by decide)

/-- `storage` is the session storage of each tab under the replica id key, `id` what each tab that ran
`claimReplicaId` holds. `used` and `changes` only observe: the ids held so far, and how often a tab changed
its id. -/
structure Tabs (T : Type) where
  storage : T → Option JsString
  id : T → JsString
  claimed : Finset T
  channel : Channel T JsString
  used : Finset JsString
  changes : T → ℕ

/-- `fresh` is what `mint` would return. -/
inductive TabStep (T : Type)
  | duplicate (source copy : T)
  | claim (t : T) (fresh : JsString)
  | deliver (t : T) (message fresh : JsString)
  | stop (t : T)

namespace Tabs

variable {T : Type} [DecidableEq T]

def start (storage : T → Option JsString) : Tabs T := ⟨storage, fun _ => [], ∅, ⟨∅, 0⟩, ∅, fun _ => 0⟩

/-- A duplicated tab starts with a copy of the storage. -/
def duplicate (s : Tabs T) (source copy : T) : Tabs T :=
  { s with storage := Function.update s.storage copy (s.storage source) }

def claimReplicaId (s : Tabs T) (t : T) (fresh : JsString) : Tabs T :=
  let (id, stored) := getOrCreateReplicaId (s.storage t) fresh
  { s with
    storage := Function.update s.storage t stored
    id := Function.update s.id t id
    claimed := insert t s.claimed
    channel := (s.channel.attach t).post t (CLAIM ++ id)
    used := insert id s.used }

def onmessage (s : Tabs T) (t : T) (message fresh : JsString) : Tabs T :=
  if message = CLAIM ++ s.id t then { s with channel := s.channel.post t (TAKEN ++ s.id t) }
  else if message = TAKEN ++ s.id t then
    { storage := Function.update s.storage t (some fresh)
      id := Function.update s.id t fresh
      claimed := s.claimed
      channel := s.channel.post t (CLAIM ++ fresh)
      used := insert fresh s.used
      changes := Function.update s.changes t (s.changes t + 1) }
  else s

def step (s : Tabs T) : TabStep T → Option (Tabs T)
  | .duplicate source copy => if copy ∈ s.claimed then none else some (s.duplicate source copy)
  | .claim t fresh => if t ∈ s.claimed then none else some (s.claimReplicaId t fresh)
  | .deliver t message fresh =>
    (s.channel.take t message).map fun c => { s with channel := c }.onmessage t message fresh
  | .stop t => if t ∈ s.channel.listeners then some { s with channel := s.channel.close t } else none

def Unused (s : Tabs T) (fresh : JsString) : Prop := fresh ∉ s.used ∧ ∀ t, s.storage t ≠ some fresh

/-- `mint` returns globally fresh ids. -/
def Mints (s : Tabs T) : TabStep T → Prop
  | .claim _ fresh => s.Unused fresh
  | .deliver _ _ fresh => s.Unused fresh
  | _ => True

end Tabs

end OpenOutliner
