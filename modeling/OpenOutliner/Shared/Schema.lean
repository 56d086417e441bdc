import Mathlib.Data.List.Lex
import Mathlib.Data.Fin.Basic

/-!
Names and plain shapes of the document schema: strings as the runtime sees them,
the hybrid logical clock, the two structural registers and one item's snapshot.
-/

namespace OpenOutliner

/-- A string is the sequence of its UTF-16 code units; comparison and sorting are by code unit. -/
abbrev CodeUnit := Fin 65536

abbrev JsString := List CodeUnit

-- Literals of code units and searches in lists of strings take these instances by name.
instance codeUnits_neZero : @NeZero ℕ Zero.ofOfNat0 65536 := ⟨Nat.succ_ne_zero _⟩

instance jsString_lawfulBEq : LawfulBEq JsString := inferInstance

/-- A literal whose characters are all in the basic plane. -/
def js (cs : List Char) : JsString := cs.map fun c => Fin.ofNat 65536 c.toNat

def ROOT_PARENT_SENTINEL : JsString := js ['\x00', 'r', 'o', 'o', 't']

def isRootParent (parentId : JsString) : Bool := parentId = ROOT_PARENT_SENTINEL

inductive ItemType
  | bullet | task | heading | divider
deriving DecidableEq, Repr

structure Hlc where
  wallMs : ℤ
  counter : ℤ
  replicaId : JsString
deriving DecidableEq, Repr

structure MoveRegister where
  parentId : JsString
  rank : JsString
  hlc : Hlc
deriving DecidableEq, Repr

structure DeletedRegister where
  isDeleted : Bool
  hlc : Hlc
deriving DecidableEq, Repr

structure ItemNodeSnapshot where
  id : JsString
  move : MoveRegister
  deleted : DeletedRegister
  type : ItemType
  content : JsString
  isCompleted : Bool
  isCollapsed : Bool
  note : Option JsString
deriving DecidableEq, Repr

structure ClockContext where
  replicaId : JsString
  nowMs : ℤ
deriving DecidableEq, Repr

def tickHlc (prev : Option Hlc) (physicalNowMs : ℤ) (replicaId : JsString) : Hlc :=
  match prev with
  | none => ⟨physicalNowMs, 0, replicaId⟩
  | some prev =>
    let wallMs := max prev.wallMs physicalNowMs
    let counter := if wallMs = prev.wallMs then prev.counter + 1 else 0
    ⟨wallMs, counter, replicaId⟩

/-- Lexicographic on the wall clock, the counter and the replica; negative, zero or positive. -/
def compareHlc (a b : Hlc) : ℤ :=
  if a.wallMs ≠ b.wallMs then if a.wallMs < b.wallMs then -1 else 1
  else if a.counter ≠ b.counter then if a.counter < b.counter then -1 else 1
  else if a.replicaId ≠ b.replicaId then if a.replicaId < b.replicaId then -1 else 1
  else 0

end OpenOutliner
