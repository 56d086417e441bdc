import OpenOutliner.Crdt.Replicas

namespace OpenOutliner

open Foundations

inductive StartError
  | upgradeRequired
  | thrown (e : JsError)

def legacyToken (id : JsString) : JsString := js ['l', 'e', 'g', 'a', 'c', 'y', ':'] ++ id

/-- The loop over the items; `version` was read before it. -/
def preserveTrash (version : Option ℕ) (id : JsString) (node : Node) : Node :=
  if version = none ∧ node.deleted.any DeletedRegister.isDeleted = true then
    { node with deleteRecords := some (insert (legacyToken id) (node.deleteRecords.getD ∅)) }
  else node

def Doc.initialization (doc : Doc) (rootId : JsString) : Doc :=
  ⟨some 2, some rootId, doc.items.mapEntries (preserveTrash doc.schemaVersion)⟩

section Seed

variable (lib : FractionalIndexing) (doc : Doc) (rootId : JsString) (actor : Actor)

def seedRoot : Except JsError Unit × Doc :=
  if doc.items.has rootId then (.ok (), doc) else createRoot lib doc rootId actor

def seedBullet (newId : JsString) : Except JsError Unit × Doc :=
  if doc.getChildren rootId = [] then insertItem lib doc newId rootId none actor else (.ok (), doc)

/-- `whenReady` after its waits; `newId` is minted for the first bullet. -/
def whenReady (newId : JsString) : Except StartError Unit × Doc :=
  if doc.schemaVersion ≠ none ∧ doc.schemaVersion ≠ some 2 then (.error .upgradeRequired, doc)
  else
    match seedRoot lib (doc.initialization rootId) rootId actor with
    | (.error e, doc) => (.error (.thrown e), doc)
    | (.ok (), doc) =>
      let seeded := seedBullet lib doc rootId actor newId
      (seeded.1.mapError .thrown, seeded.2)

end Seed

inductive Placed (doc : Doc) : Doc → Prop
  | refl : Placed doc doc
  | move {doc' : Doc} (id : JsString) (move : MoveRegister) :
      Placed doc doc' → Placed doc (doc'.writeMove id move)

section Placed

variable {lib : FractionalIndexing} {doc doc' : Doc} {rootId newId x : JsString} {actor : Actor}

theorem seedRoot_placed (h : Placed doc doc') : Placed doc (seedRoot lib doc' rootId actor).2 := by
  unfold seedRoot createRoot
  split_ifs
  · exact h
  · split
    · exact h
    · exact h.move _ _

theorem seedBullet_placed (h : Placed doc doc') : Placed doc (seedBullet lib doc' rootId actor newId).2 := by
  unfold seedBullet insertItem
  split_ifs
  · dsimp only
    split
    · exact h
    · exact h.move _ _
  · exact h

theorem whenReady_placed (hversion : doc.schemaVersion = none ∨ doc.schemaVersion = some 2) :
    Placed (doc.initialization rootId) (whenReady lib doc rootId actor newId).2 := by
  have hroot : Placed (doc.initialization rootId) (seedRoot lib (doc.initialization rootId) rootId actor).2 :=
    seedRoot_placed .refl
  unfold whenReady
  rw [if_neg (by tauto)]
  split
  · rename_i e d heq
    rw [heq] at hroot
    exact hroot
  · rename_i d heq
    rw [heq] at hroot
    exact seedBullet_placed hroot

end Placed

end OpenOutliner
