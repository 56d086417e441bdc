import OpenOutliner.Client.PortableRoundTrip
import OpenOutliner.Crdt.VisibleOrder

namespace OpenOutliner

open Foundations Relation

def NEWLINE : CodeUnit := 0x0A

def SPACE : CodeUnit := 0x20

def indentation (depth : ℕ) : JsString := List.replicate (2 * depth) SPACE

def oneLine (s : JsString) : JsString := s.map fun c => if c = NEWLINE then SPACE else c

def bulletLine (depth : ℕ) (isCompleted : Bool) (type : ItemType) (content : JsString) : JsString :=
  indentation depth ++ js ['-', ' '] ++
    (if isCompleted then js ['[', 'x', ']', ' '] else if type = .task then js ['[', ' ', ']', ' ']
      else []) ++ oneLine content

def noteLine (depth : ℕ) (note : JsString) : JsString :=
  indentation (depth + 1) ++ js ['>', ' '] ++ oneLine note

def entryLines (depth : ℕ) (isCompleted : Bool) (type : ItemType) (content note : JsString) : List JsString :=
  bulletLine depth isCompleted type content :: if note = [] then [] else [noteLine depth note]

def joinLines (lines : List JsString) : JsString := [NEWLINE].intercalate lines

section Export

variable (localeCompare : JsString → JsString → ℤ)

def compareEntries (a b : PortableItem) : ℤ :=
  if a.rank < b.rank then -1 else if b.rank < a.rank then 1 else localeCompare a.id b.id

def entryGroup (items : List PortableItem) (parentId : JsString) : List PortableItem :=
  (items.filter fun i => i.parentId = some parentId).insertionSort fun a b =>
    compareEntries localeCompare a b ≤ 0

def headerLines (value : PortableDocument) : List JsString := [js ['#', ' '] ++ value.title, []]

/-- The `lines` array; without a root the read of its id throws. -/
def markdownLinesWithin (fuel : ℕ) (value : PortableDocument) : Option (Except JsError (List JsString)) :=
  match value.items.find? fun i => i.parentId = none with
  | none => some (.error .undefinedProperty)
  | some root =>
    (drain (fun i => entryGroup localeCompare value.items i.id) fuel []
        ((entryGroup localeCompare value.items root.id).map fun i => (i, 0))).map fun out =>
      .ok (headerLines value ++ out.flatMap fun e =>
        entryLines e.2 e.1.isCompleted e.1.type e.1.content e.1.note)

def markdownWithin (fuel : ℕ) (value : PortableDocument) : Option (Except JsError JsString) :=
  (markdownLinesWithin localeCompare fuel value).map fun lines => lines.map fun l => joinLines l ++ [NEWLINE]

end Export

def isLowerHex (c : CodeUnit) : Bool := 0x30 ≤ c.val && c.val ≤ 0x39 || 0x61 ≤ c.val && c.val ≤ 0x66

def isLowerUuid (id : JsString) : Bool :=
  decide (id.length = 36) && id.zipIdx.all fun e => if e.2 ∈ [8, 13, 18, 23] then decide (e.1 = 0x2D)
    else isLowerHex e.1

/-- On UUIDs the locale sorts by code unit. -/
def SortsUuids (localeCompare : JsString → JsString → ℤ) : Prop :=
  ∀ a b, isLowerUuid a = true → isLowerUuid b = true → (localeCompare a b ≤ 0 ↔ a ≤ b)

def Doc.snapshotOf (doc : Doc) (id : JsString) : Option ItemNodeSnapshot :=
  (doc.items.get id).bind (readNodeSnapshot doc.schemaVersion id)

def rowLines (doc : Doc) (row : VisibleRow) : List JsString :=
  match doc.snapshotOf row.id with
  | none => []
  | some s => entryLines row.depth s.isCompleted s.type s.content (s.note.getD [])

/-- After the header there is a bullet line for each row, with the row's item and depth, and its note line
after it. -/
structure FollowsScreen (doc : Doc) (rows : List VisibleRow) (header lines : List JsString) : Prop where
  lines : lines = header ++ rows.flatMap (rowLines doc)
  known : ∀ row ∈ rows, (doc.snapshotOf row.id).isSome = true
  whole : ∀ row ∈ rows, ∀ line ∈ rowLines doc row, NEWLINE ∉ line

section Lines

variable {doc : Doc} {row : VisibleRow} {s : ItemNodeSnapshot} {line : JsString}

theorem snapshotOf_mem (hs : s ∈ doc.readAllSnapshots) : doc.snapshotOf s.id = some s := by
  obtain ⟨e, he, hread⟩ := List.mem_filterMap.mp hs
  have hid : s.id = e.1 := by
    obtain ⟨move, -, rfl⟩ := Option.map_eq_some_iff.mp hread
    rfl
  rw [Doc.snapshotOf, hid, (OrderedMap.mem_entries_iff _ e.1 e.2).mp he, Option.bind_some, hread]

theorem oneLine_whole (t : JsString) : NEWLINE ∉ oneLine t := by
  intro h
  obtain ⟨c, -, hc⟩ := List.mem_map.mp h
  split_ifs at hc with he
  · exact absurd hc (by decide)
  · exact he hc

theorem indentation_whole (depth : ℕ) : NEWLINE ∉ indentation depth := by
  intro h
  exact absurd (List.eq_of_mem_replicate h) (by decide)

theorem entryLines_whole (depth : ℕ) (isCompleted : Bool) (type : ItemType) (content note : JsString) :
    ∀ line ∈ entryLines depth isCompleted type content note, NEWLINE ∉ line := by
  have hbullet : NEWLINE ∉ bulletLine depth isCompleted type content := by
    unfold bulletLine
    simp only [List.mem_append, not_or]
    refine ⟨⟨⟨indentation_whole depth, by decide⟩, ?_⟩, oneLine_whole content⟩
    split_ifs
    · decide
    · decide
    · exact List.not_mem_nil
  have hnote : NEWLINE ∉ noteLine depth note := by
    unfold noteLine
    simp only [List.mem_append, not_or]
    exact ⟨⟨indentation_whole (depth + 1), by decide⟩, oneLine_whole note⟩
  intro line hline
  rcases List.mem_cons.mp hline with rfl | hline
  · exact hbullet
  · split_ifs at hline
    · cases hline
    · rw [List.mem_singleton.mp hline]
      exact hnote

theorem rowLines_whole (hline : line ∈ rowLines doc row) : NEWLINE ∉ line := by
  unfold rowLines at hline
  split at hline
  · cases hline
  · exact entryLines_whole _ _ _ _ _ line hline

end Lines

section Groups

variable {localeCompare : JsString → JsString → ℤ} (hlocale : SortsUuids localeCompare)
  {items : List PortableItem} (huuid : ∀ i ∈ items, isLowerUuid i.id = true)

include hlocale huuid

theorem compareEntries_le_iff {a b : PortableItem} (ha : a ∈ items) (hb : b ∈ items) :
    compareEntries localeCompare a b ≤ 0 ↔ compareOrder a b ≤ 0 := by
  rw [compareOrder_le_iff]
  change _ ↔ a.rank < b.rank ∨ a.rank = b.rank ∧ a.id ≤ b.id
  unfold compareEntries
  split_ifs with hlt hgt
  · simp [hlt]
  · simp [hgt.not_gt, hgt.ne']
  · rw [hlocale a.id b.id (huuid a ha) (huuid b hb)]
    simp [le_antisymm (not_lt.mp hgt) (not_lt.mp hlt)]

theorem entryGroup_eq (p : JsString) : entryGroup localeCompare items p = siblingGroup items (some p) := by
  unfold entryGroup siblingGroup sortSiblings
  have hmap :=
    List.map_insertionSort (fun a b => compareEntries localeCompare a b ≤ 0)
      (fun a b => compareOrder a b ≤ 0) id
    (items.filter fun i => i.parentId = some p) fun a ha b hb =>
      compareEntries_le_iff hlocale huuid (List.mem_of_mem_filter ha) (List.mem_of_mem_filter hb)
  rwa [List.map_id, List.map_id] at hmap

end Groups

section Screen

variable {localeCompare : JsString → JsString → ℤ} {d : TitledDoc} {rootId : JsString}
  (hlocale : SortsUuids localeCompare)
  (hget : d.doc.getRootId = some rootId) (hpresent : rootId ∈ d.doc.readAllSnapshots.map ItemNodeSnapshot.id)
  (huuid : ∀ s ∈ d.doc.readAllSnapshots, isLowerUuid s.id = true)

include hget huuid

theorem exported_uuid : ∀ i ∈ (portableDocument localeCompare d false).items, isLowerUuid i.id = true := by
  intro i hi
  obtain ⟨n, hn, -, rfl⟩ := (mem_portableDocument hget).mp hi
  exact huuid n hn

include hlocale hpresent

theorem entryGroup_ids (p : JsString) :
    (entryGroup localeCompare (portableDocument localeCompare d false).items p).map PortableItem.id =
    d.doc.childIds p := by
  have hnd : ((portableDocument localeCompare d false).items.map PortableItem.id).Nodup :=
    portableDocument_nodup
  rw [exported_childIds localeCompare false hget hpresent p, entryGroup_eq hlocale (exported_uuid hget huuid)]
  unfold liveGroup
  rw [List.filter_eq_self.mpr]
  intro i hi
  obtain ⟨n, hn, hkeep, rfl⟩ := (mem_portableDocument hget).mp (mem_siblingGroup.mp hi).1
  simp only [decide_eq_true_eq]
  intro htrash
  have hlive : n.id ∉ (snapshotTree d.doc.readAllSnapshots rootId).deleted := hkeep.2.resolve_left (by simp)
  exact hlive ((exported_trashed hget hpresent hkeep).mp htrash)

theorem entryGroup_listing :
    ∃ out, Listing (fun i => entryGroup localeCompare (portableDocument localeCompare d false).items i.id)
      (entryGroup localeCompare (portableDocument localeCompare d false).items rootId) 0 out ∧
    (d.doc.visibleRows rootId fun _ => false).map
    (fun row => (row.id, row.depth)) = out.map fun e => (e.1.id, e.2) := by
  have hids := entryGroup_ids hlocale hget hpresent huuid
  have hwf : WellFounded (ChildOf fun i : PortableItem =>
      entryGroup localeCompare (portableDocument localeCompare d false).items i.id) := by
    apply Subrelation.wf _ (InvImage.wf PortableItem.id (Doc.childIds_wellFounded hget))
    intro c p h
    change c.id ∈ d.doc.childIds p.id
    rw [← hids]
    exact List.mem_map_of_mem h
  obtain ⟨out, hout⟩ :=
    exists_listing hwf (entryGroup localeCompare (portableDocument localeCompare d false).items rootId) 0
  refine ⟨out, hout, ?_⟩
  have hmapped := hout.map PortableItem.id fun i => (hids i.id).symm
  rw [hids] at hmapped
  obtain ⟨hrows, -⟩ := d.doc.visibleRows_listing (fun _ => false) hget rootId
  have hshown : d.doc.shownIds (fun _ => false) = d.doc.childIds := by
    funext x
    simp [Doc.shownIds]
  rw [hshown] at hrows
  exact hrows.unique hmapped

omit hlocale hget hpresent huuid in
theorem entry_exported {items : List PortableItem} {root : JsString} {out : List (PortableItem × ℕ)}
    (hout : Listing (fun i => entryGroup localeCompare items i.id)
      (entryGroup localeCompare items root) 0 out) :
    ∀ e ∈ out, e.1 ∈ items := by
  have hgroup : ∀ p, ∀ i ∈ entryGroup localeCompare items p, i ∈ items := fun p i hi =>
    List.mem_of_mem_filter ((List.mem_insertionSort _).mp hi)
  intro e he
  obtain ⟨x, hx, hex⟩ := (hout.mem_iff e.1).mp (List.mem_map_of_mem he)
  rcases ReflTransGen.cases_head hex with heq | ⟨m, hm, -⟩
  · rw [heq]
    exact hgroup root x hx
  · exact hgroup m.id e.1 hm

omit hlocale hget hpresent huuid in
theorem entry_lines {items : List PortableItem} {out : List (PortableItem × ℕ)} {rows : List VisibleRow}
    (hitems : ∀ i ∈ items, ∃ n ∈ d.doc.readAllSnapshots,
      i = portableItem (snapshotTree d.doc.readAllSnapshots rootId) rootId false n)
    (hout : ∀ e ∈ out, e.1 ∈ items)
    (hrows : rows.map (fun row => (row.id, row.depth)) = out.map fun e => (e.1.id, e.2)) :
    (out.flatMap fun e => entryLines e.2 e.1.isCompleted e.1.type e.1.content e.1.note) =
      rows.flatMap (rowLines d.doc) := by
  have hread : ∀ e ∈ out, entryLines e.2 e.1.isCompleted e.1.type e.1.content e.1.note =
      rowLines d.doc ⟨e.1.id, e.2, false⟩ := by
    rintro ⟨i, depth⟩ he
    obtain ⟨n, hn, rfl⟩ := hitems i (hout _ he)
    unfold rowLines
    dsimp only [portableItem]
    rw [snapshotOf_mem hn]
  calc (out.flatMap fun e => entryLines e.2 e.1.isCompleted e.1.type e.1.content e.1.note)
      = out.flatMap fun e => rowLines d.doc ⟨e.1.id, e.2, false⟩ := List.flatMap_congr hread
    _ = (out.map fun e => (e.1.id, e.2)).flatMap fun e => rowLines d.doc ⟨e.1, e.2, false⟩ := by
      rw [List.flatMap_map]
    _ = rows.flatMap (rowLines d.doc) := by
      rw [← hrows, List.flatMap_map]
      rfl

end Screen

/-- The export of a document shows its outline, and the loop ends within a turn for each item and one to
stop. The header is one entry of the list and a blank one; a title with a line break makes it longer in the
text. -/
theorem markdown_followsScreen {localeCompare : JsString → JsString → ℤ} {d : TitledDoc} {rootId : JsString}
    (hlocale : SortsUuids localeCompare) (hget : d.doc.getRootId = some rootId)
    (hpresent : rootId ∈ d.doc.readAllSnapshots.map ItemNodeSnapshot.id)
    (huuid : ∀ s ∈ d.doc.readAllSnapshots, isLowerUuid s.id = true) (fuel : ℕ)
    (hfuel : (portableDocument localeCompare d false).items.length < fuel) :
    ∃ lines, markdownLinesWithin localeCompare fuel (portableDocument localeCompare d false) =
    some (.ok lines) ∧
      markdownWithin localeCompare fuel (portableDocument localeCompare d false) =
      some (.ok (joinLines lines ++ [NEWLINE])) ∧
      FollowsScreen d.doc (d.doc.visibleRows rootId fun _ => false)
        (headerLines (portableDocument localeCompare d false)) lines := by
  have hplain : rootId ≠ ROOT_PARENT_SENTINEL := by
    rintro rfl
    obtain ⟨n, hn, hid⟩ := List.mem_map.mp hpresent
    have hroot := huuid n hn
    rw [hid] at hroot
    exact absurd hroot (by decide)
  obtain ⟨root, hrid, ht⟩ : ∃ root, root.id = rootId ∧
      IsPortableTree (portableDocument localeCompare d false).items root :=
    portableDocument_isTree hget hpresent hplain
  have hfind : ((portableDocument localeCompare d false).items.find? fun i => i.parentId = none) =
      some root := by
    rw [← List.head?_filter]
    exact congrArg List.head? ht.root_rooted
  obtain ⟨out, hout, hrows⟩ := entryGroup_listing hlocale hget hpresent huuid
  have hmem := entry_exported hout
  have hitems : ∀ i ∈ (portableDocument localeCompare d false).items, ∃ n ∈ d.doc.readAllSnapshots,
      i = portableItem (snapshotTree d.doc.readAllSnapshots rootId) rootId false n := by
    intro i hi
    obtain ⟨n, hn, -, rfl⟩ := (mem_portableDocument hget).mp hi
    exact ⟨n, hn, rfl⟩
  have hids : (d.doc.visibleRows rootId fun _ => false).map VisibleRow.id =
      (out.map Prod.fst).map PortableItem.id := by
    calc (d.doc.visibleRows rootId fun _ => false).map VisibleRow.id
        = ((d.doc.visibleRows rootId fun _ => false).map fun row => (row.id, row.depth)).map Prod.fst := by
          rw [List.map_map]
          rfl
      _ = (out.map Prod.fst).map PortableItem.id := by
          rw [hrows, List.map_map, List.map_map]
          rfl
  have hlen : out.length ≤ (portableDocument localeCompare d false).items.length := by
    have honce := (visibleRows_preorder hget rootId fun _ => false).once
    rw [hids] at honce
    have hsub : (out.map Prod.fst).map PortableItem.id ⊆
        (portableDocument localeCompare d false).items.map PortableItem.id := by
      apply List.map_subset
      intro i hi
      obtain ⟨e, he, rfl⟩ := List.mem_map.mp hi
      exact hmem e he
    have hle := (List.subperm_of_subset honce hsub).length_le
    simpa using hle
  have hlines : markdownLinesWithin localeCompare fuel (portableDocument localeCompare d false) =
      some (.ok (headerLines (portableDocument localeCompare d false) ++
        out.flatMap fun e => entryLines e.2 e.1.isCompleted e.1.type e.1.content e.1.note)) := by
    unfold markdownLinesWithin
    rw [hfind]
    dsimp only
    rw [hrid, drain_eq hout (hlen.trans_lt hfuel), Option.map_some]
  refine ⟨_, hlines, ?_, ?_, ?_, ?_⟩
  · unfold markdownWithin
    rw [hlines]
    rfl
  · rw [entry_lines hitems hmem hrows]
  · intro row hrow
    have hid : row.id ∈ (out.map Prod.fst).map PortableItem.id := hids ▸ List.mem_map_of_mem hrow
    obtain ⟨i, hi, hid⟩ := List.mem_map.mp hid
    obtain ⟨e, he, rfl⟩ := List.mem_map.mp hi
    obtain ⟨n, hn, heq⟩ := hitems e.1 (hmem e he)
    have hrow' : row.id = n.id := by
      rw [← hid, heq]
      rfl
    rw [hrow', snapshotOf_mem hn]
    rfl
  · intro row _ line hline
    exact rowLines_whole hline

section Examples

def uuidText (c : Char) : JsString :=
  js [c, c, c, c, c, c, c, c, '-', c, c, c, c, '-', c, c, c, c, '-', c, c, c, c, '-',
  c, c, c, c, c, c, c, c, c, c, c, c]

def compareUnits (a b : JsString) : ℤ := if a < b then -1 else if b < a then 1 else 0

theorem compareUnits_sorts : SortsUuids compareUnits := by
  intro a b _ _
  unfold compareUnits
  split_ifs with hlt hgt
  · simp [hlt.le]
  · simp [hgt]
  · simp [not_lt.mp hgt]

def uuidOutline : TitledDoc :=
  ⟨none, placedDoc (uuidText '0') [(uuidText '0', ROOT_PARENT_SENTINEL), (uuidText 'b', uuidText 'a'),
  (uuidText 'a', uuidText 'b'), (uuidText 'c', uuidText '0')]⟩

theorem markdown_followsScreen_uuids :
    ∃ lines, markdownLinesWithin compareUnits 5 (portableDocument compareUnits uuidOutline false) =
    some (.ok lines) ∧
      markdownWithin compareUnits 5 (portableDocument compareUnits uuidOutline false) =
      some (.ok (joinLines lines ++ [NEWLINE])) ∧
      FollowsScreen uuidOutline.doc (uuidOutline.doc.visibleRows (uuidText '0') fun _ => false)
        (headerLines (portableDocument compareUnits uuidOutline false)) lines :=
  markdown_followsScreen compareUnits_sorts rfl (by decide) (by decide) 5 (by decide)

end Examples

end OpenOutliner
