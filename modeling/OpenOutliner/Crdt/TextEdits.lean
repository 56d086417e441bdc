import OpenOutliner.Crdt.DeletionRecords
import Mathlib.Data.List.Sort
import Mathlib.Data.Prod.Lex

/-!
Editing the content and the note of one item on many replicas. A `Y.Text` is a set of inserted
units, each placed between two others, and of erased ones; an item's note gets its `Y.Text` from
the first edit.
-/

namespace OpenOutliner

open Foundations

section Span

def commonPrefix : JsString → JsString → ℕ
  | a :: s, b :: t => if a = b then commonPrefix s t + 1 else 0
  | _, _ => 0

structure EditSpan where
  start : ℕ
  endPrev : ℕ
  endNext : ℕ
deriving DecidableEq, Repr

def editSpan (prev next : JsString) : EditSpan :=
  let start := commonPrefix prev next
  let same := commonPrefix (prev.drop start).reverse (next.drop start).reverse
  ⟨start, prev.length - same, next.length - same⟩

theorem commonPrefix_take (s t : JsString) : s.take (commonPrefix s t) = t.take (commonPrefix s t) := by
  fun_induction commonPrefix s t with
  | case1 a s t ih => simp [ih]
  | case2 a s b t hne => simp
  | case3 s t h => simp

theorem commonPrefix_le (s t : JsString) : commonPrefix s t ≤ s.length ∧ commonPrefix s t ≤ t.length := by
  fun_induction commonPrefix s t with
  | case1 a s t ih => simpa using ih
  | case2 a s b t hne => simp
  | case3 s t h => simp

theorem editSpan_le (prev next : JsString) : (editSpan prev next).start ≤ (editSpan prev next).endPrev ∧
    (editSpan prev next).endPrev ≤ prev.length ∧ (editSpan prev next).start ≤ (editSpan prev next).endNext ∧
    (editSpan prev next).endNext ≤ next.length := by
  have h1 := commonPrefix_le prev next
  have h2 := commonPrefix_le (prev.drop (commonPrefix prev next)).reverse
    (next.drop (commonPrefix prev next)).reverse
  simp only [List.length_reverse, List.length_drop] at h2
  simp only [editSpan]
  omega

theorem editSpan_next (prev next : JsString) :
    prev.take (editSpan prev next).start ++
      (next.drop (editSpan prev next).start).take
      ((editSpan prev next).endNext - (editSpan prev next).start) ++
      prev.drop (editSpan prev next).endPrev = next := by
  have hhead := commonPrefix_take prev next
  have hle := commonPrefix_le prev next
  have hsuffix := commonPrefix_take (prev.drop (commonPrefix prev next)).reverse
    (next.drop (commonPrefix prev next)).reverse
  have hle' := commonPrefix_le (prev.drop (commonPrefix prev next)).reverse
    (next.drop (commonPrefix prev next)).reverse
  simp only [editSpan]
  generalize commonPrefix (prev.drop (commonPrefix prev next)).reverse
    (next.drop (commonPrefix prev next)).reverse = same at hsuffix hle' ⊢
  generalize commonPrefix prev next = start at hhead hle hsuffix hle' ⊢
  simp only [List.length_reverse, List.length_drop] at hle'
  have htail : prev.drop (prev.length - same) = next.drop (next.length - same) := by
    rw [List.take_reverse, List.take_reverse] at hsuffix
    have h := List.reverse_injective hsuffix
    simp only [List.length_drop, List.drop_drop] at h
    rw [show prev.length - same = start + (prev.length - start - same) by omega,
      show next.length - same = start + (next.length - start - same) by omega]
    exact h
  rw [hhead, htail, List.append_assoc]
  have hmid : (next.drop start).take (next.length - same - start) ++ next.drop (next.length - same) =
      next.drop start := by
    have h := List.take_append_drop (next.length - same - start) (next.drop start)
    rw [List.drop_drop, show start + (next.length - same - start) = next.length - same by omega] at h
    exact h
  rw [hmid, List.take_append_drop]

end Span

section YText

variable {U : Type} [DecidableEq U]

/-- `erase` leaves the unit's place behind; `replace` is the fate of both halves of a surrogate pair
that a deletion or an insertion cuts. -/
inductive TextOp (U : Type)
  | insert (unit : U) (left right : Option U) (c : CodeUnit)
  | erase (unit : U)
  | replace (unit : U)
deriving DecidableEq

def TextOp.unit : TextOp U → U
  | insert unit _ _ _ => unit
  | erase unit => unit
  | replace unit => unit

/-- How a `Y.Text` arranges its units. It keeps every inserted unit that is not erased. -/
structure YText (U : Type) where
  sequence : Finset (TextOp U) → List (U × CodeUnit)
  mem_sequence : ∀ {ops u c}, (u, c) ∈ sequence ops ↔
    (∃ left right, TextOp.insert u left right c ∈ ops) ∧ TextOp.erase u ∉ ops

namespace YText

variable (Y : YText U)

def shown (ops : Finset (TextOp U)) : List (U × CodeUnit) :=
  (Y.sequence ops).map fun e => (e.1, if TextOp.replace e.1 ∈ ops then replacement else e.2)

def toString (ops : Finset (TextOp U)) : JsString := (Y.shown ops).map Prod.snd

variable {Y}

variable (Y) in
@[simp] theorem toString_empty : Y.toString ∅ = [] := by
  have hempty : Y.sequence ∅ = [] := by
    apply List.eq_nil_iff_forall_not_mem.mpr
    rintro ⟨u, c⟩ h
    obtain ⟨⟨left, right, hop⟩, -⟩ := Y.mem_sequence.mp h
    exact absurd hop (Finset.notMem_empty _)
  rw [toString, shown, hempty]
  rfl

theorem mem_shown {ops : Finset (TextOp U)} {u : U} {c : CodeUnit}
    (h : (∃ left right, .insert u left right c ∈ ops))
    (herase : .erase u ∉ ops) (hreplace : .replace u ∉ ops) : (u, c) ∈ Y.shown ops := by
  apply List.mem_map.mpr
  refine ⟨(u, c), Y.mem_sequence.mpr ⟨h, herase⟩, ?_⟩
  rw [if_neg hreplace]

end YText

def cutsPair (text : JsString) (p : ℕ) : Bool :=
  match (text.take p).getLast?, (text.drop p).head? with
  | some high, some low => isHighSurrogate high && isLowSurrogate low
  | _, _ => false

def around (units : List U) (p : ℕ) : List U := (units.take p).getLast?.toList ++ (units.drop p).head?.toList

/-- What `Y.Text` does where an edit splits its content. -/
def splitPair (prev : JsString) (units : List U) (p : ℕ) : List (TextOp U) :=
  if cutsPair prev p then (around units p).map .replace else []

def insertRun (fresh : ℕ → U) (right : Option U) : ℕ → Option U → JsString → List (TextOp U)
  | _, _, [] => []
  | i, left, c :: cs => .insert (fresh i) left right c :: insertRun fresh right (i + 1) (some (fresh i)) cs

def applyTextEdit (Y : YText U) (ops : Finset (TextOp U)) (next : JsString) (fresh : ℕ → U) :
    Finset (TextOp U) :=
  let prev := Y.toString ops
  if prev = next then ∅
  else
    let units := (Y.shown ops).map Prod.fst
    let span := editSpan prev next
    let erased := ((units.drop span.start).take (span.endPrev - span.start)).map TextOp.erase
    let inserted := insertRun fresh (units.drop span.endPrev).head? 0 (units.take span.start).getLast?
      ((next.drop span.start).take (span.endNext - span.start))
    (splitPair prev units span.start ++ splitPair prev units span.endPrev ++ erased ++ inserted).toFinset

def KeepsPairs (prev next : JsString) : Prop :=
  cutsPair prev (editSpan prev next).start = false ∧ cutsPair prev (editSpan prev next).endPrev = false

/-- No half of a surrogate pair stands alone; a lone one reaches other replicas as U+FFFD. -/
def isWellFormed : JsString → Bool
  | [] => true
  | [c] => !isHighSurrogate c && !isLowSurrogate c
  | c :: d :: rest =>
    if isHighSurrogate c then isLowSurrogate d && isWellFormed rest
    else !isLowSurrogate c && isWellFormed (d :: rest)

omit [DecidableEq U] in
theorem insertRun_insert (fresh : ℕ → U) (right left : Option U) (i : ℕ) (cs : JsString) :
    ∀ op ∈ insertRun fresh right i left cs, ∃ j l r c, op = .insert (fresh j) l r c := by
  induction cs generalizing i left with
  | nil => simp [insertRun]
  | cons c cs ih =>
    intro op hop
    cases hop with
    | head => exact ⟨_, _, _, _, rfl⟩
    | tail _ hop => exact ih _ _ op hop

theorem applyTextEdit_replace {Y : YText U} {ops : Finset (TextOp U)} {next : JsString}
    (h : KeepsPairs (Y.toString ops) next) (fresh : ℕ → U) (u : U) :
    TextOp.replace u ∉ applyTextEdit Y ops next fresh := by
  unfold applyTextEdit
  dsimp only
  split
  · exact Finset.notMem_empty _
  · unfold splitPair
    rw [h.1, h.2]
    simp only [Bool.false_eq_true, if_false, List.nil_append, List.mem_toFinset, List.mem_append, not_or]
    constructor
    · intro hop
      obtain ⟨_, -, he⟩ := List.mem_map.mp hop
      cases he
    · intro hop
      obtain ⟨_, _, _, _, he⟩ := insertRun_insert _ _ _ _ _ _ hop
      cases he

theorem applyTextEdit_insert {Y : YText U} {ops : Finset (TextOp U)} {next : JsString} {fresh : ℕ → U} {u : U}
    {left right : Option U} {c : CodeUnit} (h : .insert u left right c ∈ applyTextEdit Y ops next fresh) :
    ∃ i, u = fresh i := by
  unfold applyTextEdit splitPair at h
  dsimp only at h
  split at h
  · exact absurd h (Finset.notMem_empty _)
  · simp only [List.mem_toFinset, List.mem_append] at h
    obtain ((h | h) | h) | h := h
    · split at h <;> simp at h
    · split at h <;> simp at h
    · obtain ⟨_, -, he⟩ := List.mem_map.mp h
      cases he
    · obtain ⟨i, _, _, _, he⟩ := insertRun_insert _ _ _ _ _ _ h
      cases he
      exact ⟨i, rfl⟩

end YText

inductive TextKey
  | content | note
deriving DecidableEq, Repr

/-- A change of the content or of the note to `next`; `text` is the identity of the `Y.Text` if this
edit has to create it. -/
structure TextEvent (Inst U : Type) where
  key : TextKey
  next : JsString
  text : Inst
  units : ℕ → U

abbrev Texts (Inst U : Type) := TextKey → Nested Inst (TextOp U)

namespace TextEvent

variable {R Inst U : Type} [DecidableEq R] [DecidableEq Inst] [DecidableEq U] (W : Winner Inst) (Y : YText U)

def plan : Plan TextKey Inst (TextOp U) (TextEvent Inst U) := fun ev s key =>
  if key = ev.key then
    some (ev.text, applyTextEdit Y (W.content (W.ensure ev.text (s key))) ev.next ev.units)
  else none

def exec (ev : TextEvent Inst U) (s : Texts Inst U) : Texts Inst U := execPlan W (plan W Y) ev s

def Mints (ev : TextEvent Inst U) (s : Texts Inst U) : Prop := ∀ e ∈ (s ev.key).2, ∀ i, e.2.unit ≠ ev.units i

def Inserts (ev : TextEvent Inst U) (s : Texts Inst U) (key : TextKey) (u : U) (c : CodeUnit) : Prop :=
  ∃ fresh es, plan W Y ev s key = some (fresh, es) ∧ ∃ left right, .insert u left right c ∈ es

def Erases (ev : TextEvent Inst U) (s : Texts Inst U) (key : TextKey) (u : U) : Prop :=
  ∃ fresh es, plan W Y ev s key = some (fresh, es) ∧ .erase u ∈ es

variable {W Y} {ev : TextEvent Inst U} {s : Texts Inst U} {key : TextKey} {fresh : Inst}
  {es : Finset (TextOp U)}

theorem plan_some (h : plan W Y ev s key = some (fresh, es)) : key = ev.key ∧
    es = applyTextEdit Y (W.content (W.ensure ev.text (s ev.key))) ev.next ev.units := by
  unfold plan at h
  split at h
  · rename_i hkey
    subst hkey
    exact ⟨rfl, (congrArg Prod.snd (Option.some.inj h)).symm⟩
  · cases h

end TextEvent

def TextKey.text : TextKey → Node → Option JsString
  | .content, node => node.content
  | .note, node => node.note

section Runs

variable {R Inst U : Type} [DecidableEq R] [DecidableEq Inst] [DecidableEq U] {W : Winner Inst} {Y : YText U}

def ShowsTexts (W : Winner Inst) (Y : YText U) (id : JsString) (s : Texts Inst U) (doc : Doc) : Prop :=
  ∃ node, doc.items.get id = some node ∧ ∀ key, key.text node = (W.view (s key)).map Y.toString

abbrev TextRun (W : Winner Inst) (Y : YText U) (init : Texts Inst U)
    (ok : System R (Texts Inst U) (TextEvent Inst U) → R → TextEvent Inst U → Prop) :
    System R (Texts Inst U) (TextEvent Inst U) → Prop :=
  System.Run init (TextEvent.exec W Y) fun σ r ev => ev.Mints (σ.state r) ∧ ok σ r ev

/-- No replica creates a `Y.Text` that it cannot see another replica has created, and no edit cuts a
surrogate pair or types half of one. -/
def EditsShared (W : Winner Inst) (Y : YText U) (σ : System R (Texts Inst U) (TextEvent Inst U)) (r : R)
    (ev : TextEvent Inst U) : Prop :=
  (∀ key, SharesKey (TextEvent.plan W Y) key σ r ev) ∧
    KeepsPairs (Y.toString (W.content (W.ensure ev.text (σ.state r ev.key)))) ev.next ∧
    isWellFormed ev.next = true

def Inserted (W : Winner Inst) (Y : YText U) (init : Texts Inst U)
    (σ : System R (Texts Inst U) (TextEvent Inst U)) (key : TextKey) (u : U) (c : CodeUnit) : Prop :=
  (u, c) ∈ Y.shown (W.content (init key)) ∨ ∃ o ∈ σ.history, o.event.Inserts W Y o.before key u c

def Deleted (W : Winner Inst) (Y : YText U) (σ : System R (Texts Inst U) (TextEvent Inst U)) (key : TextKey)
    (u : U) : Prop :=
  ∃ o ∈ σ.history, o.event.Erases W Y o.before key u

variable {init : Texts Inst U} {σ : System R (Texts Inst U) (TextEvent Inst U)}

omit [DecidableEq R] in
theorem not_deleted {key : TextKey} {u : U} (h : ∀ o ∈ σ.history, TextOp.erase u ∉ applyTextEdit Y
    (W.content (W.ensure o.event.text (o.before o.event.key))) o.event.next o.event.units) :
    ¬ Deleted W Y σ key u := by
  rintro ⟨o, ho, fresh, es, hplan, he⟩
  rw [(TextEvent.plan_some hplan).2] at he
  exact h o ho he

theorem inserted_new (hrun : TextRun W Y init (EditsShared W Y) σ)
    {o : Occurrence R (Texts Inst U) (TextEvent Inst U)} (ho : o ∈ σ.history) {key : TextKey}
    {u : U} {c : CodeUnit} (hins : o.event.Inserts W Y o.before key u c) {op : TextOp U} (hop : op.unit = u) :
    op ∉ W.content (init key) := by
  intro hmem
  obtain ⟨i, -, hi⟩ := W.mem_content.mp hmem
  obtain ⟨fresh, es, hplan, left, right, hnew⟩ := hins
  obtain ⟨rfl, rfl⟩ := TextEvent.plan_some hplan
  obtain ⟨j, rfl⟩ := applyTextEdit_insert hnew
  have hmint := hrun.history (Q := fun s ev => ev.Mints s) (fun _ _ _ hok => hok.1) o ho
  exact hmint _ ((hrun.init_le_before le_execPlan o ho _).2 hi) j hop

section Units

variable [Inhabited Inst] (hinit : ∀ key, (init key).1 = ∅ → (init key).2 = ∅)
  (hrun : TextRun W Y init (EditsShared W Y) σ) (hconv : σ.Converged)

include hinit hrun hconv

theorem text_content (r : R) (key : TextKey) (op : TextOp U) :
    op ∈ W.content (σ.state r key) ↔ op ∈ W.content (init key) ∨
      ∃ o ∈ σ.history, ∃ fresh es, TextEvent.plan W Y o.event o.before key = some (fresh, es) ∧ op ∈ es := by
  obtain ⟨H, hH⟩ := run_keyShared (hinit key) (fun _ _ _ hok => hok.2.1 key) hrun
  exact hH.content_iff (hinit key) hrun hconv r op

theorem replaced_iff (r : R) (key : TextKey) (u : U) :
    TextOp.replace u ∈ W.content (σ.state r key) ↔ TextOp.replace u ∈ W.content (init key) := by
  rw [text_content hinit hrun hconv]
  refine or_iff_left ?_
  rintro ⟨o, ho, fresh, es, hplan, hop⟩
  have hpairs := hrun.history
    (Q := fun s ev => KeepsPairs (Y.toString (W.content (W.ensure ev.text (s ev.key)))) ev.next)
    (fun _ _ _ hok => hok.2.2.1) o ho
  rw [(TextEvent.plan_some hplan).2] at hop
  exact applyTextEdit_replace hpairs _ u hop

theorem inserted_shown {key : TextKey} {u : U} {c : CodeUnit} (hins : Inserted W Y init σ key u c)
    (hdel : ¬ Deleted W Y σ key u) (r : R) : (u, c) ∈ Y.shown (W.content (σ.state r key)) := by
  have herase : ∀ hold : TextOp.erase u ∉ W.content (init key),
      TextOp.erase u ∉ W.content (σ.state r key) := by
    intro hold hnow
    cases (text_content hinit hrun hconv r key _).mp hnow with
    | inl h => exact hold h
    | inr h => exact hdel h
  cases hins with
  | inl hstart =>
    obtain ⟨⟨u', c'⟩, hseq, he⟩ := List.mem_map.mp hstart
    obtain ⟨⟨left, right, hmem⟩, hold⟩ := Y.mem_sequence.mp hseq
    obtain ⟨rfl, rfl⟩ := Prod.mk.inj he
    apply List.mem_map.mpr
    refine ⟨(u', c'), Y.mem_sequence.mpr ⟨⟨left, right, ?_⟩, herase hold⟩, ?_⟩
    · exact (text_content hinit hrun hconv r key _).mpr (Or.inl hmem)
    · simp only [replaced_iff hinit hrun hconv]
  | inr hnew =>
    obtain ⟨o, ho, hins⟩ := hnew
    obtain ⟨fresh, es, hplan, left, right, hmem⟩ := id hins
    apply YText.mem_shown
    · exact ⟨left, right,
        (text_content hinit hrun hconv r key _).mpr (Or.inr ⟨o, ho, fresh, es, hplan, hmem⟩)⟩
    · exact herase (inserted_new hrun ho hins rfl)
    · rw [replaced_iff hinit hrun hconv]
      exact inserted_new hrun ho hins rfl

end Units

/-- While each `Y.Text` is shared and pairs stay whole, no text is lost: once all is merged, replicas
show the same texts, with every character that was inserted and not deleted. -/
theorem applyTextEdit_merges [Inhabited Inst] (hinit : ∀ key, (init key).1 = ∅ → (init key).2 = ∅)
    (hrun : TextRun W Y init (EditsShared W Y) σ) (hconv : σ.Converged) :
    (∀ r r', σ.state r = σ.state r') ∧ ∀ id r doc, ShowsTexts W Y id (σ.state r) doc →
      ∀ key u c, Inserted W Y init σ key u c → ¬ Deleted W Y σ key u →
        (u, c) ∈ Y.shown (W.content (σ.state r key)) ∧ ∃ node ∈ doc.items.get id,
          key.text node = some ((Y.shown (W.content (σ.state r key))).map Prod.snd) := by
  refine ⟨hconv.eq, ?_⟩
  intro id r doc hdoc key u c hins hdel
  obtain ⟨node, hget, htext⟩ := hdoc
  have hshown := inserted_shown hinit hrun hconv hins hdel r
  refine ⟨hshown, node, hget, ?_⟩
  obtain ⟨e, hseq, -⟩ := List.mem_map.mp hshown
  obtain ⟨⟨left, right, hmem⟩, -⟩ := Y.mem_sequence.mp hseq
  rw [htext, W.view_of_nonempty (W.nonempty_of_content hmem)]
  rfl

end Runs

section Examples

def keptUnit (ops : Finset (TextOp ℕ)) : TextOp ℕ → Finset (ℕ ×ₗ CodeUnit)
  | .insert u _ _ c => if TextOp.erase u ∈ ops then ∅ else {toLex (u, c)}
  | _ => ∅

theorem mem_keptUnit {ops : Finset (TextOp ℕ)} {u : ℕ} {c : CodeUnit} {op : TextOp ℕ} :
    toLex (u, c) ∈ keptUnit ops op ↔
      (∃ left right, op = .insert u left right c) ∧ TextOp.erase u ∉ ops := by
  cases op with
  | insert u' left right c' =>
    simp only [keptUnit]
    split_ifs with h
    · simp only [Finset.notMem_empty, TextOp.insert.injEq, false_iff]
      rintro ⟨⟨_, _, rfl, -⟩, hnot⟩
      exact hnot h
    · simp only [Finset.mem_singleton, EmbeddingLike.apply_eq_iff_eq, Prod.mk.injEq, TextOp.insert.injEq]
      constructor
      · rintro ⟨rfl, rfl⟩
        exact ⟨⟨left, right, rfl, rfl, rfl, rfl⟩, h⟩
      · rintro ⟨⟨_, _, rfl, -, -, rfl⟩, -⟩
        exact ⟨rfl, rfl⟩
  | erase u' => simp [keptUnit]
  | replace u' => simp [keptUnit]

def inOrder (s : Finset (ℕ ×ₗ CodeUnit)) : List (ℕ ×ₗ CodeUnit) :=
  Quotient.liftOn s.1 (fun l => l.insertionSort (· ≤ ·)) fun l l' h =>
    (((l.perm_insertionSort _).trans h).trans (l'.perm_insertionSort _).symm).eq_of_sortedLE
      l.sortedLE_insertionSort l'.sortedLE_insertionSort

theorem mem_inOrder {s : Finset (ℕ ×ₗ CodeUnit)} {e : ℕ ×ₗ CodeUnit} : e ∈ inOrder s ↔ e ∈ s := by
  obtain ⟨s, hs⟩ := s
  induction s using Quotient.inductionOn with
  | h l => exact List.mem_insertionSort _

def byUnit : YText ℕ where
  sequence ops := (inOrder (ops.biUnion (keptUnit ops))).map ofLex
  mem_sequence := by
    intro ops u c
    have hsort : (u, c) ∈ (inOrder (ops.biUnion (keptUnit ops))).map ofLex ↔
        toLex (u, c) ∈ ops.biUnion (keptUnit ops) := by
      rw [← mem_inOrder]
      exact List.mem_map_of_injective ofLex.injective
    rw [hsort, Finset.mem_biUnion]
    simp only [mem_keptUnit]
    constructor
    · rintro ⟨op, hop, ⟨left, right, rfl⟩, herase⟩
      exact ⟨⟨left, right, hop⟩, herase⟩
    · rintro ⟨⟨left, right, hop⟩, herase⟩
      exact ⟨_, hop, ⟨left, right, rfl⟩, herase⟩

def noNote : Texts ℕ ℕ
  | .content => ({0}, ∅)
  | .note => (∅, ∅)

def edited : System Bool (Texts ℕ ℕ) (TextEvent ℕ ℕ) := ⟨fun _ => noNote, []⟩

def noteA : TextEvent ℕ ℕ := ⟨.note, js ['a'], 2, fun i => 10 + i⟩

def noteB : TextEvent ℕ ℕ := ⟨.note, js ['b'], 1, fun i => 20 + i⟩

def notedApart : System Bool (Texts ℕ ℕ) (TextEvent ℕ ℕ) :=
  (edited.act (TextEvent.exec greatest byUnit) true noteA).act (TextEvent.exec greatest byUnit) false noteB

theorem notedApart_run : TextRun greatest byUnit noNote (fun _ _ _ => True) notedApart := by
  refine .act _ _ (.act _ _ .start ⟨?_, trivial⟩) ⟨?_, trivial⟩
  all_goals
    intro e he
    exact absurd he (Finset.notMem_empty e)

theorem noteB_inserted : Inserted greatest byUnit noNote notedApart.exchange .note 20 (Fin.ofNat 65536 98) :=
  Or.inr ⟨_, List.mem_cons_self, 1, _, rfl, none, none, by decide +kernel⟩

theorem noteB_kept : ¬ Deleted greatest byUnit notedApart.exchange .note 20 :=
  not_deleted (by decide +kernel)

/-- The second device's note is lost, though nobody deleted it. -/
theorem first_note_lost :
    TextRun greatest byUnit noNote (fun _ _ _ => True) notedApart.exchange ∧ notedApart.exchange.Converged ∧
      Inserted greatest byUnit noNote notedApart.exchange .note 20 (Fin.ofNat 65536 98) ∧
      ¬ Deleted greatest byUnit notedApart.exchange .note 20 ∧
      ∀ r, (greatest.view (notedApart.exchange.state r .note)).map byUnit.toString = some (js ['a']) :=
  ⟨notedApart_run.exchange, System.exchange_converged, noteB_inserted, noteB_kept, by decide +kernel⟩

def appendB : TextEvent ℕ ℕ := ⟨.note, js ['a', 'b'], 1, fun i => 20 + i⟩

def notedShared : System Bool (Texts ℕ ℕ) (TextEvent ℕ ℕ) :=
  let noted := edited.act (TextEvent.exec greatest byUnit) true noteA
  (noted.receive false (noted.state true)).act (TextEvent.exec greatest byUnit) false appendB

theorem notedShared_run : TextRun greatest byUnit noNote (EditsShared greatest byUnit) notedShared := by
  have hcontent : (noNote .content).1.Nonempty := ⟨0, Finset.mem_singleton_self 0⟩
  have hstart : TextRun greatest byUnit noNote (EditsShared greatest byUnit) edited := .start
  have hfirst : TextRun greatest byUnit noNote (EditsShared greatest byUnit)
      (edited.act (TextEvent.exec greatest byUnit) true noteA) := by
    refine .act _ _ hstart ⟨fun e he => absurd he (Finset.notMem_empty e), fun key => ?_,
      ⟨by decide +kernel, by decide +kernel⟩, by decide⟩
    cases key with
    | content => exact sharesKey_of_created hcontent hstart true noteA
    | note => exact fun _ => Or.inr fun _ => rfl
  have hmerged := System.Run.receive false true _ hfirst le_rfl
  refine .act _ _ hmerged ⟨?_, fun key => ?_, ⟨by decide +kernel, by decide +kernel⟩, by decide⟩
  · intro e he i
    have hunit : ∀ e ∈ (((edited.act (TextEvent.exec greatest byUnit) true noteA).receive false
        ((edited.act (TextEvent.exec greatest byUnit) true noteA).state true)).state false .note).2,
        e.2.unit = 10 := by
      decide +kernel
    rw [hunit e he]
    exact Nat.ne_of_lt (by simp only [appendB]; omega)
  · cases key with
    | content => exact sharesKey_of_created hcontent hmerged false appendB
    | note => exact fun _ => Or.inl (by decide +kernel)

def itemDoc (s : Texts ℕ ℕ) : Doc :=
  (newDoc (js ['r'])).setNode (js ['i'])
    { freshNode with
      content := (greatest.view (s .content)).map byUnit.toString
      note := (greatest.view (s .note)).map byUnit.toString }

theorem itemDoc_shows (s : Texts ℕ ℕ) : ShowsTexts greatest byUnit (js ['i']) s (itemDoc s) := by
  unfold itemDoc ShowsTexts
  rw [Doc.setNode_get, if_pos rfl]
  refine ⟨_, rfl, fun key => ?_⟩
  cases key <;> rfl

theorem appendB_inserted :
    Inserted greatest byUnit noNote notedShared.exchange .note 20 (Fin.ofNat 65536 98) :=
  Or.inr ⟨_, List.mem_cons_self, 1, _, rfl, some 10, none, by decide +kernel⟩

theorem appendB_kept : ¬ Deleted greatest byUnit notedShared.exchange .note 20 :=
  not_deleted (by decide +kernel)

theorem applyTextEdit_merges_shared :
    (20, Fin.ofNat 65536 98) ∈ byUnit.shown (greatest.content (notedShared.exchange.state true .note)) :=
  ((applyTextEdit_merges (fun key => by cases key <;> decide) notedShared_run.exchange
    System.exchange_converged).2 (js ['i']) true _
      (itemDoc_shows _) .note 20 _ appendB_inserted appendB_kept).1

end Examples

end OpenOutliner
