import OpenOutliner.Crdt.Node
import Mathlib.Data.List.DropRight
import Mathlib.Tactic.IntervalCases

namespace OpenOutliner

def PERCENT : CodeUnit := 0x25

def inRange (lo hi : ℕ) (c : CodeUnit) : Bool := lo ≤ c.val && c.val ≤ hi

def isUriUnreserved (c : CodeUnit) : Bool :=
  inRange 0x41 0x5A c || inRange 0x61 0x7A c || inRange 0x30 0x39 c ||
    (js ['-', '_', '.', '!', '~', '*', '\'', '(', ')']).contains c

def upperHex (d : ℕ) : CodeUnit := Fin.ofNat 65536 (if d < 10 then 0x30 + d else 0x37 + d)

def hexValue (c : CodeUnit) : Option ℕ :=
  if inRange 0x30 0x39 c then some (c.val - 0x30)
  else if inRange 0x41 0x46 c then some (c.val - 0x37)
  else if inRange 0x61 0x66 c then some (c.val - 0x57)
  else none

def percentOctet (b : UInt8) : JsString := [PERCENT, upperHex (b.toNat / 16), upperHex (b.toNat % 16)]

def percentChar (c : Char) : JsString := (String.utf8EncodeChar c).flatMap percentOctet

def pairedChar (high low : CodeUnit) : Char :=
  Char.ofNat (0x10000 + (high.val - 0xD800) * 0x400 + (low.val - 0xDC00))

def unitsOf (c : Char) : JsString :=
  if c.toNat < 0x10000 then [Fin.ofNat 65536 c.toNat]
  else [Fin.ofNat 65536 (0xD800 + (c.toNat - 0x10000) / 0x400),
    Fin.ofNat 65536 (0xDC00 + (c.toNat - 0x10000) % 0x400)]

/-- `none` is the `URIError` of a lone surrogate. -/
def encodeURIComponent : JsString → Option JsString
  | [] => some []
  | [c] =>
    if isUriUnreserved c then some [c]
    else if isHighSurrogate c || isLowSurrogate c then none
    else some (percentChar (Char.ofNat c.val))
  | c :: d :: rest =>
    if isUriUnreserved c then (encodeURIComponent (d :: rest)).map (c :: ·)
    else if isLowSurrogate c then none
    else if isHighSurrogate c then
      if isLowSurrogate d then (encodeURIComponent rest).map (percentChar (pairedChar c d) ++ ·) else none
    else (encodeURIComponent (d :: rest)).map (percentChar (Char.ofNat c.val) ++ ·)

def leadingOnes (b : UInt8) : ℕ :=
  if b.toNat < 0x80 then 0 else if b.toNat < 0xC0 then 1 else if b.toNat < 0xE0 then 2
  else if b.toNat < 0xF0 then 3 else if b.toNat < 0xF8 then 4 else 5

def readOctet : JsString → Option (UInt8 × JsString)
  | p :: h :: l :: rest =>
    if p = PERCENT then do
      let high ← hexValue h
      let low ← hexValue l
      some (UInt8.ofNat (16 * high + low), rest)
    else none
  | _ => none

def readOctets : ℕ → JsString → Option (List UInt8 × JsString)
  | 0, rest => some ([], rest)
  | n + 1, s => do
    let (b, rest) ← readOctet s
    let (bs, rest) ← readOctets n rest
    some (b :: bs, rest)

def decodeNext (s : JsString) : Option (JsString × JsString) :=
  match s with
  | [] => none
  | c :: rest =>
    if c ≠ PERCENT then some ([c], rest)
    else do
      let (b, rest) ← readOctet s
      let n := leadingOnes b
      if n = 0 then some ([Fin.ofNat 65536 b.toNat], rest)
      else if n = 1 ∨ 4 < n then none
      else
        let (bs, rest) ← readOctets (n - 1) rest
        let v ← (b :: bs).toByteArray.utf8DecodeChar? 0
        some (unitsOf v, rest)

def decodeFrom : ℕ → JsString → Option JsString
  | _, [] => some []
  | 0, _ :: _ => none
  | fuel + 1, c :: s => do
    let (units, rest) ← decodeNext (c :: s)
    let more ← decodeFrom fuel rest
    some (units ++ more)

/-- `none` is the `URIError` of a malformed escape. -/
def decodeURIComponent (s : JsString) : Option JsString := decodeFrom s.length s

def isTrimmed (c : CodeUnit) : Bool :=
  inRange 0x09 0x0D c || c.val = 0x20 || c.val = 0xA0 || c.val = 0x1680 || inRange 0x2000 0x200A c ||
    inRange 0x2028 0x2029 c || c.val = 0x202F || c.val = 0x205F || c.val = 0x3000 || c.val = 0xFEFF

def trim (s : JsString) : JsString := (s.dropWhile isTrimmed).rdropWhile isTrimmed

example : (encodeURIComponent (js ['é', ';', 'a'])).bind decodeURIComponent =
    some (js ['é', ';', 'a']) := by decide

section RoundTrip

variable {s e rest : JsString} {c : Char} {b : UInt8}

theorem hexValue_upperHex {d : ℕ} (h : d < 16) : hexValue (upperHex d) = some d := by
  interval_cases d <;> rfl

theorem readOctet_percentOctet (b : UInt8) (rest : JsString) :
    readOctet (percentOctet b ++ rest) = some (b, rest) := by
  have hb : b.toNat < 256 := b.toNat_lt
  have hhigh : hexValue (upperHex (b.toNat / 16)) = some (b.toNat / 16) := hexValue_upperHex (by omega)
  have hlow : hexValue (upperHex (b.toNat % 16)) = some (b.toNat % 16) := hexValue_upperHex (by omega)
  have hsum : 16 * (b.toNat / 16) + b.toNat % 16 = b.toNat := Nat.div_add_mod _ _
  simp only [percentOctet, List.cons_append, List.nil_append, readOctet, if_true, hhigh, hlow, hsum,
    Option.bind_eq_bind, Option.bind_some, UInt8.ofNat_toNat]

theorem readOctets_percent (bs : List UInt8) (rest : JsString) :
    readOctets bs.length (bs.flatMap percentOctet ++ rest) = some (bs, rest) := by
  induction bs with
  | nil => rfl
  | cons b bs ih =>
    simp only [List.flatMap_cons, List.append_assoc, List.length_cons, readOctets, readOctet_percentOctet, ih,
      Option.bind_eq_bind, Option.bind_some]

theorem utf8_leading (c : Char) : ∃ b bs, String.utf8EncodeChar c = b :: bs ∧
    (leadingOnes b = 0 ∧ bs = [] ∧ b.toNat = c.toNat ∧ c.toNat < 0x80 ∨
      leadingOnes b = bs.length + 1 ∧ bs.length ≠ 0 ∧ bs.length ≤ 3) := by
  have hmax : c.toNat < 0x110000 := by
    have hvalid : c.toNat.isValidChar := c.valid
    rw [Nat.isValidChar] at hvalid
    omega
  rw [String.utf8EncodeChar]
  have hval : c.val.toNat = c.toNat := rfl
  simp only [hval]
  split
  · rename_i hone
    refine ⟨_, _, rfl, Or.inl ⟨?_, rfl, ?_, by omega⟩⟩
    · rw [leadingOnes, if_pos]
      rw [UInt8.toNat_ofNat']
      omega
    · rw [UInt8.toNat_ofNat']
      omega
  · rename_i hone
    split
    · refine ⟨_, _, rfl, Or.inr ⟨?_, by simp, by simp⟩⟩
      rw [leadingOnes, UInt8.toNat_ofNat', if_neg (by omega), if_neg (by omega), if_pos (by omega)]
      rfl
    · split
      · refine ⟨_, _, rfl, Or.inr ⟨?_, by simp, by simp⟩⟩
        rw [leadingOnes, UInt8.toNat_ofNat', if_neg (by omega), if_neg (by omega), if_neg (by omega),
          if_pos (by omega)]
        rfl
      · refine ⟨_, _, rfl, Or.inr ⟨?_, by simp, by simp⟩⟩
        rw [leadingOnes, UInt8.toNat_ofNat', if_neg (by omega), if_neg (by omega), if_neg (by omega),
          if_neg (by omega),
          if_pos (by omega)]
        rfl

theorem utf8_decodes {b : UInt8} {bs : List UInt8} (h : String.utf8EncodeChar c = b :: bs) :
    (b :: bs).toByteArray.utf8DecodeChar? 0 = some c := by
  have hdecodes := @ByteArray.utf8DecodeChar?_utf8EncodeChar_append .empty c
  rw [h, ByteArray.append_empty] at hdecodes
  exact hdecodes

theorem decodeNext_percentChar (c : Char) (rest : JsString) :
    decodeNext (percentChar c ++ rest) = some (unitsOf c, rest) := by
  obtain ⟨b, bs, hutf8, hlead⟩ := utf8_leading c
  have hshape : percentChar c ++ rest = percentOctet b ++ (bs.flatMap percentOctet ++ rest) := by
    rw [percentChar, hutf8, List.flatMap_cons, List.append_assoc]
  have hread := readOctet_percentOctet b (bs.flatMap percentOctet ++ rest)
  rw [hshape]
  simp only [percentOctet, List.cons_append, List.nil_append] at hread ⊢
  rw [decodeNext, if_neg (not_not.mpr rfl), hread]
  simp only [Option.bind_eq_bind, Option.bind_some]
  obtain ⟨hzero, rfl, hb, hsmall⟩ | ⟨hmore, hpos, hle⟩ := hlead
  · rw [if_pos hzero, hb, unitsOf, if_pos (by omega)]
    rfl
  · have hrest := readOctets_percent bs rest
    rw [if_neg (by omega), if_neg (by omega), hmore, Nat.add_sub_cancel, hrest]
    simp only [Option.bind_some]
    rw [utf8_decodes hutf8, Option.bind_some]

theorem ofNat_toNat {n : ℕ} (h : n < 0xD800 ∨ 0xDFFF < n ∧ n < 0x110000) : (Char.ofNat n).toNat = n := by
  have hvalid : n.isValidChar := h
  rw [Char.ofNat, dif_pos hvalid]
  rfl

theorem unitsOf_basic {c : CodeUnit} (hhigh : isHighSurrogate c = false) (hlow : isLowSurrogate c = false) :
    unitsOf (Char.ofNat c.val) = [c] := by
  have hc : c.val < 65536 := c.isLt
  simp only [isHighSurrogate, isLowSurrogate, Bool.and_eq_false_iff, decide_eq_false_iff_not] at hhigh hlow
  have hnat : (Char.ofNat c.val).toNat = c.val := ofNat_toNat (by omega)
  rw [unitsOf, hnat, if_pos (by omega), Fin.ofNat_val_eq_self]

theorem unitsOf_paired {high low : CodeUnit} (hhigh : isHighSurrogate high = true)
    (hlow : isLowSurrogate low = true) :
    unitsOf (pairedChar high low) = [high, low] := by
  simp only [isHighSurrogate, isLowSurrogate, Bool.and_eq_true, decide_eq_true_eq] at hhigh hlow
  have hnat : (pairedChar high low).toNat = 0x10000 + (high.val - 0xD800) * 0x400 + (low.val - 0xDC00) :=
    ofNat_toNat (by omega)
  have hfirst : 0xD800 + ((pairedChar high low).toNat - 0x10000) / 0x400 = high.val := by omega
  have hsecond : 0xDC00 + ((pairedChar high low).toNat - 0x10000) % 0x400 = low.val := by omega
  rw [unitsOf, if_neg (by omega), hfirst, hsecond, Fin.ofNat_val_eq_self, Fin.ofNat_val_eq_self]

theorem percentChar_ne_nil (c : Char) : percentChar c ≠ [] := by
  obtain ⟨b, bs, hutf8, -⟩ := utf8_leading c
  simp [percentChar, hutf8, percentOctet]

theorem unreserved_not_percent {c : CodeUnit} (h : isUriUnreserved c = true) : c ≠ PERCENT := by
  rintro rfl
  exact absurd h (by decide)

theorem decodeNext_plain {c : CodeUnit} (h : c ≠ PERCENT) (rest : JsString) :
    decodeNext ([c] ++ rest) = some ([c], rest) := by
  rw [List.cons_append, List.nil_append, decodeNext, if_pos h]

def isUriText (c : CodeUnit) : Bool := isUriUnreserved c || c = PERCENT

theorem isUriText_percentOctet {c : CodeUnit} (b : UInt8) (h : c ∈ percentOctet b) : isUriText c = true := by
  have hhex : ∀ d < 16, isUriText (upperHex d) = true := by decide
  have hb : b.toNat < 256 := b.toNat_lt
  simp only [percentOctet, List.mem_cons, List.not_mem_nil, or_false] at h
  obtain rfl | rfl | rfl := h
  · decide
  · exact hhex _ (by omega)
  · exact hhex _ (by omega)

theorem isUriText_percentChar {c : CodeUnit} (x : Char) (h : c ∈ percentChar x) : isUriText c = true := by
  obtain ⟨b, -, hb⟩ := List.mem_flatMap.mp h
  exact isUriText_percentOctet b hb

structure IsPiece (units text : JsString) : Prop where
  nonempty : text ≠ []
  decodes : ∀ rest, decodeNext (text ++ rest) = some (units, rest)
  isText : ∀ c ∈ text, isUriText c = true

theorem isPiece_plain {c : CodeUnit} (h : isUriUnreserved c = true) : IsPiece [c] [c] where
  nonempty := List.cons_ne_nil c []
  decodes := decodeNext_plain (unreserved_not_percent h)
  isText x hx := by
    obtain rfl := List.mem_singleton.mp hx
    rw [isUriText, h, Bool.true_or]

theorem isPiece_percentChar (x : Char) : IsPiece (unitsOf x) (percentChar x) where
  nonempty := percentChar_ne_nil x
  decodes := decodeNext_percentChar x
  isText _ hc := isUriText_percentChar x hc

theorem isPiece_basic {c : CodeUnit} (hhigh : isHighSurrogate c = false) (hlow : isLowSurrogate c = false) :
    IsPiece [c] (percentChar (Char.ofNat c.val)) := by
  have hpiece := isPiece_percentChar (Char.ofNat c.val)
  rwa [unitsOf_basic hhigh hlow] at hpiece

theorem isPiece_paired {high low : CodeUnit} (hhigh : isHighSurrogate high = true)
    (hlow : isLowSurrogate low = true) :
    IsPiece [high, low] (percentChar (pairedChar high low)) := by
  have hpiece := isPiece_percentChar (pairedChar high low)
  rwa [unitsOf_paired hhigh hlow] at hpiece

inductive Pieces : JsString → JsString → Prop
  | nil : Pieces [] []
  | cons {units text s e : JsString} (piece : IsPiece units text) (rest : Pieces s e) :
      Pieces (units ++ s) (text ++ e)

theorem encode_pieces (h : encodeURIComponent s = some e) : Pieces s e := by
  induction s using encodeURIComponent.induct generalizing e with
  | case1 =>
    obtain rfl := Option.some.inj h
    exact .nil
  | case2 c hplain =>
    rw [encodeURIComponent, if_pos hplain] at h
    obtain rfl := Option.some.inj h
    exact .cons (isPiece_plain hplain) .nil
  | case3 c hplain hlone =>
    rw [encodeURIComponent, if_neg hplain, if_pos hlone] at h
    cases h
  | case4 c hplain hlone =>
    rw [encodeURIComponent, if_neg hplain, if_neg hlone] at h
    obtain rfl := Option.some.inj h
    simp only [Bool.not_eq_true, Bool.or_eq_false_iff] at hlone
    have hpieces := Pieces.cons (isPiece_basic hlone.1 hlone.2) .nil
    rwa [List.append_nil, List.append_nil] at hpieces
  | case5 c d rest hplain ih =>
    rw [encodeURIComponent, if_pos hplain] at h
    obtain ⟨e, he, rfl⟩ := Option.map_eq_some_iff.mp h
    exact .cons (isPiece_plain hplain) (ih he)
  | case6 c d rest hplain hlow =>
    rw [encodeURIComponent, if_neg hplain, if_pos hlow] at h
    cases h
  | case7 c d rest hplain hlow hhigh hpair ih =>
    rw [encodeURIComponent, if_neg hplain, if_neg hlow, if_pos hhigh, if_pos hpair] at h
    obtain ⟨e, he, rfl⟩ := Option.map_eq_some_iff.mp h
    exact .cons (isPiece_paired hhigh hpair) (ih he)
  | case8 c d rest hplain hlow hhigh hpair =>
    rw [encodeURIComponent, if_neg hplain, if_neg hlow, if_pos hhigh, if_neg hpair] at h
    cases h
  | case9 c d rest hplain hlow hhigh ih =>
    rw [encodeURIComponent, if_neg hplain, if_neg hlow, if_neg hhigh] at h
    obtain ⟨e, he, rfl⟩ := Option.map_eq_some_iff.mp h
    exact .cons (isPiece_basic (Bool.eq_false_iff.mpr hhigh) (Bool.eq_false_iff.mpr hlow)) (ih he)

theorem Pieces.isText (h : Pieces s e) : ∀ c ∈ e, isUriText c = true := by
  induction h with
  | nil => simp
  | cons piece _ ih => exact List.forall_mem_append.mpr ⟨piece.isText, ih⟩

theorem Pieces.decodes (h : Pieces s e) {fuel : ℕ} (hfuel : e.length ≤ fuel) :
    decodeFrom fuel e = some s := by
  induction h generalizing fuel with
  | nil => cases fuel <;> rfl
  | @cons units text s e piece _ ih =>
    have hnext := piece.decodes e
    obtain ⟨c, text, rfl⟩ := List.exists_cons_of_ne_nil piece.nonempty
    rw [List.cons_append, List.length_cons, List.length_append] at hfuel
    obtain ⟨fuel, rfl⟩ : ∃ n, fuel = n + 1 := ⟨fuel - 1, by omega⟩
    rw [List.cons_append] at hnext ⊢
    rw [decodeFrom, hnext]
    simp only [Option.bind_eq_bind, Option.bind_some]
    rw [ih (by omega), Option.bind_some]

theorem decode_encode (h : encodeURIComponent s = some e) : decodeURIComponent e = some s :=
  (encode_pieces h).decodes le_rfl

theorem trim_trimmed (h : ∀ c ∈ s, isTrimmed c = false) : trim s = s := by
  have hdrop : s.dropWhile isTrimmed = s := by
    cases s with
    | nil => rfl
    | cons c s => exact List.dropWhile_cons_of_neg (by rw [h c (List.mem_cons_self ..)]; decide)
  rw [trim, hdrop, List.rdropWhile_eq_self_iff]
  intro hne
  rw [h _ (List.getLast_mem hne)]
  decide

theorem trim_space (hs : trim s = s) : trim (js [' '] ++ s) = s := hs

end RoundTrip

end OpenOutliner
