import OpenOutliner.Shared.UriComponent

namespace OpenOutliner

structure ScryptOptions where
  N : ℤ
  r : ℤ
  p : ℤ
deriving DecidableEq

/-- `none` where the derivation rejects its options. -/
abbrev Scrypt := JsString → List UInt8 → ℕ → ScryptOptions → Option (List UInt8)

namespace Password

def COLON : CodeUnit := 0x3A

def lowerHex (d : ℕ) : CodeUnit := Fin.ofNat 65536 (if d < 10 then 0x30 + d else 0x57 + d)

def toHex (bytes : List UInt8) : JsString :=
  bytes.flatMap fun b => [lowerHex (b.toNat / 16), lowerHex (b.toNat % 16)]

/-- `Buffer.from(text, 'hex')`, which stops at the first pair that is not hexadecimal. -/
def ofHex : JsString → List UInt8
  | h :: l :: rest =>
    match hexValue h, hexValue l with
    | some high, some low => UInt8.ofNat (16 * high + low) :: ofHex rest
    | _, _ => []
  | _ => []

def digitValue (c : CodeUnit) : Option ℕ := if inRange 0x30 0x39 c then some (c.val - 0x30) else none

def leadingNumber (acc : ℕ) : JsString → ℕ
  | [] => acc
  | c :: rest =>
    match digitValue c with
    | some d => leadingNumber (10 * acc + d) rest
    | none => acc

def parseDigits (s : JsString) : Option ℕ :=
  if (s.head?.bind digitValue).isSome then some (leadingNumber 0 s) else none

def parseInt (s : JsString) : Option ℤ :=
  match s.dropWhile isTrimmed with
  | [] => none
  | c :: rest =>
    if c.val = 0x2D then (parseDigits rest).map fun n => -(n : ℤ)
    else if c.val = 0x2B then (parseDigits rest).map fun n => (n : ℤ)
    else (parseDigits (c :: rest)).map fun n => (n : ℤ)

def cost : ScryptOptions := ⟨16384, 8, 1⟩

def KEY_LEN : ℕ := 64

def storedText (salt derived : List UInt8) : JsString :=
  [COLON].intercalate [js ['s', 'c', 'r', 'y', 'p', 't'], js ['1', '6', '3', '8', '4'], js ['8'],
    js ['1'], toHex salt,
    toHex derived]

variable (scrypt : Scrypt)

def hashPassword (password : JsString) (salt : List UInt8) : Option JsString :=
  (scrypt password salt KEY_LEN cost).map (storedText salt)

/-- `none` where the derivation rejects the options that the text holds. -/
def verifyPassword (password stored : JsString) : Option Bool :=
  match stored.splitOn COLON with
  | [scheme, nStr, rStr, pStr, saltHex, hashHex] =>
    if scheme ≠ js ['s', 'c', 'r', 'y', 'p', 't'] then some false
    else
      match parseInt nStr, parseInt rStr, parseInt pStr with
      | some costN, some costR, some costP =>
        let salt := ofHex saltHex
        let expected := ofHex hashHex
        if salt = [] ∨ expected = [] then some false
        else (scrypt password salt expected.length ⟨costN, costR, costP⟩).map fun derived =>
          decide (derived = expected)
      | _, _, _ => some false
  | _ => some false

section Verify

variable {scrypt} {password other stored : JsString} {salt derived bytes : List UInt8}

theorem hexValue_lowerHex {d : ℕ} (h : d < 16) : hexValue (lowerHex d) = some d := by
  interval_cases d <;> rfl

theorem ofHex_toHex (bytes : List UInt8) : ofHex (toHex bytes) = bytes := by
  induction bytes with
  | nil => rfl
  | cons b bytes ih =>
    have hb : b.toNat < 256 := b.toNat_lt
    have hhigh : hexValue (lowerHex (b.toNat / 16)) = some (b.toNat / 16) := hexValue_lowerHex (by omega)
    have hlow : hexValue (lowerHex (b.toNat % 16)) = some (b.toNat % 16) := hexValue_lowerHex (by omega)
    have hsum : 16 * (b.toNat / 16) + b.toNat % 16 = b.toNat := Nat.div_add_mod _ _
    unfold toHex at ih ⊢
    rw [List.flatMap_cons, List.cons_append, List.cons_append, List.nil_append, ofHex, hhigh, hlow]
    dsimp only
    rw [ih, hsum, UInt8.ofNat_toNat]

theorem toHex_noColon (bytes : List UInt8) : COLON ∉ toHex bytes := by
  have hdigit : ∀ d < 16, lowerHex d ≠ COLON := by decide
  intro hmem
  obtain ⟨b, -, hb⟩ := List.mem_flatMap.mp hmem
  have hlt : b.toNat < 256 := b.toNat_lt
  simp only [List.mem_cons, List.not_mem_nil, or_false] at hb
  obtain hb | hb := hb
  · exact hdigit _ (by omega) hb.symm
  · exact hdigit _ (by omega) hb.symm

theorem split_storedText (salt derived : List UInt8) : (storedText salt derived).splitOn COLON =
    [js ['s', 'c', 'r', 'y', 'p', 't'], js ['1', '6', '3', '8', '4'], js ['8'], js ['1'], toHex salt,
      toHex derived] := by
  refine List.splitOn_intercalate COLON ?_ (List.cons_ne_nil _ _)
  simp only [List.forall_mem_cons, List.not_mem_nil, false_imp_iff, implies_true, and_true]
  exact ⟨by decide, by decide, by decide, by decide, toHex_noColon salt, toHex_noColon derived⟩

theorem verify_stored (hsalt : salt ≠ []) (hlength : derived.length = KEY_LEN) (other : JsString) :
    verifyPassword scrypt other (storedText salt derived) =
      (scrypt other salt KEY_LEN cost).map fun key => decide (key = derived) := by
  have hderived : derived ≠ [] := by
    rintro rfl
    cases hlength
  have hN : parseInt (js ['1', '6', '3', '8', '4']) = some 16384 := by decide
  have hr : parseInt (js ['8']) = some 8 := by decide
  have hp : parseInt (js ['1']) = some 1 := by decide
  unfold verifyPassword
  rw [split_storedText]
  dsimp only
  rw [if_neg (not_not.mpr rfl), hN, hr, hp, ofHex_toHex, ofHex_toHex]
  dsimp only
  rw [if_neg (by simp [hsalt, hderived]), hlength]
  rfl

theorem verify_hashPassword (hsalt : salt ≠ [])
    (hlength : ∀ key, scrypt password salt KEY_LEN cost = some key → key.length = KEY_LEN)
    (hstored : hashPassword scrypt password salt = some stored) (other : JsString) :
    verifyPassword scrypt other stored =
      (scrypt other salt KEY_LEN cost).map fun key => decide
      (some key = scrypt password salt KEY_LEN cost) := by
  obtain ⟨derived, hderived, rfl⟩ := Option.map_eq_some_iff.mp hstored
  rw [verify_stored hsalt (hlength derived hderived), hderived]
  simp only [Option.some.injEq]

end Verify

end Password

end OpenOutliner
