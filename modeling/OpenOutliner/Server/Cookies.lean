import OpenOutliner.Foundations.OrderedMap
import OpenOutliner.Shared.UriComponent
import Mathlib.Data.Nat.Digits.Lemmas
import Mathlib.Data.Rat.Floor

namespace OpenOutliner

open Foundations

def SEMICOLON : CodeUnit := 0x3B

def EQUALS : CodeUnit := 0x3D

def PROTO : JsString := js ['_', '_', 'p', 'r', 'o', 't', 'o', '_', '_']

abbrev CookieRecord := OrderedMap JsString JsString

def assignCookie (out : CookieRecord) (name value : JsString) : CookieRecord :=
  if name = PROTO then out else out.set name value

def cookiePart (out : CookieRecord) (part : JsString) : CookieRecord :=
  match part.dropWhile (· ≠ EQUALS) with
  | [] => out
  | _ :: value =>
    let name := trim (part.takeWhile (· ≠ EQUALS))
    if name = [] then out
    else
      let value := trim value
      assignCookie out name ((decodeURIComponent value).getD value)

def parseCookies (header : Option JsString) : CookieRecord :=
  match header with
  | none => .empty
  | some header => if header = [] then .empty else (header.splitOn SEMICOLON).foldl cookiePart .empty

inductive SameSite
  | Strict | Lax | None
deriving DecidableEq

def SameSite.text : SameSite → JsString
  | Strict => js ['S', 't', 'r', 'i', 'c', 't']
  | Lax => js ['L', 'a', 'x']
  | None => js ['N', 'o', 'n', 'e']

structure CookieOptions where
  httpOnly : Bool
  secure : Bool
  sameSite : Option SameSite
  path : Option JsString
  maxAgeSec : Option ℚ
  expiresNow : Bool

def decimal (n : ℕ) : JsString :=
  if n = 0 then js ['0'] else (Nat.digits 10 n).reverse.map fun d => Fin.ofNat 65536 (0x30 + d)

def integerText (n : ℤ) : JsString := if n < 0 then js ['-'] ++ decimal n.natAbs else decimal n.natAbs

def MAX_AGE : JsString := js ['M', 'a', 'x', '-', 'A', 'g', 'e', '=']

def cookieAttributes (opts : CookieOptions) : List JsString :=
  [js ['P', 'a', 't', 'h', '='] ++ opts.path.getD (js ['/'])] ++
    (if opts.expiresNow then [MAX_AGE ++ js ['0']]
      else match opts.maxAgeSec with
        | none => []
        | some age => [MAX_AGE ++ integerText ⌊age⌋]) ++
    [js ['S', 'a', 'm', 'e', 'S', 'i', 't', 'e', '='] ++ (opts.sameSite.getD .Lax).text] ++
    (if opts.secure then [js ['S', 'e', 'c', 'u', 'r', 'e']] else []) ++
    (if opts.httpOnly then [js ['H', 't', 't', 'p', 'O', 'n', 'l', 'y']] else [])

def serializeCookie (name value : JsString) (opts : CookieOptions) : Option JsString :=
  (encodeURIComponent value).map fun encoded =>
    (js [';', ' ']).intercalate ((name ++ [EQUALS] ++ encoded) :: cookieAttributes opts)

structure SetCookie where
  name : JsString
  value : JsString
  opts : CookieOptions

def SetCookie.line (c : SetCookie) : Option JsString := serializeCookie c.name c.value c.opts

def CookieOptions.ends (opts : CookieOptions) : Bool :=
  opts.expiresNow || opts.maxAgeSec.any fun age => ⌊age⌋ ≤ 0

def SetCookie.remember (m : CookieRecord) (c : SetCookie) : CookieRecord :=
  if c.opts.ends then m.delete c.name else m.set c.name c.value

/-- A browser's cookies for this server, on a connection that may carry `Secure` ones. It drops a cookie
only where the line says so: not for `SameSite=None` without `Secure`, not for its size, and not when its
`Max-Age` has run out. -/
structure CookieJar where
  held : CookieRecord

namespace CookieJar

def endsNow (segment : JsString) : Bool :=
  let a := trim segment
  a = MAX_AGE ++ js ['0'] || (MAX_AGE ++ js ['-']).isPrefixOf a

def receive (jar : CookieJar) (line : JsString) : CookieJar :=
  match line.splitOn SEMICOLON with
  | [] => jar
  | pair :: attributes =>
    let name := trim (pair.takeWhile (· ≠ EQUALS))
    if attributes.any endsNow then ⟨jar.held.delete name⟩
    else ⟨jar.held.set name (trim ((pair.dropWhile (· ≠ EQUALS)).drop 1))⟩

def header (jar : CookieJar) : Option JsString :=
  if jar.held.entries = [] then none
  else some ((js [';', ' ']).intercalate (jar.held.entries.map fun e => e.1 ++ [EQUALS] ++ e.2))

end CookieJar

structure IsCookieName (name : JsString) : Prop where
  nonempty : name ≠ []
  noSemicolon : SEMICOLON ∉ name
  noEquals : EQUALS ∉ name
  trimmed : trim name = name
  notProto : name ≠ PROTO

/-- The server's own choices, which are not escaped: the name of the cookie, and the path, which no handler
gives. -/
structure SetCookie.Sound (c : SetCookie) : Prop where
  name : IsCookieName c.name
  path : c.opts.path = none

section Segments

variable {name value encoded line : JsString} {opts : CookieOptions} {c : SetCookie} {jar : CookieJar}
  {m : CookieRecord}

theorem intercalate_append_head (sep front first : JsString) (rest : List JsString) :
    sep.intercalate ((front ++ first) :: rest) = front ++ sep.intercalate (first :: rest) := by
  cases rest with
  | nil => rw [List.intercalate_singleton, List.intercalate_singleton]
  | cons second rest => simp only [List.intercalate_cons_cons, List.append_assoc]

theorem intercalate_spaced (first : JsString) (rest : List JsString) :
    (js [';', ' ']).intercalate (first :: rest) = [SEMICOLON].intercalate
    (first :: rest.map (js [' '] ++ ·)) := by
  induction rest generalizing first with
  | nil => rfl
  | cons second rest ih =>
    have hsep : js [';', ' '] = [SEMICOLON] ++ js [' '] := rfl
    rw [List.map_cons, List.intercalate_cons_cons, List.intercalate_cons_cons, ih second,
      intercalate_append_head, hsep]
    simp only [List.append_assoc]

theorem split_spaced {first : JsString} {rest : List JsString} (hfirst : SEMICOLON ∉ first)
    (hrest : ∀ x ∈ rest, SEMICOLON ∉ x) :
    ((js [';', ' ']).intercalate (first :: rest)).splitOn SEMICOLON = first :: rest.map (js [' '] ++ ·) := by
  rw [intercalate_spaced]
  refine List.splitOn_intercalate SEMICOLON ?_ (List.cons_ne_nil _ _)
  rintro x hx
  cases List.mem_cons.mp hx with
  | inl he => exact he ▸ hfirst
  | inr hx =>
    obtain ⟨y, hy, rfl⟩ := List.mem_map.mp hx
    rintro (_ | ⟨_, hmem⟩)
    exact hrest y hy hmem

theorem uriText_plain {x : CodeUnit} (h : isUriText x = true) : x ≠ SEMICOLON ∧ isTrimmed x = false := by
  have hbounds : 0x21 ≤ x.val ∧ x.val ≤ 0x7E ∧ x.val ≠ 0x3B := by
    have hmarks : ∀ y ∈ js ['-', '_', '.', '!', '~', '*', '\'', '(', ')'],
        0x21 ≤ y.val ∧ y.val ≤ 0x7E ∧ y.val ≠ 0x3B := by simp [js]
    simp only [isUriText, isUriUnreserved, inRange, Bool.or_eq_true, Bool.and_eq_true, decide_eq_true_eq,
      List.contains_iff_mem] at h
    obtain (((h | h) | h) | h) | rfl := h
    · omega
    · omega
    · omega
    · exact hmarks x h
    · decide
  refine ⟨?_, ?_⟩
  · rintro rfl
    exact hbounds.2.2 rfl
  · simp only [isTrimmed, inRange, Bool.or_eq_false_iff, Bool.and_eq_false_iff, decide_eq_false_iff_not]
    omega

theorem encoded_noSemicolon (h : encodeURIComponent value = some encoded) : SEMICOLON ∉ encoded := fun hmem =>
  (uriText_plain ((encode_pieces h).isText _ hmem)).1 rfl

theorem trim_encoded (h : encodeURIComponent value = some encoded) : trim encoded = encoded :=
  trim_trimmed fun c hc => (uriText_plain ((encode_pieces h).isText c hc)).2

theorem digit_noSemicolon (d : ℕ) (hd : d < 10) : (Fin.ofNat 65536 (0x30 + d) : CodeUnit) ≠ SEMICOLON := by
  interval_cases d <;> decide

theorem decimal_noSemicolon (n : ℕ) : SEMICOLON ∉ decimal n := by
  unfold decimal
  split
  · decide
  · intro hmem
    obtain ⟨d, hd, he⟩ := List.mem_map.mp hmem
    exact digit_noSemicolon d (Nat.digits_lt_base (by decide) (List.mem_reverse.mp hd)) he

theorem integerText_noSemicolon (n : ℤ) : SEMICOLON ∉ integerText n := by
  unfold integerText
  split
  · intro hmem
    cases List.mem_append.mp hmem with
    | inl h => exact absurd h (by decide)
    | inr h => exact decimal_noSemicolon _ h
  · exact decimal_noSemicolon _

theorem attributes_noSemicolon (hpath : ∀ path ∈ opts.path, SEMICOLON ∉ path) :
    ∀ x ∈ cookieAttributes opts, SEMICOLON ∉ x := by
  have hpathText : SEMICOLON ∉ js ['P', 'a', 't', 'h', '='] ++ opts.path.getD (js ['/']) := by
    intro hmem
    cases List.mem_append.mp hmem with
    | inl h => exact absurd h (by decide)
    | inr h =>
      cases hopt : opts.path with
      | none =>
        rw [hopt] at h
        exact absurd h (by decide)
      | some path =>
        rw [hopt] at h
        exact hpath path hopt h
  have hage : ∀ n, SEMICOLON ∉ MAX_AGE ++ integerText n := by
    intro n hmem
    cases List.mem_append.mp hmem with
    | inl h => exact absurd h (by decide)
    | inr h => exact integerText_noSemicolon n h
  have hsite : SEMICOLON ∉ js ['S', 'a', 'm', 'e', 'S', 'i', 't', 'e', '='] ++
      (opts.sameSite.getD .Lax).text := by
    cases opts.sameSite.getD .Lax <;> decide
  intro x hx
  simp only [cookieAttributes, List.mem_append, List.mem_singleton] at hx
  obtain (((rfl | hx) | rfl) | hx) | hx := hx
  · exact hpathText
  · split at hx
    · obtain rfl := List.mem_singleton.mp hx
      decide
    · split at hx
      · cases hx
      · obtain rfl := List.mem_singleton.mp hx
        exact hage _
  · exact hsite
  · split at hx
    · obtain rfl := List.mem_singleton.mp hx
      decide
    · cases hx
  · split at hx
    · obtain rfl := List.mem_singleton.mp hx
      decide
    · cases hx

theorem line_segments (hc : c.Sound) (h : c.line = some line) :
    ∃ encoded, encodeURIComponent c.value = some encoded ∧
      line.splitOn SEMICOLON = (c.name ++ [EQUALS] ++ encoded) ::
      (cookieAttributes c.opts).map (js [' '] ++ ·) := by
  obtain ⟨encoded, hencoded, rfl⟩ := Option.map_eq_some_iff.mp h
  refine ⟨encoded, hencoded, split_spaced ?_ (attributes_noSemicolon (by simp [hc.path]))⟩
  intro hmem
  simp only [List.mem_append, List.mem_singleton] at hmem
  obtain (hmem | hmem) | hmem := hmem
  · exact hc.name.noSemicolon hmem
  · exact absurd hmem (by decide)
  · exact encoded_noSemicolon hencoded hmem

theorem takeWhile_pair (h : EQUALS ∉ name) (rest : JsString) :
    (name ++ [EQUALS] ++ rest).takeWhile (· ≠ EQUALS) = name := by
  rw [List.append_assoc, List.takeWhile_append_of_pos]
  · simp
  · intro x hx
    refine decide_eq_true ?_
    rintro rfl
    exact h hx

theorem dropWhile_pair (h : EQUALS ∉ name) (rest : JsString) :
    (name ++ [EQUALS] ++ rest).dropWhile (· ≠ EQUALS) = EQUALS :: rest := by
  rw [List.append_assoc, List.dropWhile_append_of_pos]
  · simp
  · intro x hx
    refine decide_eq_true ?_
    rintro rfl
    exact h hx

theorem decimal_digits (n : ℕ) : ∀ x ∈ decimal n, ∃ d < 10, x = Fin.ofNat 65536 (0x30 + d) := by
  unfold decimal
  split
  · intro x hx
    obtain rfl := List.mem_singleton.mp hx
    exact ⟨0, by decide, rfl⟩
  · intro x hx
    obtain ⟨d, hd, rfl⟩ := List.mem_map.mp hx
    exact ⟨d, Nat.digits_lt_base (by decide) (List.mem_reverse.mp hd), rfl⟩

theorem decimal_zero_iff (n : ℕ) : decimal n = js ['0'] ↔ n = 0 := by
  refine ⟨?_, fun h => if_pos h⟩
  intro h
  by_contra hn
  rw [decimal, if_neg hn] at h
  have hlength : (Nat.digits 10 n).length = 1 := by simpa [js] using congrArg List.length h
  obtain ⟨d, hd⟩ := List.length_eq_one_iff.mp hlength
  have hlast := Nat.getLast_digit_ne_zero 10 hn
  have hlt : d < 10 :=
    Nat.digits_lt_base (b := 10) (m := n) (by decide) (by rw [hd]; exact List.mem_singleton_self d)
  simp only [hd, List.getLast_singleton, List.reverse_singleton, List.map_singleton] at hlast h
  interval_cases d <;> first | exact hlast rfl | exact absurd h (by decide)

theorem digit_plain (d : ℕ) (hd : d < 10) : isTrimmed (Fin.ofNat 65536 (0x30 + d)) = false ∧
    (Fin.ofNat 65536 (0x30 + d) : CodeUnit) ≠ 0x2D := by
  interval_cases d <;> decide

theorem age_trimmed (n : ℤ) : ∀ x ∈ MAX_AGE ++ integerText n, isTrimmed x = false := by
  have hdecimal : ∀ x ∈ decimal n.natAbs, isTrimmed x = false := by
    intro x hx
    obtain ⟨d, hd, rfl⟩ := decimal_digits _ x hx
    exact (digit_plain d hd).1
  refine List.forall_mem_append.mpr ⟨by simp [MAX_AGE, js, isTrimmed, inRange], ?_⟩
  unfold integerText
  split
  · exact List.forall_mem_append.mpr ⟨by simp [js, isTrimmed, inRange], hdecimal⟩
  · exact hdecimal

theorem endsNow_age (n : ℤ) : CookieJar.endsNow (js [' '] ++ (MAX_AGE ++ integerText n)) =
    decide (n ≤ 0) := by
  have htrim : trim (js [' '] ++ (MAX_AGE ++ integerText n)) = MAX_AGE ++ integerText n :=
    trim_space (trim_trimmed (age_trimmed n))
  unfold CookieJar.endsNow
  dsimp only
  rw [htrim]
  by_cases hneg : n < 0
  · have hsign : (MAX_AGE ++ js ['-']).isPrefixOf (MAX_AGE ++ integerText n) = true := by
      rw [integerText, if_pos hneg, ← List.append_assoc, List.isPrefixOf_iff_prefix]
      exact List.prefix_append _ _
    rw [hsign, Bool.or_true, decide_eq_true hneg.le]
  · have hsign : (MAX_AGE ++ js ['-']).isPrefixOf (MAX_AGE ++ integerText n) = false := by
      rw [Bool.eq_false_iff, ne_eq, List.isPrefixOf_iff_prefix, integerText, if_neg hneg,
        List.prefix_append_right_inj]
      rintro ⟨rest, hrest⟩
      have hmem : (0x2D : CodeUnit) ∈ decimal n.natAbs := by
        rw [← hrest]
        exact List.mem_cons_self ..
      obtain ⟨d, hd, he⟩ := decimal_digits _ _ hmem
      exact (digit_plain d hd).2 he.symm
    rw [hsign, Bool.or_false, integerText, if_neg hneg]
    refine decide_eq_decide.mpr ?_
    rw [List.append_cancel_left_eq, decimal_zero_iff]
    omega

theorem endsNow_head {x : CodeUnit} {rest : JsString} (hx : isTrimmed x = false)
    (h : CookieJar.endsNow (js [' '] ++ x :: rest) = true) : x = 0x4D := by
  have hdrop : (js [' '] ++ x :: rest).dropWhile isTrimmed = x :: rest := by
    have hplain : (x :: rest).dropWhile isTrimmed = x :: rest :=
      List.dropWhile_cons_of_neg (by rw [hx]; decide)
    exact hplain
  have hfront : js ['M'] <+: trim (js [' '] ++ x :: rest) := by
    simp only [CookieJar.endsNow, Bool.or_eq_true, decide_eq_true_eq, List.isPrefixOf_iff_prefix] at h
    obtain h | h := h
    · rw [h]
      exact List.prefix_append _ _
    · exact (List.prefix_append (js ['M']) _).trans h
  have hwhole : js ['M'] <+: x :: rest := by
    refine hfront.trans ?_
    rw [trim, hdrop]
    exact List.rdropWhile_prefix _ _
  exact ((List.cons_prefix_cons.mp hwhole).1).symm

theorem ends_segments (opts : CookieOptions) :
    ((cookieAttributes opts).map (js [' '] ++ ·)).any CookieJar.endsNow = opts.ends := by
  have hother : ∀ (x : CodeUnit) (rest : JsString), isTrimmed x = false → x ≠ 0x4D →
      CookieJar.endsNow (js [' '] ++ x :: rest) = false := fun x rest hx hne =>
    Bool.eq_false_iff.mpr fun h => hne (endsNow_head hx h)
  have hpath : CookieJar.endsNow (js [' '] ++ (js ['P', 'a', 't', 'h', '='] ++ opts.path.getD (js ['/']))) =
      false :=
    hother _ _ (by decide) (by decide)
  have hsite : CookieJar.endsNow
      (js [' '] ++ (js ['S', 'a', 'm', 'e', 'S', 'i', 't', 'e', '='] ++ (opts.sameSite.getD .Lax).text)) =
        false :=
    hother _ _ (by decide) (by decide)
  have hsecure : CookieJar.endsNow (js [' '] ++ js ['S', 'e', 'c', 'u', 'r', 'e']) = false :=
    hother _ _ (by decide) (by decide)
  have hhttp : CookieJar.endsNow (js [' '] ++ js ['H', 't', 't', 'p', 'O', 'n', 'l', 'y']) = false :=
    hother _ _ (by decide) (by decide)
  have hzero : CookieJar.endsNow (js [' '] ++ (MAX_AGE ++ js ['0'])) = true := endsNow_age 0
  have htail : (((if opts.secure then [js ['S', 'e', 'c', 'u', 'r', 'e']] else []) ++
      (if opts.httpOnly then [js ['H', 't', 't', 'p', 'O', 'n', 'l', 'y']] else [])).map (js [' '] ++ ·)).any
        CookieJar.endsNow = false := by
    cases opts.secure <;> cases opts.httpOnly <;> simp [hsecure, hhttp]
  simp only [List.map_append, List.any_append, Bool.or_eq_false_iff] at htail
  simp only [cookieAttributes, List.map_append, List.any_append, htail.1, htail.2, Bool.or_false,
    List.map_singleton,
    List.any_cons, List.any_nil, hpath, hsite, Bool.false_or, CookieOptions.ends]
  by_cases hnow : opts.expiresNow = true
  · rw [if_pos hnow, hnow, List.map_singleton, List.any_cons, hzero, Bool.true_or, Bool.true_or]
  · rw [if_neg hnow, Bool.eq_false_iff.mpr hnow, Bool.false_or]
    cases opts.maxAgeSec with
    | none => rfl
    | some age =>
      rw [List.map_singleton, List.any_cons, List.any_nil, Bool.or_false, endsNow_age]
      rfl

theorem receive_line (jar : CookieJar) (hc : c.Sound) (h : c.line = some line) :
    ∃ encoded, encodeURIComponent c.value = some encoded ∧
      jar.receive line = if c.opts.ends then ⟨jar.held.delete c.name⟩ else ⟨jar.held.set c.name encoded⟩ := by
  obtain ⟨encoded, hencoded, hsplit⟩ := line_segments hc h
  refine ⟨encoded, hencoded, ?_⟩
  unfold CookieJar.receive
  rw [hsplit]
  dsimp only
  rw [ends_segments, takeWhile_pair hc.name.noEquals, dropWhile_pair hc.name.noEquals, List.drop_succ_cons,
    List.drop_zero,
    trim_encoded hencoded, hc.name.trimmed]

theorem cookiePart_pair (out : CookieRecord) {raw : JsString} (hraw : EQUALS ∉ raw)
    (hname : IsCookieName (trim raw)) (h : encodeURIComponent value = some encoded) :
    cookiePart out (raw ++ [EQUALS] ++ encoded) = out.set (trim raw) value := by
  unfold cookiePart
  rw [dropWhile_pair hraw, takeWhile_pair hraw]
  dsimp only
  rw [if_neg hname.nonempty, trim_encoded h, decode_encode h, assignCookie, if_neg hname.notProto,
    Option.getD_some]

def Holds (jar : CookieJar) (m : CookieRecord) : Prop :=
  OrderedMap.Related (fun name encoded value => IsCookieName name ∧
    encodeURIComponent value = some encoded) jar.held m

theorem Holds.receive (h : Holds jar m) (hc : c.Sound) (hline : c.line = some line) :
    Holds (jar.receive line) (c.remember m) := by
  obtain ⟨encoded, hencoded, hreceive⟩ := receive_line jar hc hline
  rw [hreceive, SetCookie.remember]
  by_cases hends : c.opts.ends = true
  · rw [if_pos hends, if_pos hends]
    exact OrderedMap.Related.delete h c.name
  · rw [if_neg hends, if_neg hends]
    exact OrderedMap.Related.set h ⟨hc.name, hencoded⟩

theorem Holds.receiveAll {cookies : List SetCookie} {lines : List JsString} (h : Holds jar m)
    (hsound : ∀ c ∈ cookies, c.Sound)
    (hlines : List.Forall₂ (fun c line => c.line = some line) cookies lines) :
    Holds (lines.foldl CookieJar.receive jar) (cookies.foldl SetCookie.remember m) := by
  induction hlines generalizing jar m with
  | nil => exact h
  | cons hline _ ih =>
    rw [List.foldl_cons, List.foldl_cons]
    exact ih (h.receive (hsound _ (List.mem_cons_self ..)) hline) fun c hc =>
      hsound c (List.mem_cons_of_mem _ hc)

theorem cookieParts_spaced {es fs : List (JsString × JsString)}
    (h : List.Forall₂ (fun e f => e.1 = f.1 ∧ IsCookieName e.1 ∧ encodeURIComponent f.2 = some e.2) es fs)
    (out : CookieRecord) :
    (es.map fun e => js [' '] ++ (e.1 ++ [EQUALS] ++ e.2)).foldl cookiePart out = fs.foldl
    (fun m f => m.set f.1 f.2) out := by
  induction h generalizing out with
  | nil => rfl
  | @cons e f es fs hhead _ ih =>
    obtain ⟨hkey, hname, hencoded⟩ := hhead
    have htrim : trim (js [' '] ++ e.1) = e.1 := trim_space hname.trimmed
    have hraw : EQUALS ∉ js [' '] ++ e.1 := by
      rintro (_ | ⟨_, hmem⟩)
      exact hname.noEquals hmem
    have hpart := cookiePart_pair out hraw (by rwa [htrim]) hencoded
    rw [htrim, hkey] at hpart
    rw [List.map_cons, List.foldl_cons, List.foldl_cons, ← ih, ← hpart, hkey]
    simp only [List.append_assoc]

theorem pairs_sound {es fs : List (JsString × JsString)}
    (h : List.Forall₂ (fun e f => e.1 = f.1 ∧ IsCookieName e.1 ∧ encodeURIComponent f.2 = some e.2) es fs) :
    ∀ e ∈ es, ∃ value, IsCookieName e.1 ∧ encodeURIComponent value = some e.2 := by
  induction h with
  | nil => simp
  | cons hhead _ ih => exact List.forall_mem_cons.mpr ⟨⟨_, hhead.2⟩, ih⟩

theorem parseCookies_header (h : Holds jar m) : parseCookies jar.header = m := by
  unfold Holds OrderedMap.Related at h
  have hofList := OrderedMap.ofList_entries m
  unfold OrderedMap.ofList at hofList
  unfold CookieJar.header
  cases hentries : jar.held.entries with
  | nil =>
    rw [hentries] at h
    rw [← hofList, List.forall₂_nil_left_iff.mp h]
    rfl
  | cons e es =>
    rw [hentries] at h
    obtain ⟨f, fs, ⟨hkey, hname, hencoded⟩, hrest, hm⟩ := List.forall₂_cons_left_iff.mp h
    have hsplit :
        ((js [';', ' ']).intercalate ((e :: es).map fun e => e.1 ++ [EQUALS] ++ e.2)).splitOn SEMICOLON =
        (e.1 ++ [EQUALS] ++ e.2) :: es.map fun e => js [' '] ++ (e.1 ++ [EQUALS] ++ e.2) := by
      have hplain : ∀ (e : JsString × JsString) (value : JsString), IsCookieName e.1 →
          encodeURIComponent value = some e.2 →
          SEMICOLON ∉ e.1 ++ [EQUALS] ++ e.2 := by
        intro e value hname hencoded hmem
        simp only [List.mem_append, List.mem_singleton] at hmem
        obtain (hmem | hmem) | hmem := hmem
        · exact hname.noSemicolon hmem
        · exact absurd hmem (by decide)
        · exact encoded_noSemicolon hencoded hmem
      rw [List.map_cons, split_spaced (hplain e _ hname hencoded), List.map_map]
      · rfl
      · intro x hx
        obtain ⟨e', he', rfl⟩ := List.mem_map.mp hx
        obtain ⟨value, hname', hencoded'⟩ := pairs_sound hrest e' he'
        exact hplain e' value hname' hencoded'
    have hnonempty : (js [';', ' ']).intercalate ((e :: es).map fun e => e.1 ++ [EQUALS] ++ e.2) ≠ [] := by
      intro hnil
      rw [hnil] at hsplit
      have hhead := (List.cons.inj hsplit).1
      simp at hhead
    have htrim : trim e.1 = e.1 := hname.trimmed
    have hfirst := cookiePart_pair .empty hname.noEquals (by rwa [htrim]) hencoded
    rw [htrim, hkey] at hfirst
    rw [if_neg (List.cons_ne_nil _ _), parseCookies, if_neg hnonempty, hsplit, List.foldl_cons, hkey,
      hfirst, cookieParts_spaced hrest, ← hofList, hm]
    rfl

end Segments

/-- What the server reads back from a browser is what its `Set-Cookie` lines have meant so far, whatever
units the values hold: no value ends its own pair, another pair or an attribute. -/
theorem cookies_remembered {cookies : List SetCookie} (hsound : ∀ c ∈ cookies, c.Sound)
    {lines : List JsString} (hlines : List.Forall₂ (fun c line => c.line = some line) cookies lines) :
    parseCookies (lines.foldl CookieJar.receive ⟨.empty⟩).header = cookies.foldl SetCookie.remember .empty :=
  parseCookies_header (Holds.receiveAll OrderedMap.related_empty hsound hlines)

theorem cookies_remembered_separator :
    let session : SetCookie := ⟨js ['s'], js ['a', 'b'], ⟨true, true, some .Lax, none, some 3600, false⟩⟩
    let other : SetCookie := ⟨js ['o'], js [';', '=', 'é'], ⟨false, false, none, none, none, false⟩⟩
    let ended : SetCookie := ⟨js ['s'], [], ⟨false, false, none, none, none, true⟩⟩
    ∃ lines, List.Forall₂ (fun c line => SetCookie.line c = some line) [session, other, ended] lines ∧
      parseCookies (lines.foldl CookieJar.receive ⟨.empty⟩).header =
      [session, other, ended].foldl SetCookie.remember .empty ∧
      ([session, other, ended].foldl SetCookie.remember .empty).entries =
      [(js ['o'], js [';', '=', 'é'])] := by
  intro session other ended
  have hname : ∀ n ∈ [js ['s'], js ['o']], IsCookieName n := by
    intro n hn
    simp only [List.mem_cons, List.not_mem_nil, or_false] at hn
    obtain rfl | rfl := hn <;> constructor <;> decide
  have hlines : List.Forall₂ (fun c line => SetCookie.line c = some line) [session, other, ended]
      [(session.line).getD [], (other.line).getD [], (ended.line).getD []] :=
    .cons rfl (.cons rfl (.cons rfl .nil))
  refine ⟨_, hlines, cookies_remembered ?_ hlines, by decide⟩
  intro c hc
  simp only [List.mem_cons, List.not_mem_nil, or_false] at hc
  obtain rfl | rfl | rfl := hc
  · exact ⟨hname _ (by decide), rfl⟩
  · exact ⟨hname _ (by decide), rfl⟩
  · exact ⟨hname _ (by decide), rfl⟩

end OpenOutliner
