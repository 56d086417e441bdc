import OpenOutliner.Foundations.Machine
import OpenOutliner.Server.Accounts

/-!
The CSRF check of the HTTP edge, against a browser whose cookies come from the answers of the server, and
against pages of other sites that make the browser send requests.
-/

namespace OpenOutliner

open Foundations

inductive RpcMethod
  | Signup | Login | Logout | GetItems | GetChildren | UpdateItem | PersistDocumentUpdate
  | GetDocumentState | CreateDocument | ListDocuments | InviteMember | RemoveMember | PresignUpload
  | FinalizeUpload | PresignDownload | WhoAmI | ExportDocument | ImportDocument | SearchItems
deriving DecidableEq

def RPC_PUBLIC_METHODS : List RpcMethod := [.Signup, .Login]

def RPC_READ_METHODS : List RpcMethod :=
  [.GetDocumentState, .GetItems, .GetChildren, .ListDocuments, .WhoAmI, .ExportDocument, .SearchItems]

/-- The methods that the edge wants a token for, and the client sends one with. -/
def needsCsrf (method : RpcMethod) : Bool :=
  decide (method ∉ RPC_PUBLIC_METHODS) && decide (method ∉ RPC_READ_METHODS)

def AccountRequest.method : AccountRequest → RpcMethod
  | .Signup .. => .Signup
  | .Login .. => .Login
  | .Logout => .Logout
  | .InviteMember .. => .InviteMember
  | .RemoveMember .. => .RemoveMember
  | .CreateDocument .. => .CreateDocument

structure RpcHeaders where
  cookie : Option JsString
  csrfToken : Option JsString
  requestId : Option JsString

variable {Uuid : Type}

/-- What the edge and `dispatch` do before the handler of a known method, which gets the session if there is
one. -/
def gate [DecidableEq Uuid] (env : AccountEnv Uuid) (s : Accounts Uuid) (method : RpcMethod)
    (h : RpcHeaders) :
    Except AccountError (Option (Uuid × Uuid)) :=
  let cookies := parseCookies h.cookie
  let session := s.openSession env cookies
  if session.isSome && needsCsrf method && !verifyCsrfToken (cookies.get env.csrfCookieName) h.csrfToken
    then .error .csrf
  else if h.requestId.getD [] = [] then .error .missingRequestId
  else if method ∉ RPC_PUBLIC_METHODS ∧ session = none then .error .unauthorized
  else .ok session

section Client

def CSRF_COOKIE_NAME : JsString := js ['o', 'o', '_', 'c', 's', 'r', 'f']

def cookieAt (name s : JsString) : Option JsString :=
  if (name ++ [EQUALS]).isPrefixOf s then some ((s.drop (name.length + 1)).takeWhile (· ≠ SEMICOLON))
    else none

def cookieAfter (name : JsString) : JsString → Option JsString
  | c :: d :: rest =>
    if c = SEMICOLON ∧ [d] = js [' '] then (cookieAt name rest).or (cookieAfter name (d :: rest))
    else cookieAfter name (d :: rest)
  | _ => none

def matchCookie (name s : JsString) : Option JsString := (cookieAt name s).or (cookieAfter name s)

/-- `document.cookie`, which shows every cookie but the session's: that one is `HttpOnly`. -/
def documentCookie (env : AccountEnv Uuid) (jar : CookieJar) : JsString :=
  (js [';', ' ']).intercalate
    ((jar.held.entries.filter fun e => e.1 ≠ env.sessionCookieName).map fun e => e.1 ++ [EQUALS] ++ e.2)

/-- The headers of a `call`; none where `readCookie` throws. -/
def callHeaders (env : AccountEnv Uuid) (jar : CookieJar) (method : RpcMethod) (requestId : JsString) :
    Option RpcHeaders :=
  if needsCsrf method then
    match matchCookie CSRF_COOKIE_NAME (documentCookie env jar) with
    | none => some ⟨jar.header, none, some requestId⟩
    | some raw => (decodeURIComponent raw).map fun token =>
        ⟨jar.header, if token = [] then none else some token, some requestId⟩
  else some ⟨jar.header, none, some requestId⟩

end Client

section Browser

abbrev TokenBytes := { bytes : List UInt8 // bytes.length = 32 }

def TokenBytes.text (token : TokenBytes) : JsString := Password.toHex token.val

def issueSession (env : AccountEnv Uuid) (sessionId : Uuid) (csrfToken : TokenBytes) : List SetCookie :=
  let maxAgeSec : ℚ := ⌊(env.sessionTtlMs : ℚ) / 1000⌋
  [⟨env.sessionCookieName, env.uuids.text sessionId, ⟨true, false, some .Lax, none, some maxAgeSec, false⟩⟩,
    ⟨env.csrfCookieName, csrfToken.text, ⟨false, false, some .Lax, none, some maxAgeSec, false⟩⟩]

def endSession (env : AccountEnv Uuid) : List SetCookie :=
  [⟨env.sessionCookieName, [], ⟨false, false, none, none, none, true⟩⟩,
    ⟨env.csrfCookieName, [], ⟨false, false, none, none, none, true⟩⟩]

/-- A browser's cookies for the server; `issued` are the tokens of the answers that came to it, whoever
asked for them. -/
structure Browser where
  jar : CookieJar
  issued : List TokenBytes

/-- The answers that set cookies, and the browser's forgetting of both, which were set for the same time. -/
inductive BrowserEvent (Uuid : Type)
  | signedIn (sessionId : Uuid) (token : TokenBytes)
  | signedOut
  | forget

namespace Browser

def start : Browser := ⟨⟨.empty⟩, []⟩

def receive (b : Browser) (cookies : List SetCookie) : Option CookieJar :=
  (cookies.mapM SetCookie.line).map fun lines => lines.foldl CookieJar.receive b.jar

def step (env : AccountEnv Uuid) (b : Browser) : BrowserEvent Uuid → Option Browser
  | .signedIn sessionId token =>
    (b.receive (issueSession env sessionId token)).map fun jar => ⟨jar, token :: b.issued⟩
  | .signedOut => (b.receive (endSession env)).map fun jar => ⟨jar, b.issued⟩
  | .forget => some ⟨⟨.empty⟩, b.issued⟩

end Browser

end Browser

section Text

variable {s t : JsString}

theorem pairedChar_large {high low : CodeUnit} (hhigh : isHighSurrogate high = true)
    (hlow : isLowSurrogate low = true) :
    0x80 ≤ (pairedChar high low).toNat := by
  simp only [isHighSurrogate, isLowSurrogate, Bool.and_eq_true, decide_eq_true_eq] at hhigh hlow
  have hval : (pairedChar high low).toNat = 0x10000 + (high.val - 0xD800) * 0x400 + (low.val - 0xDC00) :=
    ofNat_toNat (by omega)
  omega

theorem utf8Bytes_cons (c : CodeUnit) (rest : JsString) :
    ∃ x more, utf8Bytes (c :: rest) = String.utf8EncodeChar x ++ more ∧
    (c.val < 0x80 → x.toNat < 0x80) ∧ (x.toNat < 0x80 → x.toNat = c.val ∧ more = utf8Bytes rest) := by
  have hunit : ∀ x, x = Char.ofNat (if isHighSurrogate c || isLowSurrogate c then 0xFFFD else c.val) →
      (c.val < 0x80 → x.toNat < 0x80) ∧ (x.toNat < 0x80 → x.toNat = c.val) := by
    rintro x rfl
    simp only [isHighSurrogate, isLowSurrogate, Bool.or_eq_true, Bool.and_eq_true, decide_eq_true_eq]
    split
    · exact ⟨fun h => by omega, fun h => absurd h (by decide)⟩
    · have hval : (Char.ofNat c.val).toNat = c.val := ofNat_toNat (by omega)
      exact ⟨fun h => hval.symm ▸ h, fun _ => hval⟩
  cases rest with
  | nil => exact ⟨_, [], (List.append_nil _).symm, (hunit _ rfl).1, fun h => ⟨(hunit _ rfl).2 h, rfl⟩⟩
  | cons d rest =>
    by_cases hpair : (isHighSurrogate c && isLowSurrogate d) = true
    · obtain ⟨hhigh, hlow⟩ := Bool.and_eq_true_iff.mp hpair
      have hlarge := pairedChar_large hhigh hlow
      simp only [isHighSurrogate, Bool.and_eq_true, decide_eq_true_eq] at hhigh
      exact ⟨_, _, by rw [utf8Bytes, if_pos hpair], fun h => by omega, fun h => by omega⟩
    · exact ⟨_, _, by rw [utf8Bytes, if_neg hpair], (hunit _ rfl).1, fun h => ⟨(hunit _ rfl).2 h, rfl⟩⟩

theorem utf8EncodeChar_append_inj {x y : Char} {more after : List UInt8}
    (h : String.utf8EncodeChar x ++ more = String.utf8EncodeChar y ++ after) : x = y ∧ more = after := by
  have hbytes := congrArg List.toByteArray h
  rw [List.toByteArray_append, List.toByteArray_append] at hbytes
  have hx := @ByteArray.utf8DecodeChar?_utf8EncodeChar_append more.toByteArray x
  rw [hbytes, ByteArray.utf8DecodeChar?_utf8EncodeChar_append] at hx
  obtain rfl := Option.some.inj hx
  exact ⟨rfl, List.append_cancel_left h⟩

theorem utf8Bytes_inj (ht : ∀ c ∈ t, c.val < 0x80) (h : utf8Bytes s = utf8Bytes t) : s = t := by
  induction t generalizing s with
  | nil =>
    cases s with
    | nil => rfl
    | cons c s =>
      obtain ⟨x, more, hbytes, -⟩ := utf8Bytes_cons c s
      obtain ⟨b, bs, hx, -⟩ := utf8_leading x
      rw [hbytes, hx] at h
      cases h
  | cons d t ih =>
    obtain ⟨hd, ht⟩ := List.forall_mem_cons.mp ht
    obtain ⟨y, after, hy, hsmall, hyd⟩ := utf8Bytes_cons d t
    obtain ⟨hval, rfl⟩ := hyd (hsmall hd)
    cases s with
    | nil =>
      obtain ⟨b, bs, hx, -⟩ := utf8_leading y
      rw [hy, hx] at h
      cases h
    | cons c s =>
      obtain ⟨x, more, hx, -, hxc⟩ := utf8Bytes_cons c s
      rw [hx, hy] at h
      obtain ⟨rfl, hmore⟩ := utf8EncodeChar_append_inj h
      obtain ⟨hc, rfl⟩ := hxc (hsmall hd)
      rw [ih ht hmore, Fin.ext (hc.symm.trans hval)]

theorem text_small (token : TokenBytes) : ∀ c ∈ token.text, c.val < 0x80 := by
  have hdigit : ∀ d < 16, (Password.lowerHex d).val < 0x80 := by decide
  intro c hmem
  obtain ⟨b, -, hb⟩ := List.mem_flatMap.mp hmem
  have hlt : b.toNat < 256 := b.toNat_lt
  simp only [List.mem_cons, List.not_mem_nil, or_false] at hb
  obtain rfl | rfl := hb
  · exact hdigit _ (by omega)
  · exact hdigit _ (by omega)

theorem text_ne_nil (token : TokenBytes) : token.text ≠ [] := by
  obtain ⟨bytes, hlength⟩ := token
  cases bytes with
  | nil => cases hlength
  | cons b bytes => exact List.cons_ne_nil _ _

theorem verify_text_iff (token : TokenBytes) (header : Option JsString) :
    verifyCsrfToken (some token.text) header = true ↔ header = some token.text := by
  cases header with
  | none => simp [verifyCsrfToken]
  | some header =>
    simp only [verifyCsrfToken, Bool.and_eq_true, decide_eq_true_eq, Option.some.injEq]
    constructor
    · rintro ⟨-, hbytes⟩
      exact utf8Bytes_inj (text_small token) hbytes.symm
    · rintro rfl
      exact ⟨⟨text_ne_nil token, text_ne_nil token⟩, rfl⟩

end Text

section Names

/-- How the server is configured: the client has the second name, too. -/
structure AccountEnv.NamesCookies (env : AccountEnv Uuid) : Prop where
  session : IsCookieName env.sessionCookieName
  csrf : env.csrfCookieName = CSRF_COOKIE_NAME
  distinct : env.sessionCookieName ≠ env.csrfCookieName

variable {env : AccountEnv Uuid} {b : Browser} {m : CookieRecord} {x y : JsString}

theorem csrf_isCookieName : IsCookieName CSRF_COOKIE_NAME := by constructor <;> decide

def bothCookies (env : AccountEnv Uuid) (sessionText csrfText : JsString) : CookieRecord :=
  (OrderedMap.empty.set env.sessionCookieName sessionText).set env.csrfCookieName csrfText

def Browser.Remembers (env : AccountEnv Uuid) (b : Browser) (m : CookieRecord) : Prop :=
  m = .empty ∨ ∃ sessionText, ∃ token ∈ b.issued, m = bothCookies env sessionText token.text

def Browser.Sound (env : AccountEnv Uuid) (b : Browser) : Prop := ∃ m, Holds b.jar m ∧ b.Remembers env m

theorem bothCookies_entries (henv : env.NamesCookies) (x y : JsString) :
    (bothCookies env x y).entries = [(env.sessionCookieName, x), (env.csrfCookieName, y)] := by
  simp [bothCookies, OrderedMap.set, OrderedMap.putEntry, OrderedMap.empty, henv.distinct]

theorem bothCookies_csrf : (bothCookies env x y).get env.csrfCookieName = some y :=
  OrderedMap.get_set_self _ _ _

theorem cookieRecord_ext {m m' : CookieRecord} (h : m.entries = m'.entries) : m = m' := by
  cases m
  cases m'
  cases h
  rfl

theorem bothCookies_set (henv : env.NamesCookies) (hm : b.Remembers env m) (x y : JsString) :
    (m.set env.sessionCookieName x).set env.csrfCookieName y = bothCookies env x y := by
  obtain rfl | ⟨sessionText, token, -, rfl⟩ := hm
  · rfl
  · refine cookieRecord_ext ?_
    rw [bothCookies_entries henv]
    simp [OrderedMap.set, bothCookies_entries henv, OrderedMap.putEntry, henv.distinct]

theorem bothCookies_delete (henv : env.NamesCookies) (hm : b.Remembers env m) :
    (m.delete env.sessionCookieName).delete env.csrfCookieName = .empty := by
  obtain rfl | ⟨sessionText, token, -, rfl⟩ := hm
  · rfl
  · refine cookieRecord_ext ?_
    simp [OrderedMap.delete, bothCookies_entries henv, OrderedMap.empty, henv.distinct.symm]

theorem holds_empty : Holds ⟨.empty⟩ .empty := OrderedMap.related_empty

theorem lines_of_mapM {cookies : List SetCookie} {lines : List JsString}
    (h : cookies.mapM SetCookie.line = some lines) :
    List.Forall₂ (fun c line => c.line = some line) cookies lines := by
  induction cookies generalizing lines with
  | nil =>
    obtain rfl := Option.some.inj h
    exact .nil
  | cons c cookies ih =>
    simp only [List.mapM_cons, Option.bind_eq_bind, Option.bind_eq_some_iff, Option.pure_def,
      Option.some.injEq] at h
    obtain ⟨line, hline, rest, hrest, rfl⟩ := h
    exact .cons hline (ih hrest)

theorem pair_sound (henv : env.NamesCookies) {first second : SetCookie}
    (hfirst : first.name = env.sessionCookieName) (hsecond : second.name = env.csrfCookieName)
    (hpath : first.opts.path = none) (hpath' : second.opts.path = none) :
    ∀ c ∈ [first, second], c.Sound := by
  intro c hc
  obtain rfl | rfl := List.mem_pair.mp hc
  · exact ⟨hfirst ▸ henv.session, hpath⟩
  · refine ⟨?_, hpath'⟩
    rw [hsecond, henv.csrf]
    exact csrf_isCookieName

theorem receive_holds {cookies : List SetCookie} {jar : CookieJar} (hm : Holds b.jar m)
    (hsound : ∀ c ∈ cookies, c.Sound)
    (h : b.receive cookies = some jar) : Holds jar (cookies.foldl SetCookie.remember m) := by
  obtain ⟨lines, hlines, rfl⟩ := Option.map_eq_some_iff.mp h
  exact hm.receiveAll hsound (lines_of_mapM hlines)

theorem issueSession_remembered (henv : env.NamesCookies) (hm : b.Remembers env m) (sessionId : Uuid)
    (token : TokenBytes) :
    (issueSession env sessionId token).foldl SetCookie.remember m = .empty ∨
      (issueSession env sessionId token).foldl SetCookie.remember m =
        bothCookies env (env.uuids.text sessionId) token.text := by
  simp only [issueSession, List.foldl_cons, List.foldl_nil, SetCookie.remember, CookieOptions.ends,
    Bool.false_or,
    Option.any_some]
  split
  · exact Or.inl (bothCookies_delete henv hm)
  · exact Or.inr (bothCookies_set henv hm _ _)

theorem endSession_remembered (henv : env.NamesCookies) (hm : b.Remembers env m) :
    (endSession env).foldl SetCookie.remember m = .empty :=
  bothCookies_delete henv hm

theorem Browser.Sound.step {b' : Browser} {event : BrowserEvent Uuid} (henv : env.NamesCookies)
    (hb : b.Sound env) (h : b.step env event = some b') : b'.Sound env := by
  obtain ⟨m, hm, hshape⟩ := hb
  cases event with
  | signedIn sessionId token =>
    simp only [Browser.step, Option.map_eq_some_iff] at h
    obtain ⟨jar, hjar, rfl⟩ := h
    refine ⟨_, receive_holds hm (pair_sound henv rfl rfl rfl rfl) hjar, ?_⟩
    obtain hnone | hboth := issueSession_remembered henv hshape sessionId token
    · exact Or.inl hnone
    · exact Or.inr ⟨_, token, List.mem_cons_self .., hboth⟩
  | signedOut =>
    simp only [Browser.step, Option.map_eq_some_iff] at h
    obtain ⟨jar, hjar, rfl⟩ := h
    exact ⟨_, receive_holds hm (pair_sound henv rfl rfl rfl rfl) hjar,
      Or.inl (endSession_remembered henv hshape)⟩
  | forget =>
    obtain rfl := Option.some.inj h
    exact ⟨_, holds_empty, Or.inl rfl⟩

theorem browser_sound (henv : env.NamesCookies)
    (hrun : Runs (Browser.step env) (fun _ _ => True) Browser.start b) : b.Sound env :=
  Runs.invariant (fun hb _ h => Browser.Sound.step henv hb h) ⟨.empty, holds_empty, Or.inl rfl⟩ hrun

theorem Browser.Sound.parse (hb : b.Sound env) : b.Remembers env (parseCookies b.jar.header) := by
  obtain ⟨m, hm, hshape⟩ := hb
  exact (parseCookies_header hm).symm ▸ hshape

theorem matchCookie_front {name value : JsString} (h : SEMICOLON ∉ value) :
    matchCookie name (name ++ [EQUALS] ++ value) = some value := by
  have hfront : (name ++ [EQUALS]).isPrefixOf (name ++ [EQUALS] ++ value) = true :=
    List.isPrefixOf_iff_prefix.mpr (List.prefix_append _ _)
  have hdrop : (name ++ [EQUALS] ++ value).drop (name.length + 1) = value := by
    rw [← List.length_singleton (a := EQUALS), ← List.length_append, List.drop_left]
  have hwhole : value.takeWhile (· ≠ SEMICOLON) = value := by
    rw [List.takeWhile_eq_self_iff]
    intro c hc
    refine decide_eq_true ?_
    rintro rfl
    exact h hc
  rw [matchCookie, cookieAt, if_pos hfront, hdrop, hwhole, Option.some_or]

theorem callHeaders_eq (henv : env.NamesCookies) (hb : b.Sound env) (method : RpcMethod)
    (requestId : JsString) :
    callHeaders env b.jar method requestId = some ⟨b.jar.header,
      if needsCsrf method then (parseCookies b.jar.header).get env.csrfCookieName
      else none, some requestId⟩ := by
  obtain ⟨m, hm, hshape⟩ := hb
  rw [parseCookies_header hm, callHeaders]
  split
  · unfold Holds OrderedMap.Related at hm
    obtain rfl | ⟨sessionText, token, -, rfl⟩ := hshape
    · have hheld : b.jar.held.entries = [] := List.forall₂_nil_right_iff.mp hm
      rw [documentCookie, hheld]
      rfl
    · rw [bothCookies_entries henv] at hm
      obtain ⟨⟨name, shown⟩, rest, ⟨rfl, -, -⟩, hrest, hentries⟩ := List.forall₂_cons_right_iff.mp hm
      obtain ⟨⟨csrf, encoded⟩, rest, ⟨rfl, -, hencoded⟩, hnil, rfl⟩ := List.forall₂_cons_right_iff.mp hrest
      obtain rfl := List.forall₂_nil_right_iff.mp hnil
      have hshown : documentCookie env b.jar = CSRF_COOKIE_NAME ++ [EQUALS] ++ encoded := by
        rw [documentCookie, hentries, ← henv.csrf]
        simp [henv.distinct.symm]
      rw [hshown, matchCookie_front (encoded_noSemicolon hencoded), bothCookies_csrf]
      dsimp only
      rw [decode_encode hencoded, Option.map_some, if_neg (text_ne_nil token)]
  · rfl

end Names

section Gate

variable [DecidableEq Uuid] {env : AccountEnv Uuid} {b : Browser} {s : Accounts Uuid} {method : RpcMethod}
  {h : RpcHeaders} {session : Option (Uuid × Uuid)}

theorem gate_ok (hgate : gate env s method h = .ok session) :
    session = s.openSession env (parseCookies h.cookie) ∧
    (session = none → method ∈ RPC_PUBLIC_METHODS) ∧
    (session.isSome = true → needsCsrf method = true →
      verifyCsrfToken ((parseCookies h.cookie).get env.csrfCookieName) h.csrfToken = true) := by
  unfold gate at hgate
  dsimp only at hgate
  split_ifs at hgate with hcsrf hrequest hpublic
  obtain rfl := Except.ok.inj hgate
  simp only [Bool.and_eq_true, Bool.not_eq_true'] at hcsrf
  refine ⟨rfl, fun hnone => by_contra fun hmethod => hpublic ⟨hmethod, hnone⟩, fun hsome hneeds => ?_⟩
  exact by_contra fun hverify => hcsrf ⟨⟨hsome, hneeds⟩, Bool.eq_false_iff.mpr hverify⟩

theorem openSession_empty (s : Accounts Uuid) : s.openSession env .empty = none := rfl

theorem needsCsrf_public (hmethod : method ∈ RPC_PUBLIC_METHODS) : needsCsrf method = false := by
  simp [needsCsrf, hmethod]

/-- The call of a page of another site, which has the browser's cookies, but reads no answer and no cookie. -/
def Foreign (b : Browser) (cookie csrfToken : Option JsString) : Prop :=
  (cookie = b.jar.header ∨ cookie = none) ∧ ∀ token ∈ b.issued, csrfToken ≠ some token.text

theorem foreign_admitted (hb : b.Sound env) (hforeign : Foreign b h.cookie h.csrfToken)
    (hgate : gate env s method h = .ok session) :
    needsCsrf method = false := by
  obtain ⟨hsession, hpublic, hcsrf⟩ := gate_ok hgate
  obtain ⟨hcookie, htoken⟩ := hforeign
  have hshape : b.Remembers env (parseCookies h.cookie) := by
    obtain hcookie | hcookie := hcookie
    · exact hcookie ▸ hb.parse
    · exact hcookie ▸ Or.inl rfl
  by_contra hneeds
  have hneeds : needsCsrf method = true := Bool.eq_true_of_not_eq_false hneeds
  cases hsome : session with
  | none => exact Bool.false_ne_true ((needsCsrf_public (hpublic hsome)).symm.trans hneeds)
  | some found =>
    obtain hempty | ⟨sessionText, token, hissued, hboth⟩ := hshape
    · rw [hsome, hempty, openSession_empty] at hsession
      cases hsession
    · have hverify := hcsrf (hsome ▸ rfl) hneeds
      rw [hboth, bothCookies_csrf, verify_text_iff] at hverify
      exact htoken token hissued hverify

theorem isPublic_iff (body : AccountRequest) : body.isPublic = true ↔ body.method ∈ RPC_PUBLIC_METHODS := by
  cases body <;> simp [AccountRequest.isPublic, AccountRequest.method, RPC_PUBLIC_METHODS]

theorem writes (body : AccountRequest) : body.method ∉ RPC_READ_METHODS := by
  cases body <;> simp [AccountRequest.method, RPC_READ_METHODS]

theorem handle_admitted {r : HttpRequest} {allowed : Bool} {call : AccountCall Uuid}
    (hcall : s.handle env r allowed = .ok call) :
    ∃ session, gate env s r.body.method ⟨r.cookie, r.csrfToken, r.requestId⟩ = .ok session := by
  unfold Accounts.handle at hcall
  dsimp only at hcall
  unfold gate
  dsimp only
  split at hcall
  · rename_i hbody
    split at hcall
    · cases hcall
    · rename_i hmissing
      have hrequest : ¬ r.requestId.getD [] = [] := hmissing
      have hmethod := (isPublic_iff r.body).mp hbody
      rw [needsCsrf_public hmethod, Bool.and_false, Bool.false_and, if_neg Bool.false_ne_true,
        if_neg hrequest,
        if_neg fun hprivate => hprivate.1 hmethod]
      exact ⟨_, rfl⟩
  · split at hcall
    · cases hcall
    · rename_i userId sessionId hsession
      split at hcall
      · rename_i hchecked
        split at hcall
        · cases hcall
        · rename_i hmissing
          have hrequest : ¬ r.requestId.getD [] = [] := hmissing
          rw [hchecked, Bool.not_true, Bool.and_false, if_neg Bool.false_ne_true, if_neg hrequest, hsession,
            if_neg fun hprivate => Option.some_ne_none _ hprivate.2]
          exact ⟨_, rfl⟩
      · cases hcall

theorem page_admitted (henv : env.NamesCookies) (hb : b.Sound env) {requestId : JsString}
    (hrequest : requestId ≠ [])
    (hallowed : method ∈ RPC_PUBLIC_METHODS ∨ (s.openSession env (parseCookies b.jar.header)).isSome = true) :
    ∃ h, callHeaders env b.jar method requestId = some h ∧ h.cookie = b.jar.header ∧
      gate env s method h = .ok (s.openSession env (parseCookies b.jar.header)) := by
  refine ⟨_, callHeaders_eq henv hb method requestId, rfl, ?_⟩
  have hverify :
      ((s.openSession env (parseCookies b.jar.header)).isSome && needsCsrf method && !verifyCsrfToken
      ((parseCookies b.jar.header).get env.csrfCookieName)
      (if needsCsrf method then (parseCookies b.jar.header).get env.csrfCookieName else none)) = false := by
    by_cases hneeds : needsCsrf method = true
    · obtain hempty | ⟨sessionText, token, -, hboth⟩ := hb.parse
      · rw [hempty, openSession_empty, Option.isSome_none, Bool.false_and, Bool.false_and]
      · rw [if_pos hneeds, hboth, bothCookies_csrf, (verify_text_iff token _).mpr rfl, Bool.not_true,
          Bool.and_false]
    · rw [Bool.eq_false_iff.mpr hneeds, Bool.and_false, Bool.false_and]
  have hprivate : ¬ (method ∉ RPC_PUBLIC_METHODS ∧ s.openSession env (parseCookies b.jar.header) = none) := by
    rintro ⟨hmethod, hnone⟩
    rw [hnone] at hallowed
    exact hallowed.elim hmethod Bool.false_ne_true
  unfold gate
  dsimp only
  rw [hverify, if_neg Bool.false_ne_true, Option.getD_some, if_neg hrequest, if_neg hprivate]

end Gate

/-- Whatever answers a browser has had: with its cookies a page of another site gets no further than the
methods that read or sign in, and the pages of the client get as far as the session does. -/
theorem csrf_guards [DecidableEq Uuid] {env : AccountEnv Uuid} (henv : env.NamesCookies) {b : Browser}
    (hrun : Runs (Browser.step env) (fun _ _ => True) Browser.start b) (s : Accounts Uuid) :
    (∀ method h session, Foreign b h.cookie h.csrfToken → gate env s method h = .ok session →
      method ∈ RPC_PUBLIC_METHODS ∨ method ∈ RPC_READ_METHODS) ∧
    (∀ r allowed call, Foreign b r.cookie r.csrfToken → s.handle env r allowed = .ok call →
      r.body.isPublic = true) ∧
    ∀ method requestId, requestId ≠ [] →
      method ∈ RPC_PUBLIC_METHODS ∨ (s.openSession env (parseCookies b.jar.header)).isSome = true →
      ∃ h, callHeaders env b.jar method requestId = some h ∧ h.cookie = b.jar.header ∧
        gate env s method h = .ok (s.openSession env (parseCookies b.jar.header)) := by
  have hb := browser_sound henv hrun
  refine ⟨?_, ?_, ?_⟩
  · intro method h session hforeign hgate
    have hneeds := foreign_admitted hb hforeign hgate
    simp only [needsCsrf, Bool.and_eq_false_iff, decide_eq_false_iff_not, not_not] at hneeds
    exact hneeds
  · intro r allowed call hforeign hcall
    obtain ⟨session, hgate⟩ := handle_admitted hcall
    have hneeds := foreign_admitted hb hforeign hgate
    simp only [needsCsrf, Bool.and_eq_false_iff, decide_eq_false_iff_not, not_not, writes r.body, or_false]
      at hneeds
    exact (isPublic_iff r.body).mpr hneeds
  · intro method requestId hrequest hallowed
    exact page_admitted henv hb hrequest hallowed

section Example

def namedEnv : AccountEnv JsString :=
  ⟨rawUuids, fun _ _ _ _ => none, id, id, js ['s'], CSRF_COOKIE_NAME, 1000⟩

def zeroToken : TokenBytes := ⟨List.replicate 32 0, rfl⟩

def oneSession : Accounts JsString :=
  { Accounts.start 0 with
    db := { (Accounts.start 0).db with
      sessions := OrderedMap.empty.set (uuidOf 0x35) ⟨uuidOf 0x31, 1000, none⟩ } }

end Example

theorem csrf_guards_signed_in :
    ∃ b, Browser.start.step namedEnv (.signedIn (uuidOf 0x35) zeroToken) = some b ∧
      (∀ session, gate namedEnv oneSession .RemoveMember ⟨b.jar.header, some (js ['0']), some (js ['q'])⟩ ≠
        .ok session) ∧
      ∃ h, callHeaders namedEnv b.jar .RemoveMember (js ['q']) = some h ∧
        gate namedEnv oneSession .RemoveMember h = .ok (some (uuidOf 0x31, uuidOf 0x35)) := by
  have henv : namedEnv.NamesCookies := ⟨by constructor <;> decide, rfl, by decide⟩
  have hissued : (Browser.start.step namedEnv (.signedIn (uuidOf 0x35) zeroToken)).map Browser.issued =
      some [zeroToken] := by
    decide +kernel
  obtain ⟨b, hb, htokens⟩ := Option.map_eq_some_iff.mp hissued
  have hopen : (Browser.start.step namedEnv (.signedIn (uuidOf 0x35) zeroToken)).map (fun b =>
      oneSession.openSession namedEnv (parseCookies b.jar.header)) =
      some (some (uuidOf 0x31, uuidOf 0x35)) := by decide +kernel
  rw [hb] at hopen
  have hopen : oneSession.openSession namedEnv (parseCookies b.jar.header) =
      some (uuidOf 0x31, uuidOf 0x35) :=
    Option.some.inj hopen
  obtain ⟨hforeign, -, hpage⟩ := csrf_guards henv (Runs.single trivial hb) oneSession
  refine ⟨b, hb, ?_, ?_⟩
  · intro session hgate
    have hother : Foreign b b.jar.header (some (js ['0'])) := by
      refine ⟨Or.inl rfl, ?_⟩
      rw [htokens]
      decide +kernel
    exact absurd (hforeign .RemoveMember _ session hother hgate) (by decide)
  · obtain ⟨h, hheaders, -, hgate⟩ := hpage .RemoveMember (js ['q']) (by decide) (Or.inr (by rw [hopen]; rfl))
    exact ⟨h, hheaders, hgate.trans (congrArg Except.ok hopen)⟩

end OpenOutliner
