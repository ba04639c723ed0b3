import EmbraOS.Verified.Utf8

/-!
# The gate of the web console

Port of `embra-web/src/access.rs`.  A text is its bytes, and so is the value of a
header, which need not be text: `toStr` reads it only when every byte is visible
ASCII or a tab.

`admit_lawful_iff` says for which requests the gate keeps its rule.  It does not for
a header it cannot read: a Cookie header is then dropped with the token in it, and
an Origin header counts as none.
-/

namespace EmbraOS.Ports.WebAccess

open Verified

abbrev Text := List UInt8

/-- The bytes of a literal. -/
def bytes (s : String) : Text := Utf8.encode s.toList

def cookieName : Text := bytes "embra_token"

/-! ## Requests -/

/-- What `HeaderValue::to_str` takes. -/
def isVisible (b : UInt8) : Bool := (0x20 ≤ b && b < 0x7F) || b == 0x09

def toStr (value : Text) : Option Text := if value.all isVisible then some value else none

inductive Method where
  | options | get | post | put | delete | head | trace | connect | patch
  | extension (name : String)
  deriving DecidableEq, Repr

/-- The names of headers the gate looks at. -/
inductive HeaderName where
  | cookie
  | origin
  | upgrade
  | host
  | other (name : String)
  deriving DecidableEq, Repr

structure Uri where
  path : Text
  query : Option Text
  /-- An authority is of URI characters. -/
  authority : Option { a : Text // a.all isVisible = true }

/-- The headers of a request, those of one name in the order they came. -/
abbrev HeaderMap := List (HeaderName × Text)

def HeaderMap.getAll (headers : HeaderMap) (name : HeaderName) : List Text :=
  (headers.filter (fun h => h.1 = name)).map Prod.snd

def HeaderMap.get (headers : HeaderMap) (name : HeaderName) : Option Text :=
  (headers.getAll name).head?

/-! ## Texts -/

/-- The white space of ASCII. -/
def isSpace (b : UInt8) : Bool := (0x09 ≤ b && b ≤ 0x0D) || b == 0x20

/-- `str::trim` of an ASCII text. -/
def trim (s : Text) : Text := ((s.dropWhile isSpace).reverse.dropWhile isSpace).reverse

def lower (b : UInt8) : UInt8 := if 0x41 ≤ b ∧ b ≤ 0x5A then b + 0x20 else b

def eqIgnoreAsciiCase (a b : Text) : Bool := a.map lower == b.map lower

def startsWith (s pre : Text) : Bool := pre.isPrefixOf s

def constantTimeEq (a b : Text) : Bool :=
  if a.length ≠ b.length then false
  else (a.zip b).foldl (fun diff p => diff ||| (p.1 ^^^ p.2)) 0 == 0

/-! ## The token of a request -/

def queryToken (uri : Uri) : Option Text :=
  uri.query.bind fun q =>
    (q.splitOn 0x26).findSome? (fun pair => pair.dropPrefix? (bytes "token="))

/-- The elements of a Cookie header: what stands between semicolons. -/
def elements (value : Text) : List Text := (value.splitOn 0x3B).map trim

/-- The values of the console's cookie, in all headers that can be read. -/
def candidates (headers : HeaderMap) : List Text :=
  (((headers.getAll .cookie).filterMap toStr).flatMap elements).filterMap
    (fun c => c.dropPrefix? (cookieName ++ bytes "="))

/-- The loop of `cookie_token`: the candidate that matches, or the first. -/
def pick (expected : Text) : Option Text → List Text → Option Text
  | first, [] => first
  | first, candidate :: rest =>
    if constantTimeEq candidate expected then some candidate
    else pick expected (first.or (some candidate)) rest

def cookieToken (headers : HeaderMap) (expected : Text) : Option Text :=
  pick expected none (candidates headers)

/-! ## The origin -/

def originAllowed (origin host : Option Text) : Bool :=
  match origin, host with
  | none, _ => true
  | some origin, some host => eqIgnoreAsciiCase origin (bytes "https://" ++ host)
  | some _, none => false

def isWebsocketUpgrade (headers : HeaderMap) : Bool :=
  ((headers.get .upgrade).bind toStr).any (fun v => eqIgnoreAsciiCase v (bytes "websocket"))

def originGated (method : Method) (headers : HeaderMap) : Bool :=
  isWebsocketUpgrade headers || !(method = .get || method = .head)

def requestHost (uri : Uri) (headers : HeaderMap) : Option Text :=
  ((headers.get .host).bind toStr).or (uri.authority.map Subtype.val)

/-! ## The decision -/

def cleanLocation (path : Text) (query : Option Text) : Text :=
  let rest := ((query.getD []).splitOn 0x26).filter
    (fun pair => pair ≠ [] && !startsWith pair (bytes "token="))
  if rest = [] then path else path ++ bytes "?" ++ List.intercalate (bytes "&") rest

inductive Decision where
  | pass
  | setCookieAndRedirect (location setCookie : Text)
  | refuse
  | refuseOrigin
  deriving DecidableEq, Repr

/-- The paths on which the token of the query is enough. -/
def apiPath (path : Text) : Bool :=
  startsWith path (bytes "/ws/") || startsWith path (bytes "/api/")

/-- `decide` of the source. -/
def Decision.decide (path : Text) (query queryToken cookieToken : Option Text)
    (expected : Text) : Decision :=
  let ok := fun candidate : Option Text => candidate.any (fun c => constantTimeEq c expected)
  if ok cookieToken then .pass
  else if ok queryToken then
    if apiPath path then .pass
    else .setCookieAndRedirect (cleanLocation path query)
      (cookieName ++ bytes "=" ++ expected ++ bytes "; Path=/; Secure; HttpOnly; SameSite=Strict")
  else .refuse

/-- The first half of `admit`: the token. -/
def tokenDecision (uri : Uri) (headers : HeaderMap) (expected : Text) : Decision :=
  Decision.decide uri.path uri.query (queryToken uri) (cookieToken headers expected) expected

/-- The second half: the origin of a handshake or a write. -/
def originPasses (method : Method) (uri : Uri) (headers : HeaderMap) : Bool :=
  !originGated method headers ||
    originAllowed ((headers.get .origin).bind toStr) (requestHost uri headers)

/-- `admit` of the source. -/
def admitRequest (method : Method) (uri : Uri) (headers : HeaderMap) (expected : Text) : Decision :=
  if tokenDecision uri headers expected ≠ .pass then tokenDecision uri headers expected
  else if originPasses method uri headers then .pass
  else .refuseOrigin

/-! ## The comparison -/

theorem foldl_diff_eq_zero_iff (ps : List (UInt8 × UInt8)) :
    ∀ diff : UInt8, ps.foldl (fun diff p => diff ||| (p.1 ^^^ p.2)) diff = 0 ↔
      diff = 0 ∧ ∀ p ∈ ps, p.1 = p.2 := by
  induction ps with
  | nil => simp
  | cons p ps ih =>
    intro diff
    rw [List.foldl_cons, ih, UInt8.or_eq_zero_iff, UInt8.xor_eq_zero_iff, List.forall_mem_cons,
      and_assoc]

theorem constantTimeEq_iff {a b : Text} : constantTimeEq a b = true ↔ a = b := by
  rw [constantTimeEq]
  by_cases hlen : a.length = b.length
  · rw [if_neg (not_not.2 hlen), beq_iff_eq, foldl_diff_eq_zero_iff]
    constructor
    · rintro ⟨-, h⟩
      apply List.ext_getElem hlen
      intro i hi hi'
      exact h (a[i], b[i]) (List.mem_iff_getElem.2 ⟨i, by simp [hi, hi'], by simp⟩)
    · rintro rfl
      refine ⟨rfl, fun p hp => ?_⟩
      obtain ⟨i, hi, rfl⟩ := List.mem_iff_getElem.1 hp
      simp
  · rw [if_pos hlen]
    exact ⟨fun h => absurd h Bool.false_ne_true, fun h => absurd (congrArg List.length h) hlen⟩

/-! ## What passes -/

/-- The cookie's element with the token. -/
def tokenElement (expected : Text) : Text := cookieName ++ bytes "=" ++ expected

theorem toStr_eq_some {value s : Text} (h : toStr value = some s) :
    value = s ∧ s.all isVisible = true := by
  rw [toStr] at h
  split at h
  · rename_i hvis
    obtain rfl := Option.some.inj h
    exact ⟨rfl, hvis⟩
  · cases h

variable {expected : Text} {headers : HeaderMap} {uri : Uri} {method : Method}

theorem any_pick_iff (cs : List Text) :
    ∀ first : Option Text,
      (pick expected first cs).any (fun c => constantTimeEq c expected) = true ↔
      first = some expected ∨ expected ∈ cs := by
  induction cs with
  | nil =>
    intro first
    simp [pick, Option.any_eq_true, constantTimeEq_iff]
  | cons c cs ih =>
    intro first
    rw [pick]
    by_cases hc : constantTimeEq c expected = true
    · rw [if_pos hc, constantTimeEq_iff.1 hc]
      simp [constantTimeEq_iff]
    · -- a candidate that does not match is kept at most as the first one
      rw [if_neg hc, ih]
      have hne : c ≠ expected := fun h => hc (constantTimeEq_iff.2 h)
      cases first with
      | none => simp [hne, hne.symm]
      | some f => simp [hne.symm]

theorem mem_candidates_iff :
    expected ∈ candidates headers ↔
      ∃ v ∈ headers.getAll .cookie, v.all isVisible = true ∧
        tokenElement expected ∈ elements v := by
  simp only [candidates, List.mem_filterMap, List.mem_flatMap]
  constructor
  · rintro ⟨c, ⟨v, ⟨w, hw, hv⟩, hc⟩, hdrop⟩
    obtain ⟨rfl, hvis⟩ := toStr_eq_some hv
    obtain ⟨p, hp, heq⟩ := List.dropPrefix?_eq_some_iff.1 hdrop
    rw [beq_iff_eq] at heq
    refine ⟨w, hw, hvis, ?_⟩
    rw [tokenElement, ← heq, ← hp]
    exact hc
  · rintro ⟨v, hv, hvis, hmem⟩
    refine ⟨tokenElement expected, ⟨v, ⟨v, hv, if_pos hvis⟩, hmem⟩, ?_⟩
    exact List.dropPrefix?_eq_some_iff.2 ⟨_, rfl, beq_self_eq_true _⟩

/-- A Cookie header holds the element with the token. -/
def CookieHeld (headers : HeaderMap) (expected : Text) : Prop :=
  ∃ v ∈ headers.getAll .cookie, tokenElement expected ∈ elements v

/-- A Cookie header that can be read holds it. -/
def CookieRead (headers : HeaderMap) (expected : Text) : Prop :=
  ∃ v ∈ headers.getAll .cookie, v.all isVisible = true ∧ tokenElement expected ∈ elements v

theorem CookieRead.held (h : CookieRead headers expected) : CookieHeld headers expected := by
  obtain ⟨v, hv, -, hmem⟩ := h
  exact ⟨v, hv, hmem⟩

theorem cookie_ok_iff :
    (cookieToken headers expected).any (fun c => constantTimeEq c expected) = true ↔
      CookieRead headers expected := by
  rw [cookieToken, any_pick_iff, mem_candidates_iff]
  simp [CookieRead]

theorem query_ok_iff :
    (queryToken uri).any (fun c => constantTimeEq c expected) = true ↔
      queryToken uri = some expected := by
  rw [Option.any_eq_true]
  constructor
  · rintro ⟨c, hc, heq⟩
    rw [hc, constantTimeEq_iff.1 heq]
  · intro h
    exact ⟨expected, h, constantTimeEq_iff.2 rfl⟩

/-- The token's decision, over what the cookie and the query hold. -/
theorem tokenDecision_cases (uri : Uri) (headers : HeaderMap) (expected : Text) :
    (CookieRead headers expected ∧ tokenDecision uri headers expected = .pass) ∨
    (¬ CookieRead headers expected ∧ queryToken uri = some expected ∧
      apiPath uri.path = true ∧ tokenDecision uri headers expected = .pass) ∨
    (¬ CookieRead headers expected ∧ queryToken uri = some expected ∧ ¬ apiPath uri.path = true ∧
      ∃ location cookie, tokenDecision uri headers expected =
        .setCookieAndRedirect location cookie) ∨
    (¬ CookieRead headers expected ∧ queryToken uri ≠ some expected ∧
      tokenDecision uri headers expected = .refuse) := by
  rw [tokenDecision, Decision.decide]
  by_cases hcookie : CookieRead headers expected
  · rw [if_pos (cookie_ok_iff.2 hcookie)]
    exact Or.inl ⟨hcookie, rfl⟩
  rw [if_neg (fun h => hcookie (cookie_ok_iff.1 h))]
  by_cases hquery : queryToken uri = some expected
  · rw [if_pos (query_ok_iff.2 hquery)]
    by_cases hpath : apiPath uri.path = true
    · rw [if_pos hpath]
      exact Or.inr (Or.inl ⟨hcookie, hquery, hpath, rfl⟩)
    · rw [if_neg hpath]
      exact Or.inr (Or.inr (Or.inl ⟨hcookie, hquery, hpath, _, _, rfl⟩))
  · rw [if_neg (fun h => hquery (query_ok_iff.1 h))]
    exact Or.inr (Or.inr (Or.inr ⟨hcookie, hquery, rfl⟩))

theorem tokenDecision_eq_pass_iff :
    tokenDecision uri headers expected = .pass ↔
      CookieRead headers expected ∨ (apiPath uri.path = true ∧ queryToken uri = some expected) := by
  rcases tokenDecision_cases uri headers expected with ⟨hcookie, h⟩ | ⟨-, hquery, hpath, h⟩ |
    ⟨hcookie, -, hpath, location, cookie, h⟩ | ⟨hcookie, hquery, h⟩
  · simp [h, hcookie]
  · simp [h, hpath, hquery]
  · simp [h, hcookie, hpath]
  · simp [h, hcookie, hquery]

theorem tokenDecision_eq_refuse_iff :
    tokenDecision uri headers expected = .refuse ↔
      ¬ CookieRead headers expected ∧ queryToken uri ≠ some expected := by
  rcases tokenDecision_cases uri headers expected with ⟨hcookie, h⟩ | ⟨-, hquery, -, h⟩ |
    ⟨-, hquery, -, location, cookie, h⟩ | ⟨hcookie, hquery, h⟩
  · simp [h, hcookie]
  · simp [h, hquery]
  · simp [h, hquery]
  · simp [h, hcookie, hquery]

theorem admit_eq_refuse_iff :
    admitRequest method uri headers expected = .refuse ↔
      tokenDecision uri headers expected = .refuse := by
  rw [admitRequest]
  by_cases hpass : tokenDecision uri headers expected = .pass
  · rw [if_neg (not_not.2 hpass), hpass]
    cases originPasses method uri headers with
    | true => simp
    | false => simp
  · rw [if_pos hpass]

theorem admit_eq_pass_iff :
    admitRequest method uri headers expected = .pass ↔
      tokenDecision uri headers expected = .pass ∧ originPasses method uri headers = true := by
  rw [admitRequest]
  by_cases hpass : tokenDecision uri headers expected = .pass
  · rw [if_neg (not_not.2 hpass)]
    cases originPasses method uri headers with
    | true => simp [hpass]
    | false => simp
  · rw [if_pos hpass]
    simp [hpass]

theorem originPasses_iff :
    originPasses method uri headers = true ↔
      (originGated method headers = true →
        originAllowed ((headers.get .origin).bind toStr) (requestHost uri headers) = true) := by
  rw [originPasses]
  cases originGated method headers with
  | true => simp
  | false => simp

/-! ## The rule -/

/-- The Origin is `https://` and the host of the request, in any case. -/
def OwnOrigin (uri : Uri) (headers : HeaderMap) (origin : Text) : Prop :=
  ∃ host, requestHost uri headers = some host ∧
    eqIgnoreAsciiCase origin (bytes "https://" ++ host) = true

/-- The rule of the gate: who passes, and who is not turned away. -/
structure Lawful (method : Method) (uri : Uri) (headers : HeaderMap) (expected : Text) :
    Prop where
  token : admitRequest method uri headers expected = .pass →
    CookieHeld headers expected ∨ (apiPath uri.path = true ∧ queryToken uri = some expected)
  origin : admitRequest method uri headers expected = .pass → originGated method headers = true →
    ∀ origin, headers.get .origin = some origin → OwnOrigin uri headers origin
  cookie : CookieHeld headers expected → admitRequest method uri headers expected ≠ .refuse

/-- The headers that matter can be read: the Origin of a handshake or a write that
has the token, and one Cookie header with the token when it is in a cookie and not
in the query. -/
structure Readable (method : Method) (uri : Uri) (headers : HeaderMap) (expected : Text) :
    Prop where
  origin : originGated method headers = true →
    CookieRead headers expected ∨ (apiPath uri.path = true ∧ queryToken uri = some expected) →
    ∀ origin, headers.get .origin = some origin → origin.all isVisible = true
  cookie : CookieHeld headers expected → queryToken uri ≠ some expected →
    CookieRead headers expected

theorem isVisible_lower : ∀ b : UInt8, isVisible (lower b) = isVisible b := by
  decide +kernel

theorem all_isVisible_of_eqIgnoreAsciiCase {a b : Text} (h : eqIgnoreAsciiCase a b = true)
    (hb : b.all isVisible = true) : a.all isVisible = true := by
  rw [eqIgnoreAsciiCase, beq_iff_eq] at h
  have hall : ∀ s : Text, (s.map lower).all isVisible = s.all isVisible := by
    intro s
    rw [List.all_map]
    congr 1
    exact funext isVisible_lower
  rw [← hall, h, hall]
  exact hb

theorem requestHost_visible {host : Text}
    (h : requestHost uri headers = some host) : host.all isVisible = true := by
  rw [requestHost, Option.or_eq_some_iff] at h
  rcases h with h | ⟨-, h⟩
  · obtain ⟨v, -, hv⟩ := Option.bind_eq_some_iff.1 h
    exact (toStr_eq_some hv).2
  · obtain ⟨a, -, rfl⟩ := Option.map_eq_some_iff.1 h
    exact a.2

theorem OwnOrigin.visible {origin : Text}
    (h : OwnOrigin uri headers origin) : origin.all isVisible = true := by
  obtain ⟨host, hhost, heq⟩ := h
  apply all_isVisible_of_eqIgnoreAsciiCase heq
  rw [List.all_append, requestHost_visible hhost, Bool.and_true]
  decide +kernel

/-- An Origin that can be read is allowed exactly when it is the request's own. -/
theorem originAllowed_iff {origin : Text} (hvis : origin.all isVisible = true) :
    originAllowed (toStr origin) (requestHost uri headers) = true ↔
      OwnOrigin uri headers origin := by
  rw [toStr, if_pos hvis, OwnOrigin]
  cases requestHost uri headers with
  | none => simp [originAllowed]
  | some host => simp [originAllowed]

/-- **The gate keeps its rule exactly for the requests whose headers it can read.** -/
theorem admit_lawful_iff (method : Method) (uri : Uri) (headers : HeaderMap)
    (expected : Text) :
    Lawful method uri headers expected ↔ Readable method uri headers expected := by
  constructor
  · intro h
    refine ⟨?_, ?_⟩
    · intro hgated htoken origin horigin
      by_contra hvis
      -- an Origin that cannot be read counts as none, so the request passes
      have hnone : toStr origin = none := if_neg hvis
      have hpass : admitRequest method uri headers expected = .pass := by
        rw [admit_eq_pass_iff, tokenDecision_eq_pass_iff, originPasses_iff, horigin,
          Option.bind_some, hnone]
        exact ⟨htoken, fun _ => rfl⟩
      exact hvis (h.origin hpass hgated origin horigin).visible
    · intro hheld hquery
      have hkept := h.cookie hheld
      rw [Ne, admit_eq_refuse_iff, tokenDecision_eq_refuse_iff] at hkept
      by_contra hread
      exact hkept ⟨hread, hquery⟩
  · intro h
    refine ⟨?_, ?_, ?_⟩
    · intro hpass
      rcases tokenDecision_eq_pass_iff.1 (admit_eq_pass_iff.1 hpass).1 with hread | hquery
      · exact Or.inl hread.held
      · exact Or.inr hquery
    · intro hpass hgated origin horigin
      obtain ⟨htoken, hallowed⟩ := admit_eq_pass_iff.1 hpass
      have hvis := h.origin hgated (tokenDecision_eq_pass_iff.1 htoken) origin horigin
      have hown := originPasses_iff.1 hallowed hgated
      rw [horigin, Option.bind_some] at hown
      exact (originAllowed_iff hvis).1 hown
    · intro hheld hrefuse
      rw [admit_eq_refuse_iff, tokenDecision_eq_refuse_iff] at hrefuse
      exact hrefuse.1 (h.cookie hheld hrefuse.2)

/-- A cookie beside the console's with a byte outside ASCII, and a handshake from an
Origin with one. -/
theorem admit_unreadable :
    let token := bytes "0123456789abcdef0123456789abcdef"
    let uri : Uri := ⟨bytes "/ws/terminal", none, none⟩
    let planted := [(HeaderName.cookie, tokenElement token ++ bytes "; x=é")]
    let foreign := [(HeaderName.host, bytes "localhost:3345"),
      (HeaderName.cookie, tokenElement token), (HeaderName.upgrade, bytes "websocket"),
      (HeaderName.origin, bytes "https://évil.example")]
    tokenElement token ∈ elements (tokenElement token ++ bytes "; x=é") ∧
      admitRequest .get uri planted token = .refuse ∧
      admitRequest .get uri foreign token = .pass ∧
      eqIgnoreAsciiCase (bytes "https://évil.example") (bytes "https://localhost:3345") =
        false := by
  decide +kernel

end EmbraOS.Ports.WebAccess
