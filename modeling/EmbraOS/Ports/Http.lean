import EmbraOS.Ports.Egress
import EmbraOS.Ports.Secrets
import EmbraOS.Verified.Headers
import EmbraOS.Verified.Serde

/-!
# The request guard

Port of `parse_http_request` and `guarded_http_request` in
`embra-guardian/src/caps.rs`.  A run takes the guest's text and leaves the
requests it handed to the transport, the files it saved, and the reply.

The transport answers each request with what it likes, knowing all the
earlier ones; the resolver and the clock answer per hop.  The names of the
headers are lower case and distinct by construction (`Headers`).  A panic is a
run without a reply.
-/

namespace EmbraOS.Ports.Http

open Verified
open Verified.Serde
open Verified.Text
open Ports.Egress
open Ports.Secrets

/-! ## Requests and answers -/

inductive Method where
  | get
  | head
  | post
  | put
  | patch
  | delete
  deriving DecidableEq, Repr

namespace Method

def asStr : Method → String
  | get => "GET"
  | head => "HEAD"
  | post => "POST"
  | put => "PUT"
  | patch => "PATCH"
  | delete => "DELETE"

def parse (s : String) : Option Method :=
  let s := toAsciiUppercase (trim s)
  if s = "GET" then some get
  else if s = "HEAD" then some head
  else if s = "POST" then some post
  else if s = "PUT" then some put
  else if s = "PATCH" then some patch
  else if s = "DELETE" then some delete
  else none

def followsRedirects (m : Method) : Bool := m = get ∨ m = head

end Method

structure HttpRequest where
  method : Method
  url : String
  headers : Headers
  body : Option (List UInt8)
  timeout : Nat
  maxBytes : Nat
  saveTo : Option String

structure HttpResponse where
  status : Nat
  contentType : String
  body : List UInt8
  location : Option String
  headers : List (String × String)

/-- The answer to a request, after the earlier ones. -/
abbrev HttpTransport := List HttpRequest → HttpRequest → Except String HttpResponse

structure SavedFile where
  path : String
  bytes : Nat

structure FileSink where
  check : String → Except String Unit
  save : String → List UInt8 → String → Except String SavedFile

/-- A credential for one host, as the operator stored it. -/
structure SecretHeader where
  host : String
  name : LowerName
  value : String

structure Capabilities where
  http : Option HttpTransport := none
  httpPolicy : EgressPolicy := {}
  secrets : List SecretHeader := []
  files : Option FileSink := none
  outboundSecrets : SecretSet := {}

/-- What a run takes from outside: the network, the JSON library, the texts of
numbers and durations, and the time spent when a hop begins. -/
structure World (Url : Type) extends Network Url where
  fromStr : String → Except String Json
  toVec : Json → Except String (List UInt8)
  numberText : Number → String
  durationText : Nat → String
  elapsed : Nat → Nat

/-- A run that ends before its loop. -/
inductive Halt where
  | error (message : String)
  | panicked
  deriving DecidableEq, Repr

/-! ## The limits -/

def maxRedirects : Nat := 3

def httpRequestBodyMax : Nat := 256 * 1024

def httpResponseMaxBytes : Nat := 1024 * 1024

def httpSaveMaxBytes : Nat := 12 * 1024 * 1024

def httpHeadersMax : Nat := 32

def httpHeadersBytesMax : Nat := 8 * 1024

def credentialHeaders : List String := ["authorization", "proxy-authorization", "cookie"]

def transportHeaders : List String :=
  ["host", "content-length", "transfer-encoding", "connection", "expect", "upgrade",
    "te", "keep-alive"]

def hiddenResponseHeaders : List String := ["set-cookie", "set-cookie2"]

def isHeaderToken (name : String) : Bool :=
  name ≠ "" && name.toList.all (fun c =>
    isAsciiAlphanumeric c || "!#$%&'*+-.^_\x60|~".toList.contains c)

/-- The length of a text in bytes. -/
def byteLen (s : String) : Nat := (Utf8.encode s.toList).length

/-! ## The guest's request -/

section Parse

variable {Url : Type} (w : World Url)

def fail {α : Type} (message : String) : Except Halt α := .error (.error message)

def failIf (bad : Prop) [Decidable bad] (message : String) : Except Halt Unit :=
  if bad then fail message else .ok ()

def parseMethod (v : Json) : Except Halt Method :=
  match v.get? "method" with
  | none | some .null => .ok .get
  | some m =>
    match m.asStr?.bind Method.parse with
    | some method => .ok method
    | none => fail "method must be one of GET, HEAD, POST, PUT, PATCH, DELETE"

def queryText (k : String) : Json → Except Halt String
  | .str s => .ok s
  | .num n => .ok (w.numberText n)
  | .bool b => .ok (if b then "true" else "false")
  | _ => fail ("query '" ++ k ++ "' must be a string, a number or a boolean")

def queryPairs : List (String × Json) → Except Halt (List (String × String))
  | [] => .ok []
  | (k, val) :: rest => do
    let text ← queryText w k val
    let pairs ← queryPairs rest
    .ok ((k, text) :: pairs)

def withQuery (v : Json) (parsed : Url) : Except Halt Url :=
  match v.get? "query" with
  | none => .ok parsed
  | some query =>
    match query.asObject? with
    | none => fail "query must be an object of scalars"
    | some pairs => do
      let pairs ← queryPairs w pairs
      .ok (w.appendPairs parsed pairs)

/-- One header of the guest: checked, dropped when it is the transport's, and
in the place of an earlier one of its name. -/
def headerStep (headers : Headers) (name : String) (val : Json) : Except Halt Headers :=
  match val.asStr? with
  | none => fail ("header '" ++ name ++ "' must be a string")
  | some value =>
    let lname := LowerName.ofText (trim name)
    if isHeaderToken lname.1 = false then
      fail ("header '" ++ name ++ "' is not a valid header name")
    else if '\r' ∈ value.toList ∨ '\n' ∈ value.toList then
      fail ("header '" ++ name ++ "' must not contain a line break")
    else if lname.1 ∈ credentialHeaders then
      fail ("header '" ++ name ++
        "' is a credential: set it with /guardian secret <host> " ++ name ++
        " <value>, never in a request")
    else if lname.1 ∈ transportHeaders then .ok headers
    else .ok (headers.set lname value)

def headerSteps : List (String × Json) → Headers → Except Halt Headers
  | [], headers => .ok headers
  | (name, val) :: rest, headers => do
    let headers ← headerStep headers name val
    headerSteps rest headers

def parseHeaders (v : Json) : Except Halt Headers :=
  let headers :=
    match (v.get? "accept").bind Json.asStr? with
    | some accept => Headers.empty.set (LowerName.ofText "accept") accept
    | none => Headers.empty
  match v.get? "headers" with
  | none => .ok headers
  | some h =>
    match h.asObject? with
    | none => fail "headers must be an object of strings"
    | some map => headerSteps map headers

def headerBytes (headers : Headers) : Nat :=
  (headers.entries.map (fun h => byteLen h.1.1 + byteLen h.2)).sum

/-- The body, and the headers with the content type of a JSON body.  There is
no header of that name when it is added. -/
def parseBody (v : Json) (headers : Headers) :
    Except Halt (Headers × Option (List UInt8)) :=
  match v.get? "body", v.get? "json" with
  | some _, some _ => fail "give body or json, not both"
  | some (.str b), none => .ok (headers, some (Utf8.encode b.toList))
  | some .null, none | none, none => .ok (headers, none)
  | some _, none => fail "body must be a string (use json for a JSON value)"
  | none, some j =>
    match w.toVec j with
    | .error e => fail e
    | .ok bytes =>
      if headers.entries.any (fun h => h.1.1 = "content-type") then
        .ok (headers, some bytes)
      else
        .ok (headers.set (LowerName.ofText "content-type") "application/json",
          some bytes)

def checkBody (method : Method) : Option (List UInt8) → Except Halt Unit
  | none => .ok ()
  | some b =>
    if method = .get ∨ method = .head then
      fail ("a " ++ method.asStr ++ " carries no body")
    else if httpRequestBodyMax < b.length then
      fail ("request body is " ++ toString b.length ++ " bytes; the cap is " ++
        toString httpRequestBodyMax)
    else .ok ()

def parseSaveTo (v : Json) : Except Halt (Option String) :=
  match v.get? "save_to" with
  | none | some .null => .ok none
  | some (.str s) =>
    let s := trim s
    if s = "" ∨ '\x00' ∈ s.toList then
      fail "save_to must be a non-empty path (a file under the workspace)"
    else .ok (some s)
  | some _ => fail "save_to must be a string path"

def parseMaxBytes (v : Json) (policy : EgressPolicy) (saveTo : Option String) : Nat :=
  let (ceiling, defaultMax) :=
    if saveTo.isSome then (httpSaveMaxBytes, httpSaveMaxBytes)
    else (httpResponseMaxBytes, policy.maxBytes)
  match (v.get? "max_bytes").bind Json.asU64? with
  | some m => max 1 (min m ceiling)
  | none => defaultMax

/-- `Ord::clamp` panics when its bounds are the wrong way round. -/
def parseTimeout (v : Json) (policy : EgressPolicy) : Except Halt Nat :=
  match (v.get? "timeout_ms").bind Json.asU64? with
  | none => .ok policy.timeout
  | some ms =>
    if policy.timeout < 1000000 then .error .panicked
    else .ok (max 1000000 (min (ms * 1000000) policy.timeout))

/-- The guest's JSON request, vetted. -/
def parseHttpRequest (input : String) (policy : EgressPolicy) :
    Except Halt HttpRequest := do
  let v ← (w.fromStr input).mapError
    (fun e => Halt.error ("request must be a JSON object: " ++ e))
  failIf v.asObject?.isNone "request must be a JSON object"
  let url := ((v.get? "url").bind Json.asStr?).elim "" trim
  failIf (url = "") "url is required"
  let method ← parseMethod v
  let parsed ← (w.parse url).mapError (fun e => Halt.error ("invalid url: " ++ e))
  let parsed ← withQuery w v parsed
  let headers ← parseHeaders v
  failIf (httpHeadersMax < headers.entries.length ∨
      httpHeadersBytesMax < headerBytes headers)
    ("too many request headers (at most " ++ toString httpHeadersMax ++ ", " ++
      toString httpHeadersBytesMax ++ " bytes)")
  let (headers, body) ← parseBody w v headers
  checkBody method body
  let saveTo ← parseSaveTo v
  failIf (saveTo.isSome ∧ method = .head) "a HEAD has no body to save"
  let timeout ← parseTimeout v policy
  .ok { method, url := w.toText parsed, headers, body, timeout,
        maxBytes := parseMaxBytes v policy saveTo, saveTo }

end Parse

/-! ## The answer -/

def isRedirect (status : Nat) : Bool := status ∈ [301, 302, 303, 307, 308]

/-- The media type, without parameters, lower case. -/
def mediaType (contentType : String) : String :=
  toAsciiLowercase (trim (String.ofList (contentType.toList.takeWhile (· ≠ ';'))))

def requestContentTypeAllowed (contentType : String) : Bool :=
  let mt := mediaType contentType
  mt = "" ∨ startsWith mt "text/" ∨ mt = "application/json" ∨ mt = "application/xml" ∨
    mt = "application/x-ndjson" ∨ mt = "application/x-www-form-urlencoded" ∨
    (startsWith mt "application/" ∧ (endsWith mt "+json" ∨ endsWith mt "+xml"))

/-- The response headers a guest sees, and their bytes so far. -/
def guestHeadersFrom :
    List (String × String) → List (String × Json) → Nat → List (String × Json)
  | [], out, _ => out
  | (name, value) :: rest, out, bytes =>
    let lname := toAsciiLowercase name
    if lname ∈ hiddenResponseHeaders then guestHeadersFrom rest out bytes
    else if httpHeadersMax ≤ out.length ∨
        httpHeadersBytesMax < bytes + byteLen lname + byteLen value then out
    else
      guestHeadersFrom rest (Json.setMember out lname (.str value))
        (bytes + (byteLen lname + byteLen value))

def guestHeaders (headers : List (String × String)) : Json :=
  .obj (guestHeadersFrom headers [] 0)

def errJson (message : String) : Json :=
  .obj [("ok", .bool false), ("error", .str message)]

def nat (n : Nat) : Json := .num (.posInt n)

/-- What a run did: its requests, its saves, and its reply. -/
structure Run where
  calls : List HttpRequest := []
  saves : List (String × List UInt8 × String) := []
  reply : Option Json

section Guard

variable {Url : Type} (w : World Url)

/-- Refuse a text that has a stored secret. -/
def carriesSecret (caps : Capabilities) : List String → Except String Unit
  | [] => .ok ()
  | text :: texts =>
    match foundIn caps.outboundSecrets text with
    | some kind =>
      .error ("refused: the request carries " ++ kind ++
        "; a stored credential is sent only by /guardian secret, never in a " ++
        "tool's input")
    | none => carriesSecret caps texts

/-- The texts of a request that a secret is looked for in. -/
def guestTexts (input : String) (req : HttpRequest) : List String :=
  [input, req.url] ++ req.headers.entries.map Prod.snd ++
    (req.body.map (fun b => String.ofList (Utf8.fromUtf8Lossy b))).toList

/-- The store a save goes to, and its path. -/
def preflight (caps : Capabilities) (req : HttpRequest) :
    Except String (Option (FileSink × String)) :=
  match req.saveTo with
  | none => .ok none
  | some dest =>
    match caps.files with
    | none => .error "save_to needs the workspace, which this tool was not granted"
    | some files =>
      match files.check dest with
      | .error e => .error ("save_to: " ++ e)
      | .ok () => .ok (some (files, dest))

/-- The host a secret is stored for, without and with the port of the URL. -/
def secretHostsOf (parsed : Url) : List String :=
  let host := toAsciiLowercase ((w.hostStr parsed).getD "")
  let withPort :=
    match w.port parsed with
    | some port => host ++ ":" ++ toString port
    | none => host
  [host, withPort]

/-- Each secret of the host over any header of its name. -/
def withSecrets (hosts : List String) (secrets : List SecretHeader) (headers : Headers) :
    Headers :=
  (secrets.filter (fun s => s.host ∈ hosts)).foldl
    (fun headers secret => headers.set secret.name secret.value) headers

/-- The request of one hop. -/
def hopRequest (caps : Capabilities) (req : HttpRequest) (parsed : Url) (current : String)
    (remaining : Nat) : HttpRequest :=
  { req with
    url := current
    headers := withSecrets (secretHostsOf w parsed) caps.secrets req.headers
    timeout := remaining }

def hopsMember (hops : Nat) : List (String × Json) :=
  if 0 < hops then [("redirects", nat hops)] else []

/-- The reply to an answer that is not followed, and the save it makes. -/
def answer (req : HttpRequest) (sink : Option (FileSink × String)) (current : String)
    (hops : Nat) (resp : HttpResponse) : List (String × List UInt8 × String) × Json :=
  let plain : List (String × List UInt8 × String) × Json :=
    if requestContentTypeAllowed resp.contentType = false then
      ([], errJson ("response content-type '" ++ resp.contentType ++
        "' is not allowed (text, JSON, XML, NDJSON and form data are)"))
    else
      let textCap := min req.maxBytes httpResponseMaxBytes
      let cut := textCap < resp.body.length
      let body := resp.body.take textCap
      ([], .obj ([("ok", .bool true), ("status", nat resp.status), ("url", .str current),
          ("content_type", .str resp.contentType),
          ("headers", guestHeaders resp.headers),
          ("body", .str (String.ofList (Utf8.fromUtf8Lossy body)))] ++
        hopsMember hops ++
        (if cut then [("truncated_at", nat textCap)] else [])))
  match sink with
  | none => plain
  | some (files, dest) =>
    if 200 ≤ resp.status ∧ resp.status < 300 then
      if req.maxBytes < resp.body.length then
        ([], errJson ("the body is larger than the save cap of " ++
          toString httpSaveMaxBytes ++ " bytes; nothing written"))
      else
        let saves := [(dest, resp.body, resp.contentType)]
        match files.save dest resp.body resp.contentType with
        | .error e => (saves, errJson ("save_to: " ++ e))
        | .ok saved =>
          (saves, .obj ([("ok", .bool true), ("status", nat resp.status),
              ("url", .str current), ("content_type", .str resp.contentType),
              ("headers", guestHeaders resp.headers),
              ("saved", .obj [("path", .str saved.path),
                ("bytes", nat saved.bytes)])] ++ hopsMember hops))
    else plain

/-- The reply to a redirect that is not followed. -/
def redirectReply (current : String) (hops : Nat) (resp : HttpResponse) (loc : String) :
    Json :=
  .obj [("ok", .bool true), ("status", nat resp.status), ("url", .str current),
    ("redirects", nat hops), ("redirect", .str loc),
    ("content_type", .str resp.contentType),
    ("headers", guestHeaders resp.headers), ("body", .str "")]

/-- The loop, after `hops` redirects with `left` more to follow; `calls` are
the requests made. -/
def requestLoop (caps : Capabilities) (http : HttpTransport) (req : HttpRequest)
    (sink : Option (FileSink × String)) :
    (left hops : Nat) → (calls : List HttpRequest) → (current : String) → Run
  | left, hops, calls, current =>
    match checkUrl w.toNetwork caps.httpPolicy hops current with
    | .error e => { calls, reply := some (errJson e) }
    | .ok parsed =>
      if req.timeout ≤ w.elapsed hops then
        { calls, reply := some (errJson ("fetch budget of " ++
          w.durationText req.timeout ++ " spent")) }
      else
        let hop := hopRequest w caps req parsed current (req.timeout - w.elapsed hops)
        match http calls hop with
        | .error e => { calls := calls ++ [hop], reply := some (errJson e) }
        | .ok resp =>
          match if isRedirect resp.status then resp.location else none with
          | some loc =>
            match req.method.followsRedirects, left with
            | true, left + 1 =>
              match w.join parsed loc with
              | .error e =>
                { calls := calls ++ [hop],
                  reply := some (errJson ("invalid redirect target: " ++ e)) }
              | .ok next =>
                requestLoop caps http req sink left (hops + 1)
                  (calls ++ [hop]) (w.toText next)
            | _, _ =>
              { calls := calls ++ [hop],
                reply := some (redirectReply current hops resp loc) }
          | none =>
            { calls := calls ++ [hop],
              saves := (answer req sink current hops resp).1,
              reply := some (answer req sink current hops resp).2 }

def guardedHttpRequest (caps : Capabilities) (input : String) : Run :=
  match caps.http with
  | none =>
    { reply := some (errJson "capability 'http_request' not granted to this tool") }
  | some http =>
    match parseHttpRequest w input caps.httpPolicy with
    | .error .panicked => { reply := none }
    | .error (.error e) => { reply := some (errJson e) }
    | .ok req =>
      match carriesSecret caps (guestTexts input req) with
      | .error e => { reply := some (errJson e) }
      | .ok () =>
        match preflight caps req with
        | .error e => { reply := some (errJson e) }
        | .ok sink => requestLoop w caps http req sink maxRedirects 0 [] req.url

end Guard

end EmbraOS.Ports.Http
