import Mathlib
import EmbraOS.Verified.Serde
import EmbraOS.Verified.Slice
import EmbraOS.Verified.Text

/-!
# The static gate of the Guardian

Port of `embra-guardian/src/validator.rs`.  The syntax tree that `syn` parses a
module into is given by the node kinds the gate looks at; every other node is
`other`, with the nodes below it in the order of the traversal.  A node that
the gate does not look into keeps what is below it all the same, so that "every
`use` declaration of a module" means every one there is.  `syn` and the JSON
library are the fields of `Env`.
-/

namespace EmbraOS.Ports.Validator

open Verified
open Verified.Serde
open Verified.Text

/-! ## Syntax -/

/-- The line and the column at which a node starts, the column from zero. -/
structure Span where
  line : Nat
  column : Nat
  deriving DecidableEq, Repr

/-- An identifier as it is printed, `r#` in front of a raw one. -/
abbrev Ident := String

inductive UseTree where
  | path (ident : Ident) (tree : UseTree)
  | name (ident : Ident)
  | rename (ident rename : Ident)
  | group (items : List UseTree)
  | glob

inductive TokenTree where
  | group (stream : List TokenTree)
  | ident (ident : Ident) (span : Span)
  | punct (c : Char)
  | literal

/-- The type of a parameter or of a result. -/
inductive Ty where
  | reference (elem : Ty)
  | path (segments : List Ident)
  | other

inductive FnArg where
  | receiver
  | typed (ty : Ty)

structure Signature where
  ident : Ident
  unsafety : Bool
  inputs : List FnArg
  output : Option Ty
  span : Span

/-- The value of a constant, as far as the contract reads it. -/
inductive ConstExpr where
  | str (value : String)
  | array (elems : List ConstExpr)
  | reference (expr : ConstExpr)
  | other

inductive Node where
  | externCrate (span : Span) (children : List Node)
  | foreignMod (span : Span) (children : List Node)
  | modItem (span : Span) (children : List Node)
  | exprUnsafe (span : Span) (children : List Node)
  | implItem (unsafety : Bool) (span : Span) (children : List Node)
  | fnItem (sig : Signature) (inherited : Bool) (children : List Node)
  | constItem (ident : Ident) (value : ConstExpr) (span : Span) (children : List Node)
  | macroCall (path : List Ident) (tokens : List TokenTree) (span : Span)
      (children : List Node)
  | useItem (tree : UseTree) (span : Span) (children : List Node)
  | path (segments : List Ident) (span : Span) (children : List Node)
  | attr (path : List Ident) (span : Span) (children : List Node)
  | metaList (tokens : List TokenTree) (children : List Node)
  | other (children : List Node)

/-- A parsed file: its inner attributes and its items. -/
structure File where
  attrs : List Node
  items : List Node

/-! ## Errors -/

structure ValidationError where
  rule : String
  message : String
  line : Option Nat
  col : Option Nat
  deriving DecidableEq, Repr

def err (rule message : String) : ValidationError := ⟨rule, message, none, none⟩

def errAt (rule message : String) (span : Span) : ValidationError :=
  ⟨rule, message, some span.line, some (span.column + 1)⟩

/-- The first violation found. -/
abbrev Deny := Option ValidationError

def Deny.flag (d : Deny) (e : ValidationError) : Deny := d.or (some e)

def Deny.flagIf (d : Deny) (test : Bool) (e : ValidationError) : Deny :=
  if test then d.flag e else d

/-! ## Names and paths -/

def deniedMacros : List String :=
  ["include", "include_str", "include_bytes", "env", "option_env", "asm", "global_asm",
    "concat_idents", "macro_rules"]

def useRootsOk : List String :=
  ["core", "alloc", "crate", "self", "super", "json", "host", "html_text", "inject"]

/-- The name without the mark of a raw identifier. -/
def identName (ident : Ident) : String := (stripPrefix? ident "r#").getD ident

def deniedStd : List String :=
  ["process", "fs", "net", "os", "env", "thread", "ffi", "arch"]

def deniedPath : List String → Bool
  | [] => false
  | [first] => first = "proc_macro" || first = "std"
  | first :: second :: _ =>
    (first = "std" && deniedStd.contains second) || (first = "core" && second = "arch") ||
      first = "proc_macro"

/-! ## `use` trees -/

mutual

def useRoot : UseTree → Option String
  | .path ident _ => some (identName ident)
  | .name ident => some (identName ident)
  | .rename ident _ => some (identName ident)
  | .group items => useRootOf items
  | .glob => none

/-- `find_map`. -/
def useRootOf : List UseTree → Option String
  | [] => none
  | tree :: trees => (useRoot tree).or (useRootOf trees)

end

mutual

/-- The paths that a tree imports, each with its own name at the end. -/
def useLeaves (pre : List String) : UseTree → List (List String)
  | .path ident tree => useLeaves (pre ++ [identName ident]) tree
  | .name ident => [pre ++ [identName ident]]
  | .rename ident _ => [pre ++ [identName ident]]
  | .group items => useLeavesOf pre items
  | .glob => []

def useLeavesOf (pre : List String) : List UseTree → List (List String)
  | [] => []
  | tree :: trees => useLeaves pre tree ++ useLeavesOf pre trees

end

/-! ## Token streams -/

mutual

/-- Every token of a stream, groups opened. -/
def flattenTree : TokenTree → List TokenTree
  | .group stream => flatten stream
  | tt => [tt]

def flatten : List TokenTree → List TokenTree
  | [] => []
  | tt :: tts => flattenTree tt ++ flatten tts

end

/-- The rest of a path after an identifier, and what follows it. -/
def pathSegments : List TokenTree → List String × List TokenTree
  | .punct ':' :: .punct ':' :: .ident next _ :: rest =>
    let r := pathSegments rest
    (identName next :: r.1, r.2)
  | rest => ([], rest)

theorem length_pathSegments_le (tts : List TokenTree) :
    (pathSegments tts).2.length ≤ tts.length := by
  fun_induction pathSegments tts with
  | case1 next span rest r ih =>
    show (pathSegments rest).2.length ≤ _
    simp only [List.length_cons]
    omega
  | case2 rest h => exact le_refl _

def followedByBang : List TokenTree → Bool
  | .punct '!' :: _ => true
  | _ => false

def joinPath (segs : List String) : String := join "::" segs

def pathError (segs : List String) (span : Span) : ValidationError :=
  errAt "forbidden_path" ("path `" ++ joinPath segs ++ "` is not allowed") span

/-- The scan of a flat stream, one path at a time. -/
def scanFlat (d : Deny) : List TokenTree → Deny
  | [] => d
  | .ident ident span :: rest =>
    let name := identName ident
    let segs := name :: (pathSegments rest).1
    let after := (pathSegments rest).2
    let last := segs.getLast (List.cons_ne_nil _ _)
    let d := d.flagIf (name = "unsafe")
      (errAt "unsafe" "`unsafe` inside a macro invocation is not allowed" span)
    let d := d.flagIf (deniedMacros.contains last && followedByBang after)
      (errAt "macro" ("`" ++ last ++ "!` is not allowed") span)
    scanFlat (d.flagIf (deniedPath segs) (pathError segs span)) after
  | _ :: rest => scanFlat d rest
termination_by tts => tts.length
decreasing_by
  · have := length_pathSegments_le rest
    simp only [List.length_cons]
    omega
  · simp

def Deny.scanTokens (d : Deny) (tokens : List TokenTree) : Deny := scanFlat d (flatten tokens)

/-! ## The denylist walk -/

def deniedAttributes : List String :=
  ["no_mangle", "export_name", "link", "link_section", "panic_handler", "global_allocator",
    "no_std", "feature", "cfg_attr"]

def checkLeaf (span : Span) (d : Deny) (segs : List String) : Deny :=
  let last := segs.getLast?.getD ""
  let d := d.flagIf (segs.getLast?.any deniedMacros.contains)
    (errAt "macro" ("`" ++ last ++ "` is not allowed, imported or called") span)
  d.flagIf (deniedPath segs) (pathError segs span)

def checkUseRoot (tree : UseTree) (span : Span) (d : Deny) : Deny :=
  match useRoot tree with
  | none => d
  | some r =>
    d.flagIf (!useRootsOk.contains r)
      (errAt "use" ("`use " ++ r ++ "::…` is not allowed (v1 permits no extra crates; " ++
        "only core/alloc + scaffold `json`/`host`/`html_text`)") span)

/-- The checks of a `use` declaration. -/
def checkUse (tree : UseTree) (span : Span) (d : Deny) : Deny :=
  (useLeaves [] tree).foldl (checkLeaf span) (checkUseRoot tree span d)

def checkMacro (path : List Ident) (tokens : List TokenTree) (span : Span) (d : Deny) : Deny :=
  let n := (path.getLast?.map identName).getD ""
  let d := d.flagIf (path.getLast?.any (fun id => deniedMacros.contains (identName id)))
    (errAt "macro" ("`" ++ n ++ "!` is not allowed") span)
  d.scanTokens tokens

def checkAttribute (path : List Ident) (span : Span) (d : Deny) : Deny :=
  match path.getLast? with
  | none => d
  | some ident =>
    let n := identName ident
    let d := d.flagIf (n = "unsafe")
      (errAt "attribute"
        "`#[unsafe(...)]` is not allowed (the scaffold owns ABI/runtime attrs)" span)
    d.flagIf (deniedAttributes.contains n)
      (errAt "attribute"
        ("`#[" ++ n ++ "]` is not allowed (the scaffold owns ABI/runtime attrs)") span)

mutual

def visit (d : Deny) : Node → Deny
  | .externCrate span _ =>
    d.flag (errAt "extern_crate" "`extern crate` is not allowed" span)
  | .foreignMod span _ =>
    d.flag (errAt "ffi" "`extern \x7b … \x7d` / raw FFI is not allowed" span)
  | .modItem span _ =>
    d.flag (errAt "module"
      "`mod` is not allowed; the scaffold provides `json`/`host`/`html_text`" span)
  | .exprUnsafe span _ => d.flag (errAt "unsafe" "`unsafe` is not allowed" span)
  | .implItem unsafety span children =>
    visitAll (d.flagIf unsafety (errAt "unsafe" "`unsafe impl` is not allowed" span)) children
  | .fnItem sig inherited children =>
    let d := d.flagIf sig.unsafety (errAt "unsafe" "`unsafe fn` is not allowed" sig.span)
    let d := d.flagIf (sig.ident ≠ "run" && !inherited)
      (errAt "visibility" "free items must not be `pub`" sig.span)
    visitAll d children
  | .constItem _ _ _ children => visitAll d children
  | .macroCall path tokens span children => visitAll (checkMacro path tokens span d) children
  | .useItem tree span children => visitAll (checkUse tree span d) children
  | .path segments span children =>
    let segs := segments.map identName
    visitAll (d.flagIf (deniedPath segs) (pathError segs span)) children
  | .attr path span children => visitAll (checkAttribute path span d) children
  | .metaList tokens children => visitAll (d.scanTokens tokens) children
  | .other children => visitAll d children

def visitAll (d : Deny) : List Node → Deny
  | [] => d
  | node :: nodes => visitAll (visit d node) nodes

end

/-- The walk over a file, attributes first. -/
def visitFile (file : File) : Deny := visitAll (visitAll none file.attrs) file.items

/-! ## The contract -/

def maxDesc : Nat := 600

def maxSchema : Nat := 8 * 1024

def knownCaps : List String := ["http_get", "http_request", "web_search"]

def validToolName (name : String) : Bool :=
  3 ≤ name.utf8ByteSize && name.utf8ByteSize ≤ 40 && name.toList.head?.any isAsciiLowercase &&
    name.toList.all (fun c => isAsciiLowercase c || isAsciiDigit c || c = '_')

def chompCr (line : List Char) : List Char :=
  if line.getLast? = some '\r' then line.dropLast else line

/-- `str::lines`. -/
def lines (s : String) : List String :=
  let r := Slice.segments '\n' s.toList
  let last := if r.2 = [] then [] else [r.2]
  (r.1.map chompCr ++ last).map String.ofList

def findMarker (source : String) : Option String :=
  (((lines source).map trim).findSome? (fun l => stripPrefix? l "// guardian-tool:")).map trim

/-- What the module asks of the libraries that read Rust and JSON. -/
structure Env where
  parseFile : String → Except (String × Span) File
  parseJson : String → Except String Json

def checkMarker (source : String) (reserved : List String) : Except ValidationError String :=
  match findMarker source with
  | none => .error (err "marker" "first line must be `// guardian-tool: <name>`")
  | some marker =>
    if !validToolName marker then
      .error (err "name"
        ("tool name `" ++ marker ++ "` must match ^[a-z][a-z0-9_]\x7b2,39\x7d$"))
    else if marker = "guardian_call" || marker = "guardian_list" || reserved.contains marker
    then .error (err "name" ("tool name `" ++ marker ++ "` is reserved"))
    else .ok marker

def parse (env : Env) (source : String) : Except ValidationError File :=
  match env.parseFile source with
  | .ok file => .ok file
  | .error e => .error (errAt "parse" ("not valid Rust: " ++ e.1) e.2)

def denyWalk (file : File) : Except ValidationError Unit :=
  match visitFile file with
  | some e => .error e
  | none => .ok ()

def strLit (expr : ConstExpr) (what : String) (span : Span) : Except ValidationError String :=
  match expr with
  | .str s => .ok s
  | _ => .error (errAt "contract" ("`" ++ what ++ "` must be a string literal") span)

def strElems (span : Span) : List ConstExpr → Except ValidationError (List String)
  | [] => .ok []
  | .str s :: elems => (strElems span elems).map (s :: ·)
  | _ :: _ => .error (errAt "capability" "GUARDIAN_CAPS must be string literals" span)

def derefOnce : ConstExpr → ConstExpr
  | .reference expr => expr
  | expr => expr

def strArray (expr : ConstExpr) (span : Span) : Except ValidationError (List String) :=
  match derefOnce expr with
  | .array elems => strElems span elems
  | _ => .error (errAt "capability" "GUARDIAN_CAPS must be `&[&str]`" span)

def pathTailIs (want : String) : Ty → Bool
  | .path segments => segments.getLast? = some want
  | _ => false

def isStrRef : Ty → Bool
  | .reference elem => pathTailIs "str" elem
  | _ => false

def takesStr : List FnArg → Bool
  | .typed ty :: _ => isStrRef ty
  | _ => false

def checkRunSig (sig : Signature) (inherited : Bool) : Except ValidationError Unit :=
  if sig.unsafety then .error (errAt "unsafe" "`run` must not be `unsafe`" sig.span)
  else if !inherited then
    .error (errAt "visibility" "`run` must not be `pub` (the scaffold exports it)" sig.span)
  else if sig.inputs.length ≠ 1 then
    .error (errAt "contract" "`run` must take exactly one `&str`" sig.span)
  else if !takesStr sig.inputs then
    .error (errAt "contract" "`run`\x27s parameter must be `&str`" sig.span)
  else if sig.output.any (pathTailIs "String") then .ok ()
  else .error (errAt "contract" "`run` must return `String`" sig.span)

/-- What the items of the file have been read to so far. -/
structure Contract where
  nameLit : Option (String × Span) := none
  descLit : Option String := none
  schemaLit : Option String := none
  capsLits : Option (List String) := none
  runCount : Nat := 0

def readConst (c : Contract) (ident : Ident) (value : ConstExpr) (span : Span) :
    Except ValidationError Contract :=
  if ident = "GUARDIAN_NAME" then
    (strLit value "GUARDIAN_NAME" span).map (fun s => { c with nameLit := some (s, span) })
  else if ident = "GUARDIAN_DESC" then
    (strLit value "GUARDIAN_DESC" span).map (fun s => { c with descLit := some s })
  else if ident = "GUARDIAN_SCHEMA" then
    (strLit value "GUARDIAN_SCHEMA" span).map (fun s => { c with schemaLit := some s })
  else if ident = "GUARDIAN_CAPS" then
    (strArray value span).map (fun caps => { c with capsLits := some caps })
  else .ok c

def readItem (c : Contract) : Node → Except ValidationError Contract
  | .constItem ident value span _ => readConst c ident value span
  | .fnItem sig inherited _ =>
    if sig.ident = "run" then
      (checkRunSig sig inherited).map (fun _ => { c with runCount := c.runCount + 1 })
    else .ok c
  | _ => .ok c

def normalizeSchema (env : Env) (s : String) : Except ValidationError Json :=
  match env.parseJson s with
  | .error e => .error (err "schema" ("GUARDIAN_SCHEMA is not valid JSON: " ++ e))
  | .ok (.obj members) =>
    if ((Json.obj members).get? "type").bind Json.asStr? ≠ some "object" then
      .error (err "schema" "schema root must have \"type\":\"object\"")
    else if ((Json.obj members).get? "properties").any (fun v => v.asObject?.isSome) then
      .ok (.obj members)
    else .ok (.obj (Json.setMember members "properties" (.obj [])))
  | .ok _ => .error (err "schema" "schema root must be a JSON object")

structure ValidatedModule where
  name : String
  description : String
  inputSchema : Json
  caps : List String
  source : String

def checkDescription (c : Contract) : Except ValidationError String :=
  match c.descLit with
  | none => .error (err "contract" "missing `const GUARDIAN_DESC: &str`")
  | some d =>
    if trim d = "" || maxDesc < d.utf8ByteSize then
      .error (err "description" "description must be 1..=600 chars")
    else .ok d

def checkNameLit (c : Contract) (marker : String) : Except ValidationError String :=
  match c.nameLit with
  | none => .error (err "contract" "missing `const GUARDIAN_NAME: &str`")
  | some (name, span) =>
    if name ≠ marker then
      .error (errAt "contract"
        ("GUARDIAN_NAME `" ++ name ++ "` must equal the marker `" ++ marker ++ "`") span)
    else .ok name

def checkSchema (env : Env) (c : Contract) : Except ValidationError Json :=
  match c.schemaLit with
  | none => .error (err "contract" "missing `const GUARDIAN_SCHEMA: &str`")
  | some s =>
    if maxSchema < s.utf8ByteSize then
      .error (err "schema" "schema must be <= 8192 bytes")
    else normalizeSchema env s

def checkRunCount (c : Contract) : Except ValidationError Unit :=
  if c.runCount = 0 then
    .error (err "contract" "missing `fn run(input: &str) -> String`")
  else if 1 < c.runCount then .error (err "contract" "exactly one `fn run` is allowed")
  else .ok ()

/-- `Vec::dedup`: one of each run of equal neighbours. -/
def dedupRuns : List String → List String
  | [] => []
  | [x] => [x]
  | x :: y :: xs => if x = y then dedupRuns (y :: xs) else x :: dedupRuns (y :: xs)

def checkCaps (c : Contract) : Except ValidationError (List String) :=
  let caps := dedupRuns ((c.capsLits.getD []).insertionSort (· ≤ ·))
  match caps.find? (fun cap => !knownCaps.contains cap) with
  | some cap =>
    .error (err "capability" ("unknown capability `" ++ cap ++
      "` (known: [\"http_get\", \"http_request\", \"web_search\"])"))
  | none => .ok caps

/-- The gate: marker, parse, denylist walk, contract. -/
def validate (env : Env) (source : String) (reserved : List String) :
    Except ValidationError ValidatedModule := do
  let marker ← checkMarker source reserved
  let file ← parse env source
  denyWalk file
  let contract ← file.items.foldlM readItem {}
  let name ← checkNameLit contract marker
  let description ← checkDescription contract
  let inputSchema ← checkSchema env contract
  checkRunCount contract
  let caps ← checkCaps contract
  return { name, description, inputSchema, caps, source }

end EmbraOS.Ports.Validator
