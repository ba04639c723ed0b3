import EmbraOS.Verified.Slice
import EmbraOS.Verified.Utf8
import EmbraOS.Verified.Words

/-!
# The prompt-injection scrubber of the guest tools

Port of `embra-guardian/src/guest/inject.rs`.  A text is its bytes.  `scrub`
rewrites the directives and the structural markers of a text, and `scan`
and `scrub` name what a text carries in the spelling of the lists.

The slices of the source are partial: one of a text is refused out of range and
inside a character (`strSlice?`), one of the window out of range (`slice?`).  The
word loop of `directives` is split into the spans of the words and a step for
each of them.
-/

namespace EmbraOS.Ports.Inject

open Verified
open Verified.Slice
open Verified.Utf8 (strSlice?)
open Verified.Words

/-- The bytes of a literal. -/
def bytes (s : String) : List UInt8 := Utf8.encode s.toList

/-! ## The lists -/

def marker : String := "[redacted-directive]"

def redactMarkers : List String :=
  ["you are now", "new instructions:", "developer message", "begin system", "[tool:",
    "</system>", "assistant:", "\x60\x60\x60tool", "disregard the above"]

def flagMarkers : List String := ["system prompt"]

def directiveVerbs : List String := ["ignore", "disregard", "forget"]

def directiveObjectsStrong : List String :=
  ["instruction", "instructions", "directive", "directives", "rule", "rules", "user", "users"]

def directiveObjectsWeak : List String :=
  ["direction", "directions", "prompt", "prompts", "guideline", "guidelines", "guidance",
    "command", "commands", "order", "orders", "policy", "policies", "constraint",
    "constraints"]

def directiveQualifiers : List String :=
  ["all", "any", "every", "previous", "prior", "above", "earlier", "original", "initial",
    "existing", "your", "my", "our", "their", "its", "safety", "system", "developer",
    "operator", "assistant"]

def directiveWindow : Nat := 5

def addressing : List String :=
  ["ai crawlers", "ai crawler", "large language models", "language models",
    "semantic indexers", "llm crawlers", "ai agents", "ai systems", "ai assistants",
    "ai models"]

def framing : List String :=
  ["critical directive", "you are directed to", "you are specifically directed to",
    "you are instructed to", "you are hereby directed", "you are hereby instructed"]

def ingestion : List String :=
  ["ingest this", "ingest all", "ingest the", "download and ingest", "index and ingest",
    "train upon", "train on this", "remember this", "remember it", "memorize this",
    "memorize it", "add this to your memory", "commit this to memory",
    "store this in your memory"]

def ingestionWindow : Nat := 2048

/-! ## Bytes in any case -/

def isAsciiAlphanumeric (b : UInt8) : Bool :=
  (0x30 ≤ b && b ≤ 0x39) || (0x41 ≤ b && b ≤ 0x5A) || (0x61 ≤ b && b ≤ 0x7A)

def isAsciiHexdigit (b : UInt8) : Bool :=
  (0x30 ≤ b && b ≤ 0x39) || (0x41 ≤ b && b ≤ 0x46) || (0x61 ≤ b && b ≤ 0x66)

def lower (b : UInt8) : UInt8 := if 0x41 ≤ b ∧ b ≤ 0x5A then b + 0x20 else b

/-- `eq_ignore_ascii_case`. -/
def eqIgnoreCase (x y : List UInt8) : Bool := x.map lower == y.map lower

def startsWithCi (hay needle : List UInt8) : Bool :=
  decide (needle.length ≤ hay.length) && eqIgnoreCase (hay.take needle.length) needle

def containsCi (hay needle : List UInt8) : Bool :=
  if needle = [] ∨ hay.length < needle.length then needle = []
  else
    (List.range (hay.length - needle.length + 1)).any
      (fun i => startsWithCi (hay.drop i) needle)

def findCi (hay needle : List UInt8) (start : Nat) : Option Nat :=
  if needle = [] ∨ hay.length ≤ start ∨ hay.length - start < needle.length then none
  else
    (List.range' start (hay.length - needle.length + 1 - start)).find?
      (fun i => startsWithCi (hay.drop i) needle)

/-- The spelling of a word in a list. -/
def wordOf (word : List UInt8) (set : List String) : Option String :=
  set.find? (fun m => eqIgnoreCase (bytes m) word)

/-! ## Directives -/

/-- How many bytes a separator of JSON text spans. -/
def separatorLen : List UInt8 → Nat
  | 0x5C :: b :: rest =>
    if b ∈ [0x5C, 0x22, 0x2F, 0x6E, 0x72, 0x74] then 2
    else if b = 0x75 ∧ 4 ≤ rest.length ∧ (rest.take 4).all isAsciiHexdigit then 6
    else 1
  | _ => 1

def wordSpans (s : List UInt8) (json : Bool) : List (Nat × Nat) :=
  spans isAsciiAlphanumeric (if json then separatorLen else fun _ => 1) s

def possessives : List String := ["'s", "'S", "’s", "’S"]

/-- The length of the possessive a text begins with. -/
def possessiveLen (rest : List UInt8) : Nat :=
  match possessives.find? (fun suffix => (bytes suffix).isPrefixOf rest) with
  | some suffix => (bytes suffix).length
  | none => 0

def possessiveEnd (s : List UInt8) (stop : Nat) : Option Nat := do
  let rest ← strSlice? s stop s.length
  pure (stop + possessiveLen rest)

def hasQualifier (s : List UInt8) : List (Nat × Nat) → Option Bool
  | [] => some false
  | (a, z) :: between => do
    let word ← strSlice? s a z
    if (wordOf word directiveQualifiers).isSome then pure true
    else hasQualifier s between

/-- The last words, the index of the first of them, the verbs whose window is
open and the number of the next word. -/
structure Window where
  recent : List (Nat × Nat) := []
  first : Nat := 0
  verbs : List (Nat × String) := []
  k : Nat := 0

/-- The oldest verb that takes the object. -/
def findVerb (s : List UInt8) (win : Window) (strong : Bool) :
    List (Nat × String) → Option (Option (Nat × String))
  | [] => some none
  | (w, verb) :: verbs =>
    if strong then some (some (w, verb))
    else do
      let i ← checkedSub? (w + 1) win.first
      let j ← checkedSub? win.k win.first
      let between ← slice? win.recent i j
      if ← hasQualifier s between then pure (some (w, verb))
      else findVerb s win strong verbs

structure Directive where
  start : Nat
  stop : Nat
  verb : String
  object : String
  deriving DecidableEq, Repr

/-- The word comes into the window. -/
def Window.push (win : Window) (span : Nat × Nat) : Window :=
  let full := directiveWindow < win.recent.length
  { win with
    recent := (if full then win.recent.tail else win.recent) ++ [span]
    first := if full then win.first + 1 else win.first
    verbs := win.verbs.filter (fun v => decide (win.k ≤ v.1 + directiveWindow)) }

/-- The directive that a word completes. -/
def completes (s : List UInt8) (win : Window) (word : List UInt8) (stop : Nat) :
    Option (Option Directive) :=
  let strong := wordOf word directiveObjectsStrong
  match strong.or (wordOf word directiveObjectsWeak) with
  | none => some none
  | some object => do
    match ← findVerb s win strong.isSome win.verbs with
    | none => pure none
    | some (w, verb) =>
      let i ← checkedSub? w win.first
      let opening ← win.recent[i]?
      let stop ← possessiveEnd s stop
      pure (some { start := opening.1, stop, verb, object })

/-- One word: the window after it, and the directive it completes. -/
def step (s : List UInt8) (win : Window) (span : Nat × Nat) :
    Option (Window × Option Directive) := do
  let win := win.push span
  let word ← strSlice? s span.1 span.2
  match ← completes s win word span.2 with
  | some hit => pure ({ win with verbs := [], k := win.k + 1 }, some hit)
  | none =>
    match wordOf word directiveVerbs with
    | some verb =>
      pure ({ win with verbs := win.verbs ++ [(win.k, verb)], k := win.k + 1 }, none)
    | none => pure ({ win with k := win.k + 1 }, none)

def directivesFrom (s : List UInt8) : Window → List (Nat × Nat) → Option (List Directive)
  | _, [] => some []
  | win, span :: spans => do
    let (win, hit) ← step s win span
    let hits ← directivesFrom s win spans
    pure (hit.toList ++ hits)

def directives (s : List UInt8) (json : Bool) : Option (List Directive) :=
  directivesFrom s {} (wordSpans s json)

/-! ## The rewrite -/

/-- What the rewrite hands out: a stretch of the text, or the marker. -/
inductive Piece where
  | text (run : List UInt8)
  | marker
  deriving DecidableEq, Repr

def Piece.bytes : Piece → List UInt8
  | .text run => run
  | .marker => Inject.bytes Inject.marker

/-- The loop from `i` to `stop`, with a bound on its turns; `run` is where the
text that has not been handed out begins. -/
def markersLoop (s : List UInt8) (stop : Nat) (markers : List String) :
    Nat → Nat → Nat → Option (List Piece)
  | turns, run, i =>
    if i < stop then
      match turns with
      | 0 => none
      | turns + 1 =>
        match markers.find? (fun m => decide (i + (bytes m).length ≤ stop) &&
            startsWithCi (s.drop i) (bytes m)) with
        | some m => do
          let piece ← strSlice? s run i
          let next := i + (bytes m).length
          let rest ← markersLoop s stop markers turns next next
          pure (.text piece :: .marker :: rest)
        | none => markersLoop s stop markers turns run (i + 1)
    else do
      let piece ← strSlice? s run stop
      pure [.text piece]

def markersBetween (s : List UInt8) (start stop : Nat) (markers : List String) :
    Option (List Piece) :=
  if markers = [] then do
    let piece ← strSlice? s start stop
    pure [.text piece]
  else markersLoop s stop markers (stop - start) start start

def rewriteFrom (s : List UInt8) (markers : List String) :
    Nat → List Directive → Option (List Piece)
  | last, [] => markersBetween s last s.length markers
  | last, hit :: hits => do
    let pieces ← markersBetween s last hit.start markers
    let rest ← rewriteFrom s markers hit.stop hits
    pure (pieces ++ .marker :: rest)

def rewrite (s : List UInt8) (markers : List String) : Option (List Piece) := do
  let hits ← directives s false
  rewriteFrom s markers 0 hits

/-! ## The names -/

def note (pairs : List (String × String)) (pair : String × String) :
    List (String × String) :=
  if pairs.contains pair then pairs else pairs ++ [pair]

def pairsOf (s : List UInt8) (json : Bool) : Option (List (String × String)) := do
  let hits ← directives s json
  pure (hits.foldl (fun pairs hit => note pairs (hit.verb, hit.object)) [])

/-- Every place where a phrase begins, from `start` on, each found from the
one before. -/
def places (hay needle : List UInt8) : Nat → Nat → List Nat
  | 0, _ => []
  | fuel + 1, start =>
    match findCi hay needle start with
    | none => []
    | some i => i :: places hay needle fuel (i + 1)

def placesOf (hay needle : List UInt8) (start : Nat) : List Nat :=
  places hay needle (hay.length + 1) start

/-- The lead that begins last before an imperative; the first in the lists
among those that begin together. -/
def nearestLead (s : List UInt8) (pos : Nat) : Option (Nat × String) :=
  (addressing ++ framing).foldl
    (fun nearest lead =>
      (placesOf (s.take pos) (bytes lead) (pos - ingestionWindow)).foldl
        (fun nearest found =>
          match nearest with
          | none => some (found, lead)
          | some (n, l) => if n < found then some (found, lead) else some (n, l))
        nearest)
    none

def ingestionHits (s : List UInt8) : List (Nat × String × String) :=
  ingestion.foldl
    (fun hits imperative =>
      (placesOf s (bytes imperative) 0).foldl
        (fun hits pos =>
          match nearestLead s pos with
          | none => hits
          | some (_, lead) =>
            if hits.any (fun h => h.2 == (lead, imperative)) then hits
            else hits ++ [(pos, lead, imperative)])
        hits)
    []

/-- The pairs in the order of the text; the sort is stable. -/
def ingestionPairs (s : List UInt8) : List (String × String) :=
  ((ingestionHits s).mergeSort (fun x y => decide (x.1 ≤ y.1))).map Prod.snd

def names (s : List UInt8) (pairs : List (String × String)) : List String :=
  pairs.map (fun p => "directive: " ++ p.1 ++ " … " ++ p.2) ++
    (ingestionPairs s).map (fun p => "ingestion: " ++ p.1 ++ " … " ++ p.2) ++
    (redactMarkers.filter (fun m => containsCi s (bytes m))).map ("marker: " ++ ·) ++
    (flagMarkers.filter (fun m => containsCi s (bytes m))).map ("mentions: " ++ ·)

/-! ## The entry points -/

def scan (s : List UInt8) : Option (List String) := do
  let pairs ← pairsOf s false
  pure (names s pairs)

/-- The markers a text has. -/
def markersIn (s : List UInt8) : List String :=
  redactMarkers.filter (fun m => containsCi s (bytes m))

def scrub (s : List UInt8) : Option (List UInt8 × List String) := do
  let pieces ← rewrite s (markersIn s)
  let found ← scan s
  pure (pieces.flatMap Piece.bytes, found)

def redact (s : List UInt8) : Option (List UInt8 × Bool) := do
  let (out, found) ← scrub s
  pure (out, !found.isEmpty)

end EmbraOS.Ports.Inject
