import EmbraOS.Verified.Decimal
import EmbraOS.Verified.Search
import EmbraOS.Verified.Serde

/-!
# `session_read` and `session_delta`

Port of the transcript readers of `embra-brain/src/tools/sessions.rs`: a range of turns is
written out under an output budget, whole turns at a time, and a reply that stops early names the
call that goes on.

`continuations_cover`: whoever makes the calls that the replies name is done after finitely many
of them, and has been shown every turn of the range once and in order.
-/

namespace EmbraOS.Ports.SessionRead

open Verified.Decimal
open Verified.Search (splitOnce splitOnce_append splitOnce_spec)
open Verified.Serde
open Verified.Text

/-! ## Turns -/

def sessionReadOutputBudget : Nat := 64 * 1024

/-- The line of an attachment: an image, or a file. -/
def attachmentLine (r : Json) : String :=
  let path := (strField r "path").getD ""
  let mediaType := (strField r "media_type").getD "image/"
  let number := fun key => Nat.repr (((r.get? key).bind Json.asU64?).getD 0)
  if startsWith mediaType "image/" then
    "\n    [image: " ++ (strField r "name").getD "image" ++ " (" ++ number "width" ++ "×" ++
      number "height" ++ ") → " ++ path ++ "]"
  else
    "\n    [file: " ++ (strField r "name").getD "file" ++ " (" ++
      Nat.repr (((r.get? "bytes").bind Json.asU64?).getD 0 / 1024) ++ " KB) → " ++ path ++ "]"

def attachmentLines (turn : Json) : String :=
  match turn.get? "attachments" with
  | some (.arr refs) => concat (refs.map attachmentLine)
  | _ => ""

/-- One turn; the number shown counts from one. -/
def formatTurn (index : Nat) (turn : Json) (maxBytes : Option Nat) : String :=
  let role := (strField turn "role").getD "?"
  let content := (strField turn "content").getD ""
  let rendered := match maxBytes with
    | some cap => if content.utf8ByteSize > cap then truncateStr content cap ++ "..." else content
    | none => content
  "[" ++ Nat.repr (index + 1) ++ "] [" ++ role ++ "]: " ++ rendered ++ attachmentLines turn

/-- A stored session.  A history is one vector, so its length fits a machine word. -/
structure Session where
  deleted : Bool
  turns : List Json
  short : turns.length < 2 ^ 63

abbrev Store := String → Session

/-! ## Ranges -/

/-- The turns of a range, the first counted from zero and the last one excluded. -/
def parseRange (range : String) (total : Nat) : Except String (Nat × Nat) :=
  if total = 0 then .error "session has no turns"
  else if range = "" then .ok (total - 30, total)
  else
    match splitOnce '-' range.toList with
    | some (front, rest) =>
      let startText := trim (String.ofList front)
      let endText := trim (String.ofList rest)
      match parseUsize startText with
      | none => .error ("bad start '" ++ startText ++ "' — expected a 1-based turn number")
      | some first =>
        if first < 1 then .error "start must be ≥ 1"
        else if first > total then
          .error ("start " ++ Nat.repr first ++ " exceeds total " ++ Nat.repr total ++ " turns")
        else
          let stop :=
            if endText = "" then some total else (parseUsize endText).map (min · total)
          match stop with
          | none => .error ("bad end '" ++ endText ++ "' — expected a 1-based turn number")
          | some stop =>
            if stop < first then
              .error ("end " ++ Nat.repr stop ++ " is before start " ++ Nat.repr first)
            else .ok (first - 1, stop)
    | none =>
      match parseUsize (trim range) with
      | none => .error ("bad turn '" ++ range ++ "' — expected a 1-based turn number")
      | some n =>
        if n < 1 ∨ n > total then
          .error ("turn " ++ Nat.repr n ++ " out of range 1..=" ++ Nat.repr total)
        else .ok (n - 1, n)

/-! ## Replies -/

/-- The output, the turns that are in it, and the first one that is not. -/
structure Rendered where
  output : String
  shown : List Nat
  next : Option Nat

/-- The loop of `render_turns_within_budget`, at the turn of an index. -/
def renderFrom (index : Nat) (first : Bool) (output : String) (shown : List Nat) :
    List Json → Rendered
  | [] => ⟨output, shown, none⟩
  | turn :: turns =>
    let line := formatTurn index turn none
    if !first && sessionReadOutputBudget < output.utf8ByteSize + line.utf8ByteSize + 1 then
      ⟨output, shown, some (index + 1)⟩
    else renderFrom (index + 1) false (output ++ line ++ "\n") (shown ++ [index]) turns

def renderTurnsWithinBudget (output : String) (turns : List Json) (start stop : Nat) : Rendered :=
  renderFrom start true output [] ((turns.drop start).take (stop - start))

/-- A reply: what is written, the turns in it, and the continuation with what its line names. -/
structure Reply where
  output : String
  shown : List Nat
  continuation : Option (String × String)

def Reply.text (r : Reply) : String :=
  r.output ++ (match r.continuation with
    | some (_, notice) => notice ++ "\n"
    | none => "")

def message (text : String) : Reply := ⟨text, [], none⟩

def rangeText (next stop : Nat) : String := Nat.repr next ++ "-" ++ Nat.repr stop

def sessionReadBudgetNotice (next stop : Nat) : String :=
  "[output budget reached at turn " ++ Nat.repr (next - 1) ++ " of " ++ Nat.repr stop ++
    " — call session_read with range \"" ++ rangeText next stop ++ "\" for the rest]"

def sessionDeltaBudgetNotice (next total : Nat) : String :=
  "[output budget reached at turn " ++ Nat.repr (next - 1) ++ " of " ++ Nat.repr total ++
    " — call session_delta with since_turn " ++ Nat.repr next ++ " for the rest]"

def deletedSessionNotice (name : String) : String :=
  "Session '" ++ name ++ "' was deleted by the operator and is not available. The operator can " ++
    "restore it during its grace period with /sessions restore " ++ name ++ "."

def noHistory (name : String) : String :=
  "No conversation history found for session '" ++ name ++ "'."

/-- `splitn(2, ' ')`: the name, and the rest if there is a space. -/
def splitParam (param : String) : String × Option String :=
  match splitOnce ' ' param.toList with
  | some (name, rest) => (String.ofList name, some (String.ofList rest))
  | none => (param, none)

def readHeader (name : String) (total start stop : Nat) : String :=
  "Session '" ++ name ++ "': turns " ++ Nat.repr (start + 1) ++ "-" ++ Nat.repr stop ++ " of " ++
    Nat.repr total ++ "\n\n"

/-- The reply of `session_read` once the range is known. -/
def readReply (name : String) (turns : List Json) (start stop : Nat) : Reply :=
  let r := renderTurnsWithinBudget (readHeader name turns.length start stop) turns start stop
  ⟨r.output, r.shown,
    r.next.map fun next => (rangeText next stop, sessionReadBudgetNotice next stop)⟩

/-- The session and the range that `session_read` takes from its parameter. -/
def readRequest (param : String) : String × String :=
  match splitParam param with
  | (name, some rest) => (name, trim rest)
  | (name, none) => (name, "")

def sessionRead (store : Store) (param : String) : Reply :=
  if param = "" then message "Usage: session_read <name> or session_read <name> <start>-<end>"
  else
    let name := (readRequest param).1
    let session := store name
    if session.deleted then message (deletedSessionNotice name)
    else
      let total := session.turns.length
      if total = 0 then message (noHistory name)
      else
        match parseRange (readRequest param).2 total with
        | .error why => message ("session_read rejected (" ++ why ++ ") for session '" ++ name ++
            "' (total turns: " ++ Nat.repr total ++ ")")
        | .ok (start, stop) => readReply name session.turns start stop

def deltaHeader (name : String) (since new : Nat) : String :=
  "Delta for '" ++ name ++ "' since turn #" ++ Nat.repr since ++ ": " ++ Nat.repr new ++
    " new turns\n\n"

/-- The reply of `session_delta` once the first turn is known. -/
def deltaReply (name : String) (turns : List Json) (since start : Nat) : Reply :=
  let total := turns.length
  let r := renderTurnsWithinBudget (deltaHeader name since (total - start)) turns start total
  ⟨r.output, r.shown, r.next.map fun next => (Nat.repr next, sessionDeltaBudgetNotice next total)⟩

def sessionDelta (store : Store) (param : String) : Reply :=
  let usage := "Usage: session_delta <name> <since_turn>"
  if param = "" then message usage
  else
    match splitParam param with
    | (_, none) => message usage
    | (name, some rest) =>
      match parseUsize (trim rest) with
      | none => message "since_turn must be a non-negative integer."
      | some sinceTurn =>
        let session := store name
        if session.deleted then message (deletedSessionNotice name)
        else
          let total := session.turns.length
          if total = 0 then message (noHistory name)
          else
            let displaySince := max sinceTurn 1
            let start := min (sinceTurn - 1) total
            if total - start = 0 then
              message ("No new turns in '" ++ name ++ "' since turn #" ++
                Nat.repr displaySince ++ ".")
            else deltaReply name session.turns displaySince start

/-! ## One reply -/

/-- What a transcript has of a turn: its number, its role, its whole content, its attachments. -/
def turnLine (i : Nat) (turn : Json) : String :=
  "[" ++ Nat.repr (i + 1) ++ "] [" ++ (strField turn "role").getD "?" ++ "]: " ++
    (strField turn "content").getD "" ++ attachmentLines turn ++ "\n"

theorem formatTurn_none (i : Nat) (turn : Json) :
    formatTurn i turn none ++ "\n" = turnLine i turn :=
  rfl

def turnLines (turns : List Json) (shown : List Nat) : String :=
  concat (shown.map fun i => turnLine i (turns[i]?.getD .null))

theorem utf8ByteSize_line (output line : String) :
    (output ++ line ++ "\n").utf8ByteSize = output.utf8ByteSize + line.utf8ByteSize + 1 := by
  rw [String.utf8ByteSize_append, String.utf8ByteSize_append]
  rfl

/-- The turns that a reply shows follow one another, and the next one is named if there is
one.  Only the first turn can go beyond the budget. -/
theorem renderFrom_spec (turns : List Json) : ∀ (index : Nat) (first : Bool) (output : String)
    (shown : List Nat), ∃ n, n ≤ turns.length ∧
      (first = true → turns ≠ [] → 0 < n) ∧
      (renderFrom index first output shown turns).shown = shown ++ List.range' index n ∧
      (renderFrom index first output shown turns).next =
        (if n = turns.length then none else some (index + n + 1)) ∧
      ((if first then 1 else 0) < n →
        (renderFrom index first output shown turns).output.utf8ByteSize ≤
          sessionReadOutputBudget) ∧
      (n = 0 → (renderFrom index first output shown turns).output = output) := by
  induction turns with
  | nil =>
    intro index first output shown
    refine ⟨0, le_rfl, fun _ hne => absurd rfl hne, (List.append_nil _).symm, rfl,
      fun h => absurd h (Nat.not_lt_zero _), fun _ => rfl⟩
  | cons turn turns ih =>
    intro index first output shown
    rw [renderFrom]
    split
    · rename_i hstop
      have hfirst : first = false := by
        cases first with
        | false => rfl
        | true => cases hstop
      refine ⟨0, Nat.zero_le _, ?_, (List.append_nil _).symm, ?_, ?_, fun _ => rfl⟩
      · intro htrue
        rw [hfirst] at htrue
        cases htrue
      · rw [if_neg (by rw [List.length_cons]; omega)]
      · exact fun h => absurd h (Nat.not_lt_zero _)
    · rename_i hgo
      obtain ⟨n, hle, -, hshown, hnext, hsize, hsame⟩ := ih (index + 1) false
        (output ++ formatTurn index turn none ++ "\n") (shown ++ [index])
      refine ⟨n + 1, by rw [List.length_cons]; omega, fun _ _ => Nat.succ_pos n, ?_, ?_, ?_, ?_⟩
      · rw [hshown, List.append_assoc, List.range'_succ]
        rfl
      · rw [hnext, List.length_cons]
        split
        · rename_i hall
          rw [if_pos (congrArg (· + 1) hall)]
        · rename_i hmore
          rw [if_neg (fun h => hmore (Nat.succ.inj h)),
            show index + 1 + n + 1 = index + (n + 1) + 1 by omega]
      · intro hn
        cases n with
        | succ n => exact hsize (Nat.succ_pos n)
        | zero =>
          -- the turn itself was within the budget, unless it was the first
          cases first with
          | true => exact absurd hn (by decide)
          | false =>
            rw [hsame rfl, utf8ByteSize_line]
            simpa using hgo
      · exact fun h => absurd h (Nat.succ_ne_zero n)

/-- The output stays the header and the lines of the turns shown. -/
theorem renderFrom_output (all : List Json) (header : String) (turns : List Json) :
    ∀ (index : Nat) (first : Bool) (output : String) (shown : List Nat),
      (∀ j < turns.length, turns[j]? = all[index + j]?) →
      output = header ++ turnLines all shown →
      (renderFrom index first output shown turns).output =
        header ++ turnLines all (renderFrom index first output shown turns).shown := by
  induction turns with
  | nil => exact fun _ _ _ _ _ houtput => houtput
  | cons turn turns ih =>
    intro index first output shown hall houtput
    rw [renderFrom]
    split
    · exact houtput
    have hturn : all[index]? = some turn := (hall 0 (Nat.succ_pos _)).symm
    apply ih
    · intro j hj
      rw [Nat.add_assoc, Nat.add_comm 1]
      exact hall (j + 1) (Nat.succ_lt_succ hj)
    · rw [houtput, String.append_assoc, formatTurn_none]
      simp [turnLines, hturn, String.append_assoc]

variable {start stop total : Nat} {name param : String} {store : Store}

/-- What a reply over a range shows. -/
theorem renderTurns_spec (header : String) (turns : List Json)
    (hstart : start < stop) (hstop : stop ≤ turns.length) :
    ∃ n, 0 < n ∧ start + n ≤ stop ∧
      (renderTurnsWithinBudget header turns start stop).shown = List.range' start n ∧
      (renderTurnsWithinBudget header turns start stop).next =
        (if start + n = stop then none else some (start + n + 1)) ∧
      (1 < n → (renderTurnsWithinBudget header turns start stop).output.utf8ByteSize ≤
        sessionReadOutputBudget) := by
  have hlength : ((turns.drop start).take (stop - start)).length = stop - start := by
    rw [List.length_take, List.length_drop]
    omega
  obtain ⟨n, hle, hpos, hshown, hnext, hsize, -⟩ :=
    renderFrom_spec ((turns.drop start).take (stop - start)) start true header []
  have hne : (turns.drop start).take (stop - start) ≠ [] := by
    rw [← List.length_pos_iff, hlength]
    omega
  rw [hlength] at hle hnext
  refine ⟨n, hpos rfl hne, by omega, hshown, ?_, hsize⟩
  unfold renderTurnsWithinBudget
  rw [hnext]
  split
  · rename_i hall
    rw [if_pos (by omega)]
  · rename_i hmore
    rw [if_neg (by omega)]

theorem renderTurns_output (header : String) (turns : List Json) (start stop : Nat) :
    (renderTurnsWithinBudget header turns start stop).output =
      header ++ turnLines turns (renderTurnsWithinBudget header turns start stop).shown := by
  apply renderFrom_output
  · intro j hj
    rw [List.length_take] at hj
    rw [List.getElem?_take_of_lt (lt_of_lt_of_le hj (min_le_left _ _)), List.getElem?_drop]
  · exact (String.append_empty).symm

/-! ## Following the replies -/

/-- The replies of the calls that start at a parameter and go on where each reply says, if the
last one is among the first `fuel`. -/
def follow (call : String → Reply) (name : String) : Nat → String → Option (List Reply)
  | 0, _ => none
  | fuel + 1, param =>
    match (call param).continuation with
    | none => some [call param]
    | some (next, _) => (follow call name fuel (name ++ " " ++ next)).map (call param :: ·)

/-- What is read in a reply of a range: a header, the lines of the turns shown, with more than one
turn no more than the budget; and if the reply stops early a line that names the next call. -/
structure Says (turns : List Json) (header : Nat → String) (more : String → String) (stop : Nat)
    (r : Reply) : Prop where
  output : ∀ first ∈ r.shown.head?, r.output = header first ++ turnLines turns r.shown
  budget : 1 < r.shown.length → r.output.utf8ByteSize ≤ 64 * 1024
  whole : r.continuation = none → r.text = r.output
  partly : ∀ c ∈ r.continuation, ∃ last, r.shown.getLast? = some last ∧
    r.text = r.output ++ ("[output budget reached at turn " ++ Nat.repr (last + 1) ++ " of " ++
      Nat.repr stop ++ more c.1 ++ "\n")

/-- Following the replies ends, shows the turns of a range once each and in order. -/
def Covers (call : String → Reply) (name param : String) (turns : List Json)
    (header : Nat → String) (more : String → String) (start stop : Nat) : Prop :=
  ∃ fuel replies, follow call name fuel param = some replies ∧
    replies.flatMap Reply.shown = List.range' start (stop - start) ∧
    ∀ r ∈ replies, Says turns header more stop r

section

variable {turns : List Json} {header : Nat → String} {more : String → String}
  {next notice : Nat → String}

/-- The reply that shows `n` turns from a start on. -/
theorem says_rendered {n : Nat} (hpos : 0 < n)
    (hshown : (renderTurnsWithinBudget (header start) turns start stop).shown =
      List.range' start n)
    (hsize : 1 < n → (renderTurnsWithinBudget (header start) turns start stop).output.utf8ByteSize ≤
      sessionReadOutputBudget)
    (hnotice : ∀ n, notice (n + 1) = "[output budget reached at turn " ++ Nat.repr n ++ " of " ++
      Nat.repr stop ++ more (next (n + 1))) :
    Says turns header more stop ⟨(renderTurnsWithinBudget (header start) turns start stop).output,
      List.range' start n,
      (if start + n = stop then none else some (start + n + 1)).map
        fun n => (next n, notice n)⟩ where
  output := by
    intro first hfirst
    have hhead : (List.range' start n).head? = some start := by
      rw [List.head?_range', if_neg (by omega)]
    rw [hhead] at hfirst
    cases hfirst
    rw [← hshown]
    exact renderTurns_output (header start) turns start stop
  budget hlength := hsize (by rwa [List.length_range'] at hlength)
  whole hnone := by
    rw [Reply.text, hnone]
    exact String.append_empty
  partly := by
    intro c hc
    split at hc
    · cases hc
    rename_i hgo
    cases hc
    refine ⟨start + n - 1, ?_, ?_⟩
    · rw [List.getLast?_range', if_neg (by omega)]
    · rw [Reply.text, if_neg hgo, Nat.sub_add_cancel (by omega), ← hnotice]
      rfl

/-- A tool that answers each request for a start with the turns from there on, and whose
continuation is a request for the turn it names, covers the range from any request. -/
theorem covers_of_replies {call : String → Reply} {Asks : String → Nat → Prop}
    (hstop : stop ≤ turns.length)
    (hreply : ∀ param start, Asks param start → start < stop →
      call param = ⟨(renderTurnsWithinBudget (header start) turns start stop).output,
        (renderTurnsWithinBudget (header start) turns start stop).shown,
        (renderTurnsWithinBudget (header start) turns start stop).next.map
          fun n => (next n, notice n)⟩)
    (hnotice : ∀ n, notice (n + 1) = "[output budget reached at turn " ++ Nat.repr n ++ " of " ++
      Nat.repr stop ++ more (next (n + 1)))
    (hnext : ∀ start < stop, Asks (name ++ " " ++ next (start + 1)) start) :
    ∀ (left : Nat) (start : Nat) (param : String), stop - start = left → start < stop →
      Asks param start → Covers call name param turns header more start stop := by
  -- each reply shows at least one turn, so the turns left become fewer
  intro left
  induction left using Nat.strong_induction_on with
  | h left ih =>
    intro start param hleft hstart hasks
    obtain ⟨n, hpos, hle, hshown, hmore, hsize⟩ :=
      renderTurns_spec (header start) turns hstart hstop
    have hcall := hreply param start hasks hstart
    have hsaid := says_rendered hpos hshown hsize hnotice
    rw [hshown, hmore] at hcall
    rw [← hcall] at hsaid
    by_cases hend : start + n = stop
    · refine ⟨1, [call param], ?_, ?_, ?_⟩
      · rw [follow, hcall, if_pos hend]
        rfl
      · rw [List.flatMap_singleton, hcall, show stop - start = n by omega]
      · intro r hr
        rwa [List.mem_singleton.1 hr]
    · obtain ⟨fuel, replies, hfollow, hcover, hreplies⟩ := ih (stop - (start + n)) (by omega)
        (start + n) (name ++ " " ++ next (start + n + 1)) rfl (by omega)
        (hnext (start + n) (by omega))
      have hgo : (call param).continuation =
          some (next (start + n + 1), notice (start + n + 1)) := by
        rw [hcall, if_neg hend]
        rfl
      refine ⟨fuel + 1, call param :: replies, ?_, ?_, ?_⟩
      · rw [follow, hgo]
        dsimp only
        rw [hfollow]
        rfl
      · rw [List.flatMap_cons, hcover, hcall, show stop - start = n + (stop - (start + n)) by omega,
          ← List.range'_append_1]
      · exact List.forall_mem_cons.2 ⟨hsaid, hreplies⟩

end

/-! ## The continuations are read back -/

theorem splitParam_append (hname : ' ' ∉ name.toList) (rest : String) :
    splitParam (name ++ " " ++ rest) = (name, some rest) := by
  have htext : (name ++ " " ++ rest).toList = name.toList ++ ' ' :: rest.toList := by simp
  unfold splitParam
  rw [htext, splitOnce_append hname]
  simp

theorem space_notMem_name (param : String) : ' ' ∉ (splitParam param).1.toList := by
  unfold splitParam
  cases hcut : splitOnce ' ' param.toList with
  | some p =>
    rw [String.toList_ofList]
    exact (splitOnce_spec hcut).2
  | none =>
    intro hin
    obtain ⟨front, rest, htext, hfront⟩ := List.eq_append_cons_of_mem hin
    rw [htext, splitOnce_append hfront] at hcut
    cases hcut

theorem append_line (a b c d : String) : a ++ b ++ c ++ d = a ++ (b ++ c ++ d) := by
  rw [String.append_assoc, String.append_assoc, String.append_assoc]

theorem append_ne_empty (name rest : String) : name ++ " " ++ rest ≠ "" := by
  intro h
  have hlist := congrArg String.toList h
  simp at hlist

theorem toList_rangeText (next stop : Nat) :
    (rangeText next stop).toList = (Nat.repr next).toList ++ '-' :: (Nat.repr stop).toList := by
  simp [rangeText]

theorem trim_rangeText (next stop : Nat) : trim (rangeText next stop) = rangeText next stop := by
  apply trim_eq_self
  intro c hc
  rw [toList_rangeText] at hc
  rcases List.mem_append.1 hc with hfront | hrest
  · exact isWhitespace_of_isDigit (isDigit_of_mem_repr hfront)
  · cases List.mem_cons.1 hrest with
    | inl hdash =>
      rw [hdash]
      rfl
    | inr hdigits => exact isWhitespace_of_isDigit (isDigit_of_mem_repr hdigits)

theorem repr_ne_empty (n : Nat) : Nat.repr n ≠ "" := by
  intro h
  have hlist := congrArg String.toList h
  rw [toList_repr] at hlist
  exact Nat.toDigits_ne_nil hlist

/-- The range that a reply names is the rest of the range it was asked for. -/
theorem parseRange_rangeText (hstart : start < stop)
    (hstop : stop ≤ total) (htotal : total < 2 ^ 63) :
    parseRange (rangeText (start + 1) stop) total = .ok (start, stop) := by
  have hne : rangeText (start + 1) stop ≠ "" := by
    intro h
    have hlist := congrArg String.toList h
    rw [toList_rangeText] at hlist
    simp at hlist
  have hcut : splitOnce '-' (rangeText (start + 1) stop).toList =
      some ((Nat.repr (start + 1)).toList, (Nat.repr stop).toList) := by
    rw [toList_rangeText, splitOnce_append (notMem_repr rfl (start + 1))]
  unfold parseRange
  rw [if_neg (by omega), if_neg hne, hcut]
  dsimp only
  rw [String.ofList_toList, String.ofList_toList, trim_repr, trim_repr,
    parseUsize_repr (by omega), parseUsize_repr (by omega), if_neg (repr_ne_empty stop)]
  dsimp only [Option.map_some]
  rw [if_neg (by omega), if_neg (by omega), min_eq_left hstop, if_neg (by omega)]
  rfl

/-- An accepted range is one of the session's, and it is not empty. -/
theorem parseRange_bounds {range : String}
    (h : parseRange range total = .ok (start, stop)) : start < stop ∧ stop ≤ total := by
  unfold parseRange at h
  split at h
  · cases h
  rename_i htotal
  split at h
  · cases h
    omega
  split at h
  · dsimp only at h
    split at h
    · cases h
    rename_i first _
    split at h
    · cases h
    rename_i hfirst
    split at h
    · cases h
    split at h
    · cases h
    rename_i last hlast
    split at h
    · cases h
    rename_i hle
    have hbound : last ≤ total := by
      split at hlast
      · cases hlast
        exact le_rfl
      · obtain ⟨raw, -, rfl⟩ := Option.map_eq_some_iff.1 hlast
        exact min_le_right _ _
    cases h
    omega
  · split at h
    · cases h
    split at h
    · cases h
    cases h
    omega

/-! ## The two tools -/

/-- A parameter of `session_read` for a start of the range that ends at `stop`. -/
def AsksRead (name : String) (total stop : Nat) (param : String) (start : Nat) : Prop :=
  param ≠ "" ∧ (readRequest param).1 = name ∧
    parseRange (readRequest param).2 total = .ok (start, stop)

/-- A parameter of `session_delta` whose turns begin at a start. -/
def AsksDelta (name : String) (total : Nat) (param : String) (start : Nat) : Prop :=
  param ≠ "" ∧ ∃ rest since, splitParam param = (name, some rest) ∧
    parseUsize (trim rest) = some since ∧ start = min (since - 1) total

theorem readRequest_fst (param : String) : (readRequest param).1 = (splitParam param).1 := by
  unfold readRequest
  split <;> rename_i hparam <;> rw [hparam]

theorem sessionRead_reply (hdeleted : (store name).deleted = false)
    (hasks : AsksRead name (store name).turns.length stop param start) :
    sessionRead store param = readReply name (store name).turns start stop := by
  obtain ⟨hparam, hname, hrange⟩ := hasks
  have htotal : (store name).turns.length ≠ 0 := by
    have hbounds := parseRange_bounds hrange
    omega
  unfold sessionRead
  rw [if_neg hparam, hname]
  dsimp only
  rw [hdeleted, if_neg Bool.false_ne_true, if_neg htotal, hrange]

theorem asksRead_next (hname : ' ' ∉ name.toList)
    (hstart : start < stop) (hstop : stop ≤ total) (htotal : total < 2 ^ 63) :
    AsksRead name total stop (name ++ " " ++ rangeText (start + 1) stop) start := by
  have hrequest : readRequest (name ++ " " ++ rangeText (start + 1) stop) =
      (name, rangeText (start + 1) stop) := by
    unfold readRequest
    rw [splitParam_append hname]
    dsimp only
    rw [trim_rangeText]
  refine ⟨append_ne_empty _ _, ?_, ?_⟩
  · rw [hrequest]
  · rw [hrequest]
    exact parseRange_rangeText hstart hstop htotal

section

variable (hdeleted : (store name).deleted = false)
include hdeleted

theorem read_covers (hasks : AsksRead name (store name).turns.length stop param start) :
    Covers (sessionRead store) name param (store name).turns
      (fun first => readHeader name (store name).turns.length first stop)
      (fun next => " — call session_read with range \"" ++ next ++ "\" for the rest]")
      start stop := by
  obtain ⟨hstart, hstop⟩ := parseRange_bounds hasks.2.2
  have hname : ' ' ∉ name.toList := by
    rw [← hasks.2.1, readRequest_fst]
    exact space_notMem_name param
  refine @covers_of_replies stop name _ _ _ (rangeText · stop) (sessionReadBudgetNotice · stop)
    (sessionRead store) (AsksRead name (store name).turns.length stop) hstop ?_ ?_ ?_
    (stop - start) start param rfl hstart hasks
  · intro param start hasks _
    exact sessionRead_reply hdeleted hasks
  · exact fun _ => append_line _ _ _ _
  · intro start hstart
    exact asksRead_next hname hstart hstop (store name).short

variable (hasks : AsksDelta name (store name).turns.length param start)
include hasks

/-- What `session_delta` does of a session that is there, asked from a turn on. -/
theorem sessionDelta_asked :
    ∃ since, start = min (since - 1) (store name).turns.length ∧
      sessionDelta store param =
        if (store name).turns.length = 0 then message (noHistory name)
        else if (store name).turns.length - start = 0 then
          message ("No new turns in '" ++ name ++ "' since turn #" ++
            Nat.repr (max since 1) ++ ".")
        else deltaReply name (store name).turns (max since 1) start := by
  obtain ⟨hparam, rest, since, hsplit, hsince, rfl⟩ := hasks
  refine ⟨since, rfl, ?_⟩
  unfold sessionDelta
  rw [if_neg hparam, hsplit]
  dsimp only
  rw [hsince]
  dsimp only
  rw [hdeleted, if_neg Bool.false_ne_true]

theorem sessionDelta_reply (hstart : start < (store name).turns.length) :
    sessionDelta store param = deltaReply name (store name).turns (start + 1) start := by
  obtain ⟨since, hfrom, hreply⟩ := sessionDelta_asked hdeleted hasks
  have hshown : max since 1 = start + 1 := by omega
  rw [hreply, if_neg (by omega), if_neg (by omega), hshown]

/-- With no turns to show the reply is a message. -/
theorem sessionDelta_none (hstart : (store name).turns.length ≤ start) :
    ∃ text, sessionDelta store param = message text := by
  obtain ⟨since, -, hreply⟩ := sessionDelta_asked hdeleted hasks
  rw [hreply]
  split
  · exact ⟨_, rfl⟩
  · rw [if_pos (by omega)]
    exact ⟨_, rfl⟩

end

theorem asksDelta_next (hname : ' ' ∉ name.toList)
    (hstart : start < total) (htotal : total < 2 ^ 63) :
    AsksDelta name total (name ++ " " ++ Nat.repr (start + 1)) start := by
  refine ⟨append_ne_empty _ _, Nat.repr (start + 1), start + 1, splitParam_append hname _, ?_, ?_⟩
  · rw [trim_repr, parseUsize_repr (by omega)]
  · omega

theorem delta_covers (hdeleted : (store name).deleted = false)
    (hasks : AsksDelta name (store name).turns.length param start) :
    Covers (sessionDelta store) name param (store name).turns
      (fun first => deltaHeader name (first + 1) ((store name).turns.length - first))
      (fun next => " — call session_delta with since_turn " ++ next ++ " for the rest]") start
      (store name).turns.length := by
  by_cases hstart : start < (store name).turns.length
  · have hname : ' ' ∉ name.toList := by
      obtain ⟨-, rest, since, hsplit, -⟩ := hasks
      have hnot := space_notMem_name param
      rw [hsplit] at hnot
      exact hnot
    refine @covers_of_replies _ name _ _ _ Nat.repr
      (sessionDeltaBudgetNotice · (store name).turns.length) (sessionDelta store)
      (AsksDelta name (store name).turns.length) le_rfl ?_ ?_ ?_
      ((store name).turns.length - start) start param rfl hstart hasks
    · intro param start hasks hstart
      exact sessionDelta_reply hdeleted hasks hstart
    · exact fun _ => append_line _ _ _ _
    · intro start hstart
      exact asksDelta_next hname hstart (store name).short
  · obtain ⟨text, htext⟩ := sessionDelta_none hdeleted hasks (Nat.le_of_not_lt hstart)
    refine ⟨1, [message text], ?_, ?_, ?_⟩
    · rw [follow, htext]
      rfl
    · rw [show (store name).turns.length - start = 0 by omega]
      rfl
    · intro r hr
      rw [List.mem_singleton.1 hr]
      exact ⟨nofun, nofun, fun _ => String.append_empty, nofun⟩

/-- Following the continuations of `session_read` from any accepted range, or those of
`session_delta` from any turn number, ends and shows every turn asked for once and in order; a
reply with more than one turn is within the budget before its continuation line. -/
theorem continuations_cover (store : Store) (name param : String)
    (hdeleted : (store name).deleted = false) :
    (∀ start stop, param ≠ "" → (readRequest param).1 = name →
      parseRange (readRequest param).2 (store name).turns.length = .ok (start, stop) →
      Covers (sessionRead store) name param (store name).turns
        (fun first => readHeader name (store name).turns.length first stop)
        (fun next => " — call session_read with range \"" ++ next ++ "\" for the rest]")
        start stop) ∧
    (∀ rest since, param ≠ "" → splitParam param = (name, some rest) →
      parseUsize (trim rest) = some since →
      Covers (sessionDelta store) name param (store name).turns
        (fun first => deltaHeader name (first + 1) ((store name).turns.length - first))
        (fun next => " — call session_delta with since_turn " ++ next ++ " for the rest]")
        (min (since - 1) (store name).turns.length) (store name).turns.length) := by
  constructor
  · intro start stop hparam hname hrange
    exact read_covers hdeleted ⟨hparam, hname, hrange⟩
  · intro rest since hparam hsplit hsince
    exact delta_covers hdeleted ⟨hparam, rest, since, hsplit, hsince, rfl⟩

/-- A turn that fills the budget and one behind it, read by their range and from the first on. -/
theorem continuations_cover_two :
    let full := String.ofList (List.replicate 65536 'a')
    let store : Store := fun _ =>
      ⟨false, [.obj [("role", .str "user"), ("content", .str full)], .null], by decide⟩
    Covers (sessionRead store) "ops" "ops 1-2" (store "ops").turns
      (fun first => readHeader "ops" 2 first 2)
      (fun next => " — call session_read with range \"" ++ next ++ "\" for the rest]") 0 2 ∧
    Covers (sessionDelta store) "ops" "ops 1" (store "ops").turns
      (fun first => deltaHeader "ops" (first + 1) (2 - first))
      (fun next => " — call session_delta with since_turn " ++ next ++ " for the rest]") 0 2 :=
  ⟨(continuations_cover _ "ops" "ops 1-2" rfl).1 0 2 (by decide) (by decide +kernel)
    (by decide +kernel),
    (continuations_cover _ "ops" "ops 1" rfl).2 "1" 1 (by decide) (by decide +kernel)
      (by decide +kernel)⟩

end EmbraOS.Ports.SessionRead
