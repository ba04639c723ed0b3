import Mathlib
import EmbraOS.Verified.Machine
import EmbraOS.Verified.Serde
import EmbraOS.Verified.Text

/-!
# The conversation loop of one turn

Port of the tool loop of `handle_request` in `embra-brain/src/grpc_service/turn.rs`, with
`collect_response`, `closing_frames`, `final_assistant_text` and their helpers, over the
messages of `provider/ir.rs`.

A turn is a machine.  Its inputs are what it waits for: the provider's answer to a request,
the events of a stream and its end, the result of a tool, and the operator's stop, which may
be raised at any moment and is seen where the code looks for it: by a poll, or by a `select!`
that takes it in place of an event or a result.  `tick` is a stretch of the loop's own code
from one look to the next.  Beside the variables of the loop the state keeps what was sent
and received.
-/

namespace EmbraOS.Ports.TurnLoop

open Verified
open Verified.Serde
open Verified.Text (trim join concat)

/-! ## Messages -/

structure ImageData where
  mediaType : String
  dataB64 : String
  width : Nat
  height : Nat
  name : String

inductive Block where
  | text (text : String)
  | image (image : ImageData)
  | toolCall (id name : String) (args : Json) (providerOpaque : Option Json)
  | toolResult (callId content : String) (isError : Bool) (images : List ImageData)
  | providerOpaque (value : Json)

def Block.text? : Block → Option String
  | .text t => some t
  | _ => none

def Block.callId? : Block → Option String
  | .toolCall id _ _ _ => some id
  | _ => none

def Block.resultId? : Block → Option String
  | .toolResult callId _ _ _ => some callId
  | _ => none

inductive ApiMessage where
  | user (content : List Block)
  | assistant (content : List Block)

def ApiMessage.content : ApiMessage → List Block
  | .user content => content
  | .assistant content => content

inductive EarlyStopReason where
  | stopSequence
  | refusal
  | contextWindow
  | safety
  | recitation
  | malformed
  | streamEnded
  | operatorStop
  | other
  deriving DecidableEq, Repr

/-- `{:?}` of a reason. -/
def EarlyStopReason.debug : EarlyStopReason → String
  | .stopSequence => "StopSequence"
  | .refusal => "Refusal"
  | .contextWindow => "ContextWindow"
  | .safety => "Safety"
  | .recitation => "Recitation"
  | .malformed => "Malformed"
  | .streamEnded => "StreamEnded"
  | .operatorStop => "OperatorStop"
  | .other => "Other"

inductive TurnOutcome where
  | endTurn
  | toolUse
  | maxTokens
  | pause
  | earlyStop (reason : EarlyStopReason)
  deriving DecidableEq, Repr

structure StopDetails where
  category : Option String
  explanation : Option String

structure AssistantTurn where
  content : List Block
  outcome : TurnOutcome
  stopDetails : Option StopDetails

def AssistantTurn.hasToolCall (turn : AssistantTurn) : Bool :=
  turn.content.any fun b => b.callId?.isSome

def AssistantTurn.hasText (turn : AssistantTurn) : Bool :=
  turn.content.any fun b => b.text?.isSome

def turnText (turn : AssistantTurn) : String := concat (turn.content.filterMap Block.text?)

inductive StreamEvent where
  | textDelta (text : String)
  | reasoningDelta (text : String)
  | blockComplete
  | complete (turn : AssistantTurn)
  | error (message : String)

/-! ## Frames -/

inductive SystemMessageType where
  | warning
  | error
  deriving DecidableEq, Repr

/-- What the turn sends to the client. -/
inductive Frame where
  | token (text : String)
  | done (fullResponse : String)
  | reasoning (text : String)
  | thinking (isThinking : Bool) (currentTool : String)
  | tool (id name result : String) (isError : Bool)
  | system (kind : SystemMessageType) (content : String)

def terminalOutcomeNotice (outcome : TurnOutcome) (details : Option StopDetails) :
    Option (SystemMessageType × String) :=
  match outcome with
  | .endTurn => none
  | .toolUse => none
  | .pause => none
  | .maxTokens =>
    some (.warning, "Response hit the output-token limit (max_tokens) — the reply above may be " ++
      "truncated mid-thought.")
  | .earlyStop .refusal =>
    some (.error, "Anthropic declined to complete this response (refusal" ++
      (match details.bind StopDetails.category with
        | some category => ", category: " ++ category
        | none => "") ++ ")" ++
      (match details.bind StopDetails.explanation with
        | some explanation => " — " ++ explanation
        | none => "") ++
      ". Any partial text above is incomplete. No fallback model was used.")
  | .earlyStop .contextWindow =>
    some (.warning, "Response stopped because the conversation no longer fits the model's " ++
      "context window — the reply above may be cut off. Continue in a new session (/new <name>).")
  | .earlyStop .streamEnded =>
    some (.warning, "The model server closed the stream before finishing the reply — the text " ++
      "above may be incomplete.")
  | .earlyStop .operatorStop =>
    some (.warning, "Turn stopped by operator — any partial response above is incomplete.")
  | .earlyStop reason =>
    some (.error, "Provider stopped this response early (" ++ reason.debug ++ ").")

def stoppedOutcome : TurnOutcome := .earlyStop .operatorStop

/-- The text of a response whose `Done` never went out. -/
def undeliveredAfter (turn : AssistantTurn) : Option String :=
  if turn.outcome = stoppedOutcome then some (turnText turn) else none

def closingFrames (stopped streamFailed : Bool) (undelivered : Option String)
    (notice : Option (SystemMessageType × String)) : List Frame :=
  (match undelivered with
    | some text => [.done text]
    | none => if stopped || streamFailed then [.done ""] else []) ++
  (match notice with
    | some (kind, content) => [.system kind content]
    | none => [])

/-! ## The transcript -/

def isBlank (text : String) : Bool := trim text = ""

/-- `TranscriptSegments::push`. -/
def pushSegment (segments : List String) (segment : String) : List String :=
  if isBlank segment then segments else segments ++ [segment]

def streamFailedMarker : String := "(turn ended by a provider error; see the error above)"

def operatorStopMarker : String := "(turn stopped by operator)"

def renderToolOnlyPlaceholder (names : List String) : String :=
  "[tool calls: " ++ join ", " (names.take 8) ++ (if 8 < names.length then ", …" else "") ++ "]"

def finalAssistantText (transcript : String) (toolNames : List String) (outcome : TurnOutcome) :
    String :=
  if !isBlank transcript then
    if outcome = .earlyStop .refusal then
      transcript ++ "\n\n(response interrupted by provider refusal)"
    else if outcome = stoppedOutcome then
      transcript ++ "\n\n(response interrupted by operator stop)"
    else transcript
  else if outcome = .earlyStop .refusal then "(request declined by provider: refusal)"
  else if outcome = stoppedOutcome then operatorStopMarker
  else if toolNames ≠ [] then renderToolOnlyPlaceholder toolNames
  else "(no response)"

def synthesizeCapResults (blocks : List Block) (capMsg : String) : List Block :=
  blocks.filterMap fun b => b.callId?.map fun id => .toolResult id capMsg true []

/-! ## Tools -/

inductive DispatchError where
  | unknown (name : String)
  | badInput (tool source : String)
  | handler (message : String)
  | timeout (tool : String) (limitSecs : Nat)

def DispatchError.message : DispatchError → String
  | .unknown name =>
    "Unknown tool: '" ++ name ++ "'. Check the tool manifest for the correct name."
  | .badInput tool source => "Input schema mismatch for '" ++ tool ++ "': " ++ source
  | .handler message => message
  | .timeout tool limitSecs =>
    "Tool '" ++ tool ++ "' exceeded the " ++ toString limitSecs ++
      "s global execution timeout. The command may still be running on the remote/host but " ++
      "its result will not be visible to you. Consider breaking the work into smaller chunks " ++
      "or backgrounding it."

/-- What a tool answers: a text with images, or an error. -/
inductive Dispatched where
  | ok (text : String) (images : List ImageData)
  | err (error : DispatchError)

def Dispatched.content : Dispatched → String
  | .ok text _ => text
  | .err error => error.message

def Dispatched.images : Dispatched → List ImageData
  | .ok _ images => images
  | .err _ => []

def Dispatched.isError : Dispatched → Bool
  | .ok _ _ => false
  | .err _ => true

/-! ## The state -/

/-- A message of the request, with the outcome of the response it is, if it is one of this
turn's. -/
structure Entry where
  message : ApiMessage
  outcome : Option TurnOutcome

/-- A request as it was sent, and whether the loop had seen the stop by then. -/
structure Request where
  messages : List Entry
  stopSeen : Bool

/-- What a request is made for. -/
inductive Purpose where
  | first
  | resume
  | continuation
  | summary
  deriving DecidableEq, Repr

/-- The variables of `collect_response`. -/
structure Collect where
  firstToken : Bool
  full : Option AssistantTurn
  accum : String

inductive Ending where
  /-- A request failed: `handle_request` returns the error. -/
  | failed
  /-- The first stream had no result: nothing is saved. -/
  | dropped
  | saved (text : String)
  deriving DecidableEq, Repr

inductive Phase where
  | requested (purpose : Purpose)
  | streaming (purpose : Purpose) (collect : Collect)
  /-- At the head of the loop. -/
  | head
  /-- In the pass over the blocks of a response, with those to come. -/
  | tools (blocks : List Block)
  | dispatching (id name : String) (blocks : List Block)
  /-- After the pass. -/
  | swept
  /-- After the loop. -/
  | closing
  | ended (ending : Ending)

structure State where
  phase : Phase
  /-- The stop counter is past the turn's baseline. -/
  raised : Bool
  /-- The loop has seen that. -/
  stopSeen : Bool
  messages : List Entry
  current : AssistantTurn
  results : List Block
  toolIter : Nat
  segments : List String
  undelivered : Option String
  streamFailed : Bool
  toolNames : List String
  /-- The name of each tool that was run, and whether it failed. -/
  trace : List (String × Bool)
  frames : List Frame
  requests : List Request
  responses : List AssistantTurn
  /-- For each tool that was started, how many responses there were. -/
  dispatchedIn : List Nat
  /-- The texts that were streamed, one for each stream and each token of the loop's own. -/
  runs : List String

structure Env where
  /-- `max_tool_iterations` of the configuration. -/
  configured : Option Nat
  sideEffectful : String → Bool

def defaultMaxToolIterations : Nat := 100

def Env.cap (env : Env) : Nat := max 1 (min 1000 (env.configured.getD defaultMaxToolIterations))

/-- The first request, with the history and the operator's message. -/
def start (messages : List ApiMessage) : State :=
  let entries := messages.map fun message => ⟨message, none⟩
  { phase := .requested .first, raised := false, stopSeen := false, messages := entries,
    current := ⟨[], .endTurn, none⟩, results := [], toolIter := 0, segments := [],
    undelivered := none, streamFailed := false, toolNames := [], trace := [], frames := [],
    requests := [⟨entries, false⟩], responses := [], dispatchedIn := [], runs := [] }

/-! ## Pieces of the loop -/

def State.send (s : State) (frame : Frame) : State := { s with frames := s.frames ++ [frame] }

/-- A stream is over; the text is all of it that was shown. -/
def State.shown (s : State) (text : String) : State := { s with runs := s.runs ++ [text] }

def State.see (s : State) : State := { s with stopSeen := true }

/-- `stream_turn`. -/
def State.ask (s : State) (purpose : Purpose) : State :=
  { s with
    requests := s.requests ++ [⟨s.messages, s.stopSeen⟩]
    phase := .requested purpose }

/-- A token of the loop's own, which the closing `Done` carries. -/
def State.say (s : State) (text : String) : State :=
  { s with
    frames := s.frames ++ [.token text]
    runs := s.runs ++ [text]
    segments := pushSegment s.segments text
    undelivered := some text }

def State.pushResponse (s : State) (turn : AssistantTurn) : State :=
  { s with
    messages := s.messages ++ [⟨.assistant turn.content, some turn.outcome⟩]
    responses := s.responses ++ [turn]
    segments := pushSegment s.segments (turnText turn) }

/-- `user_tool_results`. -/
def State.pushResults (s : State) (results : List Block) : State :=
  { s with messages := s.messages ++ [⟨.user results, none⟩] }

/-- A response that the loop goes on with. -/
def State.receive (s : State) (turn : AssistantTurn) : State :=
  { s.pushResponse turn with
    current := turn
    undelivered := undeliveredAfter turn
    phase := .head }

def capText (env : Env) (rest : String) : String :=
  "(tool iteration cap of " ++ toString env.cap ++ " reached; " ++ rest ++ ")"

/-- The summary after the cap, if there is one; the loop is left either way. -/
def State.summarized (env : Env) (s : State) : Option AssistantTurn → State
  | some turn =>
    let text := turnText turn
    let s := s.pushResponse turn
    if text ≠ "" then
      { s with
        undelivered := if turn.outcome = stoppedOutcome then some text else none
        phase := .closing }
    else { s.say (capText env "model did not produce a final summary") with phase := .closing }
  | none => { s.say (capText env "no final response received") with phase := .closing }

/-- What follows a `collect_response`. -/
def State.collected (env : Env) (s : State) : Purpose → Option AssistantTurn → State
  | .summary, turn => s.summarized env turn
  | .first, none => { s.send (.done "") with phase := .ended .dropped }
  | _, none =>
    { s with
      segments := pushSegment s.segments streamFailedMarker
      streamFailed := true
      phase := .closing }
  | _, some turn => s.receive turn

/-- The turn a stop makes of a stream. -/
def stoppedTurn (accum : String) : AssistantTurn :=
  ⟨if accum = "" then [] else [.text accum], stoppedOutcome, none⟩

/-- One event in `collect_response`. -/
def State.hear (s : State) (purpose : Purpose) (c : Collect) : StreamEvent → State
  | .textDelta text =>
    { s with
      frames := s.frames ++ (if c.firstToken then [.thinking false ""] else []) ++ [.token text]
      phase := .streaming purpose { c with firstToken := false, accum := c.accum ++ text } }
  | .reasoningDelta text => s.send (.reasoning text)
  | .blockComplete => s
  | .complete turn =>
    { s.send (.done (if c.accum = "" then turnText turn else c.accum)) with
      phase := .streaming purpose { c with full := some turn } }
  | .error message => s.send (.system .error ("Brain error: " ++ message))

/-- A request that was refused. -/
def State.refused (env : Env) (s : State) (error : String) : Purpose → State
  | .summary =>
    { s.send (.system .error ("Final summary call failed after iteration cap: " ++ error)) with
      segments := pushSegment s.segments (capText env "final summary call errored")
      phase := .closing }
  | _ => { s with phase := .ended .failed }

/-- The token that says so when a turn with effects ends without a word. -/
def silentText (n : Nat) : String :=
  "(model ended turn silently after " ++ toString n ++ " side-effectful tool call" ++
    (if n = 1 then "" else "s") ++ "; see `turn_trace` for details)"

def sideEffectfulCount (env : Env) (trace : List (String × Bool)) : Nat :=
  trace.countP fun entry => !entry.2 && env.sideEffectful entry.1

/-- A response that ends the turn. -/
def State.terminal (env : Env) (s : State) : State :=
  let n := sideEffectfulCount env s.trace
  if !s.current.hasText && !s.current.hasToolCall && 0 < n then
    { s.say (silentText n) with phase := .closing }
  else { s with phase := .closing }

def capMsg (env : Env) : String :=
  "System: tool iteration cap of " ++ toString env.cap ++ " reached. No further tool calls will " ++
    "be dispatched in this turn. Summarize your findings to the user now, or ask the operator " ++
    "for guidance."

/-- At the cap every call is answered, and one more request asks for a summary. -/
def State.capped (env : Env) (s : State) : State :=
  let s := s.send (.system .warning ("Tool iteration cap of " ++ toString env.cap ++
    " reached — asking the model to summarize and stop."))
  let synthetic := synthesizeCapResults s.current.content (capMsg env)
  let s := if synthetic.isEmpty then s else s.pushResults synthetic
  s.ask .summary

/-- What the loop does with the response it is at. -/
def State.act (env : Env) (s : State) : State :=
  match s.current.outcome with
  | .endTurn => s.terminal env
  | .maxTokens => s.terminal env
  | .earlyStop _ => s.terminal env
  | .pause => s.ask .resume
  | .toolUse =>
    if env.cap ≤ s.toolIter then s.capped env
    else
      { s with toolIter := s.toolIter + 1, results := [], phase := .tools s.current.content }

/-- The response with the outcome that a stop gives it. -/
def State.overrule (s : State) : State :=
  { s.see with current := { s.current with outcome := stoppedOutcome } }

/-- The head of the loop. -/
def State.turnAround (env : Env) (s : State) : State :=
  (if s.raised then s.overrule else s).act env

/-- One block of the pass. -/
def State.nextBlock (s : State) : List Block → State
  | [] => { s with phase := .swept }
  | .toolCall id name _ _ :: rest =>
    if s.raised then { s.see with phase := .swept }
    else
      { s with
        toolNames := if s.toolNames.contains name then s.toolNames else s.toolNames ++ [name]
        frames := s.frames ++ [.thinking true name]
        dispatchedIn := s.dispatchedIn ++ [s.responses.length]
        phase := .dispatching id name rest }
  | _ :: rest => { s with phase := .tools rest }

def State.answered (s : State) (id name : String) (rest : List Block) (out : Dispatched) : State :=
  { s with
    trace := s.trace ++ [(name, out.isError)]
    frames := s.frames ++ [.thinking true "", .tool id name out.content out.isError]
    results := s.results ++ [.toolResult id out.content out.isError out.images]
    phase := .tools rest }

/-- After the pass: no continuation after a stop, nor without results. -/
def State.sweep (s : State) : State :=
  if s.raised then { s.see with phase := .head }
  else if s.results.isEmpty then { s with phase := .closing }
  else (s.pushResults s.results).ask .continuation

/-- After the loop: the closing frames, and the reply that is saved. -/
def State.close (s : State) : State :=
  let current := if s.raised then { s.current with outcome := stoppedOutcome } else s.current
  let notice := terminalOutcomeNotice current.outcome current.stopDetails
  { s with
    stopSeen := s.stopSeen || s.raised
    current
    frames := s.frames ++
      closingFrames (current.outcome = stoppedOutcome) s.streamFailed s.undelivered notice
    undelivered := none
    phase := .ended (.saved (finalAssistantText (join "\n\n" s.segments) s.toolNames
      current.outcome)) }

/-! ## The machine -/

inductive Step where
  /-- The operator's stop is raised. -/
  | raise
  /-- The provider takes the request. -/
  | accept
  | refuse (error : String)
  | event (event : StreamEvent)
  | finish
  /-- A `select!` takes the stop. -/
  | stop
  | result (out : Dispatched)
  | tick

def step (env : Env) (s : State) : Step → Option State
  | .raise =>
    match s.phase with
    | .ended _ => none
    | _ => some { s with raised := true }
  | .accept =>
    match s.phase with
    | .requested purpose => some { s with phase := .streaming purpose ⟨true, none, ""⟩ }
    | _ => none
  | .refuse error =>
    match s.phase with
    | .requested purpose => some (s.refused env error purpose)
    | _ => none
  | .event event =>
    match s.phase with
    | .streaming purpose c => some (s.hear purpose c event)
    | _ => none
  | .finish =>
    match s.phase with
    | .streaming purpose c =>
      some ((s.shown c.accum).collected env purpose c.full)
    | _ => none
  | .stop =>
    if s.raised then
      match s.phase with
      | .streaming purpose c =>
        some ((s.shown c.accum).see.collected env purpose (some (stoppedTurn c.accum)))
      | .dispatching _ _ _ => some { s.see with phase := .swept }
      | _ => none
    else none
  | .result out =>
    match s.phase with
    | .dispatching id name rest => some (s.answered id name rest out)
    | _ => none
  | .tick =>
    match s.phase with
    | .head => some (s.turnAround env)
    | .tools blocks => some (s.nextBlock blocks)
    | .swept => some s.sweep
    | .closing => some s.close
    | _ => none

/-- The ways a step is taken, with the phase it is taken in. -/
inductive Taken (env : Env) (s : State) : Step → State → Prop
  | raise (hp : ∀ ending, s.phase ≠ .ended ending) : Taken env s .raise { s with raised := true }
  | accept {purpose} (hp : s.phase = .requested purpose) :
      Taken env s .accept { s with phase := .streaming purpose ⟨true, none, ""⟩ }
  | refuse {purpose} (hp : s.phase = .requested purpose) (error) :
      Taken env s (.refuse error) (s.refused env error purpose)
  | event {purpose c} (hp : s.phase = .streaming purpose c) (event) :
      Taken env s (.event event) (s.hear purpose c event)
  | finish {purpose c} (hp : s.phase = .streaming purpose c) :
      Taken env s .finish ((s.shown c.accum).collected env purpose c.full)
  | stop {purpose c} (hraised : s.raised = true) (hp : s.phase = .streaming purpose c) :
      Taken env s .stop
        ((s.shown c.accum).see.collected env purpose (some (stoppedTurn c.accum)))
  | stopTool {id name rest} (hraised : s.raised = true) (hp : s.phase = .dispatching id name rest) :
      Taken env s .stop { s.see with phase := .swept }
  | result {id name rest} (hp : s.phase = .dispatching id name rest) (out) :
      Taken env s (.result out) (s.answered id name rest out)
  | head (hp : s.phase = .head) : Taken env s .tick (s.turnAround env)
  | tools {blocks} (hp : s.phase = .tools blocks) : Taken env s .tick (s.nextBlock blocks)
  | swept (hp : s.phase = .swept) : Taken env s .tick s.sweep
  | closing (hp : s.phase = .closing) : Taken env s .tick s.close

theorem taken_of_step {env : Env} {s s' : State} {i : Step} (h : step env s i = some s') :
    Taken env s i s' := by
  cases i <;> dsimp only [step] at h
  case stop =>
    split at h
    · rename_i hraised
      split at h <;> cases h
      · exact .stop hraised ‹_›
      · exact .stopTool hraised ‹_›
    · cases h
  all_goals split at h <;> cases h
  · exact .raise ‹_›
  · exact .accept ‹_›
  · exact .refuse ‹_› _
  · exact .event ‹_› _
  · exact .finish ‹_›
  · exact .result ‹_› _
  · exact .head ‹_›
  · exact .tools ‹_›
  · exact .swept ‹_›
  · exact .closing ‹_›

end EmbraOS.Ports.TurnLoop
