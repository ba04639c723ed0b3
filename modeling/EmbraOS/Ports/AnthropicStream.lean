import EmbraOS.Ports.AnthropicConv
import EmbraOS.Ports.Sse
import EmbraOS.Verified.SortedMap

/-!
# The Anthropic stream parser

Port of `BlockAccumulator`, `pump` and `emit_complete`
(`embra-brain/src/provider/anthropic/streaming.rs`) for a receiver that stays and a transport that
does not fail.  The block map is a sorted list.  Beside the events sent, the parser's state keeps
which index a token was sent for and when a block was opened; `events` forgets both.

`pump_events` is the main result.
-/

namespace EmbraOS.Ports.AnthropicStream

open Verified
open Verified.Serde
open Ports.AnthropicConv (MessageBlock)

inductive StopReason where
  | endTurn
  | maxTokens
  | stopSequence
  | toolUse
  | refusal
  | pauseTurn
  | modelContextWindowExceeded
  deriving DecidableEq, Repr

structure StopDetails where
  category : Option String
  explanation : Option String

/-- `serde_json`: `from_str`, `to_string` and `from_value::<StopDetails>`. -/
structure JsonLib where
  fromStr : String → Option Json
  toText : Json → String
  stopDetails : Json → Option StopDetails

/-! ## Blocks -/

inductive BlockKind where
  | text
  | thinking
  | toolUse
  | unknown
  deriving DecidableEq, Repr

structure BlockAccumulator where
  kind : BlockKind
  text : String := ""
  thinking : String := ""
  signature : Option String := none
  id : Option String := none
  name : Option String := none
  inputJson : String := ""

/-- What the text of a tool's input stands for. -/
def inputOf (lib : JsonLib) (inputJson : String) : Json :=
  if Text.trim inputJson = "" then .obj [] else (lib.fromStr inputJson).getD (.obj [])

def BlockAccumulator.finalize (lib : JsonLib) (acc : BlockAccumulator) : MessageBlock :=
  match acc.kind with
  | .text | .unknown => .text acc.text
  | .thinking => .thinking acc.thinking (acc.signature.getD "")
  | .toolUse => .toolUse (acc.id.getD "") (acc.name.getD "") (inputOf lib acc.inputJson)

def BlockAccumulator.fromFinalized (lib : JsonLib) : MessageBlock → BlockAccumulator
  | .text text => { kind := .text, text := text }
  | .thinking thinking signature =>
    { kind := .thinking, thinking := thinking, signature := some signature }
  | .toolUse id name input =>
    { kind := .toolUse, id := some id, name := some name, inputJson := lib.toText input }
  | .toolResult .. | .image _ => { kind := .text }

/-! ## The parser -/

structure AssistantResponse where
  content : List MessageBlock
  stopReason : StopReason
  stopDetails : Option StopDetails

inductive StreamEvent where
  | token (text : String)
  | thinkingDelta (text : String)
  | blockComplete
  | complete (response : AssistantResponse)
  | error (message : String)

/-- What happens in a run. -/
inductive Mark where
  /-- A block is put under the index. -/
  | opened (index : Nat)
  /-- An event is sent; for a block, with its index. -/
  | sent (index : Option Nat) (event : StreamEvent)

def Mark.event? : Mark → Option StreamEvent
  | .opened _ => none
  | .sent _ event => some event

def events (marks : List Mark) : List StreamEvent := marks.filterMap Mark.event?

structure State where
  blocks : List (Nat × BlockAccumulator) := []
  stopReason : Option StopReason := none
  stopDetails : Option StopDetails := none
  marks : List Mark := []

/-- Put a block under its index. -/
def State.put (s : State) (index : Nat) (acc : BlockAccumulator) (marks : List Mark) : State :=
  { s with
    blocks := SortedMap.modifyEntry index acc (fun _ => acc) s.blocks
    marks := s.marks ++ marks }

def field? (v : Json) (key : String) : Option String := (v.get? key).bind Json.asStr?

def indexOf (event : Json) : Nat := ((event.get? "index").bind Json.asU64?).getD 0

def kindOf (name : String) : BlockKind :=
  if name = "text" then .text
  else if name = "thinking" then .thinking
  else if name = "tool_use" then .toolUse
  else .unknown

def newBlock (lib : JsonLib) (cb : Json) : BlockAccumulator :=
  { kind := kindOf ((field? cb "type").getD "text")
    signature := field? cb "signature"
    id := field? cb "id"
    name := field? cb "name"
    inputJson :=
      match cb.get? "input" with
      | some input => if lib.toText input = "\x7b\x7d" then "" else lib.toText input
      | none => "" }

def onStart (lib : JsonLib) (s : State) (event : Json) : State :=
  match event.get? "content_block" with
  | none => s
  | some cb => s.put (indexOf event) (newBlock lib cb) [.opened (indexOf event)]

/-- A delta for a block that is there. -/
def applyDelta (s : State) (index : Nat) (acc : BlockAccumulator) (delta : Json) : State :=
  let kind := (field? delta "type").getD ""
  if kind = "text_delta" then
    match field? delta "text" with
    | some t =>
      s.put index { acc with text := acc.text ++ t } [.sent (some index) (.token t)]
    | none => s
  else if kind = "thinking_delta" then
    match field? delta "thinking" with
    | some t =>
      s.put index { acc with thinking := acc.thinking ++ t }
        [.sent (some index) (.thinkingDelta t)]
    | none => s
  else if kind = "signature_delta" then
    match field? delta "signature" with
    | some t => s.put index { acc with signature := some (acc.signature.getD "" ++ t) } []
    | none => s
  else if kind = "input_json_delta" then
    match field? delta "partial_json" with
    | some t => s.put index { acc with inputJson := acc.inputJson ++ t } []
    | none => s
  else s

def onDelta (s : State) (event : Json) : State :=
  match event.get? "delta", SortedMap.get? (indexOf event) s.blocks with
  | some delta, some acc => applyDelta s (indexOf event) acc delta
  | _, _ => s

/-- The block is finalised and put back as what it was finalised to. -/
def onStop (lib : JsonLib) (s : State) (event : Json) : State :=
  match SortedMap.get? (indexOf event) s.blocks with
  | some acc =>
    s.put (indexOf event) (.fromFinalized lib (acc.finalize lib))
      [.sent (some (indexOf event)) .blockComplete]
  | none => s

def parseStopReason (name : String) : Option StopReason :=
  if name = "end_turn" then some .endTurn
  else if name = "max_tokens" then some .maxTokens
  else if name = "stop_sequence" then some .stopSequence
  else if name = "tool_use" then some .toolUse
  else if name = "refusal" then some .refusal
  else if name = "pause_turn" then some .pauseTurn
  else if name = "model_context_window_exceeded" then some .modelContextWindowExceeded
  else none

def onMessageDelta (lib : JsonLib) (s : State) (event : Json) : State :=
  match event.get? "delta" with
  | none => s
  | some delta =>
    { s with
      stopReason :=
        match field? delta "stop_reason" with
        | some name => parseStopReason name
        | none => s.stopReason
      stopDetails := ((delta.get? "stop_details").bind lib.stopDetails).or s.stopDetails }

def State.content (lib : JsonLib) (s : State) : List MessageBlock :=
  s.blocks.map fun b => b.2.finalize lib

def emitComplete (lib : JsonLib) (s : State) : List Mark :=
  s.marks ++ [.sent none (.complete
    ⟨s.content lib, s.stopReason.getD .endTurn, s.stopDetails⟩)]

def errorMessage (event : Json) : String :=
  ((event.get? "error").bind fun e => field? e "message").getD "Unknown stream error"

/-- One line; an error ends the reading with all that was sent. -/
def step (lib : JsonLib) (s : State) (line : String) : Except (List Mark) State :=
  if line = "" ∨ Text.startsWith line ":" then .ok s
  else
    match Text.stripPrefix? line "data: " with
    | none => .ok s
    | some data =>
      if data = "[DONE]" then .error (emitComplete lib s)
      else
        match lib.fromStr data with
        | none => .ok s
        | some event =>
          let kind := (field? event "type").getD ""
          if kind = "content_block_start" then .ok (onStart lib s event)
          else if kind = "content_block_delta" then .ok (onDelta s event)
          else if kind = "content_block_stop" then .ok (onStop lib s event)
          else if kind = "message_delta" then .ok (onMessageDelta lib s event)
          else if kind = "message_stop" then .error (emitComplete lib s)
          else if kind = "error" then
            .error (s.marks ++ [.sent none (.error (errorMessage event))])
          else .ok s

/-- All that happens over a response in chunks; `none` is a panic. -/
def pump (lib : JsonLib) (chunks : List (List UInt8)) : Option (List Mark) :=
  (Sse.pumpFrom (step lib) chunks {} {}).map fun result =>
    match result with
    | .error marks => marks
    | .ok s => emitComplete lib s

/-! ## What holds along a run -/

def StreamEvent.ends : StreamEvent → Bool
  | .complete _ | .error _ => true
  | _ => false

def Mark.ends (m : Mark) : Bool := m.event?.any StreamEvent.ends

/-- The text of the tokens sent for an index since a block was last put under it. -/
def tokensStep (index : Nat) (text : String) : Mark → String
  | .opened i => if i = index then "" else text
  | .sent (some i) (.token t) => if i = index then text ++ t else text
  | .sent _ _ => text

def tokensFor (index : Nat) (marks : List Mark) : String := marks.foldl (tokensStep index) ""

structure Inv (lib : JsonLib) (s : State) : Prop where
  sorted : SortedMap.Sorted s.blocks
  going : ∀ m ∈ s.marks, m.ends = false
  opened : ∀ i, i ∈ s.blocks.map Prod.fst ↔ .opened i ∈ s.marks
  text : ∀ i acc, SortedMap.get? i s.blocks = some acc → ∀ t, acc.finalize lib = .text t →
    t = tokensFor i s.marks

/-- A run is over: one event ends it, and if that is the response its blocks are those opened, in
the order of their indices, each text made of the tokens sent since its block was opened. -/
def Ended (marks : List Mark) : Prop :=
  ∃ init last, marks = init ++ [last] ∧ last.ends = true ∧ (∀ m ∈ init, m.ends = false) ∧
    ∀ response, last.event? = some (.complete response) →
      ∃ entries : List (Nat × MessageBlock), SortedMap.Sorted entries ∧
        response.content = entries.map Prod.snd ∧
        (∀ i, i ∈ entries.map Prod.fst ↔ .opened i ∈ init) ∧
        ∀ i t, (i, .text t) ∈ entries → t = tokensFor i init

section Run

variable {lib : JsonLib} {s : State} {acc : BlockAccumulator} {index : Nat} {event : Json}

theorem finalize_eq_text {t : String} : acc.finalize lib = .text t ↔
    (acc.kind = .text ∨ acc.kind = .unknown) ∧ acc.text = t := by
  cases hkind : acc.kind <;> simp [BlockAccumulator.finalize, hkind]

/-- A mark about one block, which does not end the run. -/
def About (index : Nat) (m : Mark) : Prop :=
  m.ends = false ∧ (m = .opened index ∨ ∃ e, m = .sent (some index) e)

theorem tokensFor_append (i : Nat) (marks more : List Mark) :
    tokensFor i (marks ++ more) = more.foldl (tokensStep i) (tokensFor i marks) :=
  List.foldl_append

/-- What is about one block leaves the tokens of the others. -/
theorem tokensFor_frame {marks more : List Mark} (hmore : ∀ m ∈ more, About index m) {i : Nat}
    (hne : i ≠ index) : tokensFor i (marks ++ more) = tokensFor i marks := by
  rw [tokensFor_append]
  induction more generalizing marks with
  | nil => rfl
  | cons m more ih =>
    have hstep : tokensStep i (tokensFor i marks) m = tokensFor i marks := by
      obtain ⟨-, rfl | ⟨e, rfl⟩⟩ := hmore m List.mem_cons_self
      · simp [tokensStep, hne.symm]
      · cases e <;> simp [tokensStep, hne.symm]
    rw [List.foldl_cons, hstep]
    exact ih fun m hm => hmore m (List.mem_cons_of_mem _ hm)

section

variable (h : Inv lib s)
include h

theorem Inv.put {marks : List Mark} (hmarks : ∀ m ∈ marks, About index m)
    (hopened : .opened index ∈ s.marks ++ marks)
    (htext : ∀ t, acc.finalize lib = .text t → t = tokensFor index (s.marks ++ marks)) :
    Inv lib (s.put index acc marks) where
  sorted := SortedMap.sorted_modifyEntry h.sorted
  going := by
    intro m hm
    rcases List.mem_append.1 hm with hm | hm
    · exact h.going m hm
    · exact (hmarks m hm).1
  opened := by
    intro i
    rw [State.put, SortedMap.mem_keys_modifyEntry, h.opened i]
    refine ⟨?_, fun hi => ?_⟩
    · rintro (rfl | hi)
      · exact hopened
      · exact List.mem_append_left _ hi
    · rcases List.mem_append.1 hi with hi | hi
      · exact .inr hi
      · obtain ⟨-, heq | ⟨e, heq⟩⟩ := hmarks _ hi
        · exact .inl (Mark.opened.inj heq)
        · cases heq
  text := by
    intro i acc' hget t ht
    rw [State.put] at hget
    by_cases hi : i = index
    · subst hi
      rw [SortedMap.get?_modifyEntry_self h.sorted] at hget
      cases hget
      exact htext t ht
    · rw [SortedMap.get?_modifyEntry_ne hi] at hget
      rw [h.text i acc' hget t ht]
      exact (tokensFor_frame hmarks hi).symm

/-- A block that is there was opened. -/
theorem Inv.opened_of_get (hget : SortedMap.get? index s.blocks = some acc)
    (marks : List Mark) : Mark.opened index ∈ s.marks ++ marks :=
  List.mem_append_left _ ((h.opened index).1 (SortedMap.mem_keys_of_get? hget))

theorem Inv.onStart : Inv lib (onStart lib s event) := by
  rw [AnthropicStream.onStart]
  split
  · exact h
  · refine h.put (by simp [About, Mark.ends, Mark.event?]) (by simp) fun t ht => ?_
    rw [tokensFor_append]
    simpa [tokensStep, newBlock] using (finalize_eq_text.1 ht).2.symm

theorem Inv.applyDelta (hget : SortedMap.get? index s.blocks = some acc)
    (delta : Json) : Inv lib (applyDelta s index acc delta) := by
  have hold : ∀ t, acc.finalize lib = .text t → t = tokensFor index s.marks := h.text index acc hget
  -- the deltas that leave the text
  have quiet : ∀ {acc' : BlockAccumulator} {marks : List Mark}, acc'.kind = acc.kind →
      acc'.text = acc.text → (∀ m ∈ marks, About index m) →
      (∀ text, marks.foldl (tokensStep index) text = text) → Inv lib (s.put index acc' marks) := by
    intro acc' marks hkind htext hmarks hsame
    refine h.put hmarks (h.opened_of_get hget _) fun t ht => ?_
    rw [tokensFor_append, hsame]
    exact hold t (finalize_eq_text.2 (hkind ▸ htext ▸ finalize_eq_text.1 ht))
  simp only [AnthropicStream.applyDelta]
  split
  · split
    · refine h.put (by simp [About, Mark.ends, Mark.event?, StreamEvent.ends])
        (h.opened_of_get hget _) fun t' ht => ?_
      obtain ⟨hkind, rfl⟩ := finalize_eq_text.1 ht
      rw [tokensFor_append, ← hold acc.text (finalize_eq_text.2 ⟨hkind, rfl⟩)]
      simp [tokensStep]
    · exact h
  split
  · split
    · exact quiet rfl rfl (by simp [About, Mark.ends, Mark.event?, StreamEvent.ends])
        (fun _ => rfl)
    · exact h
  split
  · split
    · exact quiet rfl rfl (by simp) (fun _ => rfl)
    · exact h
  split
  · split
    · exact quiet rfl rfl (by simp) (fun _ => rfl)
    · exact h
  · exact h

theorem Inv.onStop : Inv lib (onStop lib s event) := by
  rw [AnthropicStream.onStop]
  split
  · rename_i acc hget
    refine h.put (by simp [About, Mark.ends, Mark.event?, StreamEvent.ends])
      (h.opened_of_get hget _) fun t ht => ?_
    rw [tokensFor_append]
    refine h.text _ acc hget t ?_
    cases hkind : acc.kind <;>
      simp_all [BlockAccumulator.finalize, BlockAccumulator.fromFinalized]
  · exact h

theorem ended_emitComplete : Ended (emitComplete lib s) := by
  refine ⟨s.marks, _, rfl, rfl, h.going, fun response hresponse => ?_⟩
  cases hresponse
  refine ⟨s.blocks.map fun b => (b.1, b.2.finalize lib), ?_, ?_, ?_, ?_⟩
  · exact List.pairwise_map.2 h.sorted
  · simp [State.content]
  · intro i
    rw [← h.opened i, List.map_map]
    rfl
  · intro i t hmem
    obtain ⟨b, hb, heq⟩ := List.mem_map.1 hmem
    obtain ⟨rfl, ht⟩ := Prod.mk.inj heq
    exact h.text b.1 b.2 (SortedMap.get?_of_mem h.sorted hb) t ht

/-- One line keeps the invariant or ends the run. -/
theorem step_spec (line : String) : (∃ s', step lib s line = .ok s' ∧ Inv lib s') ∨
      ∃ marks, step lib s line = .error marks ∧ Ended marks := by
  simp only [step]
  split
  · exact .inl ⟨s, rfl, h⟩
  split
  · exact .inl ⟨s, rfl, h⟩
  split
  · exact .inr ⟨_, rfl, ended_emitComplete h⟩
  split
  · exact .inl ⟨s, rfl, h⟩
  rename_i event _
  split
  · exact .inl ⟨_, rfl, h.onStart⟩
  split
  · refine .inl ⟨_, rfl, ?_⟩
    rw [onDelta]
    split
    · exact h.applyDelta (by assumption) _
    · exact h
  split
  · exact .inl ⟨_, rfl, h.onStop⟩
  split
  · refine .inl ⟨_, rfl, ?_⟩
    rw [onMessageDelta]
    split
    · exact h
    · exact ⟨h.sorted, h.going, h.opened, h.text⟩
  split
  · exact .inr ⟨_, rfl, ended_emitComplete h⟩
  split
  · refine .inr ⟨_, rfl, s.marks, _, rfl, rfl, h.going, ?_⟩
    rintro response ⟨⟩
  · exact .inl ⟨s, rfl, h⟩

end

/-- The lines of a stream end the run or leave a state from which completing ends it. -/
theorem foldlM_spec (lines : List String) : ∀ s, Inv lib s →
    (∃ s', lines.foldlM (step lib) s = .ok s' ∧ Inv lib s') ∨
      ∃ marks, lines.foldlM (step lib) s = .error marks ∧ Ended marks := by
  induction lines with
  | nil => exact fun s h => .inl ⟨s, rfl, h⟩
  | cons line lines ih =>
    intro s h
    rw [List.foldlM_cons]
    rcases step_spec h line with ⟨s', hstep, h'⟩ | ⟨marks, hstep, hended⟩
    · rw [hstep]
      exact ih s' h'
    · rw [hstep]
      exact .inr ⟨marks, rfl, hended⟩

end Run

/-! ## Finalising twice -/

/-- The library reads the value back from its own text. -/
def Rereads (lib : JsonLib) (v : Json) : Prop :=
  Text.trim (lib.toText v) ≠ "" ∧ lib.fromStr (lib.toText v) = some v

theorem finalize_fromFinalized {lib : JsonLib} {acc : BlockAccumulator}
    (h : ∀ id name input, acc.finalize lib = .toolUse id name input → Rereads lib input) :
    (BlockAccumulator.fromFinalized lib (acc.finalize lib)).finalize lib = acc.finalize lib := by
  cases hkind : acc.kind with
  | text | unknown | thinking =>
    simp [BlockAccumulator.finalize, BlockAccumulator.fromFinalized, hkind]
  | toolUse =>
    have hinput : acc.finalize lib =
        .toolUse (acc.id.getD "") (acc.name.getD "") (inputOf lib acc.inputJson) := by
      simp [BlockAccumulator.finalize, hkind]
    obtain ⟨hblank, hread⟩ := h _ _ _ hinput
    have hagain : inputOf lib (lib.toText (inputOf lib acc.inputJson)) =
        inputOf lib acc.inputJson := by rw [inputOf, if_neg hblank, hread, Option.getD_some]
    rw [hinput]
    simp [BlockAccumulator.finalize, BlockAccumulator.fromFinalized, hagain]

/-- A stop event does not change what the response will hold. -/
theorem content_onStop {lib : JsonLib} {s : State} (hsorted : SortedMap.Sorted s.blocks)
    (h : ∀ b ∈ s.blocks, ∀ id name input, b.2.finalize lib = .toolUse id name input →
      Rereads lib input) (event : Json) : (onStop lib s event).content lib = s.content lib := by
  rw [onStop]
  split
  · rename_i acc hget
    exact SortedMap.map_modifyEntry hsorted hget
      (finalize_fromFinalized (h _ (SortedMap.mem_of_get? hget)))
  · rfl

/-- **The Anthropic stream.**  However the bytes are cut into chunks the same is sent.  One event
ends the run, the response or an error, and nothing follows it.  The response has the blocks that
were opened, in the order of their indices; a text among them is made of the tokens sent for its
index since its block was opened.  Finalising a block at its stop event leaves the response as it
is, where the JSON library reads a tool's input back from its own text. -/
theorem pump_events (lib : JsonLib) (chunks : List (List UInt8)) :
    (∀ chunks', chunks'.flatten = chunks.flatten → pump lib chunks' = pump lib chunks) ∧
      (∃ marks, pump lib chunks = some marks ∧ Ended marks) ∧
      ∀ s event, SortedMap.Sorted s.blocks →
        (∀ b ∈ s.blocks, ∀ id name input, b.2.finalize lib = .toolUse id name input →
          Rereads lib input) →
        (onStop lib s event).content lib = s.content lib := by
  have hpump : ∀ chunks, Sse.pumpFrom (step lib) chunks {} {} =
      some ((Sse.linesOf chunks.flatten).foldlM (step lib) {}) := fun chunks =>
    Sse.pumpFrom_spec (step lib) chunks {} {} Sse.LineBuffer.inv_default List.not_mem_nil
  have hinit : Inv lib {} := ⟨SortedMap.sorted_nil, by simp, by simp, by
    rintro i acc ⟨⟩⟩
  refine ⟨?_, ?_, fun s event hsorted h => content_onStop hsorted h event⟩
  · intro chunks' heq
    rw [pump, pump, hpump, hpump, heq]
  · rw [pump, hpump]
    rcases foldlM_spec (Sse.linesOf chunks.flatten) {} hinit with
      ⟨s', hfold, h⟩ | ⟨marks, hfold, hended⟩
    · rw [hfold]
      exact ⟨_, rfl, ended_emitComplete h⟩
    · rw [hfold]
      exact ⟨_, rfl, hended⟩

/-! ## A block opened twice -/

def openText : String :=
  "\x7b\"type\":\"content_block_start\",\"content_block\":\x7b\x7d\x7d"

def tokenText : String :=
  "\x7b\"type\":\"content_block_delta\",\"delta\":" ++
    "\x7b\"type\":\"text_delta\",\"text\":\"a\"\x7d\x7d"

/-- A library for these two texts and the empty object. -/
def twoTexts : JsonLib where
  fromStr := fun text =>
    if text = openText then
      some (.obj [("type", .str "content_block_start"), ("content_block", .obj [])])
    else if text = tokenText then
      some (.obj [("type", .str "content_block_delta"),
        ("delta", .obj [("type", .str "text_delta"), ("text", .str "a")])])
    else if text = "\x7b\x7d" then some (.obj []) else none
  toText := fun _ => "\x7b\x7d"
  stopDetails := fun _ => none

/-- A call without arguments, finalised once at its stop event and once for the response. -/
theorem pump_events_call :
    (onStop twoTexts
      { blocks := [(0, { kind := .toolUse, id := some "toolu_1", name := some "time" })] }
      (.obj [("type", .str "content_block_stop")])).content twoTexts =
        [.toolUse "toolu_1" "time" (.obj [])] := by
  obtain ⟨-, -, hstop⟩ := pump_events twoTexts []
  refine hstop _ _ (List.pairwise_singleton _ _) (List.forall_mem_singleton.2 ?_)
  rintro id name input ⟨⟩
  exact ⟨by decide, rfl⟩

/-- The bytes of events, one to a line. -/
def dataLines (texts : List String) : List UInt8 :=
  texts.flatMap fun text => Utf8.encode ("data: ".toList ++ text.toList ++ ['\n'])

/-- The texts of the tokens, and of the blocks of the response. -/
def textsOf (marks : List Mark) : List String × List String :=
  ((events marks).filterMap fun e => match e with
    | .token t => some t
    | _ => none,
   (events marks).flatMap fun e => match e with
    | .complete response => response.content.filterMap MessageBlock.text?
    | _ => [])

/-- The second block replaces the first: two tokens are sent, the response has the last. -/
theorem reopened_block_loses_tokens :
    (pump twoTexts [dataLines [openText, tokenText, openText, tokenText]]).map textsOf =
      some (["a", "a"], ["a"]) := by
  decide +kernel

end EmbraOS.Ports.AnthropicStream
