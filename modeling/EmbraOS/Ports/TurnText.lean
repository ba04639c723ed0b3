import EmbraOS.Ports.TurnLoopSpec

/-!
# What the operator sees of a turn, and what is saved of it

`done_once`: the texts of the `Done` frames are the tokens, each once, as long as no stop is
taken between the `Complete` of a stream and its end; `stop_after_complete_twice` is a stop
that is.  `saved_holds_runs`: the saved reply holds every text that was streamed, as long as no
stream after the first breaks off in the middle of one; `broken_stream_lost` is one that does.
-/

namespace EmbraOS.Ports.TurnLoop

open Verified
open Verified.Text (trim join concat concat_append isWhitespace)

variable {env : Env} {s s' : State} {i : Step}

/-! ## Tokens and their closing frames -/

def Frame.token? : Frame → Option String
  | .token text => some text
  | _ => none

def Frame.done? : Frame → Option String
  | .done text => some text
  | _ => none

/-- The tokens streamed to the client, joined in order. -/
def tokens (frames : List Frame) : String := concat (frames.filterMap Frame.token?)

/-- The texts of the `Done` frames, joined in order. -/
def dones (frames : List Frame) : String := concat (frames.filterMap Frame.done?)

theorem tokens_append (xs ys : List Frame) : tokens (xs ++ ys) = tokens xs ++ tokens ys := by
  unfold tokens
  rw [List.filterMap_append, concat_append]

theorem dones_append (xs ys : List Frame) : dones (xs ++ ys) = dones xs ++ dones ys := by
  unfold dones
  rw [List.filterMap_append, concat_append]

@[simp] theorem tokens_token (text : String) : tokens [.token text] = text := String.append_empty

@[simp] theorem dones_done (text : String) : dones [.done text] = text := String.append_empty

/-- Neither a token nor a `Done`. -/
def Frame.isQuiet (frame : Frame) : Bool := frame.token?.isNone && frame.done?.isNone

variable {frames : List Frame} {text : String} {turn : AssistantTurn}

theorem tokens_quiet (h : frames.all Frame.isQuiet = true) :
    tokens frames = "" := by
  have hnil : frames.filterMap Frame.token? = [] := by
    rw [List.filterMap_eq_nil_iff]
    intro frame hframe
    have hquiet := List.all_eq_true.1 h frame hframe
    exact Option.isNone_iff_eq_none.1 (Bool.and_eq_true _ _ ▸ hquiet : _ ∧ _).1
  rw [tokens, hnil]
  rfl

theorem dones_quiet (h : frames.all Frame.isQuiet = true) :
    dones frames = "" := by
  have hnil : frames.filterMap Frame.done? = [] := by
    rw [List.filterMap_eq_nil_iff]
    intro frame hframe
    have hquiet := List.all_eq_true.1 h frame hframe
    exact Option.isNone_iff_eq_none.1 (Bool.and_eq_true _ _ ▸ hquiet : _ ∧ _).2
  rw [dones, hnil]
  rfl

/-- The frames show a text that is not closed yet, after all that is. -/
def Shows (frames : List Frame) (open_ : String) : Prop := tokens frames = dones frames ++ open_

theorem Shows.quiet {more : List Frame} (h : Shows frames text)
    (hquiet : more.all Frame.isQuiet = true) : Shows (frames ++ more) text := by
  unfold Shows at h ⊢
  rw [tokens_append, dones_append, tokens_quiet hquiet, dones_quiet hquiet, String.append_empty,
    String.append_empty]
  exact h

theorem Shows.token (h : Shows frames text)
    (more : String) : Shows (frames ++ [.token more]) (text ++ more) := by
  unfold Shows at h ⊢
  rw [tokens_append, dones_append, tokens_token, h, show dones [.token more] = "" from rfl,
    String.append_empty, String.append_assoc]

theorem Shows.close (h : Shows frames text) :
    Shows (frames ++ [.done text]) "" := by
  unfold Shows at h ⊢
  rw [tokens_append, dones_append, dones_done, h, show tokens [.done text] = "" from rfl,
    String.append_empty]

/-! ## Every text is closed once -/

/-- The text shown that no `Done` has closed yet. -/
def pending (s : State) : String :=
  match s.phase with
  | .streaming _ c => if c.full.isSome then "" else c.accum
  | _ => s.undelivered.getD ""

/-- What the text behind `undelivered` is, by phase. -/
def Undelivered (s : State) : Prop :=
  match s.phase with
  | .requested _ => s.undelivered = none
  | .streaming _ c => s.undelivered = none ∧ ∀ turn, c.full = some turn →
      c.accum = turnText turn ∧ turn.outcome ≠ stoppedOutcome
  | .head => s.undelivered = none ∨ s.undelivered = undeliveredAfter s.current
  | .tools _ => s.undelivered = none
  | .dispatching _ _ _ => s.undelivered = none
  | .swept => s.undelivered = none
  | .closing => True
  | .ended _ => s.undelivered = none

/-- No stream fails, the deltas of each join to the text of its `Complete`, which is its last
word, and no provider says that the operator stopped. -/
def Faithful (s : State) (i : Step) : Prop :=
  match s.phase, i with
  | .streaming _ c, .event (.textDelta text) => c.full = none ∨ text = ""
  | .streaming _ c, .event (.complete turn) =>
    c.full = none ∧ c.accum = turnText turn ∧ turn.outcome ≠ stoppedOutcome
  | .streaming _ c, .finish => c.full.isSome = true
  | _, _ => True

/-- No stop is taken after the `Complete` of a stream that had text. -/
def StopsInTime (s : State) (i : Step) : Prop :=
  match s.phase, i with
  | .streaming _ c, .stop => c.full = none ∨ c.accum = ""
  | _, _ => True

structure Closed (s : State) : Prop where
  shows : Shows s.frames (pending s)
  undelivered : Undelivered s

theorem turnText_stoppedTurn (accum : String) : turnText (stoppedTurn accum) = accum := by
  unfold turnText stoppedTurn
  split
  · rename_i h
    rw [h]
    rfl
  · exact String.append_empty

theorem turnText_of_not_hasText (h : turn.hasText = false) :
    turnText turn = "" := by
  have hnil : turn.content.filterMap Block.text? = [] := by
    rw [List.filterMap_eq_nil_iff]
    intro b hb
    have hnot := List.any_eq_false.1 h b hb
    exact Option.not_isSome_iff_eq_none.1 hnot
  rw [turnText, hnil]
  rfl

theorem getD_undeliveredAfter_of_not_hasText (h : turn.hasText = false) :
    (undeliveredAfter turn).getD "" = "" := by
  unfold undeliveredAfter
  split
  · exact turnText_of_not_hasText h
  · rfl

theorem Closed.say (hshows : Shows s.frames "") (text : String) :
    Shows (s.say text).frames text := by
  have htoken := hshows.token text
  rw [String.empty_append] at htoken
  exact htoken

/-- A response whose undelivered text is all that is open. -/
theorem Closed.collected (purpose : Purpose) (turn : AssistantTurn)
    (hshows : Shows s.frames ((undeliveredAfter turn).getD "")) :
    Closed (s.collected env purpose (some turn)) := by
  cases purpose with
  | summary =>
    dsimp only [State.collected, State.summarized]
    split
    · exact ⟨hshows, trivial⟩
    rename_i hempty
    have hnothing : Shows s.frames "" := by
      have htext : turnText turn = "" := not_not.1 hempty
      unfold undeliveredAfter at hshows
      rw [htext] at hshows
      split at hshows
      · exact hshows
      · exact hshows
    exact ⟨Closed.say (s := s.pushResponse turn) hnothing _, trivial⟩
  | first | resume | continuation => exact ⟨hshows, Or.inr rfl⟩

theorem Closed.hear {purpose : Purpose} {c : Collect} (h : Closed s)
    (hp : s.phase = .streaming purpose c) {event : StreamEvent}
    (hfaithful : Faithful s (.event event)) : Closed (s.hear purpose c event) := by
  obtain ⟨hshows, hnone⟩ := h
  unfold pending at hshows
  unfold Undelivered at hnone
  unfold Faithful at hfaithful
  rw [hp] at hshows hnone hfaithful
  have hstream : Shows s.frames (if c.full.isSome = true then "" else c.accum) := hshows
  have hself : ∀ frames, Shows frames (if c.full.isSome = true then "" else c.accum) →
      Closed { s with frames } := by
    intro frames hframes
    refine ⟨?_, ?_⟩
    · unfold pending
      rw [hp]
      exact hframes
    · unfold Undelivered
      rw [hp]
      exact hnone
  cases event with
  | textDelta text =>
    have hquiet : Shows (s.frames ++ (if c.firstToken then [.thinking false ""] else []))
        (if c.full.isSome = true then "" else c.accum) := by
      apply hstream.quiet
      split
      · rfl
      · rfl
    have htoken := hquiet.token text
    rcases hfaithful with hfull | hempty
    · refine ⟨?_, hnone.1, fun turn hturn => ?_⟩
      · show Shows _ (if c.full.isSome = true then "" else c.accum ++ text)
        rw [hfull] at htoken ⊢
        exact htoken
      · have hturn : c.full = some turn := hturn
        rw [hfull] at hturn
        cases hturn
    · rw [hempty, String.append_empty] at htoken
      refine ⟨?_, hnone.1, fun turn hturn => ?_⟩
      · show Shows (s.frames ++ _ ++ [.token text])
          (if c.full.isSome = true then "" else c.accum ++ text)
        rw [hempty, String.append_empty]
        exact htoken
      · show c.accum ++ text = turnText turn ∧ _
        rw [hempty, String.append_empty]
        exact hnone.2 turn hturn
  | reasoningDelta | error => exact hself _ (hstream.quiet rfl)
  | blockComplete => exact hself _ hstream
  | complete turn =>
    obtain ⟨hfull, haccum, hprovider⟩ := hfaithful
    have hdone : (if c.accum = "" then turnText turn else c.accum) = c.accum := by
      split
      · exact haccum.symm
      · rfl
    refine ⟨?_, hnone.1, ?_⟩
    · show Shows (s.frames ++ [.done (if c.accum = "" then turnText turn else c.accum)]) ""
      rw [hfull] at hstream
      rw [hdone]
      exact hstream.close
    · intro turn' hturn
      obtain rfl : turn = turn' := Option.some.inj hturn
      exact ⟨haccum, hprovider⟩

theorem Closed.terminal (hshows : Shows s.frames (s.undelivered.getD ""))
    (hempty : s.current.hasText = false → s.undelivered.getD "" = "") :
    Closed (s.terminal env) := by
  unfold State.terminal
  dsimp only
  split
  · rename_i hsilent
    have htext : s.current.hasText = false := by
      rw [Bool.and_eq_true, Bool.and_eq_true] at hsilent
      exact Bool.not_eq_true' _ ▸ hsilent.1.1
    rw [hempty htext] at hshows
    exact ⟨Closed.say hshows _, trivial⟩
  · exact ⟨hshows, trivial⟩

theorem Closed.capped (hshows : Shows s.frames "") (hnone : s.undelivered = none) :
    Closed (s.capped env) := by
  unfold State.capped
  dsimp only
  split
  · refine ⟨?_, hnone⟩
    show Shows (s.frames ++ [_]) (s.undelivered.getD "")
    rw [hnone]
    exact hshows.quiet rfl
  · refine ⟨?_, hnone⟩
    show Shows (s.frames ++ [_]) (s.undelivered.getD "")
    rw [hnone]
    exact hshows.quiet rfl

theorem Closed.turnAround (h : Closed s) (hp : s.phase = .head) : Closed (s.turnAround env) := by
  obtain ⟨hshows, hundelivered⟩ := h
  unfold pending at hshows
  unfold Undelivered at hundelivered
  rw [hp] at hshows hundelivered
  have hempty : s.current.hasText = false → s.undelivered.getD "" = "" := by
    intro htext
    rcases hundelivered with hnone | hafter
    · rw [hnone]
      rfl
    · rw [hafter]
      exact getD_undeliveredAfter_of_not_hasText htext
  have hnone : s.current.outcome ≠ stoppedOutcome → s.undelivered = none := by
    intro hgoes
    rcases hundelivered with hnone | hafter
    · exact hnone
    · rw [hafter]
      exact if_neg hgoes
  unfold State.turnAround
  split
  · exact Closed.terminal (s := s.overrule) hshows hempty
  unfold State.act
  split
  · exact Closed.terminal hshows hempty
  · exact Closed.terminal hshows hempty
  · exact Closed.terminal hshows hempty
  · rename_i hpause
    exact ⟨hshows, hnone (by rw [hpause]; decide)⟩
  · rename_i htool
    have hnone := hnone (by rw [htool]; decide)
    split
    · rw [hnone] at hshows
      exact Closed.capped hshows hnone
    · exact ⟨hshows, hnone⟩

theorem Closed.nextBlock (hshows : Shows s.frames (s.undelivered.getD ""))
    (hnone : s.undelivered = none) (blocks : List Block) : Closed (s.nextBlock blocks) := by
  cases blocks with
  | nil => exact ⟨hshows, hnone⟩
  | cons b blocks =>
    cases b with
    | toolCall id name args hidden =>
      dsimp only [State.nextBlock]
      split
      · exact ⟨hshows, hnone⟩
      · exact ⟨hshows.quiet rfl, hnone⟩
    | text | image | toolResult | providerOpaque => exact ⟨hshows, hnone⟩

theorem Closed.sweep (hshows : Shows s.frames (s.undelivered.getD ""))
    (hnone : s.undelivered = none) : Closed s.sweep := by
  unfold State.sweep
  split
  · exact ⟨hshows, Or.inl hnone⟩
  · split
    · exact ⟨hshows, trivial⟩
    · exact ⟨hshows, hnone⟩

/-- The closing frames close what is open. -/
theorem shows_closingFrames {undelivered : Option String}
    (h : Shows frames (undelivered.getD "")) (stopped failed : Bool)
    (notice : Option (SystemMessageType × String)) :
    Shows (frames ++ closingFrames stopped failed undelivered notice) "" := by
  unfold closingFrames
  rw [← List.append_assoc]
  apply Shows.quiet
  · cases undelivered with
    | some text => exact h.close
    | none =>
      dsimp only
      split
      · exact h.close
      · rw [List.append_nil]
        exact h
  · split
    · rfl
    · rfl

theorem Closed.step (h : Closed s) (hfaithful : Faithful s i) (hstops : StopsInTime s i)
    (hstep : step env s i = some s') : Closed s' := by
  have hshows := h.shows
  have hundelivered := h.undelivered
  unfold pending at hshows
  unfold Undelivered at hundelivered
  cases taken_of_step hstep with
  | raise => exact ⟨h.shows, h.undelivered⟩
  | accept hp =>
    rw [hp] at hshows hundelivered
    have hnone : s.undelivered = none := hundelivered
    rw [hnone] at hshows
    exact ⟨hshows, hnone, nofun⟩
  | @refuse purpose hp error =>
    rw [hp] at hshows hundelivered
    cases purpose with
    | summary => exact ⟨hshows.quiet rfl, trivial⟩
    | first | resume | continuation => exact ⟨hshows, hundelivered⟩
  | event hp => exact h.hear hp hfaithful
  | @finish purpose c hp =>
    unfold Faithful at hfaithful
    rw [hp] at hshows hundelivered hfaithful
    have hstream : Shows s.frames (if c.full.isSome = true then "" else c.accum) := hshows
    obtain ⟨turn, hfull⟩ := Option.isSome_iff_exists.1 hfaithful
    rw [hfull] at hstream ⊢
    refine Closed.collected purpose turn ?_
    have hprovider := (hundelivered.2 turn hfull).2
    rw [show undeliveredAfter turn = none from if_neg hprovider]
    exact hstream
  | @stop purpose c _ hp =>
    unfold StopsInTime at hstops
    rw [hp] at hshows hstops
    have hstream : Shows s.frames (if c.full.isSome = true then "" else c.accum) := hshows
    refine Closed.collected purpose (stoppedTurn c.accum) ?_
    have hopen : Shows s.frames c.accum := by
      rcases hstops with hfull | hempty
      · rw [hfull] at hstream
        exact hstream
      · rw [hempty, ite_self] at hstream
        rw [hempty]
        exact hstream
    rw [show undeliveredAfter (stoppedTurn c.accum) = some (turnText (stoppedTurn c.accum))
      from if_pos rfl, turnText_stoppedTurn]
    exact hopen
  | stopTool _ hp =>
    rw [hp] at hshows hundelivered
    exact ⟨hshows, hundelivered⟩
  | result hp =>
    rw [hp] at hshows hundelivered
    exact ⟨hshows.quiet rfl, hundelivered⟩
  | head hp => exact h.turnAround hp
  | tools hp =>
    rw [hp] at hshows hundelivered
    exact Closed.nextBlock hshows hundelivered _
  | swept hp =>
    rw [hp] at hshows hundelivered
    exact Closed.sweep hshows hundelivered
  | closing hp =>
    rw [hp] at hshows
    exact ⟨shows_closingFrames hshows _ _ _, rfl⟩

/-- When a turn is over in which no stream failed and no stop came between a `Complete` and the
end of its stream, the texts of its `Done` frames are exactly the tokens. -/
theorem done_once (env : Env) (messages : List ApiMessage) {s : State}
    (h : Machine.Reaches (step env) (fun s i => Faithful s i ∧ StopsInTime s i) (start messages) s)
    {ending : Ending} (hended : s.phase = .ended ending) :
    dones s.frames = tokens s.frames := by
  have hstart : Closed (start messages) := ⟨rfl, rfl⟩
  have hclosed : Closed s := h.invariant hstart fun _ _ _ hs hok hstep =>
    hs.step hok.1 hok.2 hstep
  have hshows := hclosed.shows
  have hnone := hclosed.undelivered
  unfold pending at hshows
  unfold Undelivered at hnone
  rw [hended] at hshows hnone
  have hnone : s.undelivered = none := hnone
  rw [hnone] at hshows
  have htokens : tokens s.frames = dones s.frames ++ "" := hshows
  rw [htokens, String.append_empty]

/-! ## A stop beside a `Complete` -/

def helloTurn : AssistantTurn := ⟨[.text "hi"], .endTurn, none⟩

/-- A plain reply, up to its `Complete`. -/
def replySteps : List Step := [.accept, .event (.textDelta "hi"), .event (.complete helloTurn)]

def lookTurn : AssistantTurn :=
  ⟨[.text "I look. ", .toolCall "c1" "system_status" .null none], .toolUse, none⟩

/-- Some text and a call, its result, and the reply as the continuation. -/
def lookSteps : List Step :=
  [.accept, .event (.textDelta "I look. "), .event (.complete lookTurn), .finish, .tick, .tick,
    .tick, .result (.ok "fine" []), .tick, .tick] ++ replySteps ++ [.finish, .tick, .tick]

theorem done_once_look :
    ∃ s, Machine.steps (step oneIteration) (start hello) lookSteps = some s ∧
      tokens s.frames = "I look. hi" ∧ dones s.frames = tokens s.frames := by
  refine ⟨_, rfl, rfl, done_once oneIteration hello ?_ rfl⟩
  have haccept : Machine.Reaches (step oneIteration) (fun s i => Faithful s i ∧ StopsInTime s i)
      (start hello) _ := .step Step.accept .start ⟨trivial, trivial⟩ rfl
  have hdelta := haccept.step (Step.event (.textDelta "I look. ")) ⟨Or.inl rfl, trivial⟩ rfl
  have hcomplete := hdelta.step (Step.event (.complete lookTurn))
    ⟨⟨rfl, rfl, nofun⟩, trivial⟩ rfl
  have hfinish := hcomplete.step Step.finish ⟨rfl, trivial⟩ rfl
  have hhead := hfinish.step Step.tick ⟨trivial, trivial⟩ rfl
  have hcall := (hhead.step Step.tick ⟨trivial, trivial⟩ rfl).step Step.tick
    ⟨trivial, trivial⟩ rfl
  have hresult := hcall.step (Step.result (.ok "fine" [])) ⟨trivial, trivial⟩ rfl
  have hnext := (hresult.step Step.tick ⟨trivial, trivial⟩ rfl).step Step.tick
    ⟨trivial, trivial⟩ rfl
  have hagain := hnext.step Step.accept ⟨trivial, trivial⟩ rfl
  have hmore := hagain.step (Step.event (.textDelta "hi")) ⟨Or.inl rfl, trivial⟩ rfl
  have hreply := hmore.step (Step.event (.complete helloTurn)) ⟨⟨rfl, rfl, nofun⟩, trivial⟩ rfl
  have hend := hreply.step Step.finish ⟨rfl, trivial⟩ rfl
  exact (hend.step Step.tick ⟨trivial, trivial⟩ rfl).step Step.tick ⟨trivial, trivial⟩ rfl

/-- A stop taken after the `Complete` brings the text a second `Done`. -/
theorem stop_after_complete_twice :
    ∃ s, Machine.steps (step oneIteration) (start hello)
        (replySteps ++ [.raise, .stop, .tick, .tick]) = some s ∧
      tokens s.frames = "hi" ∧ dones s.frames = "hihi" :=
  ⟨_, rfl, rfl, rfl⟩

/-! ## What is saved -/

def Within (part text : String) : Prop := ∃ before after, text = before ++ part ++ after

/-- The parts stand in the text one after another. -/
inductive InOrder : List String → String → Prop where
  | nil (text : String) : InOrder [] text
  | cons (before part : String) {parts : List String} {rest : String} (h : InOrder parts rest) :
      InOrder (part :: parts) (before ++ part ++ rest)

variable {parts texts : List String} {c : Collect} {purpose : Purpose} {frames : List Frame}
  {live : String}

variable {text : String} {runs segments : List String}

theorem InOrder.prepend (h : InOrder parts text)
    (more : String) : InOrder parts (more ++ text) := by
  cases h with
  | nil => exact .nil _
  | cons before part h =>
    rw [← String.append_assoc, ← String.append_assoc]
    exact .cons (more ++ before) part h

theorem InOrder.append (h : InOrder parts text) (more : String) : InOrder parts (text ++ more) := by
  induction h with
  | nil => exact .nil _
  | cons before part h ih =>
    rw [String.append_assoc]
    exact .cons before part ih

theorem join_cons (sep text : String) (h : texts ≠ []) :
    join sep (text :: texts) = text ++ sep ++ join sep texts := by
  cases texts with
  | nil => exact absurd rfl h
  | cons next texts => rfl

/-- Parts of some of the texts, in their order, stand in order in the texts joined. -/
theorem inOrder_join (sep : String)
    (h : List.SublistForall₂ Within parts texts) : InOrder parts (join sep texts) := by
  induction h with
  | nil => exact .nil _
  | @cons part text parts texts hpart h ih =>
    obtain ⟨before, after, rfl⟩ := hpart
    by_cases hlast : texts = []
    · subst hlast
      cases h
      exact .cons before part (.nil after)
    · rw [join_cons sep _ hlast, String.append_assoc, String.append_assoc]
      exact .cons before part ((ih.prepend sep).prepend after)
  | @cons_right text parts texts h ih =>
    by_cases hlast : texts = []
    · subst hlast
      cases h
      exact .nil _
    · rw [join_cons sep _ hlast]
      exact ih.prepend _

theorem isBlank_of_within {part : String} (h : Within part text)
    (hblank : isBlank text = true) : isBlank part = true := by
  obtain ⟨before, after, rfl⟩ := h
  have hall := Text.trim_eq_empty.1 (of_decide_eq_true hblank)
  refine decide_eq_true (Text.trim_eq_empty.2 fun c hc => hall c ?_)
  rw [String.toList_append, String.toList_append]
  exact List.mem_append_left _ (List.mem_append_right _ hc)

theorem within_self (text : String) : Within text text :=
  ⟨"", "", by rw [String.append_empty, String.empty_append]⟩

def solid (texts : List String) : List String := texts.filter fun text => !isBlank text

/-- A run with a segment that holds it, or a blank one with any segment. -/
theorem pushRun (h : List.SublistForall₂ Within (solid runs) segments) {run segment : String}
    (hrun : isBlank run = true ∨ Within run segment) :
    List.SublistForall₂ Within (solid (runs ++ [run])) (pushSegment segments segment) := by
  obtain ⟨held, hheld, hsub⟩ := List.sublistForall₂_iff.1 h
  have hsame : ∀ run, isBlank run = true → solid (runs ++ [run]) = solid runs := by
    intro run hblank
    unfold solid
    rw [List.filter_append, List.filter_singleton, hblank]
    exact List.append_nil _
  unfold pushSegment
  split
  · rename_i hblank
    rw [hsame run (hrun.elim id fun hwithin => isBlank_of_within hwithin hblank)]
    exact h
  · cases hblank : isBlank run with
    | true =>
      rw [hsame run hblank]
      exact List.sublistForall₂_iff.2 ⟨held, hheld, hsub.trans (List.sublist_append_left _ _)⟩
    | false =>
      have hwithin := hrun.resolve_left (by rw [hblank]; decide)
      have hmore : solid (runs ++ [run]) = solid runs ++ [run] := by
        unfold solid
        rw [List.filter_append, List.filter_singleton, hblank]
        rfl
      rw [hmore]
      exact List.sublistForall₂_iff.2 ⟨held ++ [segment],
        List.rel_append hheld (.cons hwithin .nil), hsub.append (List.Sublist.refl _)⟩

theorem concat_singleton (text : String) : concat [text] = text := String.append_empty

theorem solid_pushSegment (h : ∀ text ∈ segments, isBlank text = false) (segment : String) :
    ∀ text ∈ pushSegment segments segment, isBlank text = false := by
  intro text htext
  unfold pushSegment at htext
  split at htext
  · exact h text htext
  · rename_i hsolid
    rcases List.mem_append.1 htext with hold | hnew
    · exact h text hold
    · rw [List.mem_singleton.1 hnew]
      exact Bool.eq_false_iff.2 hsolid

/-- The segments hold the runs, and the runs with an open text are what was shown. -/
structure Transcript (runs segments : List String) (frames : List Frame) (live : String) :
    Prop where
  holds : List.SublistForall₂ Within (solid runs) segments
  segments : ∀ text ∈ segments, isBlank text = false
  shown : tokens frames = concat runs ++ live

/-- The transcript, with the text of the stream that is being read, up to the reply that is
saved. -/
def Held (s : State) : Prop :=
  match s.phase with
  | .streaming _ c => Transcript s.runs s.segments s.frames c.accum
  | .ended (.saved text) => tokens s.frames = concat s.runs ∧ InOrder (solid s.runs) text
  | .ended _ => True
  | _ => Transcript s.runs s.segments s.frames ""

/-- A stream that had text ends with a `Complete` that holds it, or it is the first stream. -/
def Unbroken (s : State) (i : Step) : Prop :=
  match s.phase, i with
  | .streaming purpose c, .finish =>
    isBlank c.accum = true ∨
    match c.full with
    | some turn => Within c.accum (turnText turn)
    | none => purpose = .first
  | _, _ => True

section Transcript

variable {runs segments : List String} {frames : List Frame} {live : String}

section

variable (h : Transcript runs segments frames live)
include h

theorem Transcript.quiet {more : List Frame} (hquiet : more.all Frame.isQuiet = true) :
    Transcript runs segments (frames ++ more) live where
  holds := h.holds
  segments := h.segments
  shown := by
    rw [tokens_append, tokens_quiet hquiet, String.append_empty]
    exact h.shown

theorem Transcript.done (text : String) :
    Transcript runs segments (frames ++ [.done text]) live where
  holds := h.holds
  segments := h.segments
  shown := by
    rw [tokens_append, show tokens [.done text] = "" from rfl, String.append_empty]
    exact h.shown

theorem Transcript.token (text : String) :
    Transcript runs segments (frames ++ [.token text]) (live ++ text) where
  holds := h.holds
  segments := h.segments
  shown := by
    rw [tokens_append, tokens_token, h.shown, String.append_assoc]

/-- A text is over, and goes with a segment. -/
theorem Transcript.push {segment : String} (hlive : isBlank live = true ∨ Within live segment) :
    Transcript (runs ++ [live]) (pushSegment segments segment) frames "" where
  holds := pushRun h.holds hlive
  segments := solid_pushSegment h.segments segment
  shown := by
    rw [concat_append, concat_singleton, String.append_empty]
    exact h.shown

/-- A segment of which nothing was shown. -/
theorem Transcript.note (segment : String) :
    Transcript runs (pushSegment segments segment) frames live where
  holds := by
    have hblank : List.SublistForall₂ Within (solid (runs ++ [""]))
        (pushSegment segments segment) :=
      pushRun h.holds (Or.inl rfl)
    have hsame : solid (runs ++ [""]) = solid runs := by
      unfold solid
      rw [List.filter_append]
      exact List.append_nil _
    rw [hsame] at hblank
    exact hblank
  segments := solid_pushSegment h.segments segment
  shown := h.shown

end

theorem Transcript.say (h : Transcript runs segments frames "") (text : String) :
    Transcript (runs ++ [text]) (pushSegment segments text) (frames ++ [.token text]) "" := by
  have htoken := h.token text
  rw [String.empty_append] at htoken
  exact htoken.push (Or.inr (within_self text))

end Transcript

/-- In the loop's own code, or before an answer to a request. -/
def Phase.isBetween : Phase → Bool
  | .streaming _ _ => false
  | .ended _ => false
  | _ => true

theorem Held.of_between (hp : s.phase.isBetween = true)
    (h : Transcript s.runs s.segments s.frames "") : Held s := by
  unfold Held
  split
  · rename_i hphase
    rw [hphase] at hp
    cases hp
  · rename_i hphase
    rw [hphase] at hp
    cases hp
  · trivial
  · exact h

/-- A response, with the text shown before it among its texts. -/
theorem Held.collected {accum : String} (purpose : Purpose) (turn : AssistantTurn)
    (h : Transcript s.runs s.segments s.frames accum)
    (haccum : isBlank accum = true ∨ Within accum (turnText turn)) :
    Held ((s.shown accum).collected env purpose (some turn)) := by
  have hpush := h.push haccum
  have hreceive : Held ((s.shown accum).receive turn) := by
    apply Held.of_between
    · rfl
    · dsimp only [State.receive, State.pushResponse, State.shown]
      exact hpush
  cases purpose with
  | summary =>
    dsimp only [State.collected, State.summarized]
    split
    · apply Held.of_between
      · rfl
      · dsimp only [State.pushResponse, State.shown]
        exact hpush
    · apply Held.of_between
      · rfl
      · dsimp only [State.say, State.pushResponse, State.shown]
        exact hpush.say _
  | first | resume | continuation => exact hreceive

theorem Held.finished (h : Held s)
    (hp : s.phase = .streaming purpose c) (hunbroken : Unbroken s .finish) :
    Held ((s.shown c.accum).collected env purpose c.full) := by
  unfold Held at h
  unfold Unbroken at hunbroken
  rw [hp] at h hunbroken
  have hends : isBlank c.accum = true ∨ (match c.full with
      | some turn => Within c.accum (turnText turn)
      | none => purpose = .first) := hunbroken
  cases hfull : c.full with
  | some turn =>
    rw [hfull] at hends
    exact Held.collected purpose turn h hends
  | none =>
    rw [hfull] at hends
    by_cases hfirst : purpose = .first
    · subst hfirst
      exact trivial
    have hblank := hends.resolve_right hfirst
    have hpush : ∀ segment, Transcript (s.runs ++ [c.accum]) (pushSegment s.segments segment)
        s.frames "" := fun segment => Transcript.push h (Or.inl hblank)
    have hmarked : Held { s.shown c.accum with
        segments := pushSegment s.segments streamFailedMarker
        streamFailed := true
        phase := .closing } := by
      apply Held.of_between
      · rfl
      · dsimp only [State.shown]
        exact hpush _
    cases purpose with
    | first => exact absurd rfl hfirst
    | summary =>
      apply Held.of_between
      · rfl
      have hnothing : pushSegment s.segments "" = s.segments := if_pos rfl
      have hsaid := hpush ""
      rw [hnothing] at hsaid
      dsimp only [State.collected, State.summarized, State.say, State.shown]
      exact hsaid.say _
    | resume => exact hmarked
    | continuation => exact hmarked

theorem Held.refused (h : Transcript s.runs s.segments s.frames "") (error : String) :
    Held (s.refused env error .summary) := by
  have hnote := h.note (capText env "final summary call errored")
  apply Held.of_between
  · rfl
  · dsimp only [State.refused, State.send]
    exact hnote.quiet rfl

theorem Held.hear (h : Held s) (hp : s.phase = .streaming purpose c) (event : StreamEvent) :
    Held (s.hear purpose c event) := by
  unfold Held at h
  rw [hp] at h
  have hstream : Transcript s.runs s.segments s.frames c.accum := h
  have hself : ∀ frames, Transcript s.runs s.segments frames c.accum → Held { s with frames } := by
    intro frames hframes
    unfold Held
    rw [hp]
    exact hframes
  cases event with
  | textDelta text =>
    refine Transcript.token (hstream.quiet ?_) text
    split
    · rfl
    · rfl
  | reasoningDelta | error => exact hself _ (hstream.quiet rfl)
  | blockComplete => exact hself _ hstream
  | complete turn => exact hstream.done _

section

variable (h : Transcript s.runs s.segments s.frames "")
include h

theorem Held.terminal : Held (s.terminal env) := by
  unfold State.terminal
  dsimp only
  split
  · apply Held.of_between
    · rfl
    · dsimp only [State.say]
      exact h.say _
  · exact h

theorem Held.turnAround :
    Held (s.turnAround env) := by
  unfold State.turnAround
  split
  · exact Held.terminal (s := s.overrule) h
  unfold State.act
  split
  · exact Held.terminal h
  · exact Held.terminal h
  · exact Held.terminal h
  · exact h
  · split
    · unfold State.capped
      dsimp only
      split
      · exact h.quiet rfl
      · exact h.quiet rfl
    · exact h

theorem Held.nextBlock (blocks : List Block) :
    Held (s.nextBlock blocks) := by
  cases blocks with
  | nil => exact h
  | cons b blocks =>
    cases b with
    | toolCall id name args hidden =>
      dsimp only [State.nextBlock]
      split
      · exact h
      · exact h.quiet rfl
    | text | image | toolResult | providerOpaque => exact h

theorem Held.sweep : Held s.sweep := by
  unfold State.sweep
  split
  · exact h
  · split
    · exact h
    · exact h

end

theorem tokens_closingFrames (stopped failed : Bool) (undelivered : Option String)
    (notice : Option (SystemMessageType × String)) :
    tokens (closingFrames stopped failed undelivered notice) = "" := by
  unfold closingFrames
  rw [tokens_append]
  cases notice with
  | some | none =>
    cases undelivered with
    | some text => rfl
    | none =>
      dsimp only
      split
      · rfl
      · rfl

theorem within_join (sep : String) (h : text ∈ texts) :
    Within text (join sep texts) := by
  have horder : InOrder [text] (join sep texts) := by
    apply inOrder_join
    refine List.sublistForall₂_iff.2 ⟨[text], .cons (within_self text) .nil, ?_⟩
    exact List.singleton_sublist.2 h
  generalize join sep texts = joined at horder
  cases horder with
  | cons before part hrest => exact ⟨before, _, rfl⟩

/-- A blank transcript is one of no segments, hence of no runs. -/
theorem solid_eq_nil
    (h : Transcript runs segments frames live) (hblank : isBlank (join "\n\n" segments) = true) :
    solid runs = [] := by
  have hsegments : segments = [] := by
    apply List.eq_nil_iff_forall_not_mem.2
    intro text htext
    have hsolid := h.segments text htext
    rw [isBlank_of_within (within_join _ htext) hblank] at hsolid
    cases hsolid
  have hholds := h.holds
  rw [hsegments] at hholds
  cases hruns : solid runs with
  | nil => rfl
  | cons run rest =>
    rw [hruns] at hholds
    cases hholds

/-- The saved reply holds what the transcript holds. -/
theorem inOrder_finalAssistantText (h : Transcript runs segments frames live)
    (toolNames : List String) (outcome : TurnOutcome) :
    InOrder (solid runs) (finalAssistantText (join "\n\n" segments) toolNames outcome) := by
  have horder := inOrder_join "\n\n" h.holds
  unfold finalAssistantText
  split
  · split
    · exact (horder.append _)
    · split
      · exact (horder.append _)
      · exact horder
  · rename_i hblank
    have hnone : solid runs = [] := solid_eq_nil h (by simpa using hblank)
    rw [hnone]
    exact .nil _

theorem Held.close (h : Transcript s.runs s.segments s.frames "") : Held s.close := by
  refine ⟨?_, inOrder_finalAssistantText h _ _⟩
  have hshown := h.shown
  rw [String.append_empty] at hshown
  show tokens (s.frames ++ closingFrames _ _ _ _) = concat s.runs
  rw [tokens_append, tokens_closingFrames, String.append_empty]
  exact hshown

theorem Held.step (h : Held s) (hunbroken : Unbroken s i) (hstep : step env s i = some s') :
    Held s' := by
  have hphase := h
  unfold Held at hphase
  cases taken_of_step hstep with
  | raise => exact h
  | accept hp =>
    rw [hp] at hphase
    exact hphase
  | @refuse purpose hp error =>
    rw [hp] at hphase
    cases purpose with
    | summary => exact Held.refused hphase error
    | first | resume | continuation => exact trivial
  | event hp event => exact h.hear hp event
  | finish hp => exact h.finished hp hunbroken
  | @stop purpose c _ hp =>
    rw [hp] at hphase
    refine Held.collected (s := s.see) purpose (stoppedTurn c.accum) hphase (Or.inr ?_)
    rw [turnText_stoppedTurn]
    exact within_self _
  | stopTool _ hp =>
    rw [hp] at hphase
    exact hphase
  | result hp =>
    rw [hp] at hphase
    exact Transcript.quiet hphase rfl
  | head hp =>
    rw [hp] at hphase
    exact Held.turnAround hphase
  | tools hp =>
    rw [hp] at hphase
    exact Held.nextBlock hphase _
  | swept hp =>
    rw [hp] at hphase
    exact Held.sweep hphase
  | closing hp =>
    rw [hp] at hphase
    exact Held.close hphase

/-- When no stream after the first breaks off in the middle of a text, the texts shown stand in
the saved reply in order, the blank ones aside. -/
theorem saved_holds_runs (env : Env) (messages : List ApiMessage) {s : State}
    (h : Machine.Reaches (step env) Unbroken (start messages) s) {text : String}
    (hsaved : s.phase = .ended (.saved text)) :
    tokens s.frames = concat s.runs ∧ InOrder (solid s.runs) text := by
  have hstart : Held (start messages) := ⟨.nil, nofun, rfl⟩
  have hheld : Held s := h.invariant hstart fun _ _ _ hs hok hstep => hs.step hok hstep
  unfold Held at hheld
  rw [hsaved] at hheld
  exact hheld

theorem saved_holds_runs_look :
    ∃ s, Machine.steps (step oneIteration) (start hello) lookSteps = some s ∧
      s.phase = .ended (.saved "I look. \n\nhi") ∧ s.runs = ["I look. ", "hi"] ∧
      tokens s.frames = concat s.runs ∧ InOrder (solid s.runs) "I look. \n\nhi" := by
  refine ⟨_, rfl, rfl, rfl, saved_holds_runs oneIteration hello ?_ rfl⟩
  have haccept : Machine.Reaches (step oneIteration) Unbroken (start hello) _ :=
    .step Step.accept .start trivial rfl
  have hdelta := haccept.step (Step.event (.textDelta "I look. ")) trivial rfl
  have hcomplete := hdelta.step (Step.event (.complete lookTurn)) trivial rfl
  have hfinish := hcomplete.step Step.finish (Or.inr (within_self "I look. ")) rfl
  have hhead := hfinish.step Step.tick trivial rfl
  have hcall := (hhead.step Step.tick trivial rfl).step Step.tick trivial rfl
  have hresult := hcall.step (Step.result (.ok "fine" [])) trivial rfl
  have hnext := (hresult.step Step.tick trivial rfl).step Step.tick trivial rfl
  have hagain := hnext.step Step.accept trivial rfl
  have hmore := hagain.step (Step.event (.textDelta "hi")) trivial rfl
  have hreply := hmore.step (Step.event (.complete helloTurn)) trivial rfl
  have hend := hreply.step Step.finish (Or.inr (within_self "hi")) rfl
  exact (hend.step Step.tick trivial rfl).step Step.tick trivial rfl

/-- The continuation breaks off after some text: that text was shown and is not saved. -/
theorem broken_stream_lost :
    ∃ s, Machine.steps (step oneIteration) (start hello)
        (callSteps ++ [.accept, .event (.textDelta "It is"), .finish, .tick]) = some s ∧
      tokens s.frames = "It is" ∧ s.runs = ["", "It is"] ∧
      s.phase = .ended (.saved streamFailedMarker) ∧
      ¬ InOrder (solid s.runs) streamFailedMarker := by
  refine ⟨_, rfl, rfl, rfl, rfl, ?_⟩
  show ¬ InOrder ["It is"] streamFailedMarker
  intro horder
  generalize htext : streamFailedMarker = text at horder
  cases horder with
  | cons before part hrest =>
    have hlist := congrArg String.toList htext
    rw [String.toList_append, String.toList_append] at hlist
    have hpart : "It is".toList <:+: streamFailedMarker.toList := ⟨_, _, hlist.symm⟩
    revert hpart
    decide +kernel

end EmbraOS.Ports.TurnLoop
