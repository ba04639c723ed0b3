import EmbraOS.Ports.TurnLoop

/-!
# Stopped turns in the history the model reads

Port of `embra-brain/src/sessions/model_view.rs`.  A turn that the operator stopped before any
text arrived is kept as an assistant's message with a fixed marker.  Before the history goes to
the model, such a marker between two messages of the operator is folded: the two become one, with
a note where the marker stood, and texts that come to stand side by side are joined.

The fold looks back at the output it has built, so a chain of stops of any length ends up in one
message.  `Piece` says what became of which messages, and `fold_stopped_turns_spec` puts the laws
of the fold together.
-/

namespace EmbraOS.Ports.StoppedTurns

open Verified.Text
open Ports.TurnLoop

/-! ## The code -/

/-- `OPERATOR_STOP_MARKER`. -/
def operatorStopMarker : String := "(turn stopped by operator)"

/-- `OPERATOR_STOP_NOTE`. -/
def operatorStopNote : String :=
  "[Your reply to the message above was stopped by the operator before you had written anything.]"

/-- `is_stop_marker`: an assistant's message that is the marker and nothing else. -/
def isStopMarker : ApiMessage → Bool
  | .assistant [.text text] => trim text == operatorStopMarker
  | _ => false

/-- The loop of `merge`: a text behind a text is joined to it by a blank line. -/
def pushBlock (out : List Block) (block : Block) : List Block :=
  match out.getLast?, block with
  | some (.text last), .text text => out.dropLast ++ [.text (last ++ "\n\n" ++ text)]
  | _, _ => out ++ [block]

/-- `merge`. -/
def merge (before after : List Block) : List Block :=
  (before ++ .text operatorStopNote :: after).foldl pushBlock []

/-- One turn of the loop of `fold_stopped_turns`. -/
def foldStep (out : List ApiMessage) : ApiMessage → List ApiMessage
  | .assistant content => out ++ [.assistant content]
  | .user content =>
    match out.reverse with
    | marker :: .user before :: rest =>
      if isStopMarker marker then rest.reverse ++ [.user (merge before content)]
      else out ++ [.user content]
    | _ => out ++ [.user content]

/-- `fold_stopped_turns`. -/
def foldStoppedTurns (messages : List ApiMessage) : List ApiMessage := messages.foldl foldStep []

/-! ## Joining texts -/

/-- A run of blocks that ends up as one: a block that is no text, or texts. -/
inductive Run where
  | other (block : Block) (h : block.text? = none)
  | texts (first : String) (rest : List String)

def Run.blocks : Run → List Block
  | .other block _ => [block]
  | .texts first rest => .text first :: rest.map .text

/-- The texts of a run, a blank line between any two. -/
def Run.block : Run → Block
  | .other block _ => block
  | .texts first rest => .text (rest.foldl (fun joined text => joined ++ "\n\n" ++ text) first)

/-- No two texts side by side. -/
def Apart (blocks : List Block) : Prop :=
  blocks.IsChain fun a b => a.text? = none ∨ b.text? = none

theorem pushBlock_cases (out : List Block) (block : Block) :
    (∃ front last text, out = front ++ [.text last] ∧ block = .text text ∧
      pushBlock out block = front ++ [.text (last ++ "\n\n" ++ text)]) ∨
    (pushBlock out block = out ++ [block] ∧
      ∀ last ∈ out.getLast?, last.text? = none ∨ block.text? = none) := by
  rcases List.eq_nil_or_concat out with rfl | ⟨front, last, rfl⟩
  · exact .inr ⟨by cases block <;> rfl, by simp⟩
  cases last with
  | text last =>
    cases block with
    | text text => exact .inl ⟨front, last, text, by simp, rfl, by simp [pushBlock]⟩
    | image _ | toolCall _ _ _ _ | toolResult _ _ _ _ | providerOpaque _ =>
      exact .inr ⟨by simp [pushBlock], by simp [Block.text?]⟩
  | image _ | toolCall _ _ _ _ | toolResult _ _ _ _ | providerOpaque _ =>
    exact .inr ⟨by simp [pushBlock], by simp [Block.text?]⟩

/-- **What joining does.**  The output is the runs of the input, one block each, and has no two
texts side by side. -/
theorem joined_runs (blocks : List Block) :
    Apart (blocks.foldl pushBlock []) ∧
      ∃ runs : List Run, runs.flatMap Run.blocks = blocks ∧
        blocks.foldl pushBlock [] = runs.map Run.block := by
  induction blocks using List.reverseRecOn with
  | nil => exact ⟨.nil, [], rfl, rfl⟩
  | append_singleton blocks block ih =>
    obtain ⟨hapart, runs, hblocks, hout⟩ := ih
    rw [List.foldl_append, List.foldl_cons, List.foldl_nil]
    rcases pushBlock_cases (blocks.foldl pushBlock []) block with
      ⟨front, last, text, hfront, rfl, hpush⟩ | ⟨hpush, hlast⟩
    · rw [hpush]
      rw [hfront] at hapart hout
      constructor
      · simpa [Apart, List.isChain_append, Block.text?] using hapart
      obtain ⟨rs, tail, rfl, rfl, htail⟩ := List.map_eq_append_iff.1 hout.symm
      obtain ⟨run, rfl, hrun⟩ := List.map_eq_singleton_iff.1 htail
      cases run with
      | other block h =>
        rw [show block = .text last from hrun] at h
        cases h
      | texts first rest =>
        refine ⟨rs ++ [.texts first (rest ++ [text])], ?_, ?_⟩
        · rw [← hblocks]
          simp [Run.blocks]
        · have hlast := Block.text.inj hrun
          simp [Run.block, ← hlast]
    · rw [hpush]
      constructor
      · refine List.isChain_append.2 ⟨hapart, .singleton _, ?_⟩
        simpa using hlast
      · have hrun : ∃ run : Run, run.blocks = [block] ∧ run.block = block := by
          cases block with
          | text text => exact ⟨.texts text [], rfl, rfl⟩
          | image _ | toolCall _ _ _ _ | toolResult _ _ _ _ | providerOpaque _ =>
            exact ⟨.other _ rfl, rfl, rfl⟩
        obtain ⟨run, hrunBlocks, hrunBlock⟩ := hrun
        exact ⟨runs ++ [run], by simp [hblocks, hrunBlocks], by simp [hout, hrunBlock]⟩

/-- What has no two texts side by side is not joined any further. -/
theorem foldl_pushBlock_of_apart {blocks : List Block} (h : Apart blocks) :
    blocks.foldl pushBlock [] = blocks := by
  induction blocks using List.reverseRecOn with
  | nil => rfl
  | append_singleton blocks block ih =>
    obtain ⟨hapart, _, hlast⟩ := List.isChain_append.1 h
    rw [List.foldl_append, ih hapart, List.foldl_cons, List.foldl_nil]
    rcases pushBlock_cases blocks block with ⟨front, last, text, rfl, rfl, _⟩ | ⟨hpush, _⟩
    · simp [Block.text?] at hlast
    · exact hpush

/-- Merging onto a merged message is merging everything at once. -/
theorem foldl_pushBlock_append (before after : List Block) :
    (before.foldl pushBlock [] ++ after).foldl pushBlock [] =
      (before ++ after).foldl pushBlock [] := by
  rw [List.foldl_append, List.foldl_append, foldl_pushBlock_of_apart (joined_runs before).1]

/-! ## What became of the messages -/

/-- An operator's message with the stops that are folded into it: each a marker and the operator's
next message. -/
structure Chain where
  first : List Block
  stops : List (ApiMessage × List Block)
  markers : ∀ stop ∈ stops, isStopMarker stop.1 = true

/-- Messages of the input that became one message of the output. -/
inductive Piece where
  | assistant (content : List Block)
  | operator (chain : Chain)

def Piece.messages : Piece → List ApiMessage
  | .assistant content => [.assistant content]
  | .operator chain =>
    .user chain.first :: chain.stops.flatMap fun stop => [stop.1, .user stop.2]

/-- All blocks of a chain, with one note in the place of each marker. -/
def Chain.blocks (chain : Chain) : List Block :=
  chain.first ++ chain.stops.flatMap fun stop => .text operatorStopNote :: stop.2

def Chain.content (chain : Chain) : List Block :=
  if chain.stops.isEmpty then chain.first else chain.blocks.foldl pushBlock []

def Piece.message : Piece → ApiMessage
  | .assistant content => .assistant content
  | .operator chain => .user chain.content

def Chain.stop (chain : Chain) {marker : ApiMessage} (h : isStopMarker marker = true)
    (content : List Block) : Chain where
  first := chain.first
  stops := chain.stops ++ [(marker, content)]
  markers := by
    intro stop hstop
    rcases List.mem_append.1 hstop with hstop | hstop
    · exact chain.markers stop hstop
    · rw [List.mem_singleton.1 hstop]
      exact h

theorem Chain.content_stop (chain : Chain) {marker : ApiMessage}
    (h : isStopMarker marker = true) (content : List Block) :
    (chain.stop h content).content = merge chain.content content := by
  have hblocks : (chain.stop h content).blocks =
      chain.blocks ++ .text operatorStopNote :: content := by
    simp [Chain.blocks, Chain.stop]
  have hcontent : (chain.stop h content).content =
      (chain.stop h content).blocks.foldl pushBlock [] := by
    simp [Chain.content, Chain.stop]
  rw [hcontent, hblocks, Chain.content, merge]
  split
  · rename_i hempty
    simp [Chain.blocks, List.isEmpty_iff.1 hempty]
  · rw [foldl_pushBlock_append]

/-- The step for an operator's message: it is folded exactly when the output ends in an operator's
message and a marker. -/
theorem foldStep_user_cases (out : List ApiMessage) (content : List Block) :
    (∃ front before marker, out = front ++ [.user before, marker] ∧
      isStopMarker marker = true ∧
      foldStep out (.user content) = front ++ [.user (merge before content)]) ∨
    (foldStep out (.user content) = out ++ [.user content] ∧
      ∀ front before marker, out = front ++ [.user before, marker] →
        isStopMarker marker = false) := by
  simp only [foldStep]
  split
  · rename_i marker before rest hout
    have hout : out = rest.reverse ++ [.user before, marker] := by
      rw [← List.reverse_reverse out, hout]
      simp
    split
    · rename_i hmarker
      exact .inl ⟨rest.reverse, before, marker, hout, hmarker, rfl⟩
    rename_i hmarker
    refine .inr ⟨rfl, ?_⟩
    intro front before' marker' heq
    rw [hout] at heq
    have hpair := List.append_inj_right' heq rfl
    simp only [List.cons.injEq] at hpair
    rw [← hpair.2.1]
    simpa using hmarker
  · rename_i hshape
    refine .inr ⟨rfl, ?_⟩
    intro front before marker heq
    exact absurd (by rw [heq]; simp) (hshape marker before front.reverse)

/-- Every message of the output is what became of some messages of the input, in order. -/
theorem exists_pieces (messages : List ApiMessage) :
    ∃ pieces : List Piece, pieces.flatMap Piece.messages = messages ∧
      foldStoppedTurns messages = pieces.map Piece.message := by
  induction messages using List.reverseRecOn with
  | nil => exact ⟨[], rfl, rfl⟩
  | append_singleton messages message ih =>
    obtain ⟨pieces, hmessages, hout⟩ := ih
    unfold foldStoppedTurns at hout ⊢
    rw [List.foldl_append, List.foldl_cons, List.foldl_nil, hout]
    have hpush : ∀ piece : Piece, piece.messages = [message] → piece.message = message →
        ∃ pieces' : List Piece, pieces'.flatMap Piece.messages = messages ++ [message] ∧
          pieces.map Piece.message ++ [message] = pieces'.map Piece.message := by
      intro piece hone hmessage
      exact ⟨pieces ++ [piece], by simp [hmessages, hone], by simp [hmessage]⟩
    cases message with
    | assistant content => exact hpush (.assistant content) rfl rfl
    | user content =>
      rcases foldStep_user_cases (pieces.map Piece.message) content with
        ⟨front, before, marker, hfront, hmarker, hstep⟩ | ⟨hstep, _⟩
      · rw [hstep]
        obtain ⟨ps, tail, rfl, rfl, htail⟩ := List.map_eq_append_iff.1 hfront
        obtain ⟨piece, _, rfl, hpiece, htail⟩ := List.map_eq_cons_iff.1 htail
        obtain ⟨piece', rfl, hpiece'⟩ := List.map_eq_singleton_iff.1 htail
        cases piece with
        | assistant _ => cases hpiece
        | operator chain =>
          cases piece' with
          | operator _ =>
            rw [← hpiece'] at hmarker
            cases hmarker
          | assistant words =>
            cases hpiece
            cases hpiece'
            refine ⟨ps ++ [.operator (chain.stop hmarker content)], ?_, ?_⟩
            · rw [← hmessages]
              simp [Piece.messages, Piece.message, Chain.stop]
            · simp [Piece.message, Chain.content_stop]
      · rw [hstep]
        exact hpush (.operator ⟨content, [], by simp⟩) rfl rfl

/-! ## No marker is left standing -/

/-- No marker stands between two messages of the operator. -/
def NoneStanding (messages : List ApiMessage) : Prop :=
  ∀ (i : Nat) (before after : List Block) (marker : ApiMessage),
    messages[i]? = some (.user before) → messages[i + 1]? = some marker →
      messages[i + 2]? = some (.user after) → isStopMarker marker = false

theorem NoneStanding.front {front rest : List ApiMessage} (h : NoneStanding (front ++ rest)) :
    NoneStanding front := by
  have hleft : ∀ {i : Nat} {message : ApiMessage}, front[i]? = some message →
      (front ++ rest)[i]? = some message := by
    intro i message hi
    rw [List.getElem?_append_left (List.getElem?_eq_some_iff.1 hi).1]
    exact hi
  intro i before after marker h1 h2 h3
  exact h i before after marker (hleft h1) (hleft h2) (hleft h3)

/-- A message at the end does no harm unless it is the operator's and a marker stands before
it. -/
theorem NoneStanding.append {out : List ApiMessage} (h : NoneStanding out)
    {message : ApiMessage}
    (hlast : ∀ front before marker after, message = .user after →
      out = front ++ [.user before, marker] → isStopMarker marker = false) :
    NoneStanding (out ++ [message]) := by
  intro i before after marker h1 h2 h3
  have hbound := (List.getElem?_eq_some_iff.1 h3).1
  rw [List.length_append, List.length_singleton] at hbound
  rw [List.getElem?_append_left (by omega)] at h1 h2
  by_cases hi : i + 2 < out.length
  · rw [List.getElem?_append_left hi] at h3
    exact h i before after marker h1 h2 h3
  -- the three messages are the last ones
  have hlength : out.length = i + 2 := by omega
  rw [List.getElem?_append_right (by omega), hlength] at h3
  rcases List.eq_nil_or_concat out with rfl | ⟨init, last, rfl⟩
  · simp at hlength
  rcases List.eq_nil_or_concat init with rfl | ⟨front, last', rfl⟩
  · simp at hlength
  have hfront : front.length = i := by simpa using hlength
  subst hfront
  simp at h1 h2 h3
  exact hlast front before marker after h3 (by simp [h1, h2])

theorem NoneStanding.step {out : List ApiMessage} (h : NoneStanding out)
    (message : ApiMessage) : NoneStanding (foldStep out message) := by
  cases message with
  | assistant content => exact h.append nofun
  | user content =>
    rcases foldStep_user_cases out content with
      ⟨front, before, marker, rfl, _, hstep⟩ | ⟨hstep, hnot⟩
    · rw [hstep]
      apply h.front.append
      rintro front' before' marker' _ _ rfl
      exact h front'.length before' before marker' (by simp) (by simp) (by simp)
    · rw [hstep]
      exact h.append fun front before marker _ _ => hnot front before marker

theorem noneStanding_fold (messages : List ApiMessage) :
    NoneStanding (foldStoppedTurns messages) := by
  induction messages using List.reverseRecOn with
  | nil => simp [NoneStanding, foldStoppedTurns]
  | append_singleton messages message ih =>
    rw [foldStoppedTurns, List.foldl_append, List.foldl_cons, List.foldl_nil]
    exact ih.step message

/-- Where no marker stands between two messages of the operator there is nothing to fold. -/
theorem fold_of_noneStanding {messages : List ApiMessage} (h : NoneStanding messages) :
    foldStoppedTurns messages = messages := by
  induction messages using List.reverseRecOn with
  | nil => rfl
  | append_singleton messages message ih =>
    have hfold := ih h.front
    unfold foldStoppedTurns at hfold ⊢
    rw [List.foldl_append, hfold, List.foldl_cons, List.foldl_nil]
    cases message with
    | assistant content => rfl
    | user content =>
      rcases foldStep_user_cases messages content with
        ⟨front, before, marker, rfl, hmarker, _⟩ | ⟨hstep, _⟩
      · rw [h front.length before content marker (by simp) (by simp) (by simp)] at hmarker
        cases hmarker
      · exact hstep

/-! ## Roles -/

def isUser : ApiMessage → Bool
  | .user _ => true
  | .assistant _ => false

/-- The operator and the assistant take turns. -/
def Alternating (messages : List ApiMessage) : Prop :=
  messages.IsChain fun a b => isUser a ≠ isUser b

/-- The output ends with the role the input ends with, which is all the next message asks. -/
theorem alternating_fold {messages : List ApiMessage} (h : Alternating messages) :
    Alternating (foldStoppedTurns messages) ∧
      (foldStoppedTurns messages).getLast?.map isUser = messages.getLast?.map isUser := by
  induction messages using List.reverseRecOn with
  | nil => exact ⟨.nil, rfl⟩
  | append_singleton messages message ih =>
    obtain ⟨hfront, _, hlast⟩ := List.isChain_append.1 h
    obtain ⟨hout, hrole⟩ := ih hfront
    have hpush : Alternating (foldStoppedTurns messages ++ [message]) := by
      refine List.isChain_append.2 ⟨hout, .singleton _, ?_⟩
      intro a ha b hb
      rw [Option.mem_def.1 ha, Option.map_some] at hrole
      obtain ⟨x, hx, hrole⟩ := Option.map_eq_some_iff.1 hrole.symm
      rw [← hrole]
      exact hlast x hx b hb
    rw [foldStoppedTurns, List.foldl_append, List.foldl_cons, List.foldl_nil,
      ← foldStoppedTurns]
    cases message with
    | assistant content => exact ⟨hpush, by simp [foldStep]⟩
    | user content =>
      rcases foldStep_user_cases (foldStoppedTurns messages) content with
        ⟨front, before, marker, hfold, _, hstep⟩ | ⟨hstep, _⟩
      · -- the roles before the marker are those of the operator's message that stays
        rw [hstep]
        rw [hfold] at hout
        obtain ⟨hfront, _, hjoint⟩ := List.isChain_append.1 hout
        refine ⟨List.isChain_append.2 ⟨hfront, .singleton _, ?_⟩, by simp [isUser]⟩
        intro a ha b hb
        cases hb
        exact hjoint a ha (.user before) rfl
      · rw [hstep]
        exact ⟨hpush, by simp⟩

/-! ## The laws of the fold -/

/-- **What the fold does.**  No marker is left between two messages of the operator.  The messages
of the output are what became of the messages of the input in order: an assistant's message is
itself, and an operator's message either itself or, with the markers and messages folded into it,
all their blocks in order with one note for each marker, the runs of texts joined and no two texts
left side by side.  Roles that alternate still do, and folding again changes nothing. -/
theorem fold_stopped_turns_spec (messages : List ApiMessage) :
    NoneStanding (foldStoppedTurns messages) ∧
    (∃ pieces : List Piece, pieces.flatMap Piece.messages = messages ∧
      foldStoppedTurns messages = pieces.map Piece.message ∧
      ∀ chain, .operator chain ∈ pieces → chain.stops ≠ [] →
        Apart chain.content ∧ ∃ runs : List Run, runs.flatMap Run.blocks = chain.blocks ∧
          chain.content = runs.map Run.block) ∧
    (Alternating messages → Alternating (foldStoppedTurns messages)) ∧
    foldStoppedTurns (foldStoppedTurns messages) = foldStoppedTurns messages := by
  have hstanding := noneStanding_fold messages
  obtain ⟨pieces, hmessages, hout⟩ := exists_pieces messages
  refine ⟨hstanding, ⟨pieces, hmessages, hout, ?_⟩, fun h => (alternating_fold h).1,
    fold_of_noneStanding hstanding⟩
  intro chain _ hstops
  have hcontent : chain.content = chain.blocks.foldl pushBlock [] := by
    simp [Chain.content, hstops]
  rw [hcontent]
  exact joined_runs chain.blocks

/-- Two stops in a row end up in one message. -/
example : foldStoppedTurns [.user [.text "A"], .assistant [.text operatorStopMarker],
      .user [.text "B"], .assistant [.text operatorStopMarker], .user [.text "C"]] =
    [.user [.text ("A\n\n" ++ operatorStopNote ++ "\n\n" ++ "B\n\n" ++ operatorStopNote ++
      "\n\n" ++ "C")]] := by
  simp [foldStoppedTurns, foldStep, merge, pushBlock, isStopMarker, String.append_assoc,
    show (trim operatorStopMarker == operatorStopMarker) = true from by decide +kernel]

end EmbraOS.Ports.StoppedTurns
