import EmbraOS.Verified.Calls
import EmbraOS.Verified.Serde
import EmbraOS.Ports.ExtractJson

/-!
# The learning loop

Port of `run_learning_loop` (`embra-brain/src/grpc_service/learning_loop.rs`) and of
`handle_phase_complete` (`embra-brain/src/learning/phases.rs`) as a state machine: what
comes in is an event (a model's answer, an operator's message, the end of the import
dialogue, a signal of another stream), and every store call may fail.

The loop keeps one conversation for all phases, and the document of a phase is looked
for in all of it.  `sealed_from_own_phases` says when it is that of the phase.
-/

namespace EmbraOS.Ports.LearningLoop

open Verified.Calls
open Verified.Serde
open Verified.Text
open Ports.ExtractJson

inductive LearningPhase where
  | userConfiguration
  | identityFormation
  | soulDefinition
  | initialToolset
  | confirmation
  | complete
  deriving DecidableEq, Repr

/-- The order of the phases. -/
def LearningPhase.rank : LearningPhase → Nat
  | .userConfiguration => 0
  | .identityFormation => 1
  | .soulDefinition => 2
  | .initialToolset => 3
  | .confirmation => 4
  | .complete => 5

inductive Role where
  | user
  | assistant
  deriving DecidableEq, Repr

structure Message where
  role : Role
  content : String
  deriving DecidableEq, Repr

structure LearningState where
  phase : LearningPhase
  userProfile : Option Json
  identity : Option Json
  soul : Option Json
  toolsConfig : Option Json
  conversationHistory : List Message

/-! ## One model turn -/

structure LearningAnswer where
  text : String
  stopped : Bool

def phaseCompleteMark : String := "[PHASE_COMPLETE]"

/-- `final_assistant_text` of a turn that the operator stopped. -/
def stoppedText (clean : String) : String :=
  if trim clean ≠ "" then clean ++ "\n\n(response interrupted by operator stop)"
  else "(turn stopped by operator)"

/-- What goes into the history, and whether the phase is over. -/
def learningTurnOutcome (answer : LearningAnswer) : String × Bool :=
  let clean := trim (replace answer.text phaseCompleteMark "")
  if answer.stopped then (stoppedText clean, false)
  else (if clean = "" then "(phase complete)" else clean, contains answer.text phaseCompleteMark)

def phaseKickoff : LearningPhase → String
  | .userConfiguration =>
    "Hello! I'm here and ready to begin the setup process. Let's get started."
  | .identityFormation => "User profile confirmed. Let's move on to defining your identity."
  | .soulDefinition =>
    "Identity confirmed. Now let's define your soul — your immutable core values."
  | .initialToolset => ""
  | .confirmation => "Tools configured. Let's do a final review of everything."
  | .complete => ""

/-! ## The stores -/

/-- The documents that the loop writes. -/
structure Stores where
  /-- `memory.user` under the id `user`. -/
  user : Option Json
  /-- `memory.identity` under the id `identity`. -/
  identity : Option Json
  /-- The sealed soul. -/
  soul : Option Json
  /-- `tools.registry`. -/
  tools : List Json
  /-- The name in `config.system`. -/
  name : String

inductive StoreCall where
  | persistUser (profile : Json)
  | persistIdentity (identity : Json)
  | persistTools (tools : Json)
  | sealSoul (soul : Json)
  | saveName (name : String)

@[reducible] def api : Api where
  Call := StoreCall
  Ans _ := Unit

/-- A document under an id that is taken is refused, and so is a second seal. -/
def server : Server api Stores where
  exec
    | .persistUser profile, s =>
      if s.user.isSome then none else some ({ s with user := some profile }, ())
    | .persistIdentity identity, s =>
      if s.identity.isSome then none else some ({ s with identity := some identity }, ())
    | .persistTools tools, s => some ({ s with tools := s.tools ++ [tools] }, ())
    | .sealSoul soul, s => if s.soul.isSome then none else some ({ s with soul := some soul }, ())
    | .saveName name, s => some ({ s with name := name }, ())

/-! ## The end of a phase -/

def isControl (c : Char) : Bool := c.toNat < 0x20 || (0x7F ≤ c.toNat && c.toNat ≤ 0x9F)

def validateIntelligenceName (raw : String) : Except String String :=
  let name := trim raw
  if name = "" then .error "name must not be empty"
  else if name.length > 40 then .error "name must be at most 40 characters"
  else if name.toList.any isControl then
    .error "name must be a single line without control characters"
  else if contains name " — " then
    .error "name must not contain the ' — ' separator sequence"
  else .ok name

/-- The new name when the identity has one and it was saved. -/
def syncNameFromIdentity (current : String) (identity : Json) : Prog api (Option String) :=
  match (identity.get? "name").bind Json.asStr? with
  | none => .done none
  | some proposed =>
    match validateIntelligenceName proposed with
    | .error _ => .done none
    | .ok name =>
      if name = current then .done none
      else .call (.saveName name) fun
        | none => .done none
        | some _ => .done (some name)

/-- What the loop is run with. -/
structure Env where
  /-- `serde_json::from_str`. -/
  read : Text → Option Json
  /-- The identity, the soul and the name as the canonical identity graph
  (`flat_to_graph`, `canonicalize`). -/
  graph : Json → Json → String → Json
  /-- `default_tools_registry_doc`. -/
  toolsRegistryDoc : Json

section Loop

variable (env : Env)

def documentOf (content : String) : Option Json := extractJsonFromText env.read content.toList

def extractLastJsonDocument (history : List Message) : Option Json :=
  history.reverse.findSome? (fun m =>
    if m.role = .assistant then documentOf env m.content else none)

/-- How `handle_phase_complete` ends: `Err`, or `Ok` with a new name. -/
abbrev PhaseEnd := LearningState × Except Unit (Option String)

def handlePhaseComplete (state : LearningState) (name : String) : Prog api PhaseEnd :=
  let doc := extractLastJsonDocument env state.conversationHistory
  match state.phase with
  | .userConfiguration =>
    match doc with
    | none => .done ({ state with phase := .identityFormation }, .ok none)
    | some profile =>
      .call (.persistUser profile) fun
        | none => .done ({ state with userProfile := some profile }, .error ())
        | some _ => .done
            ({ state with userProfile := some profile, phase := .identityFormation }, .ok none)
  | .identityFormation =>
    match doc with
    | none => .done ({ state with phase := .soulDefinition }, .ok none)
    | some identity =>
      .call (.persistIdentity identity) fun
        | none => .done ({ state with identity := some identity }, .error ())
        | some _ => (syncNameFromIdentity name identity).map (fun renamed =>
          ({ state with identity := some identity, phase := .soulDefinition }, .ok renamed))
  | .soulDefinition =>
    match doc with
    | none => .done ({ state with phase := .initialToolset }, .ok none)
    | some soul =>
      .call (.sealSoul (env.graph (state.identity.getD (.obj [])) soul name)) fun
        | none => .done ({ state with soul := some soul }, .error ())
        | some _ => .done ({ state with soul := some soul, phase := .initialToolset }, .ok none)
  | .initialToolset =>
    .call (.persistTools env.toolsRegistryDoc) fun
      | none => .done ({ state with toolsConfig := some env.toolsRegistryDoc }, .error ())
      | some _ => .done
          ({ state with toolsConfig := some env.toolsRegistryDoc, phase := .confirmation },
            .ok none)
  | .confirmation => .done ({ state with phase := .complete }, .ok none)
  | .complete => .done (state, .ok none)

/-! ## The loop -/

inductive Control where
  /-- At the head of the loop. -/
  | head
  /-- A turn of the model is running, of a kickoff or of a message of the operator. -/
  | turn (kickoff : Bool)
  /-- Waiting for the operator. -/
  | waiting
  | ended
  deriving DecidableEq, Repr

/-- What the loop did. -/
inductive Record where
  /-- The kickoff of a phase: its frame and a model request. -/
  | kickoff (phase : LearningPhase)
  /-- The run of the phase that asks no model. -/
  | toolset
  /-- A message of the operator. -/
  | heard
  /-- A turn of the model, as it goes into the history. -/
  | said (phase : LearningPhase) (entry : String)
  /-- A soul sealed from the two documents, under a name. -/
  | sealedFrom (identity : Option Json) (soul : Json) (name : String)
  /-- "Soul sealed" sent to the client. -/
  | announced

structure Loop where
  state : LearningState
  name : String
  importOffered : Bool
  control : Control
  stores : Stores
  log : List Record

/-- How the import dialogue ends. -/
inductive ImportOutcome where
  | noCandidates
  | conversational
  /-- The graph was sealed. -/
  | imported (graph : Json) (renamedTo : Option String)
  | sealedByOtherStream
  | disconnected
  | failed

inductive Event where
  /-- The loop goes on by itself. -/
  | proceed (reply : StoreCall → Reply)
  | offer (outcome : ImportOutcome)
  | answer (a : LearningAnswer) (reply : StoreCall → Reply)
  | brainFailed
  | userMessage (content : String)
  | otherRequest
  /-- Another stream advanced the onboarding stage; the seal is probed. -/
  | stageChanged (answered : Bool)
  /-- The stream ended or failed. -/
  | closed
  /-- Another stream seals a soul. -/
  | otherSeals (soul : Json)

/-- The start of the loop, with the documents of an earlier one. -/
def start (stores : Stores) : Loop where
  state :=
    { phase := if stores.identity.isSome then .soulDefinition
        else if stores.user.isSome then .identityFormation else .userConfiguration
      userProfile := stores.user
      identity := stores.identity
      soul := none
      toolsConfig := none
      conversationHistory := [] }
  name := stores.name
  importOffered := false
  control := if stores.soul.isSome then .ended else .head
  stores := stores
  log := []

/-- A seal that was carried out is recorded. -/
def Loop.sealLog (l : Loop) (after : Stores) : List Record :=
  match extractLastJsonDocument env l.state.conversationHistory with
  | none => l.log
  | some soul =>
    if l.stores.soul.isSome || after.soul.isNone then l.log
    else l.log ++ [.sealedFrom l.state.identity soul l.name]

/-- The phase is over: its documents are stored and the loop moves on. -/
def Loop.phaseComplete (l : Loop) (kickoff : Bool) (reply : StoreCall → Reply) : Loop :=
  let r := run server reply (handlePhaseComplete env l.state l.name) l.stores
  let log := l.sealLog env r.1
  -- a new name is adopted after a kickoff only
  let name := match r.2.2 with
    | .ok (some renamed) => if kickoff then renamed else l.name
    | _ => l.name
  if r.2.1.phase = .complete then
    { l with state := r.2.1, stores := r.1, name := name, control := .ended,
             log := log ++ [.announced] }
  else { l with state := r.2.1, stores := r.1, name := name, control := .head, log := log }

def Loop.pushMessage (l : Loop) (m : Message) : Loop :=
  { l with state := { l.state with conversationHistory := l.state.conversationHistory ++ [m] } }

/-- A turn of the model has ended. -/
def Loop.hear (l : Loop) (a : LearningAnswer) : Loop :=
  { l.pushMessage ⟨.assistant, (learningTurnOutcome a).1⟩ with
      log := l.log ++ [.said l.state.phase (learningTurnOutcome a).1] }

def Loop.proceed (l : Loop) (reply : StoreCall → Reply) : Option Loop :=
  match l.state.phase with
  | .complete => some { l with control := .ended }
  | .initialToolset =>
    let r := run server reply (handlePhaseComplete env l.state l.name) l.stores
    some { l with state := r.2.1, stores := r.1, log := l.log ++ [.toolset] }
  | phase =>
    if phase = .identityFormation ∧ l.importOffered = false then none
    else some { l.pushMessage ⟨.user, phaseKickoff phase⟩ with
      control := .turn true, log := l.log ++ [.kickoff phase] }

def Loop.offer (l : Loop) (outcome : ImportOutcome) : Option Loop :=
  if l.state.phase = .identityFormation ∧ l.importOffered = false then
    let l := { l with importOffered := true }
    match outcome with
    | .noCandidates => some l
    | .conversational => some l
    | .imported graph renamedTo =>
      if l.stores.soul.isSome then none
      else some { l with
        state := { l.state with soul := some graph, phase := .initialToolset }
        stores := { l.stores with soul := some graph }
        name := renamedTo.getD l.name }
    | .sealedByOtherStream =>
      if l.stores.soul.isSome then
        some { l with control := .ended, log := l.log ++ [.announced] }
      else none
    | .disconnected => some { l with control := .ended }
    | .failed => some { l with control := .ended }
  else none

/-- One event; `none` when the loop is not where it could come in. -/
def Loop.step (l : Loop) (e : Event) : Option Loop :=
  match e, l.control with
  | .proceed reply, .head => l.proceed env reply
  | .offer outcome, .head => l.offer outcome
  | .answer a reply, .turn kickoff =>
    some (if (learningTurnOutcome a).2 then (l.hear a).phaseComplete env kickoff reply
      else { l.hear a with control := .waiting })
  | .brainFailed, .turn _ => some { l with control := .ended }
  | .userMessage content, .waiting =>
    some { l.pushMessage ⟨.user, content⟩ with
      control := .turn false, log := l.log ++ [.heard] }
  | .otherRequest, .waiting => some l
  | .stageChanged answered, .waiting =>
    if answered && l.stores.soul.isSome then
      some { l with control := .ended, log := l.log ++ [.announced] }
    else some l
  | .closed, .waiting => some { l with control := .ended }
  | .otherSeals soul, _ =>
    if l.stores.soul.isSome then none
    else some { l with stores := { l.stores with soul := some soul } }
  | _, _ => none

/-- The loop after a list of events. -/
def Loop.runs (l : Loop) : List Event → Option Loop
  | [] => some l
  | e :: es => (l.step env e).bind (fun l' => l'.runs es)

/-! ## The document of a phase -/

/-- The turns of the model, with the phase of each. -/
def said (log : List Record) : List (LearningPhase × String) :=
  log.filterMap fun
    | .said phase entry => some (phase, entry)
    | _ => none

/-- A turn that ends the identity phase or the soul phase comes with a document in it or
in an earlier turn of the same phase. -/
def ownDocument (l : Loop) (a : LearningAnswer) : Bool :=
  !((learningTurnOutcome a).2 &&
      (l.state.phase = .identityFormation || l.state.phase = .soulDefinition)) ||
    (said (l.hear a).log).any (fun t =>
      t.1 = l.state.phase && (documentOf env t.2).isSome)

def meets (l : Loop) : Event → Bool
  | .answer a _ => ownDocument env l a
  | _ => true

/-- Every event of the run meets the condition. -/
def allMeet (l : Loop) : List Event → Bool
  | [] => true
  | e :: es =>
    meets env l e &&
      match l.step env e with
      | none => true
      | some l' => allMeet l' es

/-- A document of a turn of that phase. -/
def FromPhase (log : List Record) (phase : LearningPhase) (doc : Json) : Prop :=
  ∃ entry, (phase, entry) ∈ said log ∧ documentOf env entry = some doc

/-- What is wanted of a run that started with a stored identity or none. -/
structure Sound (resumed : Option Json) (l : Loop) : Prop where
  /-- A soul that the loop sealed is built from a document of the soul phase and the
  identity of the identity phase. -/
  built : ∀ identity soul name, .sealedFrom identity soul name ∈ l.log →
    l.stores.soul = some (env.graph (identity.getD (.obj [])) soul name) ∧
      FromPhase env l.log .soulDefinition soul ∧
        ∃ id, identity = some id ∧
          (resumed = some id ∨ FromPhase env l.log .identityFormation id)
  complete : l.state.phase = .complete → l.stores.soul.isSome = true
  announced : .announced ∈ l.log → l.stores.soul.isSome = true

/-! ### The search goes back to the last turn with a document -/

def assistantContent (m : Message) : Option String :=
  if m.role = .assistant then some m.content else none

theorem extractLastJsonDocument_eq (history : List Message) :
    extractLastJsonDocument env history =
      (history.filterMap assistantContent).reverse.findSome? (documentOf env) := by
  rw [extractLastJsonDocument, ← List.filterMap_reverse]
  induction history.reverse with
  | nil => rfl
  | cons m ms ih =>
    rw [List.findSome?_cons, List.filterMap_cons, assistantContent]
    by_cases h : m.role = .assistant
    · rw [if_pos h, if_pos h, ih, List.findSome?_cons]
    · rw [if_neg h, if_neg h, ih]

variable {env}

variable {phase : LearningPhase} {s stores' : Stores} {l' : Loop} {r : Record}
  {state' : LearningState}

/-- With turns in the order of their phases, a document of the current phase comes
first. -/
theorem findSome?_own {turns : List (LearningPhase × String)}
    (hsorted : turns.Pairwise (fun a b => a.1.rank ≤ b.1.rank))
    (hcurrent : ∀ t ∈ turns, t.1.rank ≤ phase.rank) {entry : String}
    (hmem : (phase, entry) ∈ turns) (hdoc : (documentOf env entry).isSome = true) :
    ∃ doc entry', (turns.map Prod.snd).reverse.findSome? (documentOf env) = some doc ∧
      (phase, entry') ∈ turns ∧ documentOf env entry' = some doc := by
  induction turns using List.reverseRecOn with
  | nil => cases hmem
  | append_singleton turns t ih =>
    rw [List.map_append, List.reverse_append, List.map_singleton, List.reverse_singleton,
      List.singleton_append, List.findSome?_cons]
    cases ht : documentOf env t.2 with
    | some doc =>
      -- the last turn has a document, and no turn of another phase stands behind
      have hphase : t.1 = phase := by
        have hle := hcurrent t (by simp)
        have hge : phase.rank ≤ t.1.rank := by
          rcases List.mem_append.1 hmem with hin | hin
          · exact (List.pairwise_append.1 hsorted).2.2 _ hin t (by simp)
          · rw [← List.mem_singleton.1 hin]
        revert hle hge
        cases t.1 <;> cases phase <;> decide
      refine ⟨doc, t.2, rfl, ?_, ht⟩
      rw [← hphase]
      simp
    | none =>
      have hin : (phase, entry) ∈ turns := by
        rcases List.mem_append.1 hmem with hin | hin
        · exact hin
        · rw [← List.mem_singleton.1 hin] at ht
          rw [ht] at hdoc
          cases hdoc
      obtain ⟨doc, entry', hfind, hmem', hdoc'⟩ := ih (List.pairwise_append.1 hsorted).1
        (fun t ht => hcurrent t (List.mem_append_left _ ht)) hin
      exact ⟨doc, entry', hfind, List.mem_append_left _ hmem', hdoc'⟩

/-! ### What the end of a phase can do -/

/-- The stores and the state after `handle_phase_complete`. -/
def Handled (env : Env) (state : LearningState) (name : String) (stores stores' : Stores)
    (state' : LearningState) : Prop :=
  state'.conversationHistory = state.conversationHistory ∧
    match state.phase, extractLastJsonDocument env state.conversationHistory with
    | .userConfiguration, _ =>
      state'.identity = state.identity ∧ stores'.soul = stores.soul ∧
        (state'.phase = .userConfiguration ∨ state'.phase = .identityFormation)
    | .identityFormation, none =>
      state'.identity = state.identity ∧ stores'.soul = stores.soul ∧
        state'.phase = .soulDefinition
    | .identityFormation, some id =>
      state'.identity = some id ∧ stores'.soul = stores.soul ∧
        (state'.phase = .identityFormation ∨ state'.phase = .soulDefinition)
    | .soulDefinition, none =>
      state'.identity = state.identity ∧ stores'.soul = stores.soul ∧
        state'.phase = .initialToolset
    | .soulDefinition, some soul =>
      state'.identity = state.identity ∧
        (stores'.soul = stores.soul ∨ (stores.soul = none ∧
          stores'.soul = some (env.graph (state.identity.getD (.obj [])) soul name))) ∧
        (state'.phase = .soulDefinition ∨
          (state'.phase = .initialToolset ∧ stores'.soul.isSome = true))
    | _, _ =>
      state'.identity = state.identity ∧ stores'.soul = stores.soul ∧
        3 ≤ state'.phase.rank ∧ state.phase.rank ≤ state'.phase.rank

theorem always_syncName (name : String) (identity : Json) {K : Stores → Prop}
    (hs : K s) (hname : ∀ s n, K s → K { s with name := n }) :
    Always server (fun _ => True) (fun s' _ => K s') (syncNameFromIdentity name identity) s := by
  rw [syncNameFromIdentity]
  split
  · exact ⟨trivial, hs⟩
  split
  · exact ⟨trivial, hs⟩
  · split
    · exact ⟨trivial, hs⟩
    · refine Always.step ⟨trivial, hs⟩ ?_
      intro s' _ hexec
      obtain ⟨rfl, -⟩ := Prod.mk.inj (Option.some.inj hexec)
      exact ⟨⟨trivial, hname _ _ hs⟩, ⟨trivial, hname _ _ hs⟩⟩

/-- Only the sealing touches the soul. -/
theorem soul_of_exec {call : StoreCall} {s' : Stores} {answer : api.Ans call}
    (h : server.exec call s = some (s', answer)) (hcall : ∀ soul, call ≠ .sealSoul soul) :
    s'.soul = s.soul := by
  cases call with
  | persistUser | persistIdentity =>
    simp only [server] at h
    split at h
    · cases h
    · obtain ⟨rfl, -⟩ := Prod.mk.inj (Option.some.inj h)
      rfl
  | persistTools | saveName =>
    obtain ⟨rfl, -⟩ := Prod.mk.inj (Option.some.inj h)
    rfl
  | sealSoul soul => exact absurd rfl (hcall soul)

theorem always_handlePhaseComplete (env : Env) (state : LearningState) (name : String)
    (s : Stores) :
    Always server (fun _ => True) (fun s' r => Handled env state name s s' r.1)
      (handlePhaseComplete env state name) s := by
  rw [handlePhaseComplete]
  unfold Handled
  cases hphase : state.phase with
  | userConfiguration =>
    cases extractLastJsonDocument env state.conversationHistory with
    | none => exact ⟨trivial, rfl, rfl, rfl, Or.inr rfl⟩
    | some profile =>
      refine Always.step ⟨trivial, rfl, rfl, rfl, Or.inl rfl⟩ ?_
      intro s' _ hexec
      have hsoul : s'.soul = s.soul := soul_of_exec hexec fun _ => StoreCall.noConfusion
      exact ⟨⟨trivial, rfl, rfl, hsoul, Or.inr rfl⟩, ⟨trivial, rfl, rfl, hsoul, Or.inl rfl⟩⟩
  | identityFormation =>
    cases extractLastJsonDocument env state.conversationHistory with
    | none => exact ⟨trivial, rfl, rfl, rfl, rfl⟩
    | some identity =>
      refine Always.step ⟨trivial, rfl, rfl, rfl, Or.inl rfl⟩ ?_
      intro s' _ hexec
      have hsoul : s'.soul = s.soul := soul_of_exec hexec fun _ => StoreCall.noConfusion
      refine ⟨?_, ⟨trivial, rfl, rfl, hsoul, Or.inl rfl⟩⟩
      apply Always.map
      have hsync := always_syncName (K := fun s'' => s''.soul = s.soul) name identity hsoul
        (fun _ _ h => h)
      exact hsync.mono (fun _ h => h) (fun s'' _ h => ⟨rfl, rfl, h, Or.inr rfl⟩) _ _
  | soulDefinition =>
    cases extractLastJsonDocument env state.conversationHistory with
    | none => exact ⟨trivial, rfl, rfl, rfl, rfl⟩
    | some soul =>
      refine Always.step ⟨trivial, rfl, rfl, Or.inl rfl, Or.inl rfl⟩ ?_
      intro s' _ hexec
      simp only [server] at hexec
      split at hexec
      · cases hexec
      rename_i hnone
      obtain ⟨rfl, -⟩ := Prod.mk.inj (Option.some.inj hexec)
      have hsoul : s.soul = none := by simpa using hnone
      exact ⟨⟨trivial, rfl, rfl, Or.inr ⟨hsoul, rfl⟩, Or.inr ⟨rfl, rfl⟩⟩,
        ⟨trivial, rfl, rfl, Or.inr ⟨hsoul, rfl⟩, Or.inl rfl⟩⟩
  | initialToolset =>
    refine Always.step ⟨trivial, rfl, rfl, rfl, le_rfl, le_rfl⟩ ?_
    intro s' _ hexec
    obtain ⟨rfl, -⟩ := Prod.mk.inj (Option.some.inj hexec)
    exact ⟨⟨trivial, rfl, rfl, rfl, by simp [LearningPhase.rank], by simp [LearningPhase.rank]⟩,
      ⟨trivial, rfl, rfl, rfl, le_rfl, le_rfl⟩⟩
  | confirmation =>
    exact ⟨trivial, rfl, rfl, rfl, by simp [LearningPhase.rank], by simp [LearningPhase.rank]⟩
  | complete => exact ⟨trivial, rfl, rfl, rfl, by simp [LearningPhase.rank, hphase], by rw [hphase]⟩

/-! ### The invariant of a run -/

@[simp] theorem said_append (xs ys : List Record) : said (xs ++ ys) = said xs ++ said ys :=
  List.filterMap_append

theorem FromPhase.append {log : List Record} {doc : Json}
    (h : FromPhase env log phase doc) (more : List Record) :
    FromPhase env (log ++ more) phase doc := by
  obtain ⟨entry, hmem, hdoc⟩ := h
  exact ⟨entry, by simp [hmem], hdoc⟩

structure Inv (env : Env) (resumed : Option Json) (l : Loop) : Prop where
  /-- The turns of the model are those of the history, -/
  history : l.state.conversationHistory.filterMap assistantContent = (said l.log).map Prod.snd
  /-- in the order of their phases, -/
  sorted : (said l.log).Pairwise (fun a b => a.1.rank ≤ b.1.rank)
  /-- and none is of a phase to come. -/
  current : ∀ t ∈ said l.log, t.1.rank ≤ l.state.phase.rank
  identity : ∀ id, l.state.identity = some id →
    resumed = some id ∨ FromPhase env l.log .identityFormation id
  reached : l.state.phase = .soulDefinition → l.state.identity.isSome = true
  soul : 3 ≤ l.state.phase.rank → l.stores.soul.isSome = true
  built : ∀ identity soul name, .sealedFrom identity soul name ∈ l.log →
    l.stores.soul = some (env.graph (identity.getD (.obj [])) soul name) ∧
      FromPhase env l.log .soulDefinition soul ∧
        ∃ id, identity = some id ∧
          (resumed = some id ∨ FromPhase env l.log .identityFormation id)
  announced : .announced ∈ l.log → l.stores.soul.isSome = true

variable {resumed : Option Json} {l : Loop}

section

variable (h : Inv env resumed l)
include h

/-- The invariant is about the state, the stores and the log. -/
theorem Inv.congr (hstate : l'.state = l.state)
    (hstores : l'.stores = l.stores) (hlog : l'.log = l.log) : Inv env resumed l' := by
  obtain ⟨state, name, offered, control, stores, log⟩ := l'
  subst hstate hstores hlog
  exact ⟨h.history, h.sorted, h.current, h.identity, h.reached, h.soul, h.built, h.announced⟩

theorem Inv.identity_append (r : Record) (id : Json) (hid : l.state.identity = some id) :
    resumed = some id ∨ FromPhase env (l.log ++ [r]) .identityFormation id :=
  (h.identity id hid).imp_right (fun hfrom => hfrom.append [r])

theorem Inv.built_append
    (hseal : ∀ identity soul name, r ≠ .sealedFrom identity soul name) (identity : Option Json)
    (soul : Json) (name : String) (hmem : .sealedFrom identity soul name ∈ l.log ++ [r]) :
    l.stores.soul = some (env.graph (identity.getD (.obj [])) soul name) ∧
      FromPhase env (l.log ++ [r]) .soulDefinition soul ∧
        ∃ id, identity = some id ∧
          (resumed = some id ∨ FromPhase env (l.log ++ [r]) .identityFormation id) := by
  rcases List.mem_append.1 hmem with hmem | hmem
  · obtain ⟨hsoul, hfrom, id, rfl, hid⟩ := h.built identity soul name hmem
    exact ⟨hsoul, hfrom.append [r], id, rfl, hid.imp_right (fun hfrom => hfrom.append [r])⟩
  · exact absurd (List.mem_singleton.1 hmem).symm (hseal identity soul name)

theorem Inv.announced_append
    (hannounced : r = .announced → l.stores.soul.isSome = true) (hmem : .announced ∈ l.log ++ [r]) :
    l.stores.soul.isSome = true := by
  rcases List.mem_append.1 hmem with hmem | hmem
  · exact h.announced hmem
  · exact hannounced (List.mem_singleton.1 hmem).symm

/-- A record that is neither a turn nor a seal. -/
theorem Inv.logged (r : Record) (hsaid : said [r] = [])
    (hseal : ∀ identity soul name, r ≠ .sealedFrom identity soul name)
    (hannounced : r = .announced → l.stores.soul.isSome = true) :
    Inv env resumed { l with log := l.log ++ [r] } := by
  have hsame : said (l.log ++ [r]) = said l.log := by rw [said_append, hsaid, List.append_nil]
  refine ⟨?_, ?_, ?_, h.identity_append r, h.reached, h.soul, h.built_append hseal,
    h.announced_append hannounced⟩
  · exact h.history.trans (by rw [hsame])
  · rw [hsame]
    exact h.sorted
  · rw [hsame]
    exact h.current

theorem Inv.pushUser (content : String) :
    Inv env resumed (l.pushMessage ⟨.user, content⟩) := by
  refine ⟨?_, h.sorted, h.current, h.identity, h.reached, h.soul, h.built, h.announced⟩
  rw [Loop.pushMessage, List.filterMap_append, h.history]
  simp [assistantContent]

theorem Inv.hear (a : LearningAnswer) : Inv env resumed (l.hear a) := by
  have hsaid : said (l.hear a).log =
      said l.log ++ [(l.state.phase, (learningTurnOutcome a).1)] := by
    rw [Loop.hear, said_append]
    rfl
  refine ⟨?_, ?_, ?_, h.identity_append _, h.reached, h.soul,
    h.built_append (fun _ _ _ => by simp), h.announced_append nofun⟩
  · rw [hsaid, Loop.hear, Loop.pushMessage, List.filterMap_append, h.history]
    simp [assistantContent]
  · rw [hsaid, List.pairwise_append]
    refine ⟨h.sorted, List.pairwise_singleton _ _, ?_⟩
    intro t ht t' ht'
    rw [List.mem_singleton.1 ht']
    exact h.current t ht
  · intro t ht
    rw [hsaid] at ht
    rcases List.mem_append.1 ht with ht | ht
    · exact h.current t ht
    · rw [List.mem_singleton.1 ht]
      exact le_rfl

/-- Nothing was sealed, and now something is, by another or by an import. -/
theorem Inv.sealedElsewhere (hnone : l.stores.soul = none) (soul : Json) :
    Inv env resumed { l with stores := { l.stores with soul := some soul } } := by
  refine ⟨h.history, h.sorted, h.current, h.identity, h.reached, fun _ => rfl, ?_, fun _ => rfl⟩
  intro identity soul' name hmem
  have hbuilt := (h.built identity soul' name hmem).1
  rw [hnone] at hbuilt
  cases hbuilt

/-- The document that the end of a phase finds is one of the phase. -/
theorem Inv.document {entry : String}
    (hmem : (l.state.phase, entry) ∈ said l.log) (hdoc : (documentOf env entry).isSome = true) :
    ∃ doc, extractLastJsonDocument env l.state.conversationHistory = some doc ∧
      FromPhase env l.log l.state.phase doc := by
  obtain ⟨doc, entry', hfind, hmem', hdoc'⟩ := findSome?_own h.sorted h.current hmem hdoc
  refine ⟨doc, ?_, entry', hmem', hdoc'⟩
  rw [extractLastJsonDocument_eq, h.history, hfind]

end

theorem sealLog_of_same {after : Stores} (h : after.soul = l.stores.soul) :
    l.sealLog env after = l.log := by
  rw [Loop.sealLog]
  split
  · rfl
  rw [if_pos]
  rw [h]
  cases l.stores.soul with
  | none => rfl
  | some soul => rfl

section

variable (h : Inv env resumed l)
include h

/-- The end of a phase, once its effect on the stores is known. -/
theorem Inv.stored (hhistory : state'.conversationHistory = l.state.conversationHistory)
    (hsoul : stores'.soul = l.stores.soul) (hrank : l.state.phase.rank ≤ state'.phase.rank)
    (hidentity : ∀ id, state'.identity = some id →
      resumed = some id ∨ FromPhase env l.log .identityFormation id)
    (hreached : state'.phase = .soulDefinition → state'.identity.isSome = true)
    (hlater : 3 ≤ state'.phase.rank → l.stores.soul.isSome = true) :
    Inv env resumed
      { l with state := state', stores := stores', log := l.sealLog env stores' } := by
  rw [sealLog_of_same hsoul]
  refine ⟨?_, h.sorted, fun t ht => (h.current t ht).trans hrank, hidentity, hreached, ?_, ?_, ?_⟩
  · rw [hhistory]
    exact h.history
  · rw [hsoul]
    exact hlater
  · rw [hsoul]
    exact h.built
  · rw [hsoul]
    exact h.announced

/-- A seal that was carried out. -/
theorem Inv.sealed {soul : Json}
    (hhistory : state'.conversationHistory = l.state.conversationHistory)
    (hdoc : extractLastJsonDocument env l.state.conversationHistory = some soul)
    (hnone : l.stores.soul = none)
    (hsome : stores'.soul = some (env.graph (l.state.identity.getD (.obj [])) soul l.name))
    (hphase : l.state.phase = .soulDefinition) (hfrom : FromPhase env l.log .soulDefinition soul)
    (hrank : l.state.phase.rank ≤ state'.phase.rank)
    (hidentity : state'.identity = l.state.identity) :
    Inv env resumed
      { l with state := state', stores := stores', log := l.sealLog env stores' } := by
  obtain ⟨id, hid⟩ := Option.isSome_iff_exists.1 (h.reached hphase)
  have hlog : l.sealLog env stores' = l.log ++ [.sealedFrom l.state.identity soul l.name] := by
    rw [Loop.sealLog, hdoc]
    simp [hnone, hsome]
  have hsaid : said (l.log ++ [.sealedFrom l.state.identity soul l.name]) = said l.log := by
    rw [said_append]
    simp [said]
  rw [hlog]
  refine ⟨?_, ?_, ?_, ?_, ?_, ?_, ?_, ?_⟩
  · rw [hsaid, hhistory]
    exact h.history
  · rw [hsaid]
    exact h.sorted
  · rw [hsaid]
    exact fun t ht => (h.current t ht).trans hrank
  · rw [hidentity]
    exact h.identity_append _
  · rw [hidentity, hid]
    exact fun _ => rfl
  · rw [hsome]
    exact fun _ => rfl
  · intro identity soul' name hmem
    rcases List.mem_append.1 hmem with hmem | hmem
    · have hbuilt := (h.built identity soul' name hmem).1
      rw [hnone] at hbuilt
      cases hbuilt
    · obtain ⟨rfl, rfl, rfl⟩ := Record.sealedFrom.inj (List.mem_singleton.1 hmem)
      exact ⟨hsome, hfrom.append _, id, hid, h.identity_append _ id hid⟩
  · rw [hsome]
    exact fun _ => rfl

section

variable (hown : l.state.phase = .identityFormation ∨ l.state.phase = .soulDefinition →
  ∃ entry, (l.state.phase, entry) ∈ said l.log ∧ (documentOf env entry).isSome = true)
include hown

theorem Inv.handled (hH : Handled env l.state l.name l.stores stores' state') :
    Inv env resumed
      { l with state := state', stores := stores', log := l.sealLog env stores' } := by
  obtain ⟨hhistory, hcases⟩ := hH
  cases hphase : l.state.phase with
  | userConfiguration =>
    rw [hphase] at hcases
    obtain ⟨hidentity, hsoul, hphase'⟩ := hcases
    have hrank : state'.phase.rank < 2 := by
      rcases hphase' with heq | heq
      · rw [heq]
        decide
      · rw [heq]
        decide
    refine h.stored hhistory hsoul (by rw [hphase]; exact Nat.zero_le _) ?_ ?_ ?_
    · rw [hidentity]
      exact h.identity
    · intro heq
      rw [heq] at hrank
      exact absurd hrank (by decide)
    · intro hlater
      omega
  | identityFormation =>
    obtain ⟨entry, hmem, hdoc⟩ := hown (Or.inl hphase)
    obtain ⟨id, hid, hfrom⟩ := h.document hmem hdoc
    rw [hphase, hid] at hcases
    rw [hphase] at hfrom
    obtain ⟨hidentity, hsoul, hphase'⟩ := hcases
    have hrank : 1 ≤ state'.phase.rank ∧ state'.phase.rank < 3 := by
      rcases hphase' with heq | heq
      · rw [heq]
        decide
      · rw [heq]
        decide
    refine h.stored hhistory hsoul (by rw [hphase]; exact hrank.1) ?_ ?_ ?_
    · intro id' hid'
      rw [hidentity] at hid'
      obtain rfl := Option.some.inj hid'
      exact Or.inr hfrom
    · rw [hidentity]
      exact fun _ => rfl
    · intro hlater
      omega
  | soulDefinition =>
    obtain ⟨entry, hmem, hdoc⟩ := hown (Or.inr hphase)
    obtain ⟨soul, hsoul, hfrom⟩ := h.document hmem hdoc
    rw [hphase, hsoul] at hcases
    rw [hphase] at hfrom
    obtain ⟨hidentity, hstores, hphase'⟩ := hcases
    have hrank : l.state.phase.rank ≤ state'.phase.rank := by
      rw [hphase]
      rcases hphase' with heq | ⟨heq, -⟩
      · rw [heq]
      · rw [heq]
        decide
    rcases hstores with hsame | ⟨hnone, hsome⟩
    · refine h.stored hhistory hsame hrank ?_ ?_ ?_
      · rw [hidentity]
        exact h.identity
      · rw [hidentity]
        exact fun _ => h.reached hphase
      · intro hlater
        rcases hphase' with heq | ⟨-, hsome⟩
        · rw [heq] at hlater
          exact absurd hlater (by decide)
        · rwa [hsame] at hsome
    · exact h.sealed hhistory hsoul hnone hsome hphase hfrom hrank hidentity
  | initialToolset | confirmation | complete =>
    rw [hphase] at hcases
    obtain ⟨hidentity, hsoul, hlater, hrank⟩ := hcases
    refine h.stored hhistory hsoul (by rw [hphase]; exact hrank) ?_ ?_ ?_
    · rw [hidentity]
      exact h.identity
    · intro heq
      rw [heq] at hlater
      exact absurd hlater (by decide)
    · exact fun _ => h.soul (by rw [hphase]; decide)

theorem Inv.phaseComplete (kickoff : Bool) (reply : StoreCall → Reply) :
    Inv env resumed (l.phaseComplete env kickoff reply) := by
  have hH := (always_handlePhaseComplete env l.state l.name l.stores).run reply _ _
  have hmid := h.handled hown hH
  rw [Loop.phaseComplete]
  split
  · rename_i hcomplete
    have hsoul := hmid.soul (by
      show 3 ≤ (run server reply (handlePhaseComplete env l.state l.name) l.stores).2.1.phase.rank
      rw [hcomplete]
      decide)
    exact (hmid.logged .announced rfl (fun _ _ _ => by simp) (fun _ => hsoul)).congr rfl rfl rfl
  · exact hmid.congr rfl rfl rfl

end

/-- The phase that asks no model. -/
theorem Inv.toolset (hphase : l.state.phase = .initialToolset) (reply : StoreCall → Reply) :
    Inv env resumed { l with
      state := (run server reply (handlePhaseComplete env l.state l.name) l.stores).2.1
      stores := (run server reply (handlePhaseComplete env l.state l.name) l.stores).1
      log := l.log ++ [.toolset] } := by
  have hH := (always_handlePhaseComplete env l.state l.name l.stores).run reply _ _
  have hmid := h.handled (by simp [hphase]) hH
  have hsame : l.sealLog env
      (run server reply (handlePhaseComplete env l.state l.name) l.stores).1 = l.log := by
    apply sealLog_of_same
    have hcases := hH.2
    rw [hphase] at hcases
    exact hcases.2.1
  have hlogged := hmid.logged .toolset rfl (fun _ _ _ => by simp) nofun
  rw [hsame] at hlogged
  exact hlogged

theorem Inv.proceed {reply : StoreCall → Reply}
    (hstep : l.proceed env reply = some l') : Inv env resumed l' := by
  rw [Loop.proceed.eq_def] at hstep
  split at hstep
  · obtain rfl := Option.some.inj hstep
    exact h.congr rfl rfl rfl
  · rename_i hphase
    obtain rfl := Option.some.inj hstep
    exact h.toolset hphase reply
  · split at hstep
    · cases hstep
    · obtain rfl := Option.some.inj hstep
      have hlogged := (h.pushUser (phaseKickoff l.state.phase)).logged (.kickoff l.state.phase) rfl
        (fun _ _ _ => by simp) nofun
      exact hlogged.congr rfl rfl rfl

theorem Inv.offer {outcome : ImportOutcome}
    (hstep : l.offer outcome = some l') : Inv env resumed l' := by
  rw [Loop.offer] at hstep
  split at hstep
  · rename_i hphase
    dsimp only at hstep
    cases outcome with
    | noCandidates | conversational | disconnected | failed =>
      obtain rfl := Option.some.inj hstep
      exact h.congr rfl rfl rfl
    | imported graph renamedTo =>
      dsimp only at hstep
      split at hstep
      · cases hstep
      rename_i hnone
      obtain rfl := Option.some.inj hstep
      have hsoul : l.stores.soul = none := by simpa using hnone
      have helse := h.sealedElsewhere hsoul graph
      refine ⟨helse.history, helse.sorted, ?_, helse.identity, ?_, fun _ => rfl, helse.built,
        fun _ => rfl⟩
      · intro t ht
        refine (h.current t ht).trans ?_
        rw [hphase.1]
        simp [LearningPhase.rank]
      · exact nofun
    | sealedByOtherStream =>
      dsimp only at hstep
      split at hstep
      · rename_i hsoul
        obtain rfl := Option.some.inj hstep
        exact (h.logged .announced rfl (fun _ _ _ => by simp) (fun _ => hsoul)).congr rfl rfl rfl
      · cases hstep
  · cases hstep

/-- One event. -/
theorem Inv.step {e : Event} (hmeets : meets env l e = true)
    (hstep : l.step env e = some l') : Inv env resumed l' := by
  rw [Loop.step.eq_def] at hstep
  split at hstep
  · exact h.proceed hstep
  · exact h.offer hstep
  · rename_i a reply kickoff _
    obtain rfl := Option.some.inj hstep
    split
    · rename_i hcomplete
      apply (h.hear a).phaseComplete
      intro hphase
      change ownDocument env l a = true at hmeets
      have hin : l.state.phase = .identityFormation ∨ l.state.phase = .soulDefinition := hphase
      rw [ownDocument, hcomplete] at hmeets
      have hany : (said (l.hear a).log).any (fun t =>
          t.1 = l.state.phase && (documentOf env t.2).isSome) = true := by
        rcases hin with heq | heq
        · simpa [heq] using hmeets
        · simpa [heq] using hmeets
      obtain ⟨⟨phase, entry⟩, hmem, hown⟩ := List.any_eq_true.1 hany
      rw [Bool.and_eq_true, decide_eq_true_eq] at hown
      obtain ⟨rfl, hdoc⟩ := hown
      exact ⟨entry, hmem, hdoc⟩
    · exact (h.hear a).congr rfl rfl rfl
  · obtain rfl := Option.some.inj hstep
    exact h.congr rfl rfl rfl
  · rename_i content _
    obtain rfl := Option.some.inj hstep
    have hlogged := (h.pushUser content).logged .heard rfl (fun _ _ _ => by simp)
      nofun
    exact hlogged.congr rfl rfl rfl
  · obtain rfl := Option.some.inj hstep
    exact h
  · split at hstep
    · rename_i hsealed
      obtain rfl := Option.some.inj hstep
      rw [Bool.and_eq_true] at hsealed
      exact (h.logged .announced rfl (fun _ _ _ => by simp) (fun _ => hsealed.2)).congr rfl rfl rfl
    · obtain rfl := Option.some.inj hstep
      exact h
  · obtain rfl := Option.some.inj hstep
    exact h.congr rfl rfl rfl
  · split at hstep
    · cases hstep
    · rename_i hnone
      obtain rfl := Option.some.inj hstep
      exact h.sealedElsewhere (by simpa using hnone) _
  · cases hstep

end

/-- A whole run. -/
theorem Inv.runs (es : List Event) :
    ∀ l l' : Loop, Inv env resumed l → allMeet env l es = true → l.runs env es = some l' →
      Inv env resumed l' := by
  induction es with
  | nil =>
    intro l l' h _ hruns
    obtain rfl := Option.some.inj hruns
    exact h
  | cons e es ih =>
    intro l l' h hmeet hruns
    obtain ⟨l₁, hstep, hrest⟩ := Option.bind_eq_some_iff.1 hruns
    rw [allMeet, hstep, Bool.and_eq_true] at hmeet
    exact ih l₁ l' (h.step hmeet.1 hstep) hmeet.2 hrest

theorem inv_start (stores : Stores) : Inv env stores.identity (start stores) := by
  have hrank : (start stores).state.phase.rank ≤ 2 := by
    rw [start]
    dsimp only
    split
    · decide
    · split
      · decide
      · decide
  refine ⟨rfl, List.Pairwise.nil, ?_, fun id hid => Or.inl hid, ?_, ?_, ?_, ?_⟩
  · exact nofun
  · intro hphase
    rw [start] at hphase ⊢
    dsimp only at hphase ⊢
    by_contra hnone
    rw [if_neg hnone] at hphase
    split at hphase
    · cases hphase
    · cases hphase
  · intro hlater
    omega
  · exact nofun
  · exact nofun

end Loop

/-- **What is sealed, and when it is announced**, after a run in which the identity phase
and the soul phase each end with a document of their own. -/
theorem sealed_from_own_phases (env : Env) (stores : Stores) (es : List Event) (l : Loop)
    (hmeet : allMeet env (start stores) es = true)
    (hruns : (start stores).runs env es = some l) : Sound env stores.identity l := by
  have h := Inv.runs es _ _ (inv_start stores) hmeet hruns
  refine ⟨h.built, ?_, h.announced⟩
  intro hcomplete
  apply h.soul
  rw [hcomplete]
  decide

/-! ## Two runs -/

def demoIdentity : Json := .obj [("name", .str "Embra")]

def demoSoul : Json := .obj [("purpose", .str "candor")]

/-- Reads two documents, and seals them side by side. -/
def demoEnv : Env where
  read t :=
    if t = "\x7b\"name\":\"Embra\"\x7d".toList then some demoIdentity
    else if t = "\x7b\"purpose\":\"candor\"\x7d".toList then some demoSoul
    else none
  graph identity soul _ := .arr [identity, soul]
  toolsRegistryDoc := .obj [("policy", .str "all_enabled")]

def demoStores : Stores := ⟨none, none, none, [], "Embra"⟩

def answered : StoreCall → Reply := fun _ => .answered

/-- A phase that ends at its kickoff, on that answer. -/
def phaseEvents (text : String) : List Event :=
  [.proceed answered, .answer ⟨text ++ "[PHASE_COMPLETE]", false⟩ answered]

/-- Every phase ends at its kickoff; the answers of the identity and the soul phase. -/
def demoEvents (identity soul : String) : List Event :=
  phaseEvents "Noted." ++ [.offer .noCandidates] ++ phaseEvents identity ++ phaseEvents soul ++
    [.proceed answered] ++ phaseEvents "All set."

def identityAnswer : String := "```json\n\x7b\"name\":\"Embra\"\x7d\n```"

def soulAnswer : String := "```json\n\x7b\"purpose\":\"candor\"\x7d\n```"

def demoRun (identity soul : String) : Option Loop :=
  (start demoStores).runs demoEnv (demoEvents identity soul)

theorem sealed_from_own_phases_demo :
    ∃ l, demoRun identityAnswer soulAnswer = some l ∧ Sound demoEnv none l ∧
      l.stores.soul = some (.arr [demoIdentity, demoSoul]) := by
  have hsoul : (demoRun identityAnswer soulAnswer).map (fun l => l.stores.soul) =
      some (some (.arr [demoIdentity, demoSoul])) := rfl
  obtain ⟨l, hl, hsealed⟩ := Option.map_eq_some_iff.1 hsoul
  refine ⟨l, hl, ?_, hsealed⟩
  exact sealed_from_own_phases demoEnv demoStores (demoEvents identityAnswer soulAnswer) l
    (by decide +kernel) hl

/-- The souls that a run sealed. -/
def sealedSouls (log : List Record) : List Json :=
  log.filterMap fun
    | .sealedFrom _ soul _ => some soul
    | _ => none

def soulTurns (log : List Record) : List String :=
  ((said log).filter (fun t => t.1 = .soulDefinition)).map Prod.snd

def isAnnounced : Record → Bool
  | .announced => true
  | _ => false

/-- A soul phase that ends without a document seals the identity in its place; and
without any document, the loop completes and announces a seal that was not made. -/
theorem sealed_from_other_phase : (demoRun identityAnswer "Agreed.").map (fun l =>
        (l.stores.soul, sealedSouls l.log, soulTurns l.log)) =
      some (some (.arr [demoIdentity, demoIdentity]), [demoIdentity], ["Agreed."]) ∧
    (demoRun "Agreed." "Agreed.").map (fun l =>
        (l.stores.soul.isNone, l.state.phase, l.log.any isAnnounced)) =
      some (true, .complete, true) :=
  ⟨rfl, by decide +kernel⟩

end EmbraOS.Ports.LearningLoop
