import EmbraOS.Verified.Calls
import EmbraOS.Ports.Validator

/-!
# The records of the dynamic tools

Port of the commands that write `guardian.tools`
(`embra-brain/src/guardian/mod.rs`): the model's `propose`, and the operator's
`define`, `approve`, `reject` and `rebuild` with the build they spawn.  Each is a
program of database calls, so that they interleave call by call; what a command
asks of the model, the compiler and the clock is its own input.  Gate 1, the
validator, is the port in `Validator`; here it is a parameter.

`propose` looks at the record before the replicant check and writes it after.
`propose_keeps_records` says when no other write comes between, and
`propose_overwrites` that otherwise a working tool is overwritten.
-/

namespace EmbraOS.Ports.Guardian

open Verified.Calls
open Verified.Serde
open Verified.Text
open Ports.Validator (ValidatedModule)

/-! ## Records -/

inductive ToolStatus where
  | proposed
  | building
  | ready
  | failed
  deriving DecidableEq, Repr

/-- `{:?}` in lower case. -/
def ToolStatus.lower : ToolStatus → String
  | .proposed => "proposed"
  | .building => "building"
  | .ready => "ready"
  | .failed => "failed"

structure ReplicantVerdict where
  verdict : String
  touchedLines : List String
  rationale : String
  deriving DecidableEq, Repr

def ReplicantVerdict.isRefuse (v : ReplicantVerdict) : Bool := v.verdict == "refuse"

def ReplicantVerdict.isEscalate (v : ReplicantVerdict) : Bool := v.verdict == "escalate"

structure ReplicantRecord where
  verdict : String
  touchedLines : List String
  rationale : String
  model : String
  judgedAt : String
  deriving DecidableEq, Repr

def replicantRecord (v : ReplicantVerdict) (model now : String) : ReplicantRecord where
  verdict := v.verdict
  touchedLines := v.touchedLines
  rationale := v.rationale
  model := model
  judgedAt := now

structure ShippedRecord where
  sha256 : String
  installedAt : String
  deriving DecidableEq, Repr

structure ToolDoc where
  formatVersion : Nat
  name : String
  description : String
  inputSchema : Json
  source : String
  caps : List String
  status : ToolStatus
  toolchainVersion : String
  sourceSha256 : String
  buildLogTail : String
  artifactSha256 : Option String
  replicant : Option ReplicantRecord
  shipped : Option ShippedRecord
  createdAt : String
  updatedAt : String

/-- What the collection holds under a name: a document that reads as a `ToolDoc`,
or one that does not, with what its status field says. -/
inductive Stored where
  | tool (doc : ToolDoc)
  | unreadable (status : Option ToolStatus)

/-- `ToolDoc::from_value(..).ok()`. -/
def Stored.toolDoc? : Stored → Option ToolDoc
  | .tool doc => some doc
  | .unreadable _ => none

def Stored.status? : Stored → Option ToolStatus
  | .tool doc => some doc.status
  | .unreadable status => status

/-! ## The collection -/

inductive DbCall where
  | read (name : String)
  | update (name : String) (doc : ToolDoc)
  | write (doc : ToolDoc)
  | delete (name : String)

@[reducible] def api : Api where
  Call := DbCall
  Ans
    | .read _ => Stored
    | _ => Unit

abbrev Store := String → Option Stored

/-- A document that is not there cannot be read, replaced or deleted, and an id is
written once. -/
def server : Server api Store where
  exec
    | .read name, s => (s name).map (fun stored => (s, stored))
    | .update name doc, s =>
      match s name with
      | none => none
      | some _ => some (Function.update s name (some (.tool doc)), ())
    | .write doc, s =>
      match s doc.name with
      | none => some (Function.update s doc.name (some (.tool doc)), ())
      | some _ => none
    | .delete name, s =>
      match s name with
      | none => none
      | some _ => some (Function.update s name none, ())

/-! ## What a command is given -/

/-- How a build ends. -/
inductive BuildOutcome where
  | scaffoldFailed (e : String)
  | buildFailed (e : String)
  | noOverlay
  | loadFailed (e : String)
  | built (wasm : List UInt8) (logTail : String)

/-- The parts of the host that do not change: the validator, with the text of its
errors, the skeleton it offers, the hash, and the text of a failed write. -/
structure Host where
  validate : String → Except String ValidatedModule
  template : String
  sha256Hex : String → String
  sha256HexBytes : List UInt8 → String
  writeError : String

/-- What a command gets besides the records: the configuration, the outcome of
the replicant check with the judging model, the toolchain, whether the tool is
loaded, whether a batch is running, the clock at each reading, the build. -/
structure Inputs where
  config : Except String Unit
  check : Except String (Option (ReplicantVerdict × String))
  toolchain : String
  loaded : Bool
  batch : Bool
  clock : Nat → String
  build : BuildOutcome

/-- `Ok` is the text a command answers with, `Err` that of a failed proposal. -/
abbrev Program := Prog api (Except String String)

variable (host : Host)

/-- `ToolDoc::building`. -/
def building (m : ValidatedModule) (toolchain now : String) : ToolDoc where
  formatVersion := 1
  name := m.name
  description := m.description
  inputSchema := m.inputSchema
  source := m.source
  caps := m.caps
  status := .building
  toolchainVersion := toolchain
  sourceSha256 := host.sha256Hex m.source
  buildLogTail := ""
  artifactSha256 := none
  replicant := none
  shipped := none
  createdAt := now
  updatedAt := now

/-- `upsert`, and what follows it. -/
def upsert (doc : ToolDoc) (k : Except String Unit → Program) : Program :=
  .call (.update doc.name doc) (fun
    | some () => k (.ok ())
    | none =>
      .call (.write doc) (fun
        | some () => k (.ok ())
        | none => k (.error host.writeError)))

/-- `load_doc`, and what follows it.  A read that failed and a document that does
not deserialize are both `None`. -/
def loadDoc (name : String) (k : Option ToolDoc → Program) : Program :=
  .call (.read name) (fun ans => k (ans.bind Stored.toolDoc?))

/-! ## Texts -/

/-- `{:?}` of capability names. -/
def capsDebug (caps : List String) : String :=
  "[" ++ join ", " (caps.map (fun c => "\"" ++ c ++ "\"")) ++ "]"

def capsText (caps : List String) : String :=
  if caps.isEmpty then "" else " (capabilities: " ++ capsDebug caps ++ ")"

def touchedText (v : ReplicantVerdict) : String :=
  if v.touchedLines.isEmpty then "" else " (touched: " ++ join "; " v.touchedLines ++ ")"

def emptyText : String :=
  "guardian: empty module. Use /guardian-define and paste a Rust module (marker + GUARDIAN_* + " ++
    "fn run)."

def invalidText (e : String) : String :=
  "guardian: validation failed — " ++ e ++ "\n\nStart from this exact skeleton and adjust:\n" ++
    host.template

def remedy (name : String) : String := "/guardian rebuild " ++ name

/-! ## The build -/

/-- `mark`: the record of a build's outcome. -/
def mark (m : ValidatedModule) (toolchain : String) (status : ToolStatus) (logTail : String)
    (artifactSha256 : Option String) (now : String) (k : Program) : Program :=
  loadDoc m.name (fun found =>
    let d := found.getD (building host m toolchain now)
    upsert host
      { d with
        status := status
        toolchainVersion := toolchain
        buildLogTail := String.ofList (logTail.toList.take (8 * 1024))
        artifactSha256 := artifactSha256
        updatedAt := now }
      (fun _ => k))

/-- `build_and_register`, at the reading `n` of the clock. -/
def buildAndRegister (m : ValidatedModule) (i : Inputs) (n : Nat) (k : Program) : Program :=
  let markFailed (why : String) := mark host m i.toolchain .failed why none (i.clock n) k
  match i.build with
  | .scaffoldFailed e => markFailed ("scaffold: " ++ e)
  | .buildFailed e => markFailed e
  | .noOverlay => markFailed "overlay not initialized"
  | .loadFailed e => markFailed ("wasm load: " ++ e)
  | .built wasm logTail =>
    mark host m i.toolchain .ready logTail (some (host.sha256HexBytes wasm)) (i.clock n) k

/-! ## The model's proposal -/

def proposalIsBlockedBy : ToolStatus → Option String
  | .ready =>
    some ("already exists; choose a different name, or ask the operator to /guardian delete " ++
      "it first")
  | .building =>
    some ("already exists; choose a different name, or ask the operator to /guardian delete " ++
      "it first")
  | .proposed =>
    some ("is a pending proposal; the operator decides it with /guardian approve or " ++
      "/guardian reject before another is made under this name")
  | .failed => none

def proposedText (m : ValidatedModule) (v : ReplicantVerdict) : String :=
  if v.isEscalate then
    "guardian: '" ++ m.name ++ "' is proposed" ++ capsText m.caps ++
      ", but the replicant check ESCALATED it for the operator's judgment — " ++ v.rationale ++
      ". Relay to the operator: review with /guardian show " ++ m.name ++
      ", then /guardian approve " ++ m.name ++ " to build it (or /guardian reject " ++ m.name ++
      "). It will NOT run until approved."
  else
    "guardian: '" ++ m.name ++ "' passed the replicant check and is proposed" ++
      capsText m.caps ++ ". It will NOT run until the operator approves it. Relay to the " ++
      "operator: review with /guardian show " ++ m.name ++ ", then /guardian approve " ++
      m.name ++ " to build and enable it (or /guardian reject " ++ m.name ++ ")."

/-- Gate 2 and the record, once the guard has let the proposal through. -/
def proposeChecked (m : ValidatedModule) (i : Inputs) : Program :=
  match i.check with
  | .error e =>
    .done (.error ("guardian: " ++ e ++ ". No proposal recorded — try again."))
  | .ok none =>
    .done (.error ("guardian: replicant check could not run — no sealed soul to evaluate " ++
      "against."))
  | .ok (some (verdict, model)) =>
    if verdict.isRefuse then
      .done (.error ("guardian: '" ++ m.name ++ "' did not pass the replicant check" ++
        touchedText verdict ++ " — " ++ verdict.rationale ++ ". No proposal recorded."))
    else
      let now := i.clock 0
      upsert host
        { building host m i.toolchain now with
          status := .proposed
          replicant := some (replicantRecord verdict model now) }
        (fun
          | .error e =>
            .done (.error ("guardian: could not persist proposal '" ++ m.name ++ "' — " ++ e))
          | .ok () => .done (.ok (proposedText m verdict)))

def propose (source : String) (i : Inputs) : Program :=
  if trim source = "" then
    .done (.error
      "guardian: empty module. Provide a Rust module (marker + GUARDIAN_* + fn run).")
  else
    match host.validate source with
    | .error e => .done (.error (invalidText host e))
    | .ok m =>
      loadDoc m.name (fun existing =>
        match existing.bind
            (fun d => (proposalIsBlockedBy d.status).map (fun why => (d, why))) with
        | some (d, why) =>
          .done (.error ("guardian: a tool named '" ++ m.name ++ "' " ++ why ++
            " (status: " ++ d.status.lower ++ ")."))
        | none => proposeChecked host m i)

/-! ## The operator's commands -/

/-- `define`.  The answer is given before the build; the build is the same task. -/
def define (source : String) (i : Inputs) : Program :=
  if trim source = "" then .done (.ok emptyText)
  else
    match host.validate source with
    | .error e => .done (.ok (invalidText host e))
    | .ok m =>
      match i.config with
      | .error e =>
        .done (.ok ("guardian: could not load config for the replicant check (" ++ e ++
          "). '" ++ m.name ++ "' not compiled."))
      | .ok () =>
        let record (replicant : Option ReplicantRecord) : Program :=
          upsert host { building host m i.toolchain (i.clock 0) with replicant := replicant }
            (fun
              | .error e =>
                .done (.ok ("guardian: could not persist '" ++ m.name ++ "' — " ++ e))
              | .ok () =>
                let warn :=
                  if replicant.any (fun r => r.verdict == "escalate") then
                    " The replicant check ESCALATED this as soul-borderline — review it " ++
                      "with /guardian show."
                  else ""
                buildAndRegister host m i 1
                  (.done (.ok ("guardian: '" ++ m.name ++ "' validated" ++ capsText m.caps ++
                    "." ++ warn ++ " Building in background — poll with `/guardian status " ++
                    m.name ++ "` or the guardian_call status action."))))
        match i.check with
        | .error e =>
          .done (.ok ("guardian: " ++ e ++ ". '" ++ m.name ++
            "' not compiled — try again."))
        | .ok none => record none
        | .ok (some (verdict, model)) =>
          if verdict.isRefuse then
            .done (.ok ("guardian: '" ++ m.name ++ "' did not pass the replicant check" ++
              touchedText verdict ++ " — " ++ verdict.rationale ++
              ". Not compiled — the soul outranks even an operator paste."))
          else record (some (replicantRecord verdict model (i.clock 0)))

/-- `approve`, from the stored proposal on. -/
def approveDoc (name : String) (doc : ToolDoc) (i : Inputs) : Program :=
  match host.validate doc.source with
  | .error e =>
    .done (.ok ("guardian: proposal '" ++ name ++ "' no longer validates (" ++ e ++
      "). Not built — have the intelligence re-propose."))
  | .ok m =>
    if doc.sourceSha256 ≠ host.sha256Hex doc.source then
      .done (.ok ("guardian: proposal '" ++ name ++ "' changed since it was recorded (its " ++
        "source no longer matches its hash). Not built — have the intelligence re-propose."))
    else
      match i.config, i.check with
      | .error e, _ =>
        .done (.ok ("guardian: could not load config for the replicant check (" ++ e ++
          "). '" ++ name ++ "' not built."))
      | .ok (), .error e =>
        .done (.ok ("guardian: " ++ e ++ ". '" ++ name ++ "' not built — try again."))
      | .ok (), .ok none =>
        .done (.ok ("guardian: no sealed soul to check '" ++ name ++
          "' against. Not built."))
      | .ok (), .ok (some (verdict, model)) =>
        if verdict.isRefuse then
          .done (.ok ("guardian: '" ++ name ++ "' did not pass the replicant check" ++
            touchedText verdict ++ " — " ++ verdict.rationale ++ ". Not built."))
        else
          upsert host
            { doc with
              status := .building
              replicant := some (replicantRecord verdict model (i.clock 0))
              updatedAt := i.clock 0 }
            (fun
              | .error e =>
                .done (.ok ("guardian: could not start build for '" ++ name ++ "' — " ++ e))
              | .ok () =>
                buildAndRegister host m i 1
                  (.done (.ok ("guardian: '" ++ name ++ "' approved" ++ capsText m.caps ++
                    " — building in background. Poll with /guardian status " ++ name ++
                    " or the guardian_call status action."))))

def approve (name : String) (i : Inputs) : Program :=
  if name = "" then .done (.ok "Usage: /guardian approve <name>")
  else
    loadDoc name (fun
      | none => .done (.ok ("guardian: no such proposal '" ++ name ++ "'."))
      | some doc =>
        match doc.status with
        | .ready => .done (.ok ("guardian: '" ++ name ++ "' is already built and ready."))
        | .building =>
          .done (.ok ("guardian: '" ++ name ++
            "' is already building — poll with /guardian status " ++ name ++ "."))
        | .failed =>
          .done (.ok ("guardian: '" ++ name ++ "' was approved before and failed to build — " ++
            remedy name ++ " retries it (/guardian status " ++ name ++ " shows the log)."))
        | .proposed => approveDoc host name doc i)

def reject (name : String) : Program :=
  if name = "" then .done (.ok "Usage: /guardian reject <name>")
  else
    loadDoc name (fun
      | none => .done (.ok ("guardian: no such proposal '" ++ name ++ "'."))
      | some d =>
        if d.status = .proposed then
          .call (.delete name) (fun _ =>
            .done (.ok ("guardian: proposal '" ++ name ++ "' rejected and removed.")))
        else
          .done (.ok ("guardian: '" ++ name ++ "' is not a pending proposal (status: " ++
            d.status.lower ++ "). Use /guardian delete to remove a built tool.")))

inductive RebuildDecision where
  | rebuild
  | upToDate
  | awaitingApproval
  | alreadyBuilding
  deriving DecidableEq, Repr

def rebuildDecision (doc : ToolDoc) (currentToolchain : String) (loaded : Bool) :
    RebuildDecision :=
  match doc.status with
  | .proposed => .awaitingApproval
  | .building => .alreadyBuilding
  | .failed => .rebuild
  | .ready =>
    if loaded && doc.toolchainVersion == currentToolchain then .upToDate else .rebuild

/-- `rebuild_gates`. -/
def rebuildGates (doc : ToolDoc) (i : Inputs) :
    Except String (ValidatedModule × Option ReplicantRecord) :=
  match host.validate doc.source with
  | .error e => .error ("the stored module no longer validates (" ++ e ++ ")")
  | .ok m =>
    if m.name ≠ doc.name then
      .error ("the stored module names itself '" ++ m.name ++ "', not '" ++ doc.name ++ "'")
    else
      match i.config, i.check with
      | .error e, _ => .error ("could not load config for the replicant check (" ++ e ++ ")")
      | .ok (), .error e => .error e
      | .ok (), .ok none => .ok (m, none)
      | .ok (), .ok (some (verdict, model)) =>
        if verdict.isRefuse then
          .error ("it did not pass the replicant check" ++ touchedText verdict ++ " — " ++
            verdict.rationale)
        else .ok (m, some (replicantRecord verdict model (i.clock 0)))

/-- `record_rebuild_stopped`. -/
def recordRebuildStopped (doc : ToolDoc) (why : String) (i : Inputs) (k : Program) : Program :=
  upsert host
    { doc with
      buildLogTail := String.ofList (("not rebuilt: " ++ why).toList.take (8 * 1024))
      updatedAt := i.clock 1 }
    (fun _ => k)

/-- `begin_rebuild`. -/
def beginRebuild (doc : ToolDoc) (record : Option ReplicantRecord) (i : Inputs)
    (k : Except String Unit → Program) : Program :=
  upsert host
    { doc with
      status := .building
      updatedAt := i.clock 1
      replicant := record.or doc.replicant } k

def gatesPassedText : Option ReplicantRecord → String
  | some r =>
    if r.verdict = "escalate" then
      "passed validation; the replicant check ESCALATED it as soul-borderline (review with " ++
        "/guardian show)"
    else "passed validation and the replicant check"
  | none => "passed validation (no soul is sealed, so there was no replicant check)"

def rebuildNamed (name : String) (i : Inputs) : Program :=
  if i.batch then
    .done (.ok ("guardian: a rebuild of all tools is running — /guardian list shows progress. " ++
      "Try again when it is done."))
  else
    loadDoc name (fun
      | none => .done (.ok ("guardian: no such tool '" ++ name ++ "'."))
      | some doc =>
        match rebuildDecision doc i.toolchain i.loaded with
        | .upToDate =>
          .done (.ok ("guardian: '" ++ name ++
            "' is loaded and built with the current toolchain (" ++ i.toolchain ++
            ") — nothing to rebuild."))
        | .awaitingApproval =>
          .done (.ok ("guardian: '" ++ name ++
            "' is a proposal, not a built tool — /guardian approve " ++ name ++
            " builds it, /guardian reject " ++ name ++ " discards it."))
        | .alreadyBuilding =>
          .done (.ok ("guardian: '" ++ name ++
            "' is already building — poll with /guardian status " ++ name ++ "."))
        | .rebuild =>
          match rebuildGates host doc i with
          | .error why =>
            recordRebuildStopped host doc why i
              (.done (.ok ("guardian: '" ++ name ++ "' not rebuilt — " ++ why ++ ".")))
          | .ok (m, record) =>
            beginRebuild host doc record i (fun
              | .error e =>
                .done (.ok ("guardian: could not start the rebuild of '" ++ name ++
                  "' — " ++ e))
              | .ok () =>
                buildAndRegister host m i 2
                  (.done (.ok ("guardian: '" ++ name ++ "' " ++ gatesPassedText record ++
                    ". Rebuilding in the background — poll with /guardian status " ++
                    name ++ ".")))))

/-- One tool of a `rebuild --all`; it only logs, so that it has no text. -/
def rebuildInBatch (name : String) (i : Inputs) : Program :=
  loadDoc name (fun
    | none => .done (.ok "")
    | some doc =>
      if rebuildDecision doc i.toolchain i.loaded ≠ .rebuild then .done (.ok "")
      else
        match rebuildGates host doc i with
        | .error why => recordRebuildStopped host doc why i (.done (.ok ""))
        | .ok (m, record) =>
          beginRebuild host doc record i (fun
            | .error _ => .done (.ok "")
            | .ok () => buildAndRegister host m i 2 (.done (.ok ""))))

inductive Command where
  | propose (source : String)
  | define (source : String)
  | approve (name : String)
  | reject (name : String)
  | rebuild (name : String)
  | rebuildInBatch (name : String)
  deriving DecidableEq, Repr

def Command.program (i : Inputs) : Command → Program
  | .propose source => Guardian.propose host source i
  | .define source => Guardian.define host source i
  | .approve name => Guardian.approve host name i
  | .reject name => Guardian.reject name
  | .rebuild name => rebuildNamed host name i
  | .rebuildInBatch name => Guardian.rebuildInBatch host name i

def Command.isPropose : Command → Bool
  | .propose _ => true
  | _ => false

/-! ## Where a proposal stands -/

/-- A record a proposal must leave alone: a working tool, a running build or a
pending proposal. -/
def protectedStatus : ToolStatus → Bool
  | .failed => false
  | _ => true

def isProtected : Option Stored → Bool
  | some stored => stored.status?.any protectedStatus
  | none => false

def AtEnd (p : Program) : Prop := ∃ a, p = .done a

/-- Before the write that follows a failed update. -/
def AtWrite (p : Program) : Prop :=
  ∃ doc k, p = .call (.write doc) k ∧ ∀ ans, AtEnd (k ans)

/-- Before the update of the record `name`. -/
def AtUpdate (name : String) (p : Program) : Prop :=
  ∃ doc k, p = .call (.update name doc) k ∧ ∀ ans, AtEnd (k ans) ∨ AtWrite (k ans)

/-- Before the guard: it goes on only past a record it does not see, or one of a
failed build. -/
def AtGuard (p : Program) : Prop :=
  ∃ name k, p = .call (.read name) k ∧
    ∀ ans, AtEnd (k ans) ∨
      (AtUpdate name (k ans) ∧ ∀ doc, ans = some (.tool doc) → doc.status = .failed)

theorem atUpdate_upsert {host : Host} {doc : ToolDoc} {k : Except String Unit → Program}
    (hk : ∀ r, AtEnd (k r)) : AtUpdate doc.name (upsert host doc k) := by
  refine ⟨doc, _, rfl, ?_⟩
  intro ans
  cases ans with
  | some u => exact Or.inl (hk _)
  | none =>
    refine Or.inr ⟨doc, _, rfl, ?_⟩
    intro ans
    cases ans with
    | some u => exact hk _
    | none => exact hk _

theorem proposeChecked_at {host : Host} {m : ValidatedModule} {i : Inputs} :
    AtEnd (proposeChecked host m i) ∨ AtUpdate m.name (proposeChecked host m i) := by
  unfold proposeChecked
  split
  · exact Or.inl ⟨_, rfl⟩
  · exact Or.inl ⟨_, rfl⟩
  rename_i verdict model _
  split
  · exact Or.inl ⟨_, rfl⟩
  refine Or.inr (atUpdate_upsert ?_)
  intro r
  cases r with
  | error e => exact ⟨_, rfl⟩
  | ok u => exact ⟨_, rfl⟩

theorem proposalIsBlockedBy_eq_none {status : ToolStatus} :
    proposalIsBlockedBy status = none ↔ status = .failed := by
  cases status <;> simp [proposalIsBlockedBy]

/-- A proposal ends at once or begins with its guard. -/
theorem propose_at (source : String) (i : Inputs) :
    AtEnd (propose host source i) ∨ AtGuard (propose host source i) := by
  unfold propose
  split
  · exact Or.inl ⟨_, rfl⟩
  split
  · exact Or.inl ⟨_, rfl⟩
  rename_i m _
  refine Or.inr ⟨m.name, _, rfl, ?_⟩
  intro ans
  dsimp only
  split
  · exact Or.inl ⟨_, rfl⟩
  rename_i hnone
  rcases proposeChecked_at with hend | hupdate
  · exact Or.inl hend
  · refine Or.inr ⟨hupdate, ?_⟩
    intro doc hdoc
    rw [hdoc] at hnone
    exact proposalIsBlockedBy_eq_none.1 (Option.map_eq_none_iff.1 hnone)

/-! ## Every interleaving -/

section Interleaving

variable {ι : Type} [DecidableEq ι]

abbrev Tasks (ι : Type) := Pool api Store (Except String String) ι

/-- Task `i` is a proposal between its guard and its update of the record `name`. -/
def InWindow (commands : ι → Command) (c : Tasks ι) (i : ι) (name : String) : Prop :=
  (commands i).isPropose = true ∧ ∃ doc k, c.tasks i = .call (.update name doc) k

/-- The call that a program makes next puts `doc` under a name. -/
inductive Puts (name : String) (doc : ToolDoc) : Program → Prop where
  | update (k) : Puts name doc (.call (.update name doc) k)
  | write (k) (h : doc.name = name) : Puts name doc (.call (.write doc) k)

/-- The next call of task `i` overwrites a record that a proposal must leave
alone: it is a proposal's update, and the server carries it out. -/
def overwrites (commands : ι → Command) (c : Tasks ι) (i : ι) (r : Reply) : Bool :=
  match c.tasks i with
  | .call (.update name _) _ =>
    (commands i).isPropose && decide (r ≠ .failed) && isProtected (c.state name)
  | _ => false

/-- The steps under which proposals keep the records.  Nothing is put under a
name in a protected state while another task's proposal is past its guard for
it; and a guard's read of a record that is there is answered, with a document
that deserializes. -/
structure Guarded (commands : ι → Command) (c : Tasks ι) (j : ι) (r : Reply) : Prop where
  quiet : ∀ name doc, Puts name doc (c.tasks j) → protectedStatus doc.status = true →
    ∀ i, i ≠ j → ¬InWindow commands c i name
  seen : ∀ name k, (commands j).isPropose = true → c.tasks j = .call (.read name) k →
    c.state name = none ∨ (r = .answered ∧ ∃ doc, c.state name = some (.tool doc))

/-- Where a proposal stands, with what it relies on. -/
def Stands (s : Store) (p : Program) : Prop :=
  AtGuard p ∨ (∃ name, AtUpdate name p ∧ isProtected (s name) = false) ∨ AtWrite p ∨ AtEnd p

theorem isProtected_update {s : Store} {name other : String} {v : Option Stored}
    (hs : isProtected (s name) = false) (hv : name = other → isProtected v = false) :
    isProtected (Function.update s other v name) = false := by
  by_cases hname : name = other
  · rw [hname, Function.update_self]
    exact hv hname
  · rw [Function.update_of_ne hname]
    exact hs

/-- A call changes the record of a name only by putting a document there or by
deleting it. -/
theorem perform_protected {cl : DbCall} {k : Option (api.Ans cl) → Program} {r : Reply}
    {s : Store} {name : String} (hs : isProtected (s name) = false)
    (hquiet : ∀ doc, Puts name doc (.call cl k) → protectedStatus doc.status = false) :
    isProtected ((server.perform cl r s).1 name) = false := by
  cases hexec : server.exec cl s with
  | none =>
    rw [perform_of_refused hexec]
    exact hs
  | some p =>
    rw [perform_of_exec hexec]
    split
    · exact hs
    cases cl with
    | read other =>
      rcases Option.map_eq_some_iff.1 hexec with ⟨stored, -, rfl⟩
      exact hs
    | update other doc =>
      simp only [server] at hexec
      split at hexec
      · cases hexec
      · obtain rfl := Option.some.inj hexec
        refine isProtected_update hs ?_
        rintro rfl
        exact hquiet doc (.update k)
    | write doc =>
      simp only [server] at hexec
      split at hexec
      · obtain rfl := Option.some.inj hexec
        refine isProtected_update hs ?_
        intro hname
        exact hquiet doc (.write k hname.symm)
      · cases hexec
    | delete other =>
      simp only [server] at hexec
      split at hexec
      · cases hexec
      · obtain rfl := Option.some.inj hexec
        exact isProtected_update hs (fun _ => rfl)

theorem Stands.atUpdate {s : Store} {name : String} {doc : ToolDoc}
    {k : Option Unit → Program} (h : Stands s (.call (.update name doc) k)) :
    isProtected (s name) = false := by
  rcases h with ⟨other, k', heq, -⟩ | ⟨other, ⟨doc', k', heq, -⟩, hs⟩ | ⟨doc', k', heq, -⟩ |
    ⟨a, heq⟩
  · cases heq
  · cases heq
    exact hs
  · cases heq
  · cases heq

/-- A proposal's own call, under the condition on its guard. -/
theorem Stands.step {s : Store} {cl : DbCall} {k : Option (api.Ans cl) → Program} {r : Reply}
    (h : Stands s (.call cl k))
    (hseen : ∀ name, cl = .read name →
      s name = none ∨ (r = .answered ∧ ∃ doc, s name = some (.tool doc))) :
    Stands (server.perform cl r s).1 (k (server.perform cl r s).2) := by
  rcases h with ⟨name, k', heq, hk⟩ | ⟨name, ⟨doc, k', heq, hk⟩, hs⟩ | ⟨doc, k', heq, hk⟩ |
    ⟨a, heq⟩
  · cases heq
    rcases hseen name rfl with habsent | ⟨rfl, doc, hdoc⟩
    · have hrefused : server.exec (.read name) s = none := by simp [server, habsent]
      rw [perform_of_refused hrefused]
      rcases hk none with hend | ⟨hupdate, -⟩
      · exact Or.inr (Or.inr (Or.inr hend))
      · refine Or.inr (Or.inl ⟨name, hupdate, ?_⟩)
        show isProtected (s name) = false
        rw [habsent]
        rfl
    · have hread : server.exec (.read name) s = some (s, Stored.tool doc) := by
        simp [server, hdoc]
      rw [perform_of_exec hread]
      rcases hk (some (.tool doc)) with hend | ⟨hupdate, hfailed⟩
      · exact Or.inr (Or.inr (Or.inr hend))
      · refine Or.inr (Or.inl ⟨name, hupdate, ?_⟩)
        rw [if_neg (by decide)]
        show isProtected (s name) = false
        rw [hdoc]
        simp [isProtected, Stored.status?, hfailed doc rfl, protectedStatus]
  · cases heq
    rcases hk (server.perform (.update name doc) r s).2 with hend | hwrite
    · exact Or.inr (Or.inr (Or.inr hend))
    · exact Or.inr (Or.inr (Or.inl hwrite))
  · cases heq
    exact Or.inr (Or.inr (Or.inr (hk _)))
  · cases heq

/-- The call of another task, when it puts nothing protected under the name that
the proposal is about to update. -/
theorem Stands.frame {s : Store} {p : Program} {cl : DbCall}
    {k : Option (api.Ans cl) → Program} {r : Reply} (h : Stands s p)
    (hquiet : ∀ name, (∃ doc k', p = .call (.update name doc) k') →
      ∀ doc, Puts name doc (.call cl k) → protectedStatus doc.status = false) :
    Stands (server.perform cl r s).1 p := by
  rcases h with hguard | ⟨name, hupdate, hs⟩ | hwrite | hend
  · exact Or.inl hguard
  · refine Or.inr (Or.inl ⟨name, hupdate, perform_protected hs (hquiet name ?_)⟩)
    rcases hupdate with ⟨doc, k', heq, -⟩
    exact ⟨doc, k', heq⟩
  · exact Or.inr (Or.inr (Or.inl hwrite))
  · exact Or.inr (Or.inr (Or.inr hend))

/-- Every proposal of a guarded interleaving stands where it may. -/
theorem stands_of_reaches (commands : ι → Command) (inputs : ι → Inputs) (s : Store)
    {c : Tasks ι}
    (h : Pool.Reaches server (Guarded commands)
      (Pool.start s (fun i => (commands i).program host (inputs i))) c) :
    ∀ i, (commands i).isPropose = true → Stands c.state (c.tasks i) := by
  refine h.invariant (J := fun c => ∀ i, (commands i).isPropose = true →
    Stands c.state (c.tasks i)) ?_ ?_
  · intro i hpropose
    cases hcommand : commands i with
    | propose source =>
      have htask : (Pool.start s (fun i => (commands i).program host (inputs i))).tasks i =
          propose host source (inputs i) := by
        simp [Pool.start, hcommand, Command.program]
      rw [htask]
      rcases propose_at host source (inputs i) with hend | hguard
      · exact Or.inr (Or.inr (Or.inr hend))
      · exact Or.inl hguard
    | _ =>
      rw [hcommand] at hpropose
      cases hpropose
  · intro c j r c' ih hok hstep i hpropose
    rcases Pool.step_eq_some hstep with ⟨cl, k, htask, hstate, htasks⟩
    rw [hstate, htasks]
    by_cases hij : i = j
    · subst hij
      rw [Function.update_self]
      have hstands := ih i hpropose
      rw [htask] at hstands
      refine hstands.step ?_
      rintro name rfl
      exact hok.seen name k hpropose htask
    · rw [Function.update_of_ne hij]
      refine (ih i hpropose).frame (k := k) ?_
      intro name hwindow doc hputs
      rw [← htask] at hputs
      cases hprotected : protectedStatus doc.status with
      | false => rfl
      | true => exact absurd ⟨hpropose, hwindow⟩ (hok.quiet name doc hputs hprotected i hij)

/-- **Proposals keep the records.**  However the commands interleave and whatever
fails, as long as every step is `Guarded`, no proposal overwrites a working tool,
a running build or a pending proposal. -/
theorem propose_keeps_records (commands : ι → Command) (inputs : ι → Inputs) (s : Store)
    (c : Tasks ι)
    (h : Pool.Reaches server (Guarded commands)
      (Pool.start s (fun i => (commands i).program host (inputs i))) c)
    (i : ι) (r : Reply) : overwrites commands c i r = false := by
  cases hpropose : (commands i).isPropose with
  | false =>
    unfold overwrites
    rw [hpropose]
    split
    · rfl
    · rfl
  | true =>
    have hstands := stands_of_reaches host commands inputs s h i hpropose
    unfold overwrites
    split
    · rename_i name doc k htask
      rw [htask] at hstands
      rw [hstands.atUpdate, Bool.and_false]
    · rfl

/-! ## A lost read and a late write -/

/-- A host whose validator takes every module as the tool `weather`. -/
def weatherHost : Host where
  validate source := .ok ⟨"weather", "The weather.", .null, [], source⟩
  template := ""
  sha256Hex := id
  sha256HexBytes _ := ""
  writeError := "down"

def weatherModule : ValidatedModule := ⟨"weather", "The weather.", .null, [], "new"⟩

/-- Inputs under which every gate passes and every build succeeds. -/
def allowed : Inputs where
  config := .ok ()
  check := .ok (some (⟨"allow", [], "fine"⟩, "judge"))
  toolchain := "1.94.1"
  loaded := true
  batch := false
  clock _ := "now"
  build := .built [] ""

/-- The record of `weather`, with the given status. -/
def weatherStore (status : ToolStatus) : Store :=
  Function.update (fun _ => none) "weather"
    (some (.tool { building weatherHost weatherModule "1.94.1" "before" with status := status }))

/-- The model proposes `weather`, and the operator defines it. -/
def weatherCommands : Bool → Command
  | true => .propose "new"
  | false => .define "new"

def weatherTasks (s : Store) : Tasks Bool :=
  Pool.start s (fun i => (weatherCommands i).program weatherHost allowed)

/-- After its guard saw a failed build, the proposal may write. -/
theorem propose_keeps_records_failed :
    ∃ c, (weatherTasks (weatherStore .failed)).step server true .answered = some c ∧
      overwrites weatherCommands c true .answered = false := by
  refine ⟨_, rfl, ?_⟩
  refine propose_keeps_records weatherHost weatherCommands (fun _ => allowed)
    (weatherStore .failed) _ (.step true .answered .start ?_ rfl) true .answered
  constructor
  · exact nofun
  · intro name k _ htask
    cases htask
    exact Or.inr ⟨rfl, _, rfl⟩

/-- A proposal overwrites a working tool when the read of its guard fails; and
the record of a build the operator started while the proposal was checked. -/
theorem propose_overwrites :
    ((weatherTasks (weatherStore .ready)).steps server [(true, .failed)]).map
      (fun c => overwrites weatherCommands c true .answered) = some true ∧
    ((weatherTasks (fun _ => none)).steps server
        [(true, .answered), (false, .answered), (false, .answered)]).map
      (fun c => overwrites weatherCommands c true .answered) = some true := by
  exact ⟨rfl, rfl⟩

end Interleaving

end EmbraOS.Ports.Guardian
