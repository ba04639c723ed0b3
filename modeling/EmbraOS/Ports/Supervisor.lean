import EmbraOS.Verified.Text
import EmbraOS.Verified.Words

/-!
# The supervisor and its reconcile passes

Port of the service supervision of the init process: `start_service`,
`wait_for_health`, `check_service` and `restart_service`
(`embrad/src/supervisor.rs`) and `reconcile_once` (`embrad/src/reconcile.rs`).
What the system answers is an input: whether a spawn succeeds, what `try_wait`
says of a child, what the clock shows and what a health probe gets.  `none` is
a panic of PID 1 or a boot that does not complete; the machine halts on both.

`VisitStep` says everything a pass can do to one service, and
`unhealthy_recoverable_iff` when a service whose last start failed is taken up
again: exactly when no restart is left hanging in its health wait.
-/

namespace EmbraOS.Ports.Supervisor

open Verified.Text
open Verified

/-! ## Durations and instants -/

/-- A `Duration`, in nanoseconds. -/
abbrev Duration := Nat

/-- A reading of the monotonic clock, in nanoseconds. -/
abbrev Instant := Nat

def nanosPerSec : Nat := 1000000000

def fromSecs (n : Nat) : Duration := n * nanosPerSec

def maxDuration : Duration := (2 ^ 64 - 1) * nanosPerSec + 999999999

def maxInstant : Instant := (2 ^ 63 - 1) * nanosPerSec + 999999999

/-- `Duration * u32`, which panics when the product is no `Duration`. -/
def mulDuration (d : Duration) (n : Nat) : Option Duration :=
  if d * n ≤ maxDuration then some (d * n) else none

/-- `Instant + Duration`, which panics when the sum is no `Instant`. -/
def addInstant (t : Instant) (d : Duration) : Option Instant :=
  if t + d ≤ maxInstant then some (t + d) else none

/-- The digits of a fraction up to its last one that is not zero. -/
def fractionDigits : Nat → Nat → Nat → String
  | 0, _, _ => ""
  | _ + 1, 0, _ => ""
  | n + 1, frac, divisor =>
    toString (frac / divisor) ++ fractionDigits n (frac % divisor) (divisor / 10)

def decimal (whole frac divisor : Nat) (unit : String) : String :=
  toString whole ++
    (if frac = 0 then "" else "." ++ fractionDigits 9 frac divisor) ++ unit

/-- `{:?}` of a `Duration`. -/
def durationDebug (d : Duration) : String :=
  if nanosPerSec ≤ d then decimal (d / nanosPerSec) (d % nanosPerSec) 100000000 "s"
  else if 1000000 ≤ d then decimal (d / 1000000) (d % 1000000) 100000 "ms"
  else if 1000 ≤ d then decimal (d / 1000) (d % 1000) 100 "µs"
  else decimal d 0 1 "ns"

example : durationDebug (fromSecs 45) = "45s" := by decide +kernel

example : durationDebug 2050000000 = "2.05s" := by decide +kernel

/-! ## Services -/

inductive HealthCheck where
  | http (url : String) (timeout : Duration)
  | grpc (port : Nat) (timeout : Duration)
  | processAlive
  deriving DecidableEq, Repr

structure RestartPolicy where
  maxRestarts : Nat := 10
  backoffBase : Duration := fromSecs 1
  backoffMax : Duration := fromSecs 30
  stableAfter : Duration := fromSecs 60
  deriving DecidableEq, Repr

def restartBudgetResetDue (restartCount : Nat) (runningFor stableAfter : Duration) : Bool :=
  decide (0 < restartCount) && decide (stableAfter ≤ runningFor)

/-- `2u32.saturating_pow(n)`. -/
def saturatingPow2 (n : Nat) : Nat := min (2 ^ n) (2 ^ 32 - 1)

def backoffFor (policy : RestartPolicy) (restartCount : Nat) : Option Duration :=
  (mulDuration policy.backoffBase (saturatingPow2 restartCount)).map (min · policy.backoffMax)

example : (List.range 7).map (backoffFor {}) =
    [1, 2, 4, 8, 16, 30, 30].map (fun n => some (fromSecs n)) := by decide

/-- What the supervisor needs of a service's definition; the command line is
the operating system's. -/
structure ServiceDef where
  name : String
  healthCheck : HealthCheck
  restartPolicy : RestartPolicy
  deriving DecidableEq, Repr

inductive ServiceStatus where
  | stopped
  | starting
  | running
  | failed (detail : String)
  | halted
  deriving DecidableEq, Repr

/-- `matches!(status, ServiceStatus::Failed(_))`. -/
def ServiceStatus.isFailed : ServiceStatus → Bool
  | .failed _ => true
  | _ => false

/-- The supervisor's log lines about one service. -/
inductive Entry where
  | restarting (attempt : Nat)
  | spawned (pid : Nat) (at_ : Instant)
  | startPassed
  | startFailed (error : String)
  | exited (detail : String)
  | budgetReset (was : Nat) (ran : Duration)
  | exceeded
  deriving DecidableEq, Repr

/-- A service, with its log, the last line first. -/
structure ServiceState where
  svcDef : ServiceDef
  child : Option Nat
  pid : Option Nat
  startedAt : Option Instant
  restartCount : Nat
  status : ServiceStatus
  journal : List Entry
  deriving DecidableEq, Repr

/-- `add_service`. -/
def addService (svcDef : ServiceDef) : ServiceState where
  svcDef := svcDef
  child := none
  pid := none
  startedAt := none
  restartCount := 0
  status := .stopped
  journal := []

def ServiceState.note (e : Entry) (s : ServiceState) : ServiceState :=
  { s with journal := e :: s.journal }

/-! ## What the system answers -/

/-- `Child::try_wait`: an exit status, as the kernel encodes it, nothing yet, or
an error. -/
inductive WaitResult where
  | exited (status : Nat)
  | running
  | error (e : String)
  deriving DecidableEq, Repr

/-- `{:?}` of an `ExitStatus`. -/
def exitStatusDebug (status : Nat) : String := s!"ExitStatus(unix_wait_status({status}))"

/-- One turn of a health wait: the clock at its head, and what the network
answers.  `http` is what one read gives after a request is written to an
address, if all of that succeeds. -/
structure Attempt where
  now : Instant
  http : (addr request : String) → Option String
  connects : (addr : String) → Bool

/-- The answers to one start.  The attempts are those the wait has time for. -/
structure StartInput where
  spawn : Except String Nat
  startedAt : Instant
  afterSpawn : WaitResult
  healthAt : Instant
  attempts : List Attempt

/-- The answers to one service's turn in a pass: to the check, and to the start
that may follow. -/
structure VisitInput where
  wait : WaitResult
  now : Instant
  start : StartInput

/-- The answers to one pass, by the index of the service. -/
abbrev Pass := Nat → VisitInput

/-! ## The health wait -/

/-- `lines().next().unwrap_or("")`. -/
def firstLine (response : String) : String :=
  let line := response.toList.takeWhile (fun c => c ≠ '\n')
  String.ofList (if line.getLast? = some '\r' then line.dropLast else line)

/-- `split_whitespace`. -/
def splitWhitespace (s : String) : List String :=
  (Words.words (fun c => !isWhitespace c) s.toList).map String.ofList

def isHttp200 (response : String) : Bool :=
  match splitWhitespace (firstLine response) with
  | version :: code :: _ => startsWith version "HTTP/" && code == "200"
  | _ => false

example : isHttp200 "HTTP/1.0 200 OK\r\nContent-Length: 2\r\n\r\nok" = true := by decide +kernel

example : isHttp200 "HTTP/1.0 503 Down\r\nContent-Length: 200\r\n\r\n" = false := by
  decide +kernel

/-- The host and port of a health URL. -/
def healthAddr (url : String) : String :=
  String.ofList ((replace url "http://" "").toList.takeWhile (fun c => c ≠ '/'))

/-- The text from the first `/_` on. -/
def pathFrom : List Char → Option (List Char)
  | [] => none
  | c :: cs => if ['/', '_'].isPrefixOf (c :: cs) then some (c :: cs) else pathFrom cs

def healthPath (url : String) : String :=
  ((pathFrom url.toList).map String.ofList).getD "/_health"

def healthRequest (url : String) : String :=
  "GET " ++ healthPath url ++ " HTTP/1.0\r\nHost: " ++ healthAddr url ++ "\r\n\r\n"

/-- Whether an attempt finds the service healthy. -/
def Attempt.healthy : HealthCheck → Attempt → Bool
  | .http url _, a =>
    match a.http (healthAddr url) (healthRequest url) with
    | some response => isHttp200 response
    | none => false
  | .grpc port _, a => a.connects s!"127.0.0.1:{port}"
  | .processAlive, _ => true

/-- `while Instant::now() < deadline { … }`. -/
def probeUntil (check : HealthCheck) (deadline : Instant) : List Attempt → Bool
  | [] => false
  | a :: rest =>
    if a.now < deadline then
      if a.healthy check then true else probeUntil check deadline rest
    else false

/-- The wait of a check with a timeout, with what it says when that runs out. -/
def probeFor (check : HealthCheck) (timeout : Duration) (i : StartInput) (msg : String) :
    Option (Except String Unit) :=
  (addInstant i.healthAt timeout).map (fun deadline =>
    if probeUntil check deadline i.attempts then .ok () else .error msg)

def waitForHealth (svcDef : ServiceDef) (i : StartInput) : Option (Except String Unit) :=
  match svcDef.healthCheck with
  | .http url timeout =>
    probeFor (.http url timeout) timeout i
      (svcDef.name ++ " failed health check (HTTP " ++ url ++
        " did not respond within " ++ durationDebug timeout ++ ")")
  | .grpc port timeout =>
    probeFor (.grpc port timeout) timeout i
      (svcDef.name ++ " failed health check (gRPC port " ++ toString port ++
        " did not open within " ++ durationDebug timeout ++ ")")
  | .processAlive => some (.ok ())

/-! ## Starting, checking and restarting a service -/

/-- The end of `start_service`, from the health wait on. -/
def finishStart (s : ServiceState) (i : StartInput) :
    Option (ServiceState × Except String Unit) :=
  match waitForHealth s.svcDef i with
  | none => none
  -- the status is still `starting` here, and the child is kept
  | some (.error e) => some (s.note (.startFailed e), .error e)
  | some (.ok ()) => some ({ s with status := .running }.note .startPassed, .ok ())

def startService (s : ServiceState) (i : StartInput) :
    Option (ServiceState × Except String Unit) :=
  let s := { s with status := .starting }
  match i.spawn with
  | .error e =>
    let msg := "Failed to spawn " ++ s.svcDef.name ++ ": " ++ e
    some ({ s with status := .failed msg }.note (.startFailed msg), .error msg)
  | .ok pid =>
    let s := { s with child := some pid, pid := some pid, startedAt := some i.startedAt }
    let s := s.note (.spawned pid i.startedAt)
    match i.afterSpawn with
    | .exited status =>
      let msg := s.svcDef.name ++ " exited immediately with status: " ++
        exitStatusDebug status
      some ({ s with status := .failed msg, child := none }.note (.startFailed msg),
        .error msg)
    | _ => finishStart s i

/-- Whether the service is alive, and the service after the check. -/
def checkService (s : ServiceState) (wait : WaitResult) (now : Instant) :
    ServiceState × Bool :=
  match s.child with
  | none => (s, false)
  | some _ =>
    match wait with
    | .exited status =>
      let detail :=
        if status = 0 then "Exited cleanly (status 0)"
        else "Exited: " ++ exitStatusDebug status
      ({ s with status := .failed detail, child := none }.note (.exited detail), false)
    | .running =>
      match s.startedAt with
      | none => (s, true)
      | some startedAt =>
        if restartBudgetResetDue s.restartCount (now - startedAt)
            s.svcDef.restartPolicy.stableAfter then
          ({ s with restartCount := 0 }.note
            (.budgetReset s.restartCount (now - startedAt)), true)
        else (s, true)
    | .error _ => (s, false)

def restartService (s : ServiceState) (i : StartInput) :
    Option (ServiceState × Except String Unit) :=
  if s.status = .halted then some (s, .ok ())
  else if s.svcDef.restartPolicy.maxRestarts ≤ s.restartCount then
    some ({ s with status := .halted }.note .exceeded,
      .error (s.svcDef.name ++ " permanently failed"))
  else
    match backoffFor s.svcDef.restartPolicy s.restartCount with
    | none => none
    | some _ =>
      startService
        ({ s with restartCount := s.restartCount + 1 }.note (.restarting (s.restartCount + 1)))
        i

/-! ## The boot and the passes -/

/-- `start_all`, up to the first start that fails.  `soul` is whether the soul
gate lets the boot go on. -/
def startAll : List ServiceState → (Nat → StartInput) → (soul : Bool) →
    Option (List ServiceState)
  | [], _, _ => some []
  | s :: rest, i, soul =>
    match startService s (i 0) with
    | some (s', .ok ()) =>
      if s.svcDef.name = "embra-trustd" ∧ soul = false then none
      else (startAll rest (fun n => i (n + 1)) soul).map (s' :: ·)
    | _ => none

/-- One service's turn in `reconcile_once`. -/
def reconcileVisit (s : ServiceState) (v : VisitInput) : Option ServiceState :=
  if s.status = .halted then some s
  else
    let (s, alive) := checkService s v.wait v.now
    if !alive && s.status.isFailed then (restartService s v.start).map Prod.fst
    else some s

def reconcileOnce : List ServiceState → Pass → Option (List ServiceState)
  | [], _ => some []
  | s :: rest, p =>
    match reconcileVisit s (p 0) with
    | none => none
    | some s' => (reconcileOnce rest (fun n => p (n + 1))).map (s' :: ·)

theorem reconcileOnce_cons {s : ServiceState} {rest after : List ServiceState} {p : Pass}
    (h : reconcileOnce (s :: rest) p = some after) :
    ∃ s' rest', reconcileVisit s (p 0) = some s' ∧
      reconcileOnce rest (fun n => p (n + 1)) = some rest' ∧ after = s' :: rest' := by
  rw [reconcileOnce] at h
  cases hvisit : reconcileVisit s (p 0) with
  | none =>
    rw [hvisit] at h
    cases h
  | some s' =>
    rw [hvisit] at h
    obtain ⟨rest', hrest, rfl⟩ := Option.map_eq_some_iff.1 h
    exact ⟨s', rest', rfl, hrest, rfl⟩

/-! ## What a start can do -/

/-- The time a check gives the service to answer. -/
def HealthCheck.timeout? : HealthCheck → Option Duration
  | .http _ timeout => some timeout
  | .grpc _ timeout => some timeout
  | .processAlive => none

/-- The service answers its health check in time: one of the attempts before
the deadline finds it healthy. -/
def Answers (svcDef : ServiceDef) (i : StartInput) : Prop :=
  ∀ timeout, svcDef.healthCheck.timeout? = some timeout →
    ∃ a ∈ i.attempts.takeWhile (fun a => decide (a.now < i.healthAt + timeout)),
      a.healthy svcDef.healthCheck = true

theorem probeUntil_iff (check : HealthCheck) (deadline : Instant) (attempts : List Attempt) :
    probeUntil check deadline attempts = true ↔
      ∃ a ∈ attempts.takeWhile (fun a => decide (a.now < deadline)),
        a.healthy check = true := by
  induction attempts with
  | nil => simp [probeUntil]
  | cons a rest ih =>
    rw [probeUntil, List.takeWhile_cons]
    by_cases hnow : a.now < deadline
    · cases hhealthy : a.healthy check with
      | true => simp [hnow, hhealthy]
      | false => simp [hnow, hhealthy, ih]
    · simp [hnow]

theorem addInstant_eq_some {t : Instant} {d : Duration} {u : Instant}
    (h : addInstant t d = some u) : u = t + d := by
  unfold addInstant at h
  split at h
  · exact (Option.some.inj h).symm
  · cases h

variable {i : StartInput} {r : Except String Unit} {s s' : ServiceState} {pid : Nat}
  {v : VisitInput}

/-- A wait with a timeout that ends without a panic passes exactly when an
attempt before the deadline does. -/
theorem probeFor_eq_some {check : HealthCheck} {timeout : Duration}
    {msg : String} (h : probeFor check timeout i msg = some r) :
    (r = .ok () ∧
      ∃ a ∈ i.attempts.takeWhile (fun a => decide (a.now < i.healthAt + timeout)),
        a.healthy check = true) ∨
    (r = .error msg ∧
      ¬∃ a ∈ i.attempts.takeWhile (fun a => decide (a.now < i.healthAt + timeout)),
        a.healthy check = true) := by
  rw [probeFor, Option.map_eq_some_iff] at h
  rcases h with ⟨deadline, hdeadline, hr⟩
  rw [addInstant_eq_some hdeadline] at hr
  rw [← probeUntil_iff]
  cases hprobe : probeUntil check (i.healthAt + timeout) i.attempts with
  | true =>
    rw [hprobe] at hr
    exact Or.inl ⟨hr.symm, rfl⟩
  | false =>
    rw [hprobe] at hr
    exact Or.inr ⟨hr.symm, Bool.false_ne_true⟩

theorem waitForHealth_iff {svcDef : ServiceDef}
    (h : waitForHealth svcDef i = some r) : r = .ok () ↔ Answers svcDef i := by
  have htimed : ∀ timeout msg, svcDef.healthCheck.timeout? = some timeout →
      probeFor svcDef.healthCheck timeout i msg = some r →
      (r = .ok () ↔ Answers svcDef i) := by
    intro timeout msg htimeout hprobe
    rcases probeFor_eq_some hprobe with ⟨hr, hfound⟩ | ⟨hr, hnone⟩
    · constructor
      · intro _ other hother
        cases htimeout.symm.trans hother
        exact hfound
      · intro _
        exact hr
    · constructor
      · intro hok
        cases hr.symm.trans hok
      · intro hanswers
        exact absurd (hanswers timeout htimeout) hnone
  unfold waitForHealth at h
  split at h
  · rename_i url timeout hcheck
    rw [← hcheck] at h
    exact htimed timeout _ (by rw [hcheck]; rfl) h
  · rename_i port timeout hcheck
    rw [← hcheck] at h
    exact htimed timeout _ (by rw [hcheck]; rfl) h
  · rename_i hcheck
    constructor
    · intro _ timeout htimeout
      rw [hcheck] at htimeout
      cases htimeout
    · intro _
      exact (Option.some.inj h).symm

/-- Everything a start can do. -/
inductive StartStep (s : ServiceState) (i : StartInput) :
    ServiceState → Except String Unit → Prop where
  | notSpawned (e msg : String) (hspawn : i.spawn = .error e) :
      StartStep s i
        { s with status := .failed msg, journal := .startFailed msg :: s.journal }
        (.error msg)
  | exitedAtOnce (pid status : Nat) (msg : String) (hspawn : i.spawn = .ok pid)
      (hexit : i.afterSpawn = .exited status) :
      StartStep s i
        { s with
          child := none
          pid := some pid
          startedAt := some i.startedAt
          status := .failed msg
          journal := .startFailed msg :: .spawned pid i.startedAt :: s.journal }
        (.error msg)
  | hung (pid : Nat) (msg : String) (hspawn : i.spawn = .ok pid)
      (hup : ∀ status, i.afterSpawn ≠ .exited status) (hanswer : ¬Answers s.svcDef i) :
      StartStep s i
        { s with
          child := some pid
          pid := some pid
          startedAt := some i.startedAt
          status := .starting
          journal := .startFailed msg :: .spawned pid i.startedAt :: s.journal }
        (.error msg)
  | passed (pid : Nat) (hspawn : i.spawn = .ok pid)
      (hup : ∀ status, i.afterSpawn ≠ .exited status) (hanswer : Answers s.svcDef i) :
      StartStep s i
        { s with
          child := some pid
          pid := some pid
          startedAt := some i.startedAt
          status := .running
          journal := .startPassed :: .spawned pid i.startedAt :: s.journal }
        (.ok ())

/-- The health wait of a child that is up ends the start in one of two ways. -/
theorem finishStart_step (hspawn : i.spawn = .ok pid)
    (hup : ∀ status, i.afterSpawn ≠ .exited status)
    (h : finishStart
      { s with
        child := some pid
        pid := some pid
        startedAt := some i.startedAt
        status := .starting
        journal := .spawned pid i.startedAt :: s.journal } i = some (s', r)) :
    StartStep s i s' r := by
  unfold finishStart at h
  cases hhealth : waitForHealth s.svcDef i with
  | none =>
    rw [hhealth] at h
    cases h
  | some outcome =>
    have hiff := waitForHealth_iff hhealth
    rw [hhealth] at h
    cases outcome with
    | error e =>
      cases h
      refine .hung pid e hspawn hup ?_
      intro hanswers
      cases hiff.2 hanswers
    | ok u =>
      cases h
      exact .passed pid hspawn hup (hiff.1 rfl)

theorem startService_step (h : startService s i = some (s', r)) : StartStep s i s' r := by
  unfold startService at h
  cases hspawn : i.spawn with
  | error e =>
    rw [hspawn] at h
    cases h
    exact .notSpawned e _ hspawn
  | ok pid =>
    rw [hspawn] at h
    cases hexit : i.afterSpawn with
    | exited status =>
      rw [hexit] at h
      cases h
      exact .exitedAtOnce pid status _ hspawn hexit
    | running | error =>
      rw [hexit] at h
      refine finishStart_step hspawn ?_ h
      intro status
      simp [hexit]

/-! ## What a pass can do to a service -/

/-- The check finds the service down and `Failed`: it has exited, or it is
`Failed` from before and nothing is known to run. -/
def Down (s : ServiceState) (v : VisitInput) : Prop :=
  s.status ≠ .halted ∧
    ((∃ pid status, s.child = some pid ∧ v.wait = .exited status) ∨
      (s.status.isFailed = true ∧ (s.child = none ∨ ∃ e, v.wait = .error e)))

/-- The service after the check. -/
def checked (s : ServiceState) (v : VisitInput) : ServiceState :=
  (checkService s v.wait v.now).1

/-- The service as a restart hands it to `start_service`. -/
def counted (s : ServiceState) : ServiceState :=
  { s with
    restartCount := s.restartCount + 1
    journal := .restarting (s.restartCount + 1) :: s.journal }

/-- Everything a pass can do to one service. -/
inductive VisitStep (s : ServiceState) (v : VisitInput) : ServiceState → Prop where
  | halted (hstatus : s.status = .halted) : VisitStep s v s
  | alive (pid : Nat) (hchild : s.child = some pid) (hwait : v.wait = .running) :
      VisitStep s v (checked s v)
  | untouched (hdown : ¬Down s v) (hwait : s.child = none ∨ ∃ e, v.wait = .error e) :
      VisitStep s v s
  | exhausted (hdown : Down s v)
      (hbudget : s.svcDef.restartPolicy.maxRestarts ≤ s.restartCount) :
      VisitStep s v
        { checked s v with status := .halted, journal := .exceeded :: (checked s v).journal }
  | restarted (s' : ServiceState) (r : Except String Unit) (hdown : Down s v)
      (hbudget : s.restartCount < s.svcDef.restartPolicy.maxRestarts)
      (hstart : StartStep (counted (checked s v)) v.start s' r) :
      VisitStep s v s'

theorem restartService_step (hstatus : s.status ≠ .halted) (h : restartService s i = some (s', r)) :
    (s.svcDef.restartPolicy.maxRestarts ≤ s.restartCount ∧
      s' = { s with status := .halted, journal := .exceeded :: s.journal }) ∨
    (s.restartCount < s.svcDef.restartPolicy.maxRestarts ∧
      StartStep (counted s) i s' r) := by
  rw [restartService, if_neg hstatus] at h
  by_cases hbudget : s.svcDef.restartPolicy.maxRestarts ≤ s.restartCount
  · rw [if_pos hbudget] at h
    cases h
    exact Or.inl ⟨hbudget, rfl⟩
  · rw [if_neg hbudget] at h
    cases hbackoff : backoffFor s.svcDef.restartPolicy s.restartCount with
    | none =>
      rw [hbackoff] at h
      cases h
    | some backoff =>
      rw [hbackoff] at h
      exact Or.inr ⟨Nat.lt_of_not_le hbudget, startService_step h⟩

theorem isFailed_ne_halted {status : ServiceStatus} (h : status.isFailed = true) :
    status ≠ .halted := by
  intro heq
  rw [heq] at h
  cases h

/-- A pass that finds a service down restarts it or stops it for good. -/
theorem down_step (hdown : Down s v) (hfailed : (checked s v).status.isFailed = true)
    (hdef : (checked s v).svcDef = s.svcDef)
    (hcount : (checked s v).restartCount = s.restartCount)
    (h : (restartService (checked s v) v.start).map Prod.fst = some s') :
    VisitStep s v s' := by
  rcases Option.map_eq_some_iff.1 h with ⟨⟨s₁, r⟩, hrestart, rfl⟩
  rcases restartService_step (isFailed_ne_halted hfailed) hrestart with
    ⟨hbudget, rfl⟩ | ⟨hbudget, hstart⟩
  · rw [hdef, hcount] at hbudget
    exact .exhausted hdown hbudget
  · rw [hdef, hcount] at hbudget
    exact .restarted s₁ r hdown hbudget hstart

/-- A service the check leaves as it is and does not find alive. -/
theorem unchecked_step (hhalted : s.status ≠ .halted)
    (hcheck : checkService s v.wait v.now = (s, false))
    (hwait : s.child = none ∨ ∃ e, v.wait = .error e)
    (h : reconcileVisit s v = some s') : VisitStep s v s' := by
  have hchecked : checked s v = s := by rw [checked, hcheck]
  simp only [reconcileVisit, if_neg hhalted, hcheck, Bool.not_false, Bool.true_and] at h
  cases hfailed : s.status.isFailed with
  | true =>
    rw [hfailed, if_pos rfl, ← hchecked] at h
    refine down_step ⟨hhalted, Or.inr ⟨hfailed, hwait⟩⟩ ?_ ?_ ?_ h
    · rw [hchecked, hfailed]
    · rw [hchecked]
    · rw [hchecked]
  | false =>
    rw [hfailed, if_neg Bool.false_ne_true] at h
    cases h
    refine .untouched ?_ hwait
    rintro ⟨-, ⟨pid, status, hchild, hexit⟩ | ⟨hyes, -⟩⟩
    · rcases hwait with hnone | ⟨e, herror⟩
      · rw [hnone] at hchild
        cases hchild
      · rw [herror] at hexit
        cases hexit
    · rw [hfailed] at hyes
      cases hyes

theorem checkService_running (hchild : s.child = some pid) (now : Instant) :
    checkService s .running now = (s, true) ∨
      checkService s .running now =
        ({ s with
            restartCount := 0
            journal := .budgetReset s.restartCount (now - s.startedAt.getD 0) :: s.journal },
          true) ∧
        ∃ t, s.startedAt = some t ∧ 0 < s.restartCount ∧
          s.svcDef.restartPolicy.stableAfter ≤ now - t := by
  unfold checkService
  rw [hchild]
  cases hstarted : s.startedAt with
  | none => exact Or.inl rfl
  | some t =>
    cases hdue : restartBudgetResetDue s.restartCount (now - t)
        s.svcDef.restartPolicy.stableAfter with
    | false =>
      refine Or.inl ?_
      simp [hdue]
    | true =>
      refine Or.inr ⟨?_, t, rfl, ?_⟩
      · simp [hdue, ServiceState.note]
      · simpa [restartBudgetResetDue] using hdue

/-- Every turn in a pass is one of the steps. -/
theorem reconcileVisit_step (h : reconcileVisit s v = some s') : VisitStep s v s' := by
  by_cases hhalted : s.status = .halted
  · rw [reconcileVisit, if_pos hhalted] at h
    cases h
    exact .halted hhalted
  · cases hchild : s.child with
    | none =>
      have hcheck : checkService s v.wait v.now = (s, false) := by
        simp [checkService, hchild]
      exact unchecked_step hhalted hcheck (Or.inl hchild) h
    | some pid =>
      cases hwait : v.wait with
      | error e =>
        have hcheck : checkService s v.wait v.now = (s, false) := by
          simp [checkService, hchild, hwait]
        exact unchecked_step hhalted hcheck (Or.inr ⟨e, hwait⟩) h
      | running =>
        have halive : (checkService s v.wait v.now).2 = true := by
          rw [hwait]
          rcases checkService_running hchild v.now with heq | ⟨heq, -⟩
          · rw [heq]
          · rw [heq]
        simp only [reconcileVisit, if_neg hhalted, halive, Bool.not_true,
          Bool.false_and, Bool.false_eq_true, if_false] at h
        cases h
        exact .alive pid hchild hwait
      | exited status =>
        have hcheck : checkService s v.wait v.now = (checked s v, false) := by
          simp [checked, checkService, hchild, hwait]
        have hfailed : (checked s v).status.isFailed = true := by
          simp [checked, checkService, hchild, hwait, ServiceState.note,
            ServiceStatus.isFailed]
        simp only [reconcileVisit, if_neg hhalted, hcheck, hfailed, Bool.not_false,
          Bool.and_self, if_true] at h
        refine down_step ⟨hhalted, Or.inl ⟨pid, status, hchild, hwait⟩⟩ hfailed ?_ ?_ h
        · simp [checked, checkService, hchild, hwait, ServiceState.note]
        · simp [checked, checkService, hchild, hwait, ServiceState.note]

/-- Nothing of a service that was found down runs after the check. -/
theorem checked_of_down (hdown : Down s v) (hgone : s.status.isFailed = true → s.child = none) :
    (checked s v).child = none ∧ (checked s v).svcDef = s.svcDef ∧
      (s.child = none → checked s v = s) := by
  rcases hdown with ⟨-, ⟨pid, status, hchild, hwait⟩ | ⟨hfailed, -⟩⟩
  · refine ⟨?_, ?_, ?_⟩
    · simp [checked, checkService, hchild, hwait, ServiceState.note]
    · simp [checked, checkService, hchild, hwait, ServiceState.note]
    · intro hnone
      rw [hnone] at hchild
      cases hchild
  · have hnone := hgone hfailed
    have hself : checked s v = s := by simp [checked, checkService, hnone]
    rw [hself]
    exact ⟨hnone, rfl, fun _ => rfl⟩

/-! ## Failed starts -/

/-- What an entry says about a start. -/
def Entry.outcome : Entry → Option Bool
  | .startPassed => some true
  | .startFailed _ => some false
  | _ => none

/-- The last start did not pass its health check. -/
def Unhealthy (s : ServiceState) : Prop := s.journal.findSome? Entry.outcome = some false

/-- The service is `Failed` or `Halted`, no check counts it as alive, and the
next pass restarts it or stops it for good. -/
def Recoverable (s : ServiceState) : Prop :=
  (s.status.isFailed = true ∨ s.status = .halted) ∧
  (∀ wait now, (checkService s wait now).2 = false) ∧
  ∀ v s', reconcileVisit s v = some s' →
    s'.status = .halted ∨
      ∃ entries attempt, s'.journal = entries ++ .restarting attempt :: s.journal

/-- Nothing of a `Failed` or `Halted` service runs. -/
def Consistent (s : ServiceState) : Prop :=
  s.status.isFailed = true ∨ s.status = .halted → s.child = none

/-- A start leaves its entries over the ones that were there. -/
theorem StartStep.journal
    (h : StartStep s i s' r) : ∃ entries, s'.journal = entries ++ s.journal := by
  cases h with
  | notSpawned e msg => exact ⟨[.startFailed msg], rfl⟩
  | exitedAtOnce pid status msg => exact ⟨[.startFailed msg, .spawned pid i.startedAt], rfl⟩
  | hung pid msg => exact ⟨[.startFailed msg, .spawned pid i.startedAt], rfl⟩
  | passed pid => exact ⟨[.startPassed, .spawned pid i.startedAt], rfl⟩

theorem recoverable_of_stopped
    (hstatus : s.status.isFailed = true ∨ s.status = .halted) (hchild : s.child = none) :
    Recoverable s := by
  refine ⟨hstatus, ?_, ?_⟩
  · intro wait now
    simp [checkService, hchild]
  intro v s' hvisit
  cases reconcileVisit_step hvisit with
  | halted hhalted => exact Or.inl hhalted
  | alive pid hsome =>
    rw [hchild] at hsome
    cases hsome
  | untouched hdown =>
    refine Or.inl (hstatus.resolve_left ?_)
    intro hfailed
    exact hdown ⟨isFailed_ne_halted hfailed, Or.inr ⟨hfailed, Or.inl hchild⟩⟩
  | exhausted => exact Or.inl rfl
  | restarted _ r hdown hbudget hstart =>
    rcases hstart.journal with ⟨entries, hentries⟩
    have hself := (checked_of_down hdown (fun _ => hchild)).2.2 hchild
    rw [hself] at hentries
    exact Or.inr ⟨entries, s.restartCount + 1, hentries⟩

/-- A pass over the service restarts it, the new process stays up, and no health
probe before the deadline is answered. -/
def Hangs (s : ServiceState) (v : VisitInput) : Prop :=
  Down s v ∧ s.restartCount < s.svcDef.restartPolicy.maxRestarts ∧
    (∃ pid, v.start.spawn = .ok pid) ∧
    (∀ status, v.start.afterSpawn ≠ .exited status) ∧
    ¬Answers s.svcDef v.start

theorem Down.ne_halted (h : Down s v) :
    s.status ≠ .halted := h.1

/-- A service found down does not run. -/
theorem Down.not_running (h : Down s v) (hchild : s.child = some pid) : v.wait ≠ .running := by
  intro hwait
  rcases h with ⟨-, ⟨_, status, -, hexit⟩ | ⟨-, hnone | ⟨e, herror⟩⟩⟩
  · rw [hwait] at hexit
    cases hexit
  · rw [hchild] at hnone
    cases hnone
  · rw [hwait] at herror
    cases herror

/-- One turn in a pass: a service that was recoverable when its last start had
failed stays so, unless its restart hangs. -/
theorem visit_recoverable_iff (hcons : Consistent s) (hs : Unhealthy s → Recoverable s)
    (h : VisitStep s v s') :
    Consistent s' ∧ ((Unhealthy s' → Recoverable s') ↔ ¬Hangs s v) := by
  cases h with
  | halted hstatus =>
    refine ⟨hcons, iff_of_true hs ?_⟩
    intro hhangs
    exact hhangs.1.ne_halted hstatus
  | alive pid hchild hwait =>
    have hnot : ¬(s.status.isFailed = true ∨ s.status = .halted) := by
      intro hstatus
      rw [hcons hstatus] at hchild
      cases hchild
    have hpassed : ¬Unhealthy s := by
      intro hun
      exact hnot (hs hun).1
    have hhangs : ¬Hangs s v := by
      intro hhangs
      exact hhangs.1.not_running hchild hwait
    have hsame : (checked s v).status = s.status ∧ ¬Unhealthy (checked s v) := by
      rw [checked, hwait]
      rcases checkService_running hchild v.now with heq | ⟨heq, -⟩
      · rw [heq]
        exact ⟨rfl, hpassed⟩
      · rw [heq]
        exact ⟨rfl, hpassed⟩
    refine ⟨?_, iff_of_true (fun hun => absurd hun hsame.2) hhangs⟩
    intro hstatus
    rw [hsame.1] at hstatus
    exact absurd hstatus hnot
  | untouched hdown hwait =>
    exact ⟨hcons, iff_of_true hs (fun hhangs => hdown hhangs.1)⟩
  | exhausted hdown hbudget =>
    have hgone := (checked_of_down hdown (fun h => hcons (Or.inl h))).1
    refine ⟨fun _ => hgone, iff_of_true (fun _ => ?_) ?_⟩
    · exact recoverable_of_stopped (Or.inr rfl) hgone
    · intro hhangs
      exact absurd hhangs.2.1 (Nat.not_lt_of_le hbudget)
  | restarted _ r hdown hbudget hstart =>
    have hchecked := checked_of_down hdown (fun h => hcons (Or.inl h))
    cases hstart with
    | notSpawned e msg hspawn =>
      refine ⟨fun _ => hchecked.1, iff_of_true (fun _ => ?_) ?_⟩
      · exact recoverable_of_stopped (Or.inl rfl) hchecked.1
      · rintro ⟨-, -, ⟨pid, hpid⟩, -⟩
        rw [hspawn] at hpid
        cases hpid
    | exitedAtOnce pid status msg hspawn hexit =>
      refine ⟨fun _ => rfl, iff_of_true (fun _ => ?_) ?_⟩
      · exact recoverable_of_stopped (Or.inl rfl) rfl
      · rintro ⟨-, -, -, hup, -⟩
        exact hup status hexit
    | hung pid msg hspawn hup hanswer =>
      rw [show (counted (checked s v)).svcDef = s.svcDef from hchecked.2.1] at hanswer
      refine ⟨?_, iff_of_false ?_ ?_⟩
      · rintro (hfailed | hhalted)
        · cases hfailed
        · cases hhalted
      · intro hrecover
        rcases (hrecover rfl).1 with hfailed | hhalted
        · cases hfailed
        · cases hhalted
      · intro hnot
        exact hnot ⟨hdown, hbudget, ⟨pid, hspawn⟩, hup, hanswer⟩
    | passed pid hspawn hup hanswer =>
      rw [show (counted (checked s v)).svcDef = s.svcDef from hchecked.2.1] at hanswer
      refine ⟨?_, iff_of_true ?_ ?_⟩
      · rintro (hfailed | hhalted)
        · cases hfailed
        · cases hhalted
      · exact nofun
      · intro hhangs
        exact hhangs.2.2.2.2 hanswer

/-! ## Passes one after another -/

/-- `R` holds of every pass of a run that completes: of the services before it,
its answers, and the services after it. -/
def Along (R : List ServiceState → Pass → List ServiceState → Prop) :
    List ServiceState → List Pass → Prop
  | _, [] => True
  | services, p :: rest =>
    ∀ after, reconcileOnce services p = some after → R services p after ∧ Along R after rest

/-- Two relations that say the same of each pass say the same of every run, as
long as they keep what the equivalence rests on. -/
theorem along_iff {R Q : List ServiceState → Pass → List ServiceState → Prop}
    (inv : List ServiceState → Prop)
    (hpass : ∀ services p after, inv services → reconcileOnce services p = some after →
      (R services p after ↔ Q services p after) ∧ (R services p after → inv after))
    (passes : List Pass) :
    ∀ services, inv services → (Along R services passes ↔ Along Q services passes) := by
  induction passes with
  | nil =>
    intro services _
    exact Iff.rfl
  | cons p rest ih =>
    intro services hinv
    refine forall_congr' fun after => forall_congr' fun hafter => ?_
    have hp := hpass services p after hinv hafter
    constructor
    · rintro ⟨hR, halong⟩
      exact ⟨hp.1.1 hR, (ih after (hp.2 hR)).1 halong⟩
    · rintro ⟨hQ, halong⟩
      have hR := hp.1.2 hQ
      exact ⟨hR, (ih after (hp.2 hR)).2 halong⟩

/-- What a pass starts from and leaves behind, of every service. -/
def Sound (services : List ServiceState) : Prop :=
  ∀ s ∈ services, Consistent s ∧ (Unhealthy s → Recoverable s)

theorem reconcileOnce_recoverable_iff (services : List ServiceState) :
    ∀ (p : Pass) (after : List ServiceState), Sound services →
      reconcileOnce services p = some after →
      (∀ s ∈ after, Consistent s) ∧
        ((∀ s ∈ after, Unhealthy s → Recoverable s) ↔
          ∀ (i : Nat) (s : ServiceState), services[i]? = some s → ¬Hangs s (p i)) := by
  induction services with
  | nil =>
    intro p after _ h
    cases h
    simp
  | cons s rest ih =>
    intro p after hsound h
    obtain ⟨s', rest', hvisit, hrest, rfl⟩ := reconcileOnce_cons h
    have hs := hsound s (List.mem_cons_self ..)
    have hhead := visit_recoverable_iff hs.1 hs.2 (reconcileVisit_step hvisit)
    have htail := ih _ rest' (fun t ht => hsound t (List.mem_cons_of_mem s ht)) hrest
    constructor
    · rw [List.forall_mem_cons]
      exact ⟨hhead.1, htail.1⟩
    rw [List.forall_mem_cons, hhead.2, htail.2]
    -- the first service has index 0, the others are shifted by one
    constructor
    · rintro ⟨hfirst, hothers⟩ i t hget
      cases i with
      | zero =>
        rw [List.getElem?_cons_zero] at hget
        cases hget
        exact hfirst
      | succ i => exact hothers i t hget
    · intro hall
      exact ⟨hall 0 s rfl, fun i t hget => hall (i + 1) t hget⟩

/-- A boot that completes has passed every health check. -/
theorem startAll_sound (services : List ServiceState) :
    ∀ (boot : Nat → StartInput) (soul : Bool) (after : List ServiceState),
      startAll services boot soul = some after → Sound after := by
  induction services with
  | nil =>
    intro boot soul after h
    cases h
    exact nofun
  | cons s rest ih =>
    intro boot soul after h
    rw [startAll] at h
    split at h
    · rename_i s' hstart
      split at h
      · cases h
      rcases Option.map_eq_some_iff.1 h with ⟨rest', hrest, rfl⟩
      refine List.forall_mem_cons.2 ⟨?_, ih _ soul rest' hrest⟩
      cases startService_step hstart with
      | passed pid =>
        constructor
        · rintro (hfailed | hhalted)
          · cases hfailed
          · cases hhalted
        · exact nofun
    · cases h

/-- Over every run of passes after a boot: the services whose last start did not
pass are `Failed` or `Halted` after each pass, and taken up by the next one,
exactly when no restart of the run is left hanging. -/
theorem unhealthy_recoverable_iff (defs : List ServiceDef) (boot : Nat → StartInput)
    (soul : Bool) (services : List ServiceState)
    (hboot : startAll (defs.map addService) boot soul = some services)
    (passes : List Pass) :
    Along (fun _ _ after => ∀ s ∈ after, Unhealthy s → Recoverable s) services passes ↔
      Along (fun before p _ =>
        ∀ (i : Nat) (s : ServiceState), before[i]? = some s → ¬Hangs s (p i))
        services passes := by
  refine along_iff Sound ?_ passes services (startAll_sound _ boot soul services hboot)
  intro before p after hsound hpass
  have hiff := reconcileOnce_recoverable_iff before p after hsound hpass
  exact ⟨hiff.2, fun hR s hs => ⟨hiff.1 s hs, hR s hs⟩⟩

/-- The gateway, with its port and its timeout. -/
def apidDef : ServiceDef where
  name := "embra-apid"
  healthCheck := .grpc 50000 (fromSecs 15)
  restartPolicy := {}

/-- A start of process `pid` at second `n`, whose port is open or not. -/
def startAt (pid n : Nat) (opened : Bool) : StartInput where
  spawn := .ok pid
  startedAt := fromSecs n
  afterSpawn := .running
  healthAt := fromSecs n
  attempts := [{ now := fromSecs (n + 1), http := fun _ _ => none, connects := fun _ => opened }]

/-- A pass at second 100, to which the process has been killed; the restart comes
up with its port open or not. -/
def killedPass (opened : Bool) : Pass := fun _ =>
  { wait := .exited 9, now := fromSecs 100, start := startAt 8 101 opened }

/-- A pass at second `n` that finds the process running. -/
def runningPass (n : Nat) : Pass := fun _ =>
  { wait := .running, now := fromSecs n, start := startAt 9 n true }

/-- The gateway as process 7, after a boot at second 1. -/
def apidUp : ServiceState where
  svcDef := apidDef
  child := some 7
  pid := some 7
  startedAt := some (fromSecs 1)
  restartCount := 0
  status := .running
  journal := [.startPassed, .spawned 7 (fromSecs 1)]

/-- A pass at second 100, to which the process has been killed and cannot be started again. -/
def unspawnedPass : Pass := fun _ =>
  { wait := .exited 9, now := fromSecs 100,
    start := { startAt 8 101 true with spawn := .error "No such file or directory (os error 2)" } }

theorem unhealthy_recoverable_iff_unspawned :
    ∃ after, reconcileOnce [apidUp] unspawnedPass = some after ∧ after ≠ [] ∧
      ∀ s ∈ after, Unhealthy s ∧ Recoverable s := by
  have hboot : startAll ([apidDef].map addService) (fun _ => startAt 7 1 true) true =
      some [apidUp] := by decide +kernel
  have hrun := (unhealthy_recoverable_iff [apidDef] _ true [apidUp] hboot [unspawnedPass]).2
    fun _ _ => ⟨fun _ _ _ ⟨_, _, ⟨_, hspawn⟩, _⟩ => (nomatch hspawn), trivial⟩
  refine ⟨_, rfl, nofun, fun s hs => ?_⟩
  have hunhealthy : Unhealthy s := by
    rw [List.mem_singleton.1 hs]
    rfl
  exact ⟨hunhealthy, (hrun _ rfl).1 s hs hunhealthy⟩

/-- The gateway after its restart hung: the process is kept, and the status is
left at `starting`. -/
def apidHung : ServiceState where
  svcDef := apidDef
  child := some 8
  pid := some 8
  startedAt := some (fromSecs 101)
  restartCount := 1
  status := .starting
  journal :=
    [.startFailed "embra-apid failed health check (gRPC port 50000 did not open within 15s)",
      .spawned 8 (fromSecs 101), .restarting 1,
      .exited "Exited: ExitStatus(unix_wait_status(9))", .startPassed, .spawned 7 (fromSecs 1)]

/-- A restart whose health wait times out is counted as alive from then on: the
passes after it do not touch the service, and one more minute gives it its
budget back. -/
theorem hung_restart_counted_alive :
    startAll ([apidDef].map addService) (fun _ => startAt 7 1 true) true = some [apidUp] ∧
    reconcileOnce [apidUp] (killedPass false) = some [apidHung] ∧
    Unhealthy apidHung ∧ ¬Recoverable apidHung ∧
    reconcileOnce [apidHung] (runningPass 130) = some [apidHung] ∧
    (reconcileOnce [apidHung] (runningPass 161)).map
      (List.map (fun s => (s.status, s.restartCount))) = some [(.starting, 0)] := by
  refine ⟨by decide +kernel, by decide +kernel, rfl, ?_, by decide +kernel, by decide +kernel⟩
  intro hrecover
  rcases hrecover.1 with hfailed | hhalted
  · cases hfailed
  · cases hhalted

end EmbraOS.Ports.Supervisor
