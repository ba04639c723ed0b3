import EmbraOS.Ports.Supervisor

/-!
# The restart budget over whole runs

What the journals of the supervised services look like after a boot and any passes: how many
restarts lie between two resets of the budget (`restart_budget_reset_due`), what a reset is
earned with, and that nothing follows a halt.

A process is known by its number and the instant it was spawned at, and `exitAt` says when it
exits, if it does.  The two readings of one check, of the child and of the clock, are taken at one
instant.

`restart_budget_kept` is the main result.
-/

namespace EmbraOS.Ports.RestartBudget

open Ports.Supervisor

/-! ## Journals -/

/-- A restart is attempted. -/
def isAttempt : Entry → Bool
  | .restarting _ => true
  | _ => false

def isReset : Entry → Bool
  | .budgetReset _ _ => true
  | _ => false

/-- The process that ran before does not run any more. -/
def endsRun : Entry → Bool
  | .exited _ => true
  | .spawned _ _ => true
  | _ => false

/-- The restarts since the last reset. -/
def sinceReset (journal : List Entry) : Nat :=
  (journal.takeWhile (fun e => !isReset e)).countP isAttempt

/-- When a process exits, by its number and the instant of its spawn. -/
abbrev Exits := Nat → Instant → Option Instant

/-- The process spawned last has not been seen to end. -/
def LiveSince (journal : List Entry) (pid : Nat) (t : Instant) : Prop :=
  ∃ mid rest, journal = mid ++ .spawned pid t :: rest ∧ ∀ e ∈ mid, endsRun e = false

/-- The process spawned last is up, and does not exit before it has run for the stability
window. -/
def RanStable (policy : RestartPolicy) (exitAt : Exits) (journal : List Entry) : Prop :=
  ∃ pid t, LiveSince journal pid t ∧ ∀ x, exitAt pid t = some x → policy.stableAfter ≤ x - t

/-- The law of the budget for one service. -/
structure BudgetLaw (exitAt : Exits) (s : ServiceState) : Prop where
  /-- Between two resets there are no more restarts than the policy has. -/
  attempts : ∀ newer window older, s.journal = newer ++ window ++ older →
    (∀ e ∈ window, isReset e = false) →
    window.countP isAttempt ≤ s.svcDef.restartPolicy.maxRestarts
  /-- A reset comes behind a run that lasted. -/
  resets : ∀ newer was ran older, s.journal = newer ++ .budgetReset was ran :: older →
    RanStable s.svcDef.restartPolicy exitAt older
  /-- A halt is the last entry. -/
  halted : s.status = .halted ↔ .exceeded ∈ s.journal
  final : ∀ newer older, s.journal = newer ++ .exceeded :: older → newer = []

/-- What every entry of a journal owes to the older ones. -/
def Lawful (policy : RestartPolicy) (exitAt : Exits) : List Entry → Prop
  | [] => True
  | e :: older => Lawful policy exitAt older ∧ .exceeded ∉ older ∧
      (isAttempt e = true → sinceReset older < policy.maxRestarts) ∧
      (isReset e = true → RanStable policy exitAt older)

section Journals

variable {policy : RestartPolicy} {exitAt : Exits}

theorem Lawful.of_append {newer older : List Entry} (h : Lawful policy exitAt (newer ++ older)) :
    Lawful policy exitAt older := by
  induction newer with
  | nil => exact h
  | cons e newer ih => exact ih h.1

/-- An entry that is no attempt and no reset. -/
theorem Lawful.cons {e : Entry} {older : List Entry} (h : Lawful policy exitAt older)
    (hopen : .exceeded ∉ older) (hattempt : isAttempt e = false) (hreset : isReset e = false) :
    Lawful policy exitAt (e :: older) := by
  refine ⟨h, hopen, ?_, ?_⟩
  · simp [hattempt]
  · simp [hreset]

theorem sinceReset_cons {e : Entry} (hreset : isReset e = false) (older : List Entry) :
    sinceReset (e :: older) = sinceReset older + if isAttempt e then 1 else 0 := by
  simp [sinceReset, hreset, List.countP_cons]

theorem countP_le_sinceReset {window : List Entry} (hwindow : ∀ e ∈ window, isReset e = false)
    (older : List Entry) : window.countP isAttempt ≤ sinceReset (window ++ older) := by
  induction window with
  | nil => exact Nat.zero_le _
  | cons e window ih =>
    have hrest := ih (fun d hd => hwindow d (List.mem_cons_of_mem _ hd))
    rw [List.cons_append, sinceReset_cons (hwindow e List.mem_cons_self), List.countP_cons]
    omega

/-- At the last attempt of the window, the ones before it were fewer than the policy has. -/
theorem Lawful.attempts {window older : List Entry}
    (h : Lawful policy exitAt (window ++ older)) (hwindow : ∀ e ∈ window, isReset e = false) :
    window.countP isAttempt ≤ policy.maxRestarts := by
  induction window with
  | nil => exact Nat.zero_le _
  | cons e window ih =>
    have hrest : ∀ d ∈ window, isReset d = false := fun d hd =>
      hwindow d (List.mem_cons_of_mem _ hd)
    rw [List.cons_append] at h
    obtain ⟨holder, -, hattempt, -⟩ := h
    rw [List.countP_cons]
    cases he : isAttempt e with
    | false => simpa using ih holder hrest
    | true =>
      have hbefore := countP_le_sinceReset hrest older
      have hless := hattempt he
      simp only [if_true]
      omega

theorem Lawful.final {newer older : List Entry}
    (h : Lawful policy exitAt (newer ++ .exceeded :: older)) : newer = [] := by
  cases newer with
  | nil => rfl
  | cons e newer => exact absurd (List.mem_append_right newer List.mem_cons_self) h.2.1

theorem LiveSince.cons {e : Entry} {journal : List Entry} {pid : Nat} {t : Instant}
    (h : LiveSince journal pid t) (he : endsRun e = false) : LiveSince (e :: journal) pid t := by
  obtain ⟨mid, rest, rfl, hmid⟩ := h
  exact ⟨e :: mid, rest, rfl, List.forall_mem_cons.2 ⟨he, hmid⟩⟩

end Journals

/-! ## One turn in a pass -/

/-- `try_wait` finds a process running only before its exit. -/
def Truthful (exitAt : Exits) (s : ServiceState) (v : VisitInput) : Prop :=
  ∀ pid t, s.child = some pid → s.startedAt = some t → v.wait = .running →
    ∀ x, exitAt pid t = some x → v.now < x

/-- What the passes keep of a service. -/
structure Kept (exitAt : Exits) (s : ServiceState) : Prop where
  lawful : Lawful s.svcDef.restartPolicy exitAt s.journal
  count : sinceReset s.journal = s.restartCount
  live : ∀ pid, s.child = some pid → ∃ t, s.startedAt = some t ∧ LiveSince s.journal pid t
  consistent : Consistent s
  halted : s.status = .halted ↔ .exceeded ∈ s.journal

variable {exitAt : Exits}

variable {s s' : ServiceState} {v : VisitInput}

theorem Kept.budgetLaw (h : Kept exitAt s) : BudgetLaw exitAt s where
  attempts newer window older hjournal hwindow := by
    have hlawful := h.lawful
    rw [hjournal, List.append_assoc] at hlawful
    exact hlawful.of_append.attempts hwindow
  resets newer was ran older hjournal := by
    have hlawful := h.lawful
    rw [hjournal] at hlawful
    exact hlawful.of_append.2.2.2 rfl
  halted := h.halted
  final newer older hjournal := by
    have hlawful := h.lawful
    rw [hjournal] at hlawful
    exact hlawful.final

/-- A service that was found down: nothing of it runs, and it is not halted. -/
structure Idle (exitAt : Exits) (s : ServiceState) : Prop where
  lawful : Lawful s.svcDef.restartPolicy exitAt s.journal
  count : sinceReset s.journal = s.restartCount
  gone : s.child = none
  open_ : .exceeded ∉ s.journal

/-- The check of a service that is down. -/
theorem Kept.checked_idle (h : Kept exitAt s) (hdown : Down s v) :
    Idle exitAt (checked s v) ∧ (checked s v).svcDef = s.svcDef ∧
      (checked s v).restartCount = s.restartCount := by
  have hopen : .exceeded ∉ s.journal := fun hmem => hdown.1 (h.halted.2 hmem)
  rcases hdown with ⟨-, ⟨pid, status, hchild, hwait⟩ | ⟨hfailed, -⟩⟩
  · obtain ⟨detail, hchecked⟩ : ∃ detail, checked s v =
        { s with
          status := .failed detail
          child := none
          journal := .exited detail :: s.journal } := by
      simp only [checked, checkService, hchild, hwait, ServiceState.note]
      exact ⟨_, rfl⟩
    rw [hchecked]
    refine ⟨⟨h.lawful.cons hopen rfl rfl, ?_, rfl, ?_⟩, rfl, rfl⟩
    · rw [sinceReset_cons rfl]
      exact h.count
    · simpa using hopen
  · have hnone := h.consistent (.inl hfailed)
    have hself : checked s v = s := by simp [checked, checkService, hnone]
    rw [hself]
    exact ⟨⟨h.lawful, h.count, hnone, hopen⟩, rfl, rfl⟩

theorem Idle.counted (h : Idle exitAt s)
    (hbudget : s.restartCount < s.svcDef.restartPolicy.maxRestarts) :
    Idle exitAt (counted s) where
  lawful := by
    refine ⟨h.lawful, h.open_, fun _ => ?_, fun hreset => ?_⟩
    · rw [h.count]
      exact hbudget
    · cases hreset
  count := by
    rw [Supervisor.counted, sinceReset_cons rfl, h.count]
    rfl
  gone := h.gone
  open_ := by
    simpa [Supervisor.counted] using h.open_

/-- A child that came up: what its start writes after the spawn neither counts nor ends it. -/
theorem Idle.up {status : ServiceStatus} {e : Entry} (h : Idle exitAt s)
    (pid : Nat) (t : Instant) (hstatus : status = .starting ∨ status = .running)
    (he : e = .startPassed ∨ ∃ msg, e = .startFailed msg) :
    Kept exitAt
      { s with
        child := some pid
        pid := some pid
        startedAt := some t
        status := status
        journal := e :: .spawned pid t :: s.journal } := by
  have hkind : isAttempt e = false ∧ isReset e = false ∧ endsRun e = false ∧ e ≠ .exceeded := by
    rcases he with rfl | ⟨msg, rfl⟩
    · simp [isAttempt, isReset, endsRun]
    · simp [isAttempt, isReset, endsRun]
  obtain ⟨hattempt, hreset, hruns, hne⟩ := hkind
  have hspawned : Lawful s.svcDef.restartPolicy exitAt (.spawned pid t :: s.journal) :=
    h.lawful.cons h.open_ rfl rfl
  have hopen : .exceeded ∉ e :: .spawned pid t :: s.journal := by
    simpa [hne.symm] using h.open_
  refine ⟨hspawned.cons (fun hmem => hopen (List.mem_cons_of_mem _ hmem)) hattempt hreset,
    ?_, ?_, ?_, ?_⟩
  · rw [sinceReset_cons hreset, hattempt]
    exact (sinceReset_cons rfl _).trans h.count
  · rintro _ ⟨⟩
    exact ⟨t, rfl, [e], s.journal, rfl, by simpa using hruns⟩
  · rintro (hfailed | hhalted)
    · rcases hstatus with rfl | rfl <;> cases hfailed
    · rcases hstatus with rfl | rfl <;> cases hhalted
  · rcases hstatus with rfl | rfl
    · exact iff_of_false ServiceStatus.noConfusion hopen
    · exact iff_of_false ServiceStatus.noConfusion hopen

/-- A start of a service of which nothing runs, whichever way it ends. -/
theorem Idle.start {i : StartInput} {r : Except String Unit}
    (h : Idle exitAt s) (hstart : StartStep s i s' r) : Kept exitAt s' := by
  cases hstart with
  | notSpawned e msg =>
    refine ⟨h.lawful.cons h.open_ rfl rfl, ?_, ?_, fun _ => h.gone, ?_⟩
    · exact (sinceReset_cons rfl _).trans h.count
    · intro pid hchild
      cases h.gone.symm.trans hchild
    · simpa using h.open_
  | exitedAtOnce pid status msg =>
    have hspawned : Lawful s.svcDef.restartPolicy exitAt
        (.spawned pid i.startedAt :: s.journal) := h.lawful.cons h.open_ rfl rfl
    refine ⟨hspawned.cons (by simpa using h.open_) rfl rfl, ?_, ?_, fun _ => rfl, ?_⟩
    · exact (sinceReset_cons rfl _).trans ((sinceReset_cons rfl _).trans h.count)
    · rintro _ ⟨⟩
    · simpa using h.open_
  | hung pid msg => exact h.up pid i.startedAt (Or.inl rfl) (Or.inr ⟨msg, rfl⟩)
  | passed pid => exact h.up pid i.startedAt (Or.inr rfl) (Or.inl rfl)

/-- A check that finds the process running. -/
theorem Kept.alive {pid : Nat} (h : Kept exitAt s)
    (htrue : Truthful exitAt s v) (hchild : s.child = some pid) (hwait : v.wait = .running) :
    Kept exitAt (checked s v) := by
  rw [checked, hwait]
  rcases checkService_running hchild v.now with heq | ⟨heq, t, hstarted, -, hstable⟩
  · rw [heq]
    exact h
  have hopen : .exceeded ∉ s.journal := by
    intro hmem
    cases (h.consistent (.inr (h.halted.2 hmem))).symm.trans hchild
  obtain ⟨t', ht', hlive⟩ := h.live pid hchild
  cases hstarted.symm.trans ht'
  rw [heq]
  refine ⟨⟨h.lawful, hopen, ?_, fun _ => ⟨pid, t, hlive, ?_⟩⟩, rfl, ?_, h.consistent, ?_⟩
  · intro hreset
    cases hreset
  · intro x hx
    have hlater := htrue pid t hchild hstarted hwait x hx
    exact hstable.trans (Nat.sub_le_sub_right hlater.le t)
  · intro pid' hchild'
    obtain ⟨t', ht', hlive'⟩ := h.live pid' hchild'
    exact ⟨t', ht', hlive'.cons rfl⟩
  · simpa using h.halted

theorem Kept.visit (h : Kept exitAt s)
    (htrue : Truthful exitAt s v) (hstep : VisitStep s v s') : Kept exitAt s' := by
  cases hstep with
  | halted => exact h
  | alive pid hchild hwait => exact h.alive htrue hchild hwait
  | untouched => exact h
  | exhausted hdown =>
    obtain ⟨hidle, -, -⟩ := h.checked_idle hdown
    refine ⟨hidle.lawful.cons hidle.open_ rfl rfl, ?_, ?_, fun _ => hidle.gone, ?_⟩
    · exact (sinceReset_cons rfl _).trans hidle.count
    · intro pid hchild
      cases hidle.gone.symm.trans hchild
    · simp
  | restarted s' r hdown hbudget hstart =>
    obtain ⟨hidle, hdef, hcount⟩ := h.checked_idle hdown
    exact (hidle.counted (by rw [hdef, hcount]; exact hbudget)).start hstart

/-! ## Whole runs -/

/-- A pass keeps what every turn in it keeps. -/
theorem reconcileOnce_keeps (services : List ServiceState) :
    ∀ (p : Pass) (after : List ServiceState), (∀ s ∈ services, Kept exitAt s) →
      (∀ (i : Nat) (s : ServiceState), services[i]? = some s → Truthful exitAt s (p i)) →
      reconcileOnce services p = some after → ∀ s ∈ after, Kept exitAt s := by
  induction services with
  | nil =>
    intro p after _ _ h
    cases h
    simp
  | cons s rest ih =>
    intro p after hkept htrue h
    obtain ⟨s', rest', hvisit, hrest, rfl⟩ := reconcileOnce_cons h
    refine List.forall_mem_cons.2 ⟨?_, ?_⟩
    · exact (hkept s List.mem_cons_self).visit (htrue 0 s rfl) (reconcileVisit_step hvisit)
    · exact ih _ rest' (fun t ht => hkept t (List.mem_cons_of_mem s ht))
        (fun i t hget => htrue (i + 1) t hget) hrest

theorem startAll_kept (exitAt : Exits) (defs : List ServiceDef) :
    ∀ (boot : Nat → StartInput) (soul : Bool) (after : List ServiceState),
      startAll (defs.map addService) boot soul = some after → ∀ s ∈ after, Kept exitAt s := by
  induction defs with
  | nil =>
    intro boot soul after h
    cases h
    simp
  | cons svcDef rest ih =>
    intro boot soul after h
    rw [List.map_cons, startAll] at h
    split at h
    · rename_i s' hstart
      split at h
      · cases h
      · obtain ⟨rest', hrest, rfl⟩ := Option.map_eq_some_iff.1 h
        refine List.forall_mem_cons.2 ⟨?_, ih _ soul rest' hrest⟩
        have hnew : Idle exitAt (addService svcDef) := ⟨trivial, rfl, rfl, List.not_mem_nil⟩
        exact hnew.start (startService_step hstart)
    · cases h

/-- A pass leaves a halted service as it is. -/
theorem reconcileOnce_halted (services : List ServiceState) :
    ∀ (p : Pass) (after : List ServiceState), reconcileOnce services p = some after →
      ∀ (i : Nat) (s : ServiceState), services[i]? = some s → s.status = .halted →
        after[i]? = some s := by
  induction services with
  | nil =>
    exact nofun
  | cons s rest ih =>
    intro p after h i t hget hhalted
    obtain ⟨s', rest', hvisit, hrest, rfl⟩ := reconcileOnce_cons h
    cases i with
    | zero =>
      cases hget
      rw [reconcileVisit, if_pos hhalted] at hvisit
      exact hvisit.symm
    | succ i => exact ih _ rest' hrest i t hget hhalted

/-- What holds of each pass that starts from an invariant holds along a run. -/
theorem along_of {Q R : List ServiceState → Pass → List ServiceState → Prop}
    (inv : List ServiceState → Prop)
    (hpass : ∀ services p after, inv services → Q services p after →
      reconcileOnce services p = some after → R services p after ∧ inv after)
    (passes : List Pass) :
    ∀ services, inv services → Along Q services passes → Along R services passes := by
  induction passes with
  | nil => exact fun _ _ _ => trivial
  | cons p rest ih =>
    intro services hinv hQ after hafter
    obtain ⟨hq, hrest⟩ := hQ after hafter
    obtain ⟨hr, hinv'⟩ := hpass services p after hinv hq hafter
    exact ⟨hr, ih after hinv' hrest⟩

/-- What the answers of a run say of the processes is true. -/
def TruthfulRun (exitAt : Exits) : List ServiceState → List Pass → Prop :=
  Along fun before p _ =>
    ∀ (i : Nat) (s : ServiceState), before[i]? = some s → Truthful exitAt s (p i)

/-- For every policy and all exits: after the boot and after each pass of a run every service has
kept to its budget, and a pass does nothing to one that is halted. -/
theorem restart_budget_kept (defs : List ServiceDef) (boot : Nat → StartInput) (soul : Bool)
    (services : List ServiceState)
    (hboot : startAll (defs.map addService) boot soul = some services)
    (exitAt : Exits) (passes : List Pass) (htrue : TruthfulRun exitAt services passes) :
    (∀ s ∈ services, BudgetLaw exitAt s) ∧
    Along (fun before _ after => (∀ s ∈ after, BudgetLaw exitAt s) ∧
      ∀ (i : Nat) (s : ServiceState), before[i]? = some s → s.status = .halted →
        after[i]? = some s) services passes := by
  have hkept := startAll_kept exitAt defs boot soul services hboot
  refine ⟨fun s hs => (hkept s hs).budgetLaw, ?_⟩
  refine along_of (fun services => ∀ s ∈ services, Kept exitAt s) ?_ passes services hkept htrue
  intro before p after hbefore hanswers hafter
  have hkept' := reconcileOnce_keeps before p after hbefore hanswers hafter
  exact ⟨⟨fun s hs => (hkept' s hs).budgetLaw, reconcileOnce_halted before p after hafter⟩, hkept'⟩

/-- The gateway's process 7 is killed at second 99, its next one at second 200. -/
def apidExits : Exits := fun pid _ => some (fromSecs (if pid = 7 then 99 else 200))

/-- The killed gateway is started again, and at second 161 it has its budget back. -/
theorem restart_budget_kept_apid :
    ∃ after after', reconcileOnce [apidUp] (killedPass true) = some after ∧
      reconcileOnce after (runningPass 161) = some after' ∧
        ∀ s ∈ after', s.restartCount = 0 ∧ BudgetLaw apidExits s := by
  have hboot : startAll ([apidDef].map addService) (fun _ => startAt 7 1 true) true =
      some [apidUp] := by decide +kernel
  have hchildren : (reconcileOnce [apidUp] (killedPass true)).map (List.map ServiceState.child) =
      some [some 8] := by decide +kernel
  have htrue : TruthfulRun apidExits [apidUp] [killedPass true, runningPass 161] := by
    intro after hafter
    rw [hafter] at hchildren
    refine ⟨nofun, fun _ _ => ⟨?_, trivial⟩⟩
    intro i s hget pid t hchild _ _ x hx
    have hmem := List.mem_map_of_mem (f := ServiceState.child) (List.mem_of_getElem? hget)
    rw [Option.some.inj hchildren, List.mem_singleton, hchild] at hmem
    obtain rfl := Option.some.inj hmem
    obtain rfl := Option.some.inj hx
    exact (show fromSecs 161 < fromSecs 200 by decide)
  obtain ⟨-, hrun⟩ := restart_budget_kept [apidDef] _ true [apidUp] hboot _ _ htrue
  refine ⟨_, _, rfl, rfl, fun s hs => ⟨?_, ((hrun _ rfl).2 _ rfl).1.1 s hs⟩⟩
  rw [List.mem_singleton.1 hs]
  rfl

end EmbraOS.Ports.RestartBudget
