import Mathlib
import EmbraOS.Verified.Machine

/-!
# The operator's stop and the turns it meets

Port of `begin_turn`, `InTurnGuard` and `StopCheck` of `embra-brain/src/grpc_service/turn.rs`
and of `stop_turn` of `grpc_service/mod.rs`.  Both sides are taken apart into their reads
and writes of the mark `in_turn` and of the stop counter: a turn sets the mark, takes its
observer, which remembers the counter, and clears the mark; a StopTurn call looks at the
mark and raises the counter.

`stop_turn_honest` says which interleavings keep the promise of the stop.  The counter does
not say for which turn it was raised: raised between the mark and the observer it is
remembered as old, and raised after the next turn took its observer it stops that one.
-/

namespace EmbraOS.Ports.StopTurn

open Verified

/-! ## The machine -/

/-- A turn's view of the stop counter. -/
structure StopCheck where
  baseline : Nat
  deriving DecidableEq, Repr

def StopCheck.stopped (check : StopCheck) (generation : Nat) : Bool :=
  check.baseline < generation

/-- Where the turn stands that was begun last. -/
inductive Phase where
  | idle
  | marked
  | running (check : StopCheck)
  deriving DecidableEq, Repr

/-- Where a StopTurn call stands; `turn` is how many turns had begun when it looked, so
the number of the turn it found marked. -/
inductive Call where
  | fresh
  | looked (turn : Nat)
  | answered (wasInTurn : Bool) (turn : Nat)
  deriving DecidableEq, Repr

structure State (ι : Type) where
  inTurn : Bool
  generation : Nat
  phase : Phase
  /-- How many turns have begun. -/
  begun : Nat
  calls : ι → Call
  /-- The calls that raised the counter, in their order. -/
  raised : List ι

inductive Step (ι : Type) where
  | mark
  | observe
  | finish
  | look (i : ι)
  | raise (i : ι)
  deriving DecidableEq, Repr

variable {ι : Type} [DecidableEq ι]

def start : State ι :=
  { inTurn := false, generation := 0, phase := .idle, begun := 0, calls := fun _ => .fresh,
    raised := [] }

def step (s : State ι) : Step ι → Option (State ι)
  -- `begin_turn` stores the mark, and `StopCheck::new` borrows the counter after it
  | .mark =>
    match s.phase with
    | .idle => some { s with inTurn := true, phase := .marked, begun := s.begun + 1 }
    | _ => none
  | .observe =>
    match s.phase with
    | .marked => some { s with phase := .running ⟨s.generation⟩ }
    | _ => none
  -- the drop of the guard
  | .finish =>
    match s.phase with
    | .running _ => some { s with inTurn := false, phase := .idle }
    | _ => none
  | .look i =>
    match s.calls i with
    | .fresh =>
      let after := if s.inTurn then .looked s.begun else .answered false s.begun
      some { s with calls := Function.update s.calls i after }
    | _ => none
  | .raise i =>
    match s.calls i with
    | .looked turn =>
      some
        { s with
          generation := s.generation + 1
          raised := s.raised ++ [i]
          calls := Function.update s.calls i (.answered true turn) }
    | _ => none

/-! ## The promise -/

/-- A call that answered true stops the turn it found marked, once that turn has its
observer and as long as it runs; and what stops a turn looked after the turn began. -/
structure Honest (s : State ι) : Prop where
  stops : ∀ check i, s.phase = .running check → s.calls i = .answered true s.begun →
    check.stopped s.generation = true
  spares : ∀ check i wasInTurn turn, s.phase = .running check →
    i ∈ s.raised.drop check.baseline → s.calls i = .answered wasInTurn turn → s.begun ≤ turn

/-- The counter is raised while the turn that the call found marked runs with its observer,
or when that turn is over and no other has begun to run. -/
def Timely (s : State ι) : Step ι → Prop
  | .raise i => ∀ turn, s.calls i = .looked turn →
      (s.phase = .marked → turn ≠ s.begun) ∧ ∀ check, s.phase = .running check → turn = s.begun
  | _ => True

/-! ## What every run keeps -/

/-- The turn a call found marked. -/
def Call.turn? : Call → Option Nat
  | .fresh => none
  | .looked turn => some turn
  | .answered _ turn => some turn

structure WellFormed (s : State ι) : Prop where
  length : s.raised.length = s.generation
  baseline : ∀ check, s.phase = .running check → check.baseline ≤ s.generation
  begun : ∀ i turn, (s.calls i).turn? = some turn → turn ≤ s.begun
  answered : ∀ i ∈ s.raised, ∃ turn, s.calls i = .answered true turn

omit [DecidableEq ι] in
theorem wellFormed_start : WellFormed (start : State ι) where
  length := rfl
  baseline := nofun
  begun := nofun
  answered := nofun

/-- What each step does, with the guard it needs. -/
theorem step_cases {s s' : State ι} {e : Step ι} (h : step s e = some s') :
    (e = .mark ∧ s.phase = .idle ∧
        s' = { s with inTurn := true, phase := .marked, begun := s.begun + 1 }) ∨
      (e = .observe ∧ s.phase = .marked ∧ s' = { s with phase := .running ⟨s.generation⟩ }) ∨
      (e = .finish ∧ s' = { s with inTurn := false, phase := .idle }) ∨
      (∃ i after, e = .look i ∧ s.calls i = .fresh ∧ after.turn? = some s.begun ∧
        (∀ turn, after ≠ .answered true turn) ∧
        s' = { s with calls := Function.update s.calls i after }) ∨
      (∃ i turn, e = .raise i ∧ s.calls i = .looked turn ∧
        s' = { s with generation := s.generation + 1, raised := s.raised ++ [i]
                      calls := Function.update s.calls i (.answered true turn) }) := by
  cases e with
  | mark =>
    left
    dsimp only [step] at h
    split at h
    · rename_i hphase
      exact ⟨rfl, hphase, (Option.some.inj h).symm⟩
    · cases h
  | observe =>
    right; left
    dsimp only [step] at h
    split at h
    · rename_i hphase
      exact ⟨rfl, hphase, (Option.some.inj h).symm⟩
    · cases h
  | finish =>
    right; right; left
    dsimp only [step] at h
    split at h
    · exact ⟨rfl, (Option.some.inj h).symm⟩
    · cases h
  | look i =>
    right; right; right; left
    dsimp only [step] at h
    split at h
    · rename_i hcall
      refine ⟨i, _, rfl, hcall, ?_, ?_, (Option.some.inj h).symm⟩
      · split <;> rfl
      · intro turn
        split <;> exact nofun
    · cases h
  | raise i =>
    right; right; right; right
    dsimp only [step] at h
    split at h
    · rename_i turn hcall
      exact ⟨i, turn, rfl, hcall, (Option.some.inj h).symm⟩
    · cases h

theorem WellFormed.step {s s' : State ι} {e : Step ι} (h : WellFormed s)
    (hstep : step s e = some s') : WellFormed s' := by
  rcases step_cases hstep with ⟨-, hphase, rfl⟩ | ⟨-, hphase, rfl⟩ | ⟨-, rfl⟩ |
    ⟨i, after, -, hcall, hafter, -, rfl⟩ | ⟨i, turn, -, hcall, rfl⟩
  · exact ⟨h.length, nofun, fun i t ht => Nat.le_succ_of_le (h.begun i t ht), h.answered⟩
  · refine ⟨h.length, ?_, h.begun, h.answered⟩
    rintro check ⟨⟩
    exact Nat.le_refl _
  · exact ⟨h.length, nofun, h.begun, h.answered⟩
  · -- a call that only looked has raised nothing
    have hraised : i ∉ s.raised := by
      intro hmem
      obtain ⟨turn, hanswered⟩ := h.answered i hmem
      rw [hcall] at hanswered
      cases hanswered
    refine ⟨h.length, h.baseline, ?_, ?_⟩
    · intro j turn hturn
      dsimp only at hturn ⊢
      by_cases hj : j = i
      · subst hj
        rw [Function.update_self, hafter] at hturn
        exact (Option.some.inj hturn).symm.le
      · rw [Function.update_of_ne hj] at hturn
        exact h.begun j turn hturn
    · intro j hj
      obtain ⟨turn, hanswered⟩ := h.answered j hj
      have hji : j ≠ i := by
        rintro rfl
        exact hraised hj
      exact ⟨turn, by rw [← hanswered]; exact Function.update_of_ne hji ..⟩
  · refine ⟨?_, ?_, ?_, ?_⟩
    · simp [h.length]
    · intro check hp
      exact Nat.le_succ_of_le (h.baseline check hp)
    · intro j t hturn
      dsimp only at hturn ⊢
      by_cases hj : j = i
      · subst hj
        rw [Function.update_self] at hturn
        apply h.begun j t
        rw [hcall]
        exact hturn
      · rw [Function.update_of_ne hj] at hturn
        exact h.begun j t hturn
    · intro j hj
      dsimp only at hj ⊢
      by_cases hji : j = i
      · subst hji
        exact ⟨turn, Function.update_self ..⟩
      · rw [Function.update_of_ne hji]
        rcases List.mem_append.1 hj with hmem | hmem
        · exact h.answered j hmem
        · exact absurd (List.mem_singleton.1 hmem) hji

theorem wellFormed_of_reaches {ok : State ι → Step ι → Prop} {s : State ι}
    (h : Machine.Reaches step ok start s) : WellFormed s :=
  h.invariant wellFormed_start fun _ _ _ hs _ hstep => hs.step hstep

/-! ## What the timely runs keep -/

/-- The promise, and what makes it hold when the marked turn takes its observer. -/
structure Kept (s : State ι) : Prop extends WellFormed s, Honest s where
  marked : s.phase = .marked → ∀ i, s.calls i ≠ .answered true s.begun

omit [DecidableEq ι] in
theorem kept_start : Kept (start : State ι) where
  toWellFormed := wellFormed_start
  stops := nofun
  spares := nofun
  marked := nofun

theorem Kept.step {s s' : State ι} {e : Step ι} (h : Kept s) (hok : Timely s e)
    (hstep : step s e = some s') : Kept s' := by
  have hwf := h.toWellFormed.step hstep
  rcases step_cases hstep with ⟨-, hphase, rfl⟩ | ⟨-, hphase, rfl⟩ | ⟨-, rfl⟩ |
    ⟨i, after, -, hcall, -, hafter, rfl⟩ | ⟨i, turn, rfl, hcall, rfl⟩
  · -- no call has looked at the turn that begins
    refine { toWellFormed := hwf, stops := nofun,
             spares := nofun, marked := ?_ }
    intro _ i hcall
    have hle := h.begun i (s.begun + 1) (by rw [hcall]; rfl)
    omega
  · refine { toWellFormed := hwf, stops := ?_, spares := ?_, marked := nofun }
    · intro check i _ hcall
      exact absurd hcall (h.marked hphase i)
    · rintro check i was turn ⟨⟩ hmem
      rw [← h.length, List.drop_length] at hmem
      cases hmem
  · exact { toWellFormed := hwf, stops := nofun,
            spares := nofun, marked := nofun }
  · have hold : ∀ j turn, Function.update s.calls i after j = .answered true turn →
        s.calls j = .answered true turn := by
      intro j turn hj
      by_cases hji : j = i
      · subst hji
        rw [Function.update_self] at hj
        exact absurd hj (hafter turn)
      · rwa [Function.update_of_ne hji] at hj
    refine { toWellFormed := hwf, stops := ?_, spares := ?_, marked := ?_ }
    · exact fun check j hp hj => h.stops check j hp (hold j _ hj)
    · intro check j was turn hp hmem hj
      obtain ⟨t, ht⟩ := hwf.answered j (List.mem_of_mem_drop hmem)
      obtain ⟨-, rfl⟩ := Call.answered.inj (ht.symm.trans hj)
      exact h.spares check j true t hp hmem (hold j t ht)
    · exact fun hp j hj => h.marked hp j (hold j _ hj)
  · obtain ⟨hmarked, hrunning⟩ := hok turn hcall
    refine { toWellFormed := hwf, stops := ?_, spares := ?_, marked := ?_ }
    · intro check _ hp _
      exact decide_eq_true (Nat.lt_succ_of_le (h.baseline check hp))
    · intro check j was t hp hmem hj
      dsimp only at hp hmem hj ⊢
      by_cases hji : j = i
      · subst hji
        rw [Function.update_self] at hj
        cases hj
        exact (hrunning check hp).ge
      · rw [Function.update_of_ne hji] at hj
        have hle : check.baseline ≤ s.raised.length := by
          rw [h.length]
          exact h.baseline check hp
        rw [List.drop_append_of_le_length hle] at hmem
        rcases List.mem_append.1 hmem with hold | hnew
        · exact h.spares check j was t hp hold hj
        · exact absurd (List.mem_singleton.1 hnew) hji
    · intro hp j hj
      dsimp only at hp hj
      by_cases hji : j = i
      · subst hji
        rw [Function.update_self] at hj
        cases hj
        exact hmarked hp rfl
      · rw [Function.update_of_ne hji] at hj
        exact h.marked hp j hj

/-- A call that is not timely breaks the promise: at once when another turn runs, and with
the next step of the turn when it has only been marked. -/
theorem not_honest_of_raise {s s' : State ι} {i : ι} (h : WellFormed s)
    (hstep : step s (.raise i) = some s') (hlate : ¬ Timely s (.raise i)) :
    ∃ s'', (s'' = s' ∨ step s' .observe = some s'') ∧ ¬ Honest s'' := by
  rcases step_cases hstep with ⟨he, -⟩ | ⟨he, -⟩ | ⟨he, -⟩ | ⟨_, _, he, -⟩ |
    ⟨_, turn, he, hcall, rfl⟩
  · cases he
  · cases he
  · cases he
  · cases he
  cases he
  have hturn : turn ≤ s.begun := h.begun i turn (by rw [hcall]; rfl)
  cases hphase : s.phase with
  | idle =>
    refine absurd ?_ hlate
    intro _ _
    rw [hphase]
    exact ⟨nofun, nofun⟩
  | marked =>
    have heq : turn = s.begun := by
      by_contra hne
      refine absurd ?_ hlate
      intro t ht
      rw [hcall] at ht
      cases ht
      rw [hphase]
      exact ⟨fun _ => hne, nofun⟩
    subst heq
    refine ⟨_, Or.inr rfl, ?_⟩
    intro hhonest
    have hstops := hhonest.stops ⟨s.generation + 1⟩ i rfl (Function.update_self ..)
    simp [StopCheck.stopped] at hstops
  | running check =>
    refine ⟨_, Or.inl rfl, ?_⟩
    intro hhonest
    have hbase := h.baseline check hphase
    have hmem : i ∈ (s.raised ++ [i]).drop check.baseline := by
      rw [List.drop_append_of_le_length (by rw [h.length]; exact hbase)]
      simp
    have hle := hhonest.spares check i true turn rfl hmem (Function.update_self ..)
    refine absurd ?_ hlate
    intro t ht
    rw [hcall] at ht
    cases ht
    rw [hphase]
    exact ⟨nofun, fun _ _ => Nat.le_antisymm hturn hle⟩

/-- **The promise of the stop**: it holds in every state of an interleaving whose StopTurn
calls are all timely, and a call that is not timely breaks it. -/
theorem stop_turn_honest :
    (∀ s : State ι, Machine.Reaches step Timely start s → Honest s) ∧
      ∀ (s : State ι) (i : ι) (s' : State ι),
        Machine.Reaches step (fun _ _ => True) start s → step s (.raise i) = some s' →
        ¬ Timely s (.raise i) →
          ∃ s'', (s'' = s' ∨ step s' .observe = some s'') ∧ ¬ Honest s'' := by
  constructor
  · intro s hs
    have hkept : Kept s := hs.invariant kept_start fun _ _ _ h hok hstep => h.step hok hstep
    exact hkept.toHonest
  · intro s i s' hs hstep hlate
    exact not_honest_of_raise (wellFormed_of_reaches hs) hstep hlate

/-- A stop in the middle of a turn is timely. -/
theorem stop_turn_honest_once :
    ∃ s : State Unit, Machine.steps step start [.mark, .observe, .look (), .raise ()] = some s ∧
      s.calls () = .answered true 1 ∧ Honest s := by
  refine ⟨_, rfl, rfl, stop_turn_honest.1 _ ?_⟩
  have hmark : Machine.Reaches step Timely (start : State Unit) _ :=
    .step .mark .start trivial rfl
  have hlook := (hmark.step Step.observe trivial rfl).step (Step.look ()) trivial rfl
  refine hlook.step (Step.raise ()) ?_ rfl
  rintro turn ⟨⟩
  exact ⟨nofun, fun _ _ => rfl⟩

/-- A stop between the mark and the observer of a turn is missed, though it answers true;
and a stop that looked at one turn stops the next, when that one has taken its observer
before the counter is raised. -/
theorem stop_missed_and_misled :
    (∃ s : State Unit, Machine.steps step start [.mark, .look (), .raise (), .observe] = some s ∧
      ¬ Honest s) ∧
    ∃ s : State Unit, Machine.steps step start
        [.mark, .observe, .look (), .finish, .mark, .observe, .raise ()] = some s ∧
      ¬ Honest s := by
  constructor
  · refine ⟨_, rfl, fun h => ?_⟩
    exact absurd (h.stops ⟨1⟩ () rfl rfl) (by decide)
  · refine ⟨_, rfl, fun h => ?_⟩
    exact absurd (h.spares ⟨0⟩ () true 1 rfl (by decide) rfl) (by decide)

end EmbraOS.Ports.StopTurn
