/-!
# Machines that take one step after another

A machine is its step function: the state after a step, or `none` when the step cannot be
taken there.  `Reaches` are the states of its runs, all of whose steps meet a condition on
the state before them, and `Reaches.invariant` is the rule of their invariants.
-/

namespace EmbraOS.Verified.Machine

variable {σ ι : Type}

/-- The states that a run leads to whose steps are all `ok`. -/
inductive Reaches (step : σ → ι → Option σ) (ok : σ → ι → Prop) (s₀ : σ) : σ → Prop where
  | start : Reaches step ok s₀ s₀
  | step {s s' : σ} (i : ι) (h : Reaches step ok s₀ s) (hok : ok s i)
      (hstep : step s i = some s') : Reaches step ok s₀ s'

/-- The state after a list of steps. -/
def steps (step : σ → ι → Option σ) : σ → List ι → Option σ
  | s, [] => some s
  | s, i :: rest => (step s i).bind fun s' => steps step s' rest

variable {step : σ → ι → Option σ} {ok : σ → ι → Prop} {s₀ s : σ}

/-- What the steps keep holds in every state of a run. -/
theorem Reaches.invariant {J : σ → Prop} (hstart : J s₀)
    (hstep : ∀ s i s', J s → ok s i → step s i = some s' → J s') (h : Reaches step ok s₀ s) :
    J s := by
  induction h with
  | start => exact hstart
  | step i _ hok hs ih => exact hstep _ i _ ih hok hs

theorem reaches_of_steps (is : List ι) :
    ∀ {s s' : σ}, Reaches step (fun _ _ => True) s₀ s → steps step s is = some s' →
      Reaches step (fun _ _ => True) s₀ s' := by
  induction is with
  | nil =>
    intro s s' h hs
    cases hs
    exact h
  | cons i is ih =>
    intro s s' h hs
    obtain ⟨t, ht, hrest⟩ := Option.bind_eq_some_iff.1 hs
    exact ih (.step i h trivial ht) hrest

end EmbraOS.Verified.Machine
