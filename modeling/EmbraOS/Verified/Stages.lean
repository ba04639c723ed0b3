import EmbraOS.Verified.Calls

/-!
# Tasks that go through stages

A task of a pool is at a stage if what is left of it is the program of that stage.  `Pool.At.step`
turns a step of the pool into one of a task from stage to stage; `Only` says that at most one task
is at the stages of a kind.
-/

namespace EmbraOS.Verified.Calls

variable {A : Api} {σ α ι S : Type}

/-- A call has no answer, and was carried out or not; or it was carried out and answered. -/
theorem Server.perform_cases (srv : Server A σ) (c : A.Call) (r : Reply) (s : σ) :
    (srv.perform c r s).2 = none ∧ ¬ (r = .answered ∧ (srv.exec c s).isSome = true) ∧
        ((srv.perform c r s).1 = s ∨ ∃ a, srv.exec c s = some ((srv.perform c r s).1, a)) ∨
      ∃ a, (srv.perform c r s).2 = some a ∧
        srv.exec c s = some ((srv.perform c r s).1, a) := by
  cases hexec : srv.exec c s with
  | none =>
    rw [perform_of_refused hexec]
    exact Or.inl ⟨rfl, fun h => Bool.false_ne_true h.2, Or.inl rfl⟩
  | some out =>
    obtain ⟨s', a⟩ := out
    rw [perform_of_exec hexec]
    cases r with
    | answered => exact Or.inr ⟨a, rfl, rfl⟩
    | failed => exact Or.inl ⟨rfl, fun h => Reply.noConfusion h.1, Or.inl rfl⟩
    | unanswered => exact Or.inl ⟨rfl, fun h => Reply.noConfusion h.1, Or.inr ⟨a, rfl⟩⟩

/-- Where the tasks of a pool are. -/
def Pool.At (prog : ι → S → Prog A α) (c : Pool A σ α ι) (st : ι → S) : Prop :=
  ∀ i, c.tasks i = prog i (st i)

/-- At most one task is at a stage of the kind. -/
def Only (kind : S → Bool) (st : ι → S) : Prop :=
  ∀ i j, kind (st i) = true → kind (st j) = true → i = j

variable {kind : S → Bool} {st : ι → S} {i : ι}

theorem Only.others (h : Only kind st) (hi : kind (st i) = true) {j : ι} (hne : j ≠ i) :
    kind (st j) = false := by
  by_contra hj
  exact hne (h j i (Bool.eq_true_of_not_eq_false hj) hi)

variable [DecidableEq ι] {stage : S}

theorem Only.update (h : Only kind st)
    (hnew : kind stage = true → ∀ j, j ≠ i → kind (st j) = false) :
    Only kind (Function.update st i stage) := by
  intro j k hj hk
  by_cases hji : j = i
  · by_cases hki : k = i
    · rw [hji, hki]
    · rw [hji, Function.update_self] at hj
      rw [Function.update_of_ne hki, hnew hj k hki] at hk
      cases hk
  · rw [Function.update_of_ne hji] at hj
    by_cases hki : k = i
    · rw [hki, Function.update_self] at hk
      rw [hnew hk j hji] at hj
      cases hj
    · rw [Function.update_of_ne hki] at hk
      exact h j k hj hk

/-- A step of the pool moves one task to its next stage. -/
theorem Pool.At.step {prog : ι → S → Prog A α} {srv : Server A σ} {c c' : Pool A σ α ι} {r : Reply}
    (h : c.At prog st) (next : S → σ → Prop) (hstep : c.step srv i r = some c')
    (hnext : ∀ cl k, prog i (st i) = .call cl k → ∃ stage,
      k (srv.perform cl r c.state).2 = prog i stage ∧ next stage (srv.perform cl r c.state).1) :
    ∃ stage, c'.At prog (Function.update st i stage) ∧ next stage c'.state := by
  obtain ⟨cl, k, htask, hstate, htasks⟩ := Pool.step_eq_some hstep
  obtain ⟨stage, hk, hmoves⟩ := hnext cl k ((h i).symm.trans htask)
  rw [← hstate] at hmoves
  refine ⟨stage, ?_, hmoves⟩
  intro j
  rw [htasks]
  by_cases hne : j = i
  · subst hne
    rw [Function.update_self, Function.update_self, hk]
  · rw [Function.update_of_ne hne, Function.update_of_ne hne]
    exact h j

end EmbraOS.Verified.Calls
