import EmbraOS.Ports.LearningLoop

/-!
# How often the learning loop runs a phase

The loop goes back to its head when a phase is over, whether or not `handle_phase_complete` could
store the documents of the phase.  It moves on only when it could, so what is run next is the next
phase or the same one.

`stored_runs_once`: if every phase that ends is stored, no phase is run twice between two messages
of the operator.
-/

namespace EmbraOS.Ports.LearningLoop

open Verified.Calls
open Verified.Serde

/-- The phases that were run: kicked off, with a frame and a model request, or run through without
the model. -/
def ran (log : List Record) : List LearningPhase :=
  log.filterMap fun
    | .kickoff phase => some phase
    | .toolset => some .initialToolset
    | _ => none

/-- Between two messages of the operator each phase is run at most once. -/
def OncePerMessage (log : List Record) : Prop :=
  ∀ before between after, log = before ++ between ++ after → .heard ∉ between →
    (ran between).Nodup

section Stored

variable (env : Env)

/-- The document that the end of the phase stores has a free place, and its call is answered. -/
def storable (l : Loop) (reply : StoreCall → Reply) : Bool :=
  match l.state.phase, extractLastJsonDocument env l.state.conversationHistory with
  | .userConfiguration, some profile =>
    reply (.persistUser profile) = .answered && l.stores.user.isNone
  | .identityFormation, some identity =>
    reply (.persistIdentity identity) = .answered && l.stores.identity.isNone
  | .soulDefinition, some soul =>
    reply (.sealSoul (env.graph (l.state.identity.getD (.obj [])) soul l.name)) = .answered &&
      l.stores.soul.isNone
  | .initialToolset, _ => reply (.persistTools env.toolsRegistryDoc) = .answered
  | _, _ => true

/-- An event that ends a phase lets its document be stored. -/
def endsStored (l : Loop) : Event → Bool
  | .proceed reply => l.state.phase ≠ .initialToolset || storable env l reply
  | .answer a reply => !(learningTurnOutcome a).2 || storable env (l.hear a) reply
  | _ => true

/-- Every phase that ends in the run is stored. -/
def allStored (l : Loop) : List Event → Bool
  | [] => true
  | e :: es =>
    endsStored env l e &&
      match l.step env e with
      | none => true
      | some l' => allStored l' es

variable {env} {l l' : Loop}

/-! ## A stored phase is left -/

theorem run_answered {c : StoreCall} {s s' : Stores} {α : Type} {reply : StoreCall → Reply}
    (hreply : reply c = .answered) (hexec : server.exec c s = some (s', ()))
    (k : Option Unit → Prog api α) :
    run server reply (.call c k) s = run server reply (k (some ())) s' := by
  rw [run_call hexec, if_pos hreply, if_neg (by rw [hreply]; decide)]

/-- The phase moves on when its document is stored. -/
theorem rank_lt_of_storable {reply : StoreCall → Reply} (h : storable env l reply = true)
    (hne : l.state.phase ≠ .complete) : l.state.phase.rank <
      (run server reply (handlePhaseComplete env l.state l.name) l.stores).2.1.phase.rank := by
  unfold storable at h
  unfold handlePhaseComplete
  cases hphase : l.state.phase with
  | userConfiguration =>
    cases hdoc : extractLastJsonDocument env l.state.conversationHistory with
    | none => exact Nat.lt_succ_self 0
    | some profile =>
      rw [hphase, hdoc] at h
      obtain ⟨hreply, hfree⟩ := Bool.and_eq_true_iff.1 h
      have hexec : server.exec (.persistUser profile) l.stores =
          some ({ l.stores with user := some profile }, ()) :=
        if_neg (by rw [Option.isNone_iff_eq_none.1 hfree]; decide)
      rw [run_answered (of_decide_eq_true hreply) hexec]
      exact Nat.lt_succ_self 0
  | identityFormation =>
    cases hdoc : extractLastJsonDocument env l.state.conversationHistory with
    | none => exact Nat.lt_succ_self 1
    | some identity =>
      rw [hphase, hdoc] at h
      obtain ⟨hreply, hfree⟩ := Bool.and_eq_true_iff.1 h
      have hexec : server.exec (.persistIdentity identity) l.stores =
          some ({ l.stores with identity := some identity }, ()) :=
        if_neg (by rw [Option.isNone_iff_eq_none.1 hfree]; decide)
      rw [run_answered (of_decide_eq_true hreply) hexec, run_map]
      exact Nat.lt_succ_self 1
  | soulDefinition =>
    cases hdoc : extractLastJsonDocument env l.state.conversationHistory with
    | none => exact Nat.lt_succ_self 2
    | some soul =>
      rw [hphase, hdoc] at h
      obtain ⟨hreply, hfree⟩ := Bool.and_eq_true_iff.1 h
      have hexec : server.exec
          (.sealSoul (env.graph (l.state.identity.getD (.obj [])) soul l.name)) l.stores =
          some ({ l.stores with
            soul := some (env.graph (l.state.identity.getD (.obj [])) soul l.name) }, ()) :=
        if_neg (by rw [Option.isNone_iff_eq_none.1 hfree]; decide)
      rw [run_answered (of_decide_eq_true hreply) hexec]
      exact Nat.lt_succ_self 2
  | initialToolset =>
    rw [hphase] at h
    rw [run_answered (of_decide_eq_true h) rfl]
    exact Nat.lt_succ_self 3
  | confirmation => exact Nat.lt_succ_self 4
  | complete => exact absurd hphase hne

/-! ## The phases that were run are behind -/

@[simp] theorem ran_append (xs ys : List Record) : ran (xs ++ ys) = ran xs ++ ran ys :=
  List.filterMap_append

/-- The phases were run in their order, and none of them is still to come. -/
structure Ordered (l : Loop) : Prop where
  sorted : (ran l.log).Pairwise fun p q => p.rank < q.rank
  reached : ∀ p ∈ ran l.log, p.rank ≤ l.state.phase.rank
  /-- At the head of the loop the phase is one that was not run. -/
  fresh : l.control = .head → ∀ p ∈ ran l.log, p.rank < l.state.phase.rank

theorem Ordered.of_ran (h : Ordered l) (hran : ran l'.log = ran l.log)
    (hphase : l.state.phase.rank ≤ l'.state.phase.rank)
    (hhead : l'.control = .head → l.control = .head ∨
      l.state.phase.rank < l'.state.phase.rank) : Ordered l' := by
  refine ⟨?_, ?_, ?_⟩
  · rw [hran]
    exact h.sorted
  · rw [hran]
    exact fun p hp => (h.reached p hp).trans hphase
  · intro hcontrol p hp
    rw [hran] at hp
    cases hhead hcontrol with
    | inl hbefore => exact (h.fresh hbefore p hp).trans_le hphase
    | inr hlater => exact (h.reached p hp).trans_lt hlater

/-- A step inside a phase that writes of no other phase. -/
theorem Ordered.noted (h : Ordered l) {records : List Record} (hnone : ran records = [])
    (hlog : l'.log = l.log ++ records) (hphase : l'.state.phase = l.state.phase)
    (hcontrol : l'.control ≠ .head) : Ordered l' := by
  apply h.of_ran
  · rw [hlog, ran_append, hnone, List.append_nil]
  · rw [hphase]
  · exact fun hhead => absurd hhead hcontrol

/-- A phase that is run at the head of the loop is the last of those that were run. -/
theorem Ordered.run_phase (h : Ordered l) (hhead : l.control = .head)
    (hran : ran l'.log = ran l.log ++ [l.state.phase])
    (hphase : l.state.phase.rank ≤ l'.state.phase.rank)
    (hleft : l'.control = .head → l.state.phase.rank < l'.state.phase.rank) : Ordered l' := by
  have hbehind : ∀ p ∈ ran l'.log, p.rank ≤ l.state.phase.rank := by
    intro p hp
    rw [hran] at hp
    rcases List.mem_append.1 hp with hin | hin
    · exact h.reached p hin
    · rw [List.mem_singleton.1 hin]
  refine ⟨?_, fun p hp => (hbehind p hp).trans hphase,
    fun hcontrol p hp => (hbehind p hp).trans_lt (hleft hcontrol)⟩
  rw [hran, List.pairwise_append]
  refine ⟨h.sorted, List.pairwise_singleton _ _, ?_⟩
  intro p hp q hq
  rw [List.mem_singleton.1 hq]
  exact h.fresh hhead p hp

theorem ran_sealLog (l : Loop) (after : Stores) : ran (l.sealLog env after) = ran l.log := by
  unfold Loop.sealLog
  split
  · rfl
  · split
    · rfl
    · rw [ran_append]
      exact List.append_nil _

/-! ## Runs -/

theorem Ordered.phaseComplete (h : Ordered l) (kickoff : Bool) {reply : StoreCall → Reply}
    (hstored : storable env l reply = true) : Ordered (l.phaseComplete env kickoff reply) := by
  by_cases hcomplete : l.state.phase = .complete
  · have hrun : (run server reply (handlePhaseComplete env l.state l.name) l.stores).2.1 =
        l.state := by
      unfold handlePhaseComplete
      rw [hcomplete]
      rfl
    unfold Loop.phaseComplete
    dsimp only
    rw [hrun, if_pos hcomplete]
    apply h.of_ran
    · rw [ran_append, ran_sealLog]
      exact List.append_nil _
    · exact le_rfl
    · exact nofun
  · have hrank := rank_lt_of_storable hstored hcomplete
    unfold Loop.phaseComplete
    dsimp only
    split
    · apply h.of_ran
      · rw [ran_append, ran_sealLog]
        exact List.append_nil _
      · exact hrank.le
      · exact fun _ => Or.inr hrank
    · apply h.of_ran
      · exact ran_sealLog l _
      · exact hrank.le
      · exact fun _ => Or.inr hrank

theorem Ordered.hear (h : Ordered l) (hturn : l.control ≠ .head) (a : LearningAnswer) :
    Ordered (l.hear a) := by
  exact h.noted rfl rfl rfl hturn

theorem Ordered.proceed (h : Ordered l) (hhead : l.control = .head) {reply : StoreCall → Reply}
    (hstored : l.state.phase = .initialToolset → storable env l reply = true)
    (hstep : l.proceed env reply = some l') : Ordered l' := by
  have hkick : ∀ phase, l.state.phase = phase →
      Ordered { l.pushMessage ⟨.user, phaseKickoff phase⟩ with
        control := .turn true, log := l.log ++ [.kickoff phase] } := by
    intro phase hphase
    apply h.run_phase hhead
    · rw [ran_append, hphase]
      rfl
    · exact le_rfl
    · exact nofun
  unfold Loop.proceed at hstep
  split at hstep
  · cases hstep
    exact h.of_ran rfl le_rfl nofun
  · rename_i hphase
    cases hstep
    have hrank := rank_lt_of_storable (hstored hphase) (by rw [hphase]; decide)
    apply h.run_phase hhead
    · rw [ran_append, hphase]
      rfl
    · exact hrank.le
    · exact fun _ => hrank
  · split at hstep
    · cases hstep
    · cases hstep
      exact hkick _ rfl

theorem Ordered.offer (h : Ordered l) (hhead : l.control = .head) {outcome : ImportOutcome}
    (hstep : l.offer outcome = some l') : Ordered l' := by
  unfold Loop.offer at hstep
  split at hstep
  · rename_i hoffer
    cases outcome with
    | noCandidates | conversational =>
      cases hstep
      exact h.of_ran rfl le_rfl fun _ => Or.inl hhead
    | imported graph renamedTo =>
      dsimp only at hstep
      split at hstep
      · cases hstep
      cases hstep
      have hrank : l.state.phase.rank < LearningPhase.initialToolset.rank := by
        rw [hoffer.1]
        decide
      exact h.of_ran rfl hrank.le fun _ => Or.inr hrank
    | sealedByOtherStream =>
      dsimp only at hstep
      split at hstep
      · cases hstep
        exact h.noted rfl rfl rfl Control.noConfusion
      · cases hstep
    | disconnected | failed =>
      cases hstep
      exact h.of_ran rfl le_rfl nofun
  · cases hstep

theorem Ordered.step (h : Ordered l) {e : Event} (hstored : endsStored env l e = true)
    (hstep : l.step env e = some l') : Ordered l' := by
  unfold Loop.step at hstep
  split at hstep
  · rename_i reply hhead
    apply h.proceed hhead _ hstep
    intro hphase
    cases Bool.or_eq_true_iff.1 hstored with
    | inl hother => exact absurd hphase (of_decide_eq_true hother)
    | inr hcan => exact hcan
  · rename_i outcome hhead
    exact h.offer hhead hstep
  · rename_i a reply kickoff hturn
    have hheard : Ordered (l.hear a) := h.hear (by rw [hturn]; exact Control.noConfusion) a
    cases hstep
    split
    · rename_i hover
      apply hheard.phaseComplete
      cases Bool.or_eq_true_iff.1 hstored with
      | inl hgoes =>
        rw [hover] at hgoes
        cases hgoes
      | inr hcan => exact hcan
    · exact hheard.of_ran rfl le_rfl nofun
  · cases hstep
    exact h.of_ran rfl le_rfl nofun
  · cases hstep
    exact h.noted rfl rfl rfl Control.noConfusion
  · cases hstep
    exact h
  · split at hstep
    · cases hstep
      exact h.noted rfl rfl rfl Control.noConfusion
    · cases hstep
      exact h
  · cases hstep
    exact h.of_ran rfl le_rfl nofun
  · split at hstep
    · cases hstep
    · cases hstep
      exact h.of_ran rfl le_rfl Or.inl
  · cases hstep

theorem Ordered.runs (es : List Event) : ∀ l l' : Loop, Ordered l → allStored env l es = true →
    l.runs env es = some l' → Ordered l' := by
  induction es with
  | nil =>
    intro l l' h _ hruns
    cases hruns
    exact h
  | cons e es ih =>
    intro l l' h hstored hruns
    obtain ⟨hevent, hrest⟩ := Bool.and_eq_true_iff.1 hstored
    obtain ⟨l₁, hstep, hruns⟩ := Option.bind_eq_some_iff.1 hruns
    rw [hstep] at hrest
    exact ih l₁ l' (h.step hevent hstep) hrest hruns

theorem ordered_of_log (h : l.log = []) : Ordered l := by
  have hnone : ran l.log = [] := by rw [h]; rfl
  refine ⟨?_, ?_, ?_⟩ <;> rw [hnone]
  · exact List.Pairwise.nil
  · exact fun _ hp => absurd hp List.not_mem_nil
  · exact fun _ _ hp => absurd hp List.not_mem_nil

theorem Ordered.oncePerMessage (h : Ordered l) : OncePerMessage l.log := by
  intro before between after hlog _
  have hsorted := h.sorted
  rw [hlog, ran_append, ran_append] at hsorted
  have hbetween := (List.pairwise_append.1 (List.pairwise_append.1 hsorted).1).2.1
  exact hbetween.imp fun hlt heq => (hlt.ne (congrArg LearningPhase.rank heq)).elim

end Stored

/-- In a run, from wherever the loop is, in which every phase that ends can be stored, each phase is
run at most once between two messages of the operator. -/
theorem stored_runs_once (env : Env) (l₀ : Loop) (hlog : l₀.log = []) (es : List Event) (l : Loop)
    (hstored : allStored env l₀ es = true) (hruns : l₀.runs env es = some l) :
    OncePerMessage l.log :=
  (Ordered.runs es _ _ (ordered_of_log hlog) hstored hruns).oncePerMessage

/-- All phases, each stored at its end. -/
theorem stored_runs_once_demo :
    ∃ l, demoRun identityAnswer soulAnswer = some l ∧ OncePerMessage l.log ∧
      ran l.log = [.userConfiguration, .identityFormation, .soulDefinition, .initialToolset,
        .confirmation] := by
  have hran : (demoRun identityAnswer soulAnswer).map (fun l => ran l.log) =
      some [.userConfiguration, .identityFormation, .soulDefinition, .initialToolset,
        .confirmation] := rfl
  obtain ⟨l, hl, hphases⟩ := Option.map_eq_some_iff.1 hran
  refine ⟨l, hl, ?_, hphases⟩
  exact stored_runs_once demoEnv (start demoStores) rfl (demoEvents identityAnswer soulAnswer) l
    (by decide +kernel) hl

/-- A database that answers no call. -/
def unreachable : StoreCall → Reply := fun _ => .failed

/-- A loop resumed at the soul phase, which ends at its kickoff without a document; then the
database is away. -/
def awayEvents : List Event :=
  phaseEvents "Agreed." ++ [.proceed unreachable, .proceed unreachable, .proceed unreachable]

/-- The toolset phase is run again and again, and the operator has said nothing. -/
theorem toolset_runs_again :
    ((start { demoStores with identity := some demoIdentity }).runs demoEnv awayEvents).map
      (fun l => (ran l.log, l.log.any fun
        | .heard => true
        | _ => false)) =
      some ([.soulDefinition, .initialToolset, .initialToolset, .initialToolset], false) := by
  decide +kernel

end EmbraOS.Ports.LearningLoop
