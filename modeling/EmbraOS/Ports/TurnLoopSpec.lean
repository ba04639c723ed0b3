import EmbraOS.Ports.TurnLoop

/-!
# What a turn sends to the provider

`requests_paired`: in every request each response that called tools is followed by the
results of exactly those calls, and no request is sent once the loop has seen the stop.
`turn_bounded`: how many requests a turn makes and in how many responses it runs tools, and
that it cannot go on for ever unless the provider does.

Both are invariants of the machine, one case for each phase.
-/

namespace EmbraOS.Ports.TurnLoop

open Verified

variable {env : Env} {s s' : State} {i : Step}

/-! ## Calls and results -/

def callIds (blocks : List Block) : List String := blocks.filterMap Block.callId?

/-- The response ended in tool use and called tools. -/
def Entry.Calls (e : Entry) : Prop :=
  e.outcome = some .toolUse ∧ callIds e.message.content ≠ []

/-- The message has one result for each call, in their order, and nothing else. -/
def Answers (e u : Entry) : Prop :=
  ∃ results, u.message = .user results ∧
    results.map Block.resultId? = (callIds e.message.content).map some

def Follows (e u : Entry) : Prop := e.Calls → Answers e u

/-- The last message calls for no answer. -/
def Rests (messages : List Entry) : Prop := ∀ e ∈ messages.getLast?, ¬ e.Calls

/-- Every response that called tools is followed by their results. -/
def Paired (messages : List Entry) : Prop :=
  ∀ i e, messages[i]? = some e → e.Calls → ∃ u, messages[i + 1]? = some u ∧ Answers e u

theorem paired_of_chain (messages : List Entry) (h : messages.IsChain Follows)
    (hlast : Rests messages) : Paired messages := by
  intro i e he hcalls
  obtain ⟨hi, hget⟩ := List.getElem?_eq_some_iff.1 he
  by_cases hnext : i + 1 < messages.length
  · refine ⟨messages[i + 1], List.getElem?_eq_getElem hnext, ?_⟩
    have hfollows := List.isChain_iff_getElem.1 h i hnext
    rw [hget] at hfollows
    exact hfollows hcalls
  · have hend : messages.getLast? = some e := by
      rw [List.getLast?_eq_getElem?, show messages.length - 1 = i by omega]
      exact he
    exact absurd hcalls (hlast e hend)

theorem chain_concat {messages : List Entry} {u : Entry} (h : messages.IsChain Follows)
    (hlast : ∀ e ∈ messages.getLast?, Follows e u) : (messages ++ [u]).IsChain Follows := by
  refine List.isChain_append.2 ⟨h, List.isChain_singleton u, ?_⟩
  intro e he v hv
  obtain rfl : u = v := by simpa using hv
  exact hlast e he

theorem rests_user (messages : List Entry) (results : List Block) :
    Rests (messages ++ [⟨.user results, none⟩]) := by
  intro e he hcalls
  rw [List.getLast?_concat] at he
  obtain rfl := Option.some.inj he
  cases hcalls.1

theorem resultIds_synthesize (blocks : List Block) (msg : String) :
    (synthesizeCapResults blocks msg).map Block.resultId? = (callIds blocks).map some := by
  unfold synthesizeCapResults callIds
  induction blocks with
  | nil => rfl
  | cons b blocks ih =>
    cases hid : b.callId? with
    | none => simpa [List.filterMap_cons, hid] using ih
    | some id => simpa [List.filterMap_cons, hid, Block.resultId?] using ih

/-! ## Pairing -/

/-- The last message is the response the loop is at. -/
def AtResponse (s : State) : Prop :=
  s.messages.getLast? = some ⟨.assistant s.current.content, some s.current.outcome⟩

/-- What the messages are in each phase. -/
def PairedSoFar (s : State) : Prop :=
  match s.phase with
  | .requested _ => Rests s.messages
  | .streaming _ _ => Rests s.messages
  | .head => AtResponse s
  | .tools blocks => AtResponse s ∧ ∃ ids, callIds s.current.content = ids ++ callIds blocks ∧
      s.results.map Block.resultId? = ids.map some
  | .dispatching id _ blocks => AtResponse s ∧ ∃ ids,
      callIds s.current.content = ids ++ id :: callIds blocks ∧
      s.results.map Block.resultId? = ids.map some
  | .swept => AtResponse s ∧ (s.raised = true ∨
      s.results.map Block.resultId? = (callIds s.current.content).map some)
  | .closing => True
  | .ended _ => True

structure PairInv (s : State) : Prop where
  chain : s.messages.IsChain Follows
  requests : ∀ r ∈ s.requests, Paired r.messages ∧ r.stopSeen = false
  seen : s.stopSeen = true → s.raised = true
  phase : PairedSoFar s

theorem pairInv_start (messages : List ApiMessage) : PairInv (start messages) := by
  have hnone : ∀ e ∈ messages.map fun message => (⟨message, none⟩ : Entry), ¬ e.Calls := by
    intro e he hcalls
    obtain ⟨message, _, rfl⟩ := List.mem_map.1 he
    cases hcalls.1
  have hchain : (messages.map fun message => (⟨message, none⟩ : Entry)).IsChain Follows := by
    rw [List.isChain_iff_getElem]
    intro i hi hcalls
    exact absurd hcalls (hnone _ (List.getElem_mem _))
  have hrests : Rests (messages.map fun message => (⟨message, none⟩ : Entry)) :=
    fun e he => hnone e (List.mem_of_getLast? he)
  refine ⟨hchain, ?_, nofun, hrests⟩
  intro r hr
  rw [List.mem_singleton.1 hr]
  exact ⟨paired_of_chain _ hchain hrests, rfl⟩

variable {purpose : Purpose} {c : Collect}

/-- A request is good when the messages are and the stop has not been seen. -/
theorem PairInv.ask (hchain : s.messages.IsChain Follows)
    (hrequests : ∀ r ∈ s.requests, Paired r.messages ∧ r.stopSeen = false)
    (hseen : s.stopSeen = true → s.raised = true) (hrests : Rests s.messages)
    (hraised : s.raised = false) : PairInv (s.ask purpose) := by
  have hunseen : s.stopSeen = false := by
    cases h : s.stopSeen with
    | false => rfl
    | true =>
      rw [hseen h] at hraised
      cases hraised
  refine ⟨hchain, ?_, hseen, hrests⟩
  intro r hr
  rcases List.mem_append.1 hr with hr | hr
  · exact hrequests r hr
  · rw [List.mem_singleton.1 hr]
    exact ⟨paired_of_chain _ hchain hrests, hunseen⟩

section

variable (h : PairInv s)
include h

theorem PairInv.receive (hrests : Rests s.messages) (turn : AssistantTurn) :
    PairInv (s.receive turn) := by
  refine ⟨chain_concat h.chain fun e he hcalls => absurd hcalls (hrests e he), h.requests, h.seen,
    ?_⟩
  exact List.getLast?_concat

theorem PairInv.collected (hrests : Rests s.messages) (purpose : Purpose)
    (turn : Option AssistantTurn) : PairInv (s.collected env purpose turn) := by
  have hpush : ∀ turn : AssistantTurn, (s.messages ++
      [(⟨.assistant turn.content, some turn.outcome⟩ : Entry)]).IsChain Follows :=
    fun _ => chain_concat h.chain fun e he hcalls => absurd hcalls (hrests e he)
  cases purpose with
  | summary =>
    cases turn with
    | none =>
      dsimp only [State.collected, State.summarized, State.say]
      exact ⟨h.chain, h.requests, h.seen, trivial⟩
    | some turn =>
      dsimp only [State.collected, State.summarized, State.pushResponse, State.say]
      split
      · exact ⟨hpush turn, h.requests, h.seen, trivial⟩
      · exact ⟨hpush turn, h.requests, h.seen, trivial⟩
  | first | resume | continuation =>
    cases turn with
    | none => exact ⟨h.chain, h.requests, h.seen, trivial⟩
    | some turn => exact h.receive hrests turn

theorem PairInv.hear (hphase : s.phase = .streaming purpose c) (event : StreamEvent) :
    PairInv (s.hear purpose c event) := by
  have hrests : PairedSoFar s := h.phase
  cases event with
  | textDelta | complete =>
    rw [PairedSoFar, hphase] at hrests
    exact ⟨h.chain, h.requests, h.seen, hrests⟩
  | reasoningDelta | error => exact ⟨h.chain, h.requests, h.seen, hrests⟩
  | blockComplete => exact h

theorem PairInv.terminal : PairInv (s.terminal env) := by
  unfold State.terminal State.say
  dsimp only
  split
  · exact ⟨h.chain, h.requests, h.seen, trivial⟩
  · exact ⟨h.chain, h.requests, h.seen, trivial⟩

section

variable (hlast : AtResponse s)
include hlast

/-- At the cap the calls are answered before the request, if there are any. -/
theorem PairInv.capped (hraised : s.raised = false) :
    PairInv (s.capped env) := by
  have hids := resultIds_synthesize s.current.content (capMsg env)
  unfold State.capped
  dsimp only
  split
  · rename_i hempty
    refine PairInv.ask h.chain h.requests h.seen ?_ hraised
    intro e he hcalls
    obtain rfl : _ = e := Option.some.inj (hlast.symm.trans he)
    apply hcalls.2
    have hnil : synthesizeCapResults s.current.content (capMsg env) = [] :=
      List.isEmpty_iff.1 hempty
    rw [hnil, List.map_nil] at hids
    exact List.map_eq_nil_iff.1 hids.symm
  · refine PairInv.ask ?_ h.requests h.seen (rests_user _ _) hraised
    refine chain_concat h.chain ?_
    intro e he _
    obtain rfl : _ = e := Option.some.inj (hlast.symm.trans he)
    exact ⟨_, rfl, hids⟩

theorem PairInv.act (hraised : s.raised = false) :
    PairInv (s.act env) := by
  unfold State.act
  split
  · exact h.terminal
  · exact h.terminal
  · exact h.terminal
  · rename_i hpause
    refine PairInv.ask h.chain h.requests h.seen ?_ hraised
    intro e he hcalls
    obtain rfl : _ = e := Option.some.inj (hlast.symm.trans he)
    have htool : some s.current.outcome = some TurnOutcome.toolUse := hcalls.1
    rw [hpause] at htool
    cases htool
  · split
    · exact h.capped hlast hraised
    · exact ⟨h.chain, h.requests, h.seen, hlast, [], rfl, rfl⟩

theorem PairInv.turnAround :
    PairInv (s.turnAround env) := by
  unfold State.turnAround
  split
  · rename_i hraised
    have hseen : s.overrule.stopSeen = true → s.overrule.raised = true := fun _ => hraised
    show PairInv (s.overrule.terminal env)
    unfold State.terminal State.say
    dsimp only
    split
    · exact ⟨h.chain, h.requests, hseen, trivial⟩
    · exact ⟨h.chain, h.requests, hseen, trivial⟩
  · rename_i hraised
    exact h.act hlast (Bool.eq_false_iff.2 hraised)

/-- The results so far are those of the blocks so far. -/
theorem PairInv.nextBlock {blocks : List Block}
    (hids : ∃ ids, callIds s.current.content = ids ++ callIds blocks ∧
      s.results.map Block.resultId? = ids.map some) : PairInv (s.nextBlock blocks) := by
  obtain ⟨ids, hcalls, hresults⟩ := hids
  cases blocks with
  | nil =>
    refine ⟨h.chain, h.requests, h.seen, hlast, Or.inr ?_⟩
    show s.results.map Block.resultId? = (callIds s.current.content).map some
    rw [hcalls, hresults]
    exact congrArg (List.map some) (List.append_nil ids).symm
  | cons b blocks =>
    cases b with
    | toolCall id name args hidden =>
      dsimp only [State.nextBlock]
      split
      · rename_i hraised
        exact ⟨h.chain, h.requests, fun _ => hraised, hlast, Or.inl hraised⟩
      · exact ⟨h.chain, h.requests, h.seen, hlast, ids, hcalls, hresults⟩
    | text | image | toolResult | providerOpaque =>
      exact ⟨h.chain, h.requests, h.seen, hlast, ids, hcalls, hresults⟩

theorem PairInv.answered {id name : String} {blocks : List Block}
    (hids : ∃ ids, callIds s.current.content = ids ++ id :: callIds blocks ∧
      s.results.map Block.resultId? = ids.map some) (out : Dispatched) :
    PairInv (s.answered id name blocks out) := by
  obtain ⟨ids, hcalls, hresults⟩ := hids
  refine ⟨h.chain, h.requests, h.seen, hlast, ids ++ [id], ?_, ?_⟩
  · rw [List.append_assoc]
    exact hcalls
  · show (s.results ++ [_]).map Block.resultId? = (ids ++ [id]).map some
    rw [List.map_append, hresults, List.map_append]
    rfl

theorem PairInv.sweep (hanswered : s.raised = true ∨
    s.results.map Block.resultId? = (callIds s.current.content).map some) : PairInv s.sweep := by
  unfold State.sweep
  split
  · rename_i hraised
    exact ⟨h.chain, h.requests, fun _ => hraised, hlast⟩
  rename_i hraised
  split
  · exact ⟨h.chain, h.requests, h.seen, trivial⟩
  · have hresults := hanswered.resolve_left hraised
    refine PairInv.ask ?_ h.requests h.seen (rests_user _ _) (Bool.eq_false_iff.2 hraised)
    refine chain_concat h.chain ?_
    intro e he _
    obtain rfl : _ = e := Option.some.inj (hlast.symm.trans he)
    exact ⟨s.results, rfl, hresults⟩

end

theorem PairInv.shown (text : String) : PairInv (s.shown text) :=
  ⟨h.chain, h.requests, h.seen, h.phase⟩

theorem PairInv.see (hraised : s.raised = true) : PairInv s.see :=
  ⟨h.chain, h.requests, fun _ => hraised, h.phase⟩

theorem PairInv.raise : PairInv { s with raised := true } := by
  refine ⟨h.chain, h.requests, fun _ => rfl, ?_⟩
  have hphase := h.phase
  unfold PairedSoFar at hphase ⊢
  cases hp : s.phase with
  | swept =>
    rw [hp] at hphase
    exact ⟨hphase.1, Or.inl rfl⟩
  | requested | streaming | head | tools | dispatching => rw [hp] at hphase; exact hphase
  | closing => trivial
  | ended ending => trivial

theorem PairInv.step (hstep : step env s i = some s') : PairInv s' := by
  have hphase := h.phase
  unfold PairedSoFar at hphase
  cases taken_of_step hstep with
  | raise => exact h.raise
  | accept hp =>
    rw [hp] at hphase
    exact ⟨h.chain, h.requests, h.seen, hphase⟩
  | @refuse purpose hp error =>
    cases purpose with
    | first | resume | continuation | summary => exact ⟨h.chain, h.requests, h.seen, trivial⟩
  | event hp event => exact h.hear hp event
  | finish hp =>
    rw [hp] at hphase
    exact (h.shown _).collected hphase _ _
  | stop hraised hp =>
    rw [hp] at hphase
    exact ((h.shown _).see hraised).collected hphase _ _
  | stopTool hraised hp =>
    rw [hp] at hphase
    exact ⟨h.chain, h.requests, fun _ => hraised, hphase.1, Or.inl hraised⟩
  | result hp out =>
    rw [hp] at hphase
    exact h.answered hphase.1 hphase.2 out
  | head hp =>
    rw [hp] at hphase
    exact h.turnAround hphase
  | tools hp =>
    rw [hp] at hphase
    exact h.nextBlock hphase.1 hphase.2
  | swept hp =>
    rw [hp] at hphase
    exact h.sweep hphase.1 hphase.2
  | closing =>
    refine ⟨h.chain, h.requests, ?_, trivial⟩
    intro hseen
    rcases (Bool.or_eq_true _ _ ▸ hseen : _ ∨ _) with hseen | hraised
    · exact h.seen hseen
    · exact hraised

end

/-- In every request of a turn, whatever the provider, the tools and the operator do, each
response that called tools is followed directly by one message with exactly the results of
its calls, in their order; and no request is sent once the stop is seen. -/
theorem requests_paired (env : Env) (messages : List ApiMessage) {s : State}
    (h : Machine.Reaches (step env) (fun _ _ => True) (start messages) s) :
    ∀ r ∈ s.requests, Paired r.messages ∧ r.stopSeen = false := by
  have hinv : PairInv s :=
    h.invariant (pairInv_start messages) fun _ _ _ hs _ hstep => hs.step hstep
  exact hinv.requests

/-! ## One call, and a cap of one -/

def oneIteration : Env := ⟨some 1, fun _ => false⟩

def hello : List ApiMessage := [.user [.text "hello"]]

def callTurn : AssistantTurn := ⟨[.toolCall "c1" "system_status" .null none], .toolUse, none⟩

/-- The provider's answer to a request, as one stream. -/
def answerSteps (turn : AssistantTurn) : List Step :=
  [.accept, .event (.complete turn), .finish, .tick]

/-- A response with one call, and its result. -/
def callSteps : List Step :=
  answerSteps callTurn ++ [.tick, .result (.ok "fine" []), .tick, .tick]

/-- The second request has the call and its result. -/
theorem requests_paired_call :
    ∃ s, Machine.steps (step oneIteration) (start hello) callSteps = some s ∧
      s.requests.length = 2 ∧ ∀ r ∈ s.requests, Paired r.messages ∧ r.stopSeen = false := by
  refine ⟨_, rfl, rfl, requests_paired oneIteration hello ?_⟩
  exact Machine.reaches_of_steps callSteps .start rfl

/-- A response that ended in tool use without a call is, at the cap, the last message of the
request for a summary. -/
theorem tool_use_without_call_unanswered :
    ∃ s, Machine.steps (step oneIteration) (start hello)
        (callSteps ++ answerSteps ⟨[.text "done"], .toolUse, none⟩) = some s ∧
      ∃ r ∈ s.requests, ∃ e, r.messages.getLast? = some e ∧ e.outcome = some .toolUse := by
  refine ⟨_, rfl, _, List.mem_append_right _ List.mem_cons_self, _, rfl, rfl⟩

/-! ## Bounds -/

def pauses (s : State) : Nat := s.responses.countP fun turn => turn.outcome = .pause

/-- What the phases have in common: `n` requests besides those for passes and pauses, of which
`k` have no response yet. -/
def SpentBut (env : Env) (n k : Nat) (s : State) : Prop :=
  s.requests.length ≤ s.toolIter + pauses s + n ∧ s.responses.length + k ≤ s.requests.length ∧
    s.dispatchedIn.toFinset.card ≤ s.toolIter ∧ s.toolIter ≤ env.cap

/-- The tools of a response are run: its pass is counted already. -/
def SpentIn (env : Env) (s : State) : Prop :=
  (s.requests.length ≤ s.toolIter + pauses s ∧ s.current.outcome = .toolUse) ∧
    s.responses.length ≤ s.requests.length ∧
    (insert s.responses.length s.dispatchedIn.toFinset).card ≤ s.toolIter ∧ s.toolIter ≤ env.cap

/-- What has been spent, by phase: a request for each pass over tools, one for each pause, the
first one, and at the cap one more; and of the passes, which during one counts its own
response already. -/
def Spent (env : Env) (s : State) : Prop :=
  match s.phase with
  | .requested .summary => SpentBut env 2 1 s
  | .streaming .summary _ => SpentBut env 2 1 s
  | .requested _ => SpentBut env 1 1 s
  | .streaming _ _ => SpentBut env 1 1 s
  | .head => s.requests.length + (if s.current.outcome = .pause then 1 else 0) ≤
      s.toolIter + pauses s + 1 ∧ s.responses.length ≤ s.requests.length ∧
      s.dispatchedIn.toFinset.card ≤ s.toolIter ∧ s.toolIter ≤ env.cap
  | .tools _ => SpentIn env s
  | .dispatching _ _ _ => SpentIn env s
  | .swept => SpentBut env 0 0 s ∧ s.current.outcome = .toolUse
  | .closing => SpentBut env 2 0 s
  | .ended _ => SpentBut env 2 0 s

theorem pauses_pushResponse (s : State) (turn : AssistantTurn) :
    pauses (s.pushResponse turn) = pauses s + if turn.outcome = .pause then 1 else 0 := by
  simp [pauses, State.pushResponse, List.countP_append, List.countP_singleton]

theorem card_le_insert (s : State) : s.dispatchedIn.toFinset.card ≤
    (insert s.responses.length s.dispatchedIn.toFinset).card :=
  Finset.card_le_card (Finset.subset_insert _ _)

theorem SpentBut.mono {n n' k k' : Nat} (h : SpentBut env n k s) (hn : n ≤ n') (hk : k' ≤ k) :
    SpentBut env n' k' s :=
  ⟨h.1.trans (Nat.add_le_add_left hn _), (Nat.add_le_add_left hk _).trans h.2.1, h.2.2⟩

/-- A response is put down to the request that waited for it. -/
theorem SpentBut.pushResponse {n : Nat} (h : SpentBut env n 1 s) (turn : AssistantTurn) :
    s.requests.length + (if turn.outcome = .pause then 1 else 0) ≤
        s.toolIter + pauses (s.pushResponse turn) + n ∧
      (s.responses ++ [turn]).length ≤ s.requests.length := by
  have hpauses := pauses_pushResponse s turn
  obtain ⟨hrequests, hresponses, -⟩ := h
  rw [List.length_append]
  exact ⟨by omega, hresponses⟩

theorem Spent.summarized (h : SpentBut env 2 1 s) (turn : Option AssistantTurn) :
    Spent env (s.summarized env turn) := by
  cases turn with
  | none =>
    dsimp only [State.summarized, State.say]
    exact h.mono (le_refl 2) (Nat.zero_le 1)
  | some turn =>
    obtain ⟨hrequests, hresponses⟩ := h.pushResponse turn
    have hpushed : SpentBut env 2 0 (s.pushResponse turn) :=
      ⟨le_trans (Nat.le_add_right _ _) hrequests, hresponses, h.2.2⟩
    dsimp only [State.summarized, State.say]
    split
    · exact hpushed
    · exact hpushed

theorem Spent.collected (h : Spent env s)
    (hp : s.phase = .streaming purpose c) (turn : Option AssistantTurn) :
    Spent env (s.collected env purpose turn) := by
  unfold Spent at h
  rw [hp] at h
  cases purpose with
  | summary => exact Spent.summarized h turn
  | first | resume | continuation =>
    cases turn with
    | none =>
      have hless : SpentBut env 2 0 s := SpentBut.mono h (Nat.le_succ 1) (Nat.zero_le 1)
      exact hless
    | some turn =>
      have hpushed := SpentBut.pushResponse h turn
      exact ⟨hpushed.1, hpushed.2, h.2.2⟩

/-- What is spent does not depend on what was said. -/
theorem Spent.hear (h : Spent env s) (hp : s.phase = .streaming purpose c) (event : StreamEvent) :
    Spent env (s.hear purpose c event) := by
  have hspent := h
  unfold Spent at hspent
  rw [hp] at hspent
  cases event with
  | textDelta | complete => cases purpose <;> exact hspent
  | reasoningDelta | blockComplete | error => exact h

theorem Spent.terminal (h : SpentBut env 1 0 s) : Spent env (s.terminal env) := by
  have hmore : SpentBut env 2 0 s := h.mono (Nat.le_succ 1) (le_refl 0)
  unfold State.terminal State.say
  dsimp only
  split
  · exact hmore
  · exact hmore

theorem SpentBut.ask {n : Nat} (h : SpentBut env n 0 s) (purpose : Purpose) :
    SpentBut env (n + 1) 1 (s.ask purpose) := by
  obtain ⟨hrequests, hresponses, hrest⟩ := h
  have hlength : (s.ask purpose).requests.length = s.requests.length + 1 := List.length_append
  refine ⟨?_, ?_, hrest⟩
  · rw [hlength]
    exact Nat.succ_le_succ hrequests
  · rw [hlength]
    exact Nat.succ_le_succ hresponses

theorem Spent.capped (h : SpentBut env 1 0 s) : Spent env (s.capped env) := by
  have hask : ∀ t : State, SpentBut env 1 0 t → Spent env (t.ask .summary) :=
    fun t ht => ht.ask .summary
  unfold State.capped
  dsimp only
  split
  · exact hask _ h
  · exact hask _ h

theorem Spent.act (hrequests : s.requests.length + (if s.current.outcome = .pause then 1 else 0) ≤
      s.toolIter + pauses s + 1) (hrest : SpentBut env 1 0 s) : Spent env (s.act env) := by
  unfold State.act
  split
  · exact Spent.terminal hrest
  · exact Spent.terminal hrest
  · exact Spent.terminal hrest
  · rename_i hpause
    rw [hpause, if_pos rfl] at hrequests
    have hfree : SpentBut env 0 0 s := ⟨Nat.le_of_succ_le_succ hrequests, hrest.2⟩
    exact hfree.ask .resume
  · rename_i htool
    split
    · exact Spent.capped hrest
    · rename_i hbelow
      refine ⟨⟨?_, htool⟩, hrest.2.1, ?_, Nat.not_le.1 hbelow⟩
      · show s.requests.length ≤ s.toolIter + 1 + pauses s
        omega
      · exact (Finset.card_insert_le _ _).trans (Nat.succ_le_succ hrest.2.2.1)

section

variable (h : Spent env s)
include h

theorem Spent.turnAround (hp : s.phase = .head) :
    Spent env (s.turnAround env) := by
  unfold Spent at h
  rw [hp] at h
  have hrest : SpentBut env 1 0 s := ⟨le_trans (Nat.le_add_right _ _) h.1, h.2⟩
  unfold State.turnAround
  split
  · exact Spent.terminal hrest
  · exact Spent.act h.1 hrest

theorem Spent.nextBlock {blocks : List Block} (hp : s.phase = .tools blocks) :
    Spent env (s.nextBlock blocks) := by
  unfold Spent at h
  rw [hp] at h
  obtain ⟨hrequests, hresponses, hpasses, hcap⟩ := h
  have hswept : SpentBut env 0 0 s ∧ s.current.outcome = .toolUse :=
    ⟨⟨hrequests.1, hresponses, (card_le_insert s).trans hpasses, hcap⟩, hrequests.2⟩
  cases blocks with
  | nil => exact hswept
  | cons b blocks =>
    cases b with
    | toolCall id name args hidden =>
      dsimp only [State.nextBlock]
      split
      · exact hswept
      · refine ⟨hrequests, hresponses, ?_, hcap⟩
        show (insert s.responses.length
          (s.dispatchedIn ++ [s.responses.length]).toFinset).card ≤ s.toolIter
        rw [List.toFinset_append]
        simpa using hpasses
    | text | image | toolResult | providerOpaque => exact ⟨hrequests, hresponses, hpasses, hcap⟩

theorem Spent.sweep (hp : s.phase = .swept) : Spent env s.sweep := by
  unfold Spent at h
  rw [hp] at h
  obtain ⟨hfree, htool⟩ := h
  unfold State.sweep
  split
  · refine ⟨?_, hfree.2⟩
    show s.requests.length + (if s.current.outcome = .pause then 1 else 0) ≤
      s.toolIter + pauses s + 1
    rw [htool, if_neg (by decide)]
    exact Nat.le_succ_of_le hfree.1
  · split
    · have hmore : SpentBut env 2 0 s := hfree.mono (Nat.zero_le 2) (le_refl 0)
      exact hmore
    · exact SpentBut.ask (s := s.pushResults s.results) hfree .continuation

theorem Spent.refused (hp : s.phase = .requested purpose)
    (error : String) : Spent env (s.refused env error purpose) := by
  unfold Spent at h
  rw [hp] at h
  have hless : SpentBut env 2 0 s := by
    cases purpose with
    | summary => exact SpentBut.mono h (le_refl 2) (Nat.zero_le 1)
    | first | resume | continuation => exact SpentBut.mono h (Nat.le_succ 1) (Nat.zero_le 1)
  cases purpose <;> exact hless

theorem Spent.step (hstep : step env s i = some s') : Spent env s' := by
  have hspent := h
  unfold Spent at hspent
  cases taken_of_step hstep with
  | raise => exact h
  | @accept purpose hp =>
    rw [hp] at hspent
    cases purpose <;> exact hspent
  | refuse hp error => exact h.refused hp error
  | event hp event => exact h.hear hp event
  | @finish purpose c hp =>
    have hshown : Spent env (s.shown c.accum) := h
    exact hshown.collected hp c.full
  | @stop purpose c _ hp =>
    have hshown : Spent env (s.shown c.accum).see := h
    exact hshown.collected hp _
  | stopTool _ hp =>
    rw [hp] at hspent
    exact ⟨⟨hspent.1.1, hspent.2.1, (card_le_insert s).trans hspent.2.2.1, hspent.2.2.2⟩,
      hspent.1.2⟩
  | result hp =>
    rw [hp] at hspent
    exact hspent
  | head hp => exact h.turnAround hp
  | tools hp => exact h.nextBlock hp
  | swept hp => exact h.sweep hp
  | closing hp =>
    rw [hp] at hspent
    exact hspent

/-- In no phase has more been spent than at the end. -/
theorem Spent.total : SpentBut env 2 0 s := by
  have hcard := card_le_insert s
  unfold Spent SpentBut SpentIn at h
  split at h
  all_goals
    refine ⟨?_, ?_, ?_, ?_⟩
    all_goals omega

end

/-! ## Every turn comes to an end -/

/-- A step of the turn itself, or an answer it waited for: not the operator's stop, and not
one of the events of a stream. -/
def Step.isMove : Step → Bool
  | .raise => false
  | .event _ => false
  | _ => true

/-- The blocks of the responses so far. -/
def blocks (s : State) : Nat := (s.responses.map fun turn => turn.content.length).sum

/-- How many moves there can be by the end if nothing more is requested or received. -/
def ceiling (s : State) : Nat := 3 * s.requests.length + 2 * blocks s + 2 * s.toolIter + 3

/-- How many of them are still ahead. -/
def ahead (s : State) : Nat :=
  match s.phase with
  | .requested _ => 6
  | .streaming _ _ => 5
  | .head => if s.raised then 3 else 4 + 2 * s.current.content.length
  | .tools blocks => 5 + 2 * blocks.length
  | .dispatching _ _ blocks => 6 + 2 * blocks.length
  | .swept => 4
  | .closing => 1
  | .ended _ => 0

theorem blocks_pushResponse (s : State) (turn : AssistantTurn) :
    blocks (s.pushResponse turn) = blocks s + turn.content.length := by
  simp [blocks, State.pushResponse]

theorem ahead_collected (s : State) (purpose : Purpose) (turn : Option AssistantTurn) :
    1 + ahead (s.collected env purpose turn) + ceiling s ≤
      5 + ceiling (s.collected env purpose turn) := by
  have hreceive : ∀ turn,
      1 + ahead (s.receive turn) + ceiling s ≤ 5 + ceiling (s.receive turn) := by
    intro turn
    have hblocks := blocks_pushResponse s turn
    show 1 + (if s.raised then 3 else 4 + 2 * turn.content.length) + ceiling s ≤
      5 + (3 * s.requests.length + 2 * blocks (s.pushResponse turn) + 2 * s.toolIter + 3)
    unfold ceiling
    split <;> omega
  cases purpose with
  | summary =>
    cases turn with
    | none =>
      dsimp only [State.collected, State.summarized, State.say]
      show 1 + 1 + ceiling s ≤ 5 + ceiling s
      omega
    | some turn =>
      have hblocks := blocks_pushResponse s turn
      have hceiling : 1 + 1 + ceiling s ≤ 5 + (3 * s.requests.length +
          2 * blocks (s.pushResponse turn) + 2 * s.toolIter + 3) := by
        unfold ceiling
        omega
      dsimp only [State.collected, State.summarized, State.say]
      split
      · exact hceiling
      · exact hceiling
  | first =>
    cases turn with
    | none => show 1 + 0 + ceiling s ≤ 5 + ceiling s; omega
    | some turn => exact hreceive turn
  | resume | continuation =>
    cases turn with
    | none => show 1 + 1 + ceiling s ≤ 5 + ceiling s; omega
    | some turn => exact hreceive turn

/-- A state whose counters are those of `s` has the same ceiling. -/
theorem ceiling_congr (hrequests : s'.requests = s.requests)
    (hresponses : s'.responses = s.responses)
    (hiter : s'.toolIter = s.toolIter) : ceiling s' = ceiling s := by
  unfold ceiling blocks
  rw [hrequests, hresponses, hiter]

theorem ceiling_ask (s : State) (purpose : Purpose) :
    ceiling (s.ask purpose) = ceiling s + 3 := by
  have hblocks : blocks (s.ask purpose) = blocks s := rfl
  have hlength : (s.ask purpose).requests.length = s.requests.length + 1 := List.length_append
  unfold ceiling
  rw [hblocks, hlength, show (s.ask purpose).toolIter = s.toolIter from rfl]
  omega

theorem ahead_terminal (env : Env) (s : State) :
    ahead (s.terminal env) = 1 ∧ ceiling (s.terminal env) = ceiling s := by
  unfold State.terminal State.say
  dsimp only
  split
  · exact ⟨rfl, ceiling_congr rfl rfl rfl⟩
  · exact ⟨rfl, ceiling_congr rfl rfl rfl⟩

theorem ahead_capped (env : Env) (s : State) :
    ahead (s.capped env) = 6 ∧ ceiling (s.capped env) = ceiling s + 3 := by
  unfold State.capped
  dsimp only
  split
  · exact ⟨rfl, ceiling_ask _ _⟩
  · exact ⟨rfl, ceiling_ask _ _⟩

theorem ahead_act (s : State) : 1 + ahead (s.act env) + ceiling s ≤
    4 + 2 * s.current.content.length + ceiling (s.act env) := by
  have hterminal := ahead_terminal env s
  have hcapped := ahead_capped env s
  unfold State.act
  split
  · omega
  · omega
  · omega
  · have hask := ceiling_ask s .resume
    have hahead : ahead (s.ask .resume) = 6 := rfl
    omega
  · split
    · omega
    show 1 + (5 + 2 * s.current.content.length) + ceiling s ≤
      4 + 2 * s.current.content.length +
        (3 * s.requests.length + 2 * blocks s + 2 * (s.toolIter + 1) + 3)
    unfold ceiling
    omega

theorem ahead_turnAround (hp : s.phase = .head) :
    1 + ahead (s.turnAround env) + ceiling s ≤ ahead s + ceiling (s.turnAround env) := by
  have hhead : ahead s = if s.raised then 3 else 4 + 2 * s.current.content.length := by
    unfold ahead
    rw [hp]
  unfold State.turnAround
  split
  · rename_i hraised
    have hterminal := ahead_terminal env s.overrule
    have hsame : ceiling s.overrule = ceiling s := ceiling_congr rfl rfl rfl
    rw [hhead, if_pos hraised]
    show 1 + ahead (s.overrule.terminal env) + ceiling s ≤ 3 + ceiling (s.overrule.terminal env)
    omega
  · rename_i hraised
    rw [hhead, if_neg hraised]
    exact ahead_act s

theorem ahead_nextBlock (s : State) (rest : List Block) :
    1 + ahead (s.nextBlock rest) + ceiling s ≤
      5 + 2 * rest.length + ceiling (s.nextBlock rest) := by
  cases rest with
  | nil =>
    have hsame : ceiling (s.nextBlock []) = ceiling s := ceiling_congr rfl rfl rfl
    have hahead : ahead (s.nextBlock []) = 4 := rfl
    rw [hsame, hahead, List.length_nil]
  | cons b rest =>
    -- a block that is no call is passed over
    have hplain : 1 + (5 + 2 * rest.length) + ceiling s ≤ 5 + 2 * (rest.length + 1) + ceiling s :=
      by omega
    cases b with
    | toolCall id name args hidden =>
      dsimp only [State.nextBlock]
      split
      · rw [ceiling_congr (s := s) rfl rfl rfl]
        show 1 + 4 + ceiling s ≤ 5 + 2 * (rest.length + 1) + ceiling s
        omega
      · rw [ceiling_congr (s := s) rfl rfl rfl]
        show 1 + (6 + 2 * rest.length) + ceiling s ≤ 5 + 2 * (rest.length + 1) + ceiling s
        omega
    | text | image | toolResult | providerOpaque => exact hplain

theorem ahead_sweep (s : State) : 1 + ahead s.sweep + ceiling s ≤ 4 + ceiling s.sweep := by
  unfold State.sweep
  split
  · rename_i hraised
    have hahead : ahead { s.see with phase := .head } = 3 := if_pos hraised
    have hsame : ceiling { s.see with phase := .head } = ceiling s := ceiling_congr rfl rfl rfl
    omega
  · split
    · have hsame : ceiling { s with phase := .closing } = ceiling s := ceiling_congr rfl rfl rfl
      have hahead : ahead { s with phase := .closing } = 1 := rfl
      omega
    · have hask := ceiling_ask (s.pushResults s.results) .continuation
      have hsame : ceiling (s.pushResults s.results) = ceiling s := ceiling_congr rfl rfl rfl
      have hahead : ahead ((s.pushResults s.results).ask .continuation) = 6 := rfl
      omega

theorem ahead_refused (s : State) (error : String) (purpose : Purpose) :
    1 + ahead (s.refused env error purpose) + ceiling s ≤
      6 + ceiling (s.refused env error purpose) := by
  cases purpose with
  | summary =>
    dsimp only [State.refused, State.send]
    rw [ceiling_congr (s := s) rfl rfl rfl]
    show 1 + 1 + ceiling s ≤ 6 + ceiling s
    omega
  | first | resume | continuation => show 1 + 0 + ceiling s ≤ 6 + ceiling s; omega

theorem ahead_hear (hp : s.phase = .streaming purpose c)
    (event : StreamEvent) : ahead (s.hear purpose c event) = ahead s ∧
      ceiling (s.hear purpose c event) = ceiling s := by
  have hahead : ahead s = 5 := by
    unfold ahead
    rw [hp]
  cases event with
  | textDelta | complete => exact ⟨hahead.symm, ceiling_congr rfl rfl rfl⟩
  | reasoningDelta | error => exact ⟨rfl, ceiling_congr rfl rfl rfl⟩
  | blockComplete => exact ⟨rfl, rfl⟩

theorem ahead_raise (s : State) : ahead { s with raised := true } ≤ ahead s := by
  unfold ahead
  cases s.phase with
  | head =>
    show 3 ≤ if s.raised = true then 3 else 4 + 2 * s.current.content.length
    split
    · exact le_refl 3
    · omega
  | requested _ | streaming _ _ | tools _ | dispatching _ _ _ | swept | closing | ended _ =>
    exact le_refl _

theorem ahead_of_phase {p : Phase} (hp : s.phase = p) : ahead s = ahead { s with phase := p } := by
  rw [← hp]

/-- Each move is one less ahead, or raises the ceiling. -/
theorem ahead_step (hstep : step env s i = some s') :
    (if i.isMove then 1 else 0) + ahead s' + ceiling s ≤ ahead s + ceiling s' := by
  cases taken_of_step hstep with
  | raise =>
    have hsame : ceiling { s with raised := true } = ceiling s := ceiling_congr rfl rfl rfl
    have hless := ahead_raise s
    show 0 + ahead { s with raised := true } + ceiling s ≤ _
    omega
  | accept hp =>
    rw [ahead_of_phase hp, ceiling_congr (s := s) rfl rfl rfl]
    show 1 + 5 + ceiling s ≤ 6 + ceiling s
    omega
  | @refuse purpose hp error =>
    rw [ahead_of_phase hp]
    exact ahead_refused s error purpose
  | event hp event =>
    obtain ⟨hsame, hceiling⟩ := ahead_hear hp event
    rw [hsame, hceiling]
    exact le_of_eq (congrArg (· + ceiling s) (Nat.zero_add _))
  | @finish purpose c hp =>
    rw [ahead_of_phase hp]
    exact ahead_collected (s.shown c.accum) purpose c.full
  | @stop purpose c _ hp =>
    rw [ahead_of_phase hp]
    exact ahead_collected (s.shown c.accum).see purpose _
  | @stopTool id name rest _ hp =>
    rw [ahead_of_phase hp, ceiling_congr (s := s) rfl rfl rfl]
    show 1 + 4 + ceiling s ≤ 6 + 2 * rest.length + ceiling s
    omega
  | @result id name rest hp out =>
    have hsame : ceiling (s.answered id name rest out) = ceiling s := ceiling_congr rfl rfl rfl
    rw [ahead_of_phase hp, hsame]
    show 1 + (5 + 2 * rest.length) + ceiling s ≤ 6 + 2 * rest.length + ceiling s
    omega
  | head hp => exact ahead_turnAround hp
  | @tools rest hp =>
    rw [ahead_of_phase hp]
    exact ahead_nextBlock s rest
  | swept hp =>
    rw [ahead_of_phase hp]
    exact ahead_sweep s
  | closing hp =>
    have hsame : ceiling s.close = ceiling s := ceiling_congr rfl rfl rfl
    rw [ahead_of_phase hp, hsame]
    exact le_refl _

theorem moves_le (is : List Step) : ∀ {s s' : State}, Machine.steps (step env) s is = some s' →
    is.countP Step.isMove + ahead s' + ceiling s ≤ ahead s + ceiling s' := by
  induction is with
  | nil =>
    intro s s' h
    cases h
    rw [List.countP_nil, Nat.zero_add]
  | cons i is ih =>
    intro s s' h
    obtain ⟨t, hone, hrest⟩ := Option.bind_eq_some_iff.1 h
    have hstep := ahead_step hone
    have htail := ih hrest
    rw [List.countP_cons]
    omega

/-- A turn that is not over waits for an answer, or goes on by itself. -/
theorem exists_move (env : Env) (s : State) (h : ∀ ending, s.phase ≠ .ended ending) :
    ∃ i s', i.isMove = true ∧ step env s i = some s' := by
  cases hp : s.phase with
  | requested purpose => exact ⟨.accept, _, rfl, by dsimp only [step]; rw [hp]⟩
  | streaming purpose c => exact ⟨.finish, _, rfl, by dsimp only [step]; rw [hp]⟩
  | head | tools | swept | closing => exact ⟨.tick, _, rfl, by dsimp only [step]; rw [hp]⟩
  | dispatching id name blocks =>
    exact ⟨.result (.ok "" []), _, rfl, by dsimp only [step]; rw [hp]⟩
  | ended ending => exact absurd hp (h ending)

/-- A turn makes at most two requests more than its cap and than the responses that pause it,
gets at most one response to each, and runs tools in at most as many of them as the cap.  It is
over after a number of moves that the cap, the pauses and the blocks of the responses bound, and
until then it can move. -/
theorem turn_bounded (env : Env) (messages : List ApiMessage) (is : List Step) {s : State}
    (h : Machine.steps (step env) (start messages) is = some s) :
    s.requests.length ≤ env.cap + 2 + pauses s ∧ s.responses.length ≤ s.requests.length ∧
    s.dispatchedIn.toFinset.card ≤ env.cap ∧
    is.countP Step.isMove ≤ 5 * env.cap + 3 * pauses s + 2 * blocks s + 9 ∧
    ((∀ ending, s.phase ≠ .ended ending) → ∃ i s', i.isMove = true ∧ step env s i = some s') := by
  have hstart : Spent env (start messages) := ⟨le_refl 1, le_refl 1, le_refl 0, Nat.zero_le _⟩
  have hspent : Spent env s := (Machine.reaches_of_steps is .start h).invariant hstart
    fun _ _ _ hs _ hstep => hs.step hstep
  obtain ⟨hrequests, hresponses, hpasses, hiter⟩ := hspent.total
  refine ⟨by omega, hresponses, hpasses.trans hiter, ?_, exists_move env s⟩
  have hmoves := moves_le is h
  have hbegin : ahead (start messages) = 6 ∧ ceiling (start messages) = 6 := ⟨rfl, rfl⟩
  unfold ceiling at hmoves hbegin
  omega

/-- A turn with one call under a cap of one: its first two requests. -/
theorem turn_bounded_call :
    ∃ s, Machine.steps (step oneIteration) (start hello) callSteps = some s ∧
      s.requests.length = 2 ∧ s.requests.length ≤ oneIteration.cap + 2 + pauses s ∧
      s.responses.length ≤ s.requests.length ∧
      s.dispatchedIn.toFinset.card ≤ oneIteration.cap := by
  refine ⟨_, rfl, rfl, ?_⟩
  obtain ⟨hrequests, hresponses, hpasses, _⟩ := turn_bounded oneIteration hello callSteps rfl
  exact ⟨hrequests, hresponses, hpasses⟩

/-- A response that pauses the turn costs a request and nothing of the cap. -/
theorem pauses_spend_no_budget :
    ∃ s, Machine.steps (step oneIteration) (start hello)
        (List.flatten (List.replicate 4 (answerSteps ⟨[.text "so far"], .pause, none⟩))) = some s ∧
      s.requests.length = 5 ∧ oneIteration.cap + 2 < 5 ∧ s.toolIter = 0 := by
  exact ⟨_, rfl, rfl, by decide, rfl⟩

end EmbraOS.Ports.TurnLoop
