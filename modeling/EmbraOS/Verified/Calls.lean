import Mathlib

/-!
# Programs that call a server

A program of calls to a server is a tree: it is done, or it makes a call and
goes on with the answer, or with none when the call failed.  A call that failed
may have been carried out all the same, with the answer lost (`Reply`).

`Always` is the rule for such programs: an invariant that holds before and after
every call, whatever fails, and a condition on the end.  Tasks that hold one
lock from their first call to their last are `Config`; `Config.locked` says that
an invariant of whole calls is then an invariant of every interleaving, in the
order in which the tasks took the lock.  Tasks without a lock are `Pool`: any of
them may make the next call.
-/

namespace EmbraOS.Verified.Calls

/-- The calls of a server and their answers. -/
structure Api where
  Call : Type
  Ans : Call → Type

inductive Prog (A : Api) (α : Type) where
  | done (a : α)
  | call (c : A.Call) (k : Option (A.Ans c) → Prog A α)

/-- How a call ends: with its answer; not carried out; or carried out while the
answer is lost. -/
inductive Reply where
  | answered
  | failed
  | unanswered
  deriving DecidableEq, Repr

/-- What a server does on a call; `none` when it refuses. -/
structure Server (A : Api) (σ : Type) where
  exec : (c : A.Call) → σ → Option (σ × A.Ans c)

variable {A : Api} {σ α β ι : Type}

def Prog.bind : Prog A α → (α → Prog A β) → Prog A β
  | .done a, f => f a
  | .call c k, f => .call c (fun ans => (k ans).bind f)

def Prog.map (f : α → β) (p : Prog A α) : Prog A β := p.bind (fun a => .done (f a))

/-! ## One call -/

/-- The state after a call, and the answer that came. -/
def Server.perform (srv : Server A σ) (c : A.Call) (r : Reply) (s : σ) :
    σ × Option (A.Ans c) :=
  match r, srv.exec c s with
  | .answered, some (s', a) => (s', some a)
  | .unanswered, some (s', _) => (s', none)
  | _, _ => (s, none)

variable {c : A.Call} {s s' : σ} {p : Prog A α} {Q' : σ → β → Prop}

theorem perform_of_exec {srv : Server A σ} {a : A.Ans c}
    (h : srv.exec c s = some (s', a)) (r : Reply) :
    srv.perform c r s =
      (if r = .failed then s else s', if r = .answered then some a else none) := by
  unfold Server.perform
  rw [h]
  cases r with
  | answered => rfl
  | failed => rfl
  | unanswered => rfl

theorem perform_of_refused {srv : Server A σ}
    (h : srv.exec c s = none) (r : Reply) : srv.perform c r s = (s, none) := by
  unfold Server.perform
  rw [h]
  cases r with
  | answered => rfl
  | failed => rfl
  | unanswered => rfl

/-! ## Runs -/

/-- The run of a program with the reply to each of its calls. -/
def run (srv : Server A σ) (reply : A.Call → Reply) : Prog A α → σ → σ × α
  | .done a, s => (s, a)
  | .call c k, s =>
    run srv reply (k (srv.perform c (reply c) s).2) (srv.perform c (reply c) s).1

theorem run_call {srv : Server A σ} {a : A.Ans c}
    (h : srv.exec c s = some (s', a)) (reply : A.Call → Reply)
    (k : Option (A.Ans c) → Prog A α) :
    run srv reply (.call c k) s =
      run srv reply (k (if reply c = .answered then some a else none))
        (if reply c = .failed then s else s') := by
  rw [run, perform_of_exec h]

/-- A call that changes nothing. -/
theorem run_read {srv : Server A σ} {a : A.Ans c}
    (h : srv.exec c s = some (s, a)) (reply : A.Call → Reply)
    (k : Option (A.Ans c) → Prog A α) :
    run srv reply (.call c k) s =
      run srv reply (k (if reply c = .answered then some a else none)) s := by
  rw [run_call h, ite_self]

theorem run_refused {srv : Server A σ} (h : srv.exec c s = none)
    (reply : A.Call → Reply) (k : Option (A.Ans c) → Prog A α) :
    run srv reply (.call c k) s = run srv reply (k none) s := by
  rw [run, perform_of_refused h]

theorem run_bind (srv : Server A σ) (reply : A.Call → Reply) (p : Prog A α) (f : α → Prog A β) :
    ∀ s, run srv reply (p.bind f) s =
      run srv reply (f (run srv reply p s).2) (run srv reply p s).1 := by
  induction p with
  | done a => exact fun _ => rfl
  | call c k ih => exact fun s => ih _ _

theorem run_map (srv : Server A σ) (reply : A.Call → Reply) (f : α → β) (p : Prog A α) (s : σ) :
    run srv reply (p.map f) s = ((run srv reply p s).1, f (run srv reply p s).2) := by
  rw [Prog.map, run_bind]
  rfl

/-- The state when a run is cut off after `n` calls, or at its end if that comes
first.  A last call that is `unanswered` was carried out before the cut. -/
def cut (srv : Server A σ) (reply : A.Call → Reply) : Nat → Prog A α → σ → σ
  | 0, _, s => s
  | _ + 1, .done _, s => s
  | n + 1, .call c k, s =>
    cut srv reply n (k (srv.perform c (reply c) s).2) (srv.perform c (reply c) s).1

theorem cut_done (srv : Server A σ) (reply : A.Call → Reply) (n : Nat) (a : α) (s : σ) :
    cut srv reply n (.done a : Prog A α) s = s := by
  cases n with
  | zero => rfl
  | succ n => rfl

theorem cut_call {srv : Server A σ} {a : A.Ans c}
    (h : srv.exec c s = some (s', a)) (reply : A.Call → Reply) (n : Nat)
    (k : Option (A.Ans c) → Prog A α) :
    cut srv reply (n + 1) (.call c k) s =
      cut srv reply n (k (if reply c = .answered then some a else none))
        (if reply c = .failed then s else s') := by
  rw [cut, perform_of_exec h]

theorem cut_refused {srv : Server A σ} (h : srv.exec c s = none)
    (reply : A.Call → Reply) (n : Nat) (k : Option (A.Ans c) → Prog A α) :
    cut srv reply (n + 1) (.call c k) s = cut srv reply n (k none) s := by
  rw [cut, perform_of_refused h]

/-- The invariant holds all along and the condition at the end, whatever fails. -/
def Always (srv : Server A σ) (I : σ → Prop) (Q : σ → α → Prop) : Prog A α → σ → Prop
  | .done a, s => I s ∧ Q s a
  | .call c k, s =>
    I s ∧ ∀ r, Always srv I Q (k (srv.perform c r s).2) (srv.perform c r s).1

variable {srv : Server A σ} {I : σ → Prop} {Q : σ → α → Prop}

theorem Always.inv (h : Always srv I Q p s) : I s := by
  cases p with
  | done a => exact h.1
  | call c k => exact h.1

theorem Always.mono {I' : σ → Prop} {Q' : σ → α → Prop} (hI : ∀ s, I s → I' s)
    (hQ : ∀ s a, Q s a → Q' s a) (p : Prog A α) :
    ∀ s, Always srv I Q p s → Always srv I' Q' p s := by
  induction p with
  | done a => exact fun s h => ⟨hI s h.1, hQ s a h.2⟩
  | call c k ih => exact fun s h => ⟨hI s h.1, fun r => ih _ _ (h.2 r)⟩

/-- The invariant holds at the end too. -/
theorem Always.withInv (p : Prog A α) :
    ∀ s, Always srv I Q p s → Always srv I (fun s' a => I s' ∧ Q s' a) p s := by
  induction p with
  | done a => exact fun s h => ⟨h.1, h⟩
  | call c k ih => exact fun s h => ⟨h.1, fun r => ih _ _ (h.2 r)⟩

theorem Always.bind {f : α → Prog A β} (p : Prog A α)
    (hf : ∀ s a, Q s a → Always srv I Q' (f a) s) :
    ∀ s, Always srv I Q p s → Always srv I Q' (p.bind f) s := by
  induction p with
  | done a => exact fun s h => hf s a h.2
  | call c k ih => exact fun s h => ⟨h.1, fun r => ih _ _ (h.2 r)⟩

theorem Always.map {f : α → β}
    (h : Always srv I (fun s' a => Q' s' (f a)) p s) : Always srv I Q' (p.map f) s :=
  Always.bind p (fun _ _ hQ => hQ) s (Always.withInv p s h)

/-- A call whose effect is known, however it ends. -/
theorem Always.call {k : Option (A.Ans c) → Prog A α} {a : A.Ans c}
    (hexec : srv.exec c s = some (s', a)) (hI : I s)
    (hanswered : Always srv I Q (k (some a)) s') (hfailed : Always srv I Q (k none) s)
    (hlost : Always srv I Q (k none) s') : Always srv I Q (.call c k) s := by
  refine ⟨hI, fun r => ?_⟩
  rw [perform_of_exec hexec]
  cases r with
  | answered => exact hanswered
  | failed => exact hfailed
  | unanswered => exact hlost

theorem Always.refused {k : Option (A.Ans c) → Prog A α}
    (hexec : srv.exec c s = none) (hI : I s) (hnone : Always srv I Q (k none) s) :
    Always srv I Q (.call c k) s := by
  refine ⟨hI, fun r => ?_⟩
  rw [perform_of_refused hexec]
  exact hnone

/-- A call whose effect is known when the server takes it. -/
theorem Always.step {k : Option (A.Ans c) → Prog A α} (hnone : Always srv I Q (k none) s)
    (hexec : ∀ s' a, srv.exec c s = some (s', a) →
      Always srv I Q (k (some a)) s' ∧ Always srv I Q (k none) s') :
    Always srv I Q (.call c k) s := by
  cases h : srv.exec c s with
  | none => exact Always.refused h hnone.inv hnone
  | some p => exact Always.call h hnone.inv (hexec p.1 p.2 h).1 hnone (hexec p.1 p.2 h).2

theorem Always.run (reply : A.Call → Reply) (p : Prog A α) :
    ∀ s, Always srv I Q p s → Q (run srv reply p s).1 (run srv reply p s).2 := by
  induction p with
  | done a => exact fun s h => h.2
  | call c k ih => exact fun s h => ih _ _ (h.2 (reply c))

/-! ## Tasks under one lock -/

inductive Task (A : Api) (α : Type) where
  | waiting (p : Prog A α)
  | running (p : Prog A α)
  | finished (a : α)

/-- Tasks that each take the lock before their first call and give it back when
they are done. -/
structure Config (A : Api) (σ α ι : Type) where
  state : σ
  tasks : ι → Task A α
  holder : Option ι
  /-- The tasks that took the lock, in that order. -/
  order : List ι
  /-- The tasks that are done, with what they returned and the state then. -/
  log : List (ι × α × σ)

def Config.start (s : σ) (prog : ι → Prog A α) : Config A σ α ι :=
  ⟨s, fun i => .waiting (prog i), none, [], []⟩

inductive Event (ι : Type) where
  | acquire (i : ι)
  | call (i : ι) (r : Reply)
  | finish (i : ι)

/-- One step of a task; `none` when it cannot be taken. -/
def Config.step [DecidableEq ι] (srv : Server A σ) (c : Config A σ α ι) :
    Event ι → Option (Config A σ α ι)
  | .acquire i =>
    match c.holder, c.tasks i with
    | none, .waiting p =>
      some { c with
        tasks := Function.update c.tasks i (.running p)
        holder := some i
        order := c.order ++ [i] }
    | _, _ => none
  | .call i r =>
    match c.tasks i with
    | .running (.call cl k) =>
      some { c with
        state := (srv.perform cl r c.state).1
        tasks := Function.update c.tasks i (.running (k (srv.perform cl r c.state).2)) }
    | _ => none
  | .finish i =>
    match c.tasks i with
    | .running (.done a) =>
      some { c with
        tasks := Function.update c.tasks i (.finished a)
        holder := none
        log := c.log ++ [(i, a, c.state)] }
    | _ => none

/-- The configurations that some interleaving leads to. -/
inductive Config.Reaches [DecidableEq ι] (srv : Server A σ) (c₀ : Config A σ α ι) :
    Config A σ α ι → Prop where
  | start : Config.Reaches srv c₀ c₀
  | step {c c' : Config A σ α ι} (e : Event ι) (h : Config.Reaches srv c₀ c)
      (hstep : c.step srv e = some c') : Config.Reaches srv c₀ c'

/-- The configuration after a list of steps. -/
def Config.steps [DecidableEq ι] (srv : Server A σ) (c : Config A σ α ι) :
    List (Event ι) → Option (Config A σ α ι)
  | [] => some c
  | e :: es => (c.step srv e).bind (fun c' => c'.steps srv es)

theorem Config.reaches_of_steps [DecidableEq ι] {c₀ : Config A σ α ι} (es : List (Event ι)) :
    ∀ c c' : Config A σ α ι, Config.Reaches srv c₀ c → c.steps srv es = some c' →
      Config.Reaches srv c₀ c' := by
  induction es with
  | nil =>
    intro c c' h hsteps
    obtain rfl := Option.some.inj hsteps
    exact h
  | cons e es ih =>
    intro c c' h hsteps
    obtain ⟨c₁, hstep, hrest⟩ := Option.bind_eq_some_iff.1 hsteps
    exact ih c₁ c' (h.step e hstep) hrest

/-- What the tasks are: not yet started unless they took the lock, and running
only with the lock. -/
structure Ordered (prog : ι → Prog A α) (tasks : ι → Task A α) (holder : Option ι)
    (order : List ι) : Prop where
  fresh : ∀ i, i ∉ order → tasks i = .waiting (prog i)
  used : ∀ i ∈ order, ∀ p, tasks i ≠ .waiting p
  alone : ∀ i p, tasks i = .running p → holder = some i

/-- The one task that may run moves on. -/
theorem Ordered.update [DecidableEq ι] {prog : ι → Prog A α} {tasks : ι → Task A α}
    {holder holder' : Option ι} {order order' : List ι} {i : ι} {t : Task A α}
    (h : Ordered prog tasks holder order) (hothers : holder = none ∨ holder = some i)
    (horder : ∀ j, j ≠ i → (j ∈ order' ↔ j ∈ order)) (hi : i ∈ order')
    (hstarted : ∀ p, t ≠ .waiting p) (hlock : ∀ p, t = .running p → holder' = some i) :
    Ordered prog (Function.update tasks i t) holder' order' := by
  refine ⟨?_, ?_, ?_⟩
  · intro j hj
    have hji : j ≠ i := fun heq => hj (heq ▸ hi)
    rw [Function.update_of_ne hji]
    exact h.fresh j (fun hin => hj ((horder j hji).2 hin))
  · intro j hj p
    by_cases hji : j = i
    · rw [hji, Function.update_self]
      exact hstarted p
    · rw [Function.update_of_ne hji]
      exact h.used j ((horder j hji).1 hj) p
  · intro j p hp
    by_cases hji : j = i
    · rw [hji, Function.update_self] at hp
      rw [hji]
      exact hlock p hp
    · rw [Function.update_of_ne hji] at hp
      have halone := h.alone j p hp
      rcases hothers with hnone | hsome
      · rw [hnone] at halone
        cases halone
      · rw [hsome] at halone
        exact absurd (Option.some.inj halone).symm hji

/-- The calls of a configuration are in sequence: between calls the state and the
log satisfy `J`; during the call of `i` it keeps its invariant `I` and ends in
`Q`. -/
structure Config.Serial (prog : ι → Prog A α) (J : List (ι × α × σ) → σ → Prop)
    (I : List (ι × α × σ) → ι → σ → Prop) (Q : List (ι × α × σ) → ι → σ → α → Prop)
    (srv : Server A σ) (c : Config A σ α ι) : Prop where
  nodup : c.order.Nodup
  ordered : Ordered prog c.tasks c.holder c.order
  returned : ∀ i a, c.tasks i = .finished a → ∃ s, (i, a, s) ∈ c.log
  free : c.holder = none → c.order = c.log.map Prod.fst ∧ J c.log c.state
  held : ∀ i, c.holder = some i →
    c.order = c.log.map Prod.fst ++ [i] ∧
      ∃ p, c.tasks i = .running p ∧ Always srv (I c.log i) (Q c.log i) p c.state

section Locked

variable {prog : ι → Prog A α} {J : List (ι × α × σ) → σ → Prop}
  {I : List (ι × α × σ) → ι → σ → Prop} {Q : List (ι × α × σ) → ι → σ → α → Prop}

theorem Config.serial_start {s : σ} (hinit : J [] s) :
    Config.Serial prog J I Q srv (Config.start s prog) where
  nodup := List.nodup_nil
  ordered := ⟨fun _ _ => rfl, fun _ h => absurd h List.not_mem_nil, nofun⟩
  returned i a h := by cases h
  free _ := ⟨rfl, hinit⟩
  held i h := by cases h

/-- The holder of the lock, with its program and its place in the order. -/
theorem Config.Serial.running {c : Config A σ α ι} (h : Config.Serial prog J I Q srv c)
    {i : ι} {p : Prog A α} (htask : c.tasks i = .running p) :
    c.holder = some i ∧ i ∈ c.order ∧ c.order = c.log.map Prod.fst ++ [i] ∧
      Always srv (I c.log i) (Q c.log i) p c.state := by
  have hholder := h.ordered.alone i p htask
  obtain ⟨horder, p', hp', halways⟩ := h.held i hholder
  rw [htask] at hp'
  obtain rfl := Task.running.inj hp'
  refine ⟨hholder, ?_, horder, halways⟩
  rw [horder]
  exact List.mem_append_right _ List.mem_cons_self

variable [DecidableEq ι]

theorem returned_update {tasks : ι → Task A α} {log : List (ι × α × σ)}
    {i : ι} {t : Task A α} (h : ∀ j a, tasks j = .finished a → ∃ s, (j, a, s) ∈ log)
    (ht : ∀ a, t = .finished a → ∃ s, (i, a, s) ∈ log) (j : ι) (a : α)
    (hj : Function.update tasks i t j = .finished a) : ∃ s, (j, a, s) ∈ log := by
  by_cases hji : j = i
  · rw [hji, Function.update_self] at hj
    rw [hji]
    exact ht a hj
  · rw [Function.update_of_ne hji] at hj
    exact h j a hj

variable (hcall : ∀ log s i, J log s → i ∉ log.map Prod.fst →
  Always srv (I log i) (Q log i) (prog i) s)
include hcall

/-- One step keeps the sequence, when every call keeps its invariant from a state
between calls and ends in such a state. -/
theorem Config.Serial.step (hend : ∀ log s i a, Q log i s a → J (log ++ [(i, a, s)]) s)
    {c c' : Config A σ α ι} (h : Config.Serial prog J I Q srv c) {e : Event ι}
    (hstep : c.step srv e = some c') : Config.Serial prog J I Q srv c' := by
  cases e with
  | acquire i =>
    unfold Config.step at hstep
    dsimp only at hstep
    split at hstep
    · rename_i p hholder htask
      obtain rfl := Option.some.inj hstep
      obtain ⟨horder, hJ⟩ := h.free hholder
      have hnew : i ∉ c.order := fun hin => h.ordered.used i hin p htask
      have hp : p = prog i := by
        have hfresh := h.ordered.fresh i hnew
        rw [htask] at hfresh
        exact Task.waiting.inj hfresh
      refine ⟨?_, ?_, ?_, ?_, ?_⟩
      · apply List.nodup_append.2
        refine ⟨h.nodup, List.nodup_singleton i, ?_⟩
        intro a ha b hb hab
        exact hnew (List.mem_singleton.1 hb ▸ hab ▸ ha)
      · apply h.ordered.update (Or.inl hholder)
        · intro j hji
          simp [hji]
        · simp
        · exact nofun
        · exact fun _ _ => rfl
      · exact returned_update h.returned nofun
      · exact nofun
      · intro j hj
        obtain rfl := Option.some.inj hj
        refine ⟨by rw [horder], p, Function.update_self _ _ _, ?_⟩
        rw [hp]
        exact hcall c.log c.state i hJ (horder ▸ hnew)
    · cases hstep
  | call i r =>
    unfold Config.step at hstep
    dsimp only at hstep
    split at hstep
    · rename_i cl k htask
      obtain rfl := Option.some.inj hstep
      obtain ⟨hholder, hin, horder, halways⟩ := h.running htask
      refine ⟨h.nodup, ?_, ?_, ?_, ?_⟩
      · apply h.ordered.update (Or.inr hholder) (fun _ _ => Iff.rfl) hin
        · exact nofun
        · exact fun _ _ => hholder
      · exact returned_update h.returned nofun
      · intro hnone
        rw [hholder] at hnone
        cases hnone
      · intro j hj
        rw [hholder] at hj
        obtain rfl := Option.some.inj hj
        exact ⟨horder, _, Function.update_self _ _ _, halways.2 r⟩
    · cases hstep
  | finish i =>
    unfold Config.step at hstep
    dsimp only at hstep
    split at hstep
    · rename_i a htask
      obtain rfl := Option.some.inj hstep
      obtain ⟨hholder, hin, horder, halways⟩ := h.running htask
      refine ⟨h.nodup, ?_, ?_, ?_, ?_⟩
      · apply h.ordered.update (Or.inr hholder) (fun _ _ => Iff.rfl) hin
        · exact nofun
        · exact nofun
      · apply returned_update
        · intro j b hj
          obtain ⟨s, hs⟩ := h.returned j b hj
          exact ⟨s, List.mem_append_left _ hs⟩
        · intro b hb
          obtain rfl := Task.finished.inj hb
          exact ⟨c.state, List.mem_append_right _ List.mem_cons_self⟩
      · intro _
        refine ⟨?_, hend _ _ _ _ halways.2⟩
        rw [horder, List.map_append]
        rfl
      · exact nofun
    · cases hstep

/-- **Calls under one lock are calls in sequence**, in the order of the lock. -/
theorem Config.locked
    (hend : ∀ log s i a, Q log i s a → J (log ++ [(i, a, s)]) s) {s : σ} (hinit : J [] s)
    {c : Config A σ α ι} (h : Config.Reaches srv (Config.start s prog) c) :
    Config.Serial prog J I Q srv c := by
  induction h with
  | start => exact Config.serial_start hinit
  | step e _ hstep ih => exact ih.step hcall hend hstep

end Locked

/-! ## Tasks without a lock -/

structure Pool (A : Api) (σ α ι : Type) where
  state : σ
  tasks : ι → Prog A α

def Pool.start (s : σ) (prog : ι → Prog A α) : Pool A σ α ι := ⟨s, prog⟩

/-- Task `i` makes its next call; `none` when it is done. -/
def Pool.step [DecidableEq ι] (srv : Server A σ) (c : Pool A σ α ι) (i : ι) (r : Reply) :
    Option (Pool A σ α ι) :=
  match c.tasks i with
  | .done _ => none
  | .call cl k =>
    some
      { state := (srv.perform cl r c.state).1
        tasks := Function.update c.tasks i (k (srv.perform cl r c.state).2) }

/-- The pools that some interleaving leads to whose steps are all `ok`. -/
inductive Pool.Reaches [DecidableEq ι] (srv : Server A σ)
    (ok : Pool A σ α ι → ι → Reply → Prop) (c₀ : Pool A σ α ι) : Pool A σ α ι → Prop where
  | start : Pool.Reaches srv ok c₀ c₀
  | step {c c' : Pool A σ α ι} (i : ι) (r : Reply) (h : Pool.Reaches srv ok c₀ c)
      (hok : ok c i r) (hstep : c.step srv i r = some c') : Pool.Reaches srv ok c₀ c'

/-- The pool after a list of steps. -/
def Pool.steps [DecidableEq ι] (srv : Server A σ) (c : Pool A σ α ι) :
    List (ι × Reply) → Option (Pool A σ α ι)
  | [] => some c
  | (i, r) :: rest => (c.step srv i r).bind (fun c' => c'.steps srv rest)

/-- The pool after a list of steps, if all of them pass a test. -/
def Pool.stepsIf [DecidableEq ι] (srv : Server A σ) (test : Pool A σ α ι → ι → Reply → Bool)
    (c : Pool A σ α ι) : List (ι × Reply) → Option (Pool A σ α ι)
  | [] => some c
  | (i, r) :: rest =>
    if test c i r then (c.step srv i r).bind (fun c' => c'.stepsIf srv test rest) else none

section Pool

variable [DecidableEq ι] {ok : Pool A σ α ι → ι → Reply → Prop} {c₀ : Pool A σ α ι}

/-- What one step can be. -/
theorem Pool.step_eq_some {c c' : Pool A σ α ι} {i : ι} {r : Reply} (h : c.step srv i r = some c') :
    ∃ cl k, c.tasks i = .call cl k ∧ c'.state = (srv.perform cl r c.state).1 ∧
      c'.tasks = Function.update c.tasks i (k (srv.perform cl r c.state).2) := by
  unfold Pool.step at h
  cases htask : c.tasks i with
  | done a =>
    rw [htask] at h
    cases h
  | call cl k =>
    rw [htask] at h
    obtain rfl := Option.some.inj h
    exact ⟨cl, k, rfl, rfl, rfl⟩

/-- An invariant of the steps is one of every interleaving. -/
theorem Pool.Reaches.invariant {J : Pool A σ α ι → Prop} (hstart : J c₀)
    (hstep : ∀ c i r c', J c → ok c i r → c.step srv i r = some c' → J c')
    {c : Pool A σ α ι} (h : Pool.Reaches srv ok c₀ c) : J c := by
  induction h with
  | start => exact hstart
  | step i r _ hok hs ih => exact hstep _ i r _ ih hok hs

/-- A list of steps is an interleaving. -/
theorem Pool.reaches_of_stepsIf {test : Pool A σ α ι → ι → Reply → Bool}
    (htest : ∀ c i r, test c i r = true → ok c i r) (is : List (ι × Reply)) :
    ∀ {c c' : Pool A σ α ι}, Pool.Reaches srv ok c₀ c → c.stepsIf srv test is = some c' →
      Pool.Reaches srv ok c₀ c' := by
  induction is with
  | nil =>
    intro c c' h hsteps
    cases hsteps
    exact h
  | cons x is ih =>
    obtain ⟨i, r⟩ := x
    intro c c' h hsteps
    unfold Pool.stepsIf at hsteps
    split at hsteps
    · rename_i hpass
      obtain ⟨next, hstep, hrest⟩ := Option.bind_eq_some_iff.1 hsteps
      exact ih (h.step i r (htest c i r hpass) hstep) hrest
    · cases hsteps

end Pool

/-- The value of a finished program. -/
def Prog.value? : Prog A α → Option α
  | .done a => some a
  | .call _ _ => none

theorem Prog.eq_done_of_value? {a : α} (h : p.value? = some a) : p = .done a := by
  cases p with
  | done b =>
    cases h
    rfl
  | call c k => cases h

end EmbraOS.Verified.Calls
