import Mathlib
import EmbraOS.Verified.Machine

/-!
# Who may type into the shared terminal

Port of `embra-web/src/arbiter.rs`.  All browsers share one terminal; one of them holds the
writer token and the others watch.  A connection takes its number from an atomic counter and only
then the lock, so connections may enter in another order than they were numbered.  Everything
under the lock is one step.  Each change queues a frame with its role for every registered client;
a frame for a client whose receiver is gone is dropped.

`arbiter_safe` says what holds in every state of every interleaving.
-/

namespace EmbraOS.Ports.Arbiter

open Verified

/-! ## The machine -/

abbrev ClientId := Nat

/-- `ClientHandle`: the frames ever queued for the client, and whether it still receives. -/
structure ClientHandle where
  queued : List String
  receiving : Bool

/-- `Inner`, with the counter and the numbers that connections hold before they take the lock. -/
structure State where
  nextId : Nat
  numbered : List ClientId
  writer : Option ClientId
  clients : ClientId → Option ClientHandle

/-- `Arbiter::new`. -/
def start : State :=
  { nextId := 1, numbered := [], writer := none, clients := fun _ => none }

/-- The frame of `broadcast_roles`. -/
def frame (role owner : String) : String :=
  "\x7b\"t\":\"role\",\"role\":\"" ++ role ++ "\",\"owner\":\"" ++ owner ++ "\"\x7d"

def roleOf (writer : Option ClientId) (id : ClientId) : String :=
  if writer = some id then "writer" else "observer"

def ownerOf (writer : Option ClientId) : String := (writer.map toString).getD "none"

def ClientHandle.send (handle : ClientHandle) (text : String) : ClientHandle :=
  if handle.receiving then { handle with queued := handle.queued ++ [text] } else handle

def ClientHandle.hangUp (handle : ClientHandle) : ClientHandle := { handle with receiving := false }

/-- `broadcast_roles`. -/
def broadcastRoles (s : State) : State :=
  { s with clients := fun id =>
      (s.clients id).map fun handle => handle.send (frame (roleOf s.writer id) (ownerOf s.writer)) }

/-- What can happen: a connection is numbered, a numbered one takes the lock, a client takes over,
its receiver is dropped, it disconnects. -/
inductive Step where
  | number
  | connect (id : ClientId)
  | takeover (id : ClientId)
  | hangUp (id : ClientId)
  | disconnect (id : ClientId)

/-- One step.  Takeovers and disconnects may name any client, registered or gone. -/
def step (s : State) : Step → Option State
  | .number =>
    some { s with nextId := (s.nextId + 1) % 2 ^ 64, numbered := s.numbered ++ [s.nextId] }
  | .connect id =>
    if id ∈ s.numbered then
      some (broadcastRoles { s with
        numbered := s.numbered.erase id
        writer := s.writer.or (some id)
        clients := Function.update s.clients id (some { queued := [], receiving := true }) })
    else none
  | .takeover id =>
    some (if (s.clients id).isSome then broadcastRoles { s with writer := some id } else s)
  | .hangUp id =>
    some { s with
      clients := Function.update s.clients id ((s.clients id).map ClientHandle.hangUp) }
  | .disconnect id =>
    some (broadcastRoles { s with
      writer := if s.writer = some id then none else s.writer
      clients := Function.update s.clients id none })

/-- `is_writer`. -/
def isWriter (s : State) (id : ClientId) : Bool := s.writer == some id

/-! ## The invariant -/

/-- The writer is registered, and the last frame of everyone who receives is true. -/
structure Settled (s : State) : Prop where
  registered : ∀ id, s.writer = some id → (s.clients id).isSome = true
  told : ∀ id handle, s.clients id = some handle → handle.receiving = true →
    handle.queued.getLast? = some (frame (roleOf s.writer id) (ownerOf s.writer))

/-- After a broadcast everyone who receives has been told. -/
theorem Settled.broadcast {s : State}
    (h : ∀ id, s.writer = some id → (s.clients id).isSome = true) :
    Settled (broadcastRoles s) := by
  constructor
  · intro id hid
    simpa [broadcastRoles] using h id hid
  · intro id handle hhandle hreceiving
    obtain ⟨old, _, rfl⟩ := Option.map_eq_some_iff.1 hhandle
    cases hold : old.receiving with
    | true => simp [ClientHandle.send, hold, broadcastRoles]
    | false => simp [ClientHandle.send, hold] at hreceiving

theorem Settled.step {s s' : State} {e : Step} (h : Settled s) (hstep : step s e = some s') :
    Settled s' := by
  cases e with
  | number =>
    cases hstep
    exact ⟨h.registered, h.told⟩
  | connect id =>
    simp only [Arbiter.step] at hstep
    split at hstep
    · cases hstep
      apply Settled.broadcast
      intro w hw
      by_cases heq : w = id
      · simp [heq]
      have hold : s.writer = some w := by
        cases hs : s.writer with
        | none =>
          rw [hs] at hw
          exact absurd (Option.some.inj hw).symm heq
        | some v =>
          rw [hs] at hw
          exact hw
      simpa [Function.update_of_ne heq] using h.registered w hold
    · cases hstep
  | takeover id =>
    cases hstep
    split
    · rename_i hsome
      apply Settled.broadcast
      intro w hw
      cases hw
      exact hsome
    · exact h
  | hangUp id =>
    cases hstep
    constructor
    · intro w hw
      by_cases heq : w = id
      · subst heq
        simpa using h.registered w hw
      · simpa [Function.update_of_ne heq] using h.registered w hw
    · intro w handle hhandle hreceiving
      dsimp only at hhandle
      by_cases heq : w = id
      · subst heq
        rw [Function.update_self] at hhandle
        obtain ⟨old, _, rfl⟩ := Option.map_eq_some_iff.1 hhandle
        cases hreceiving
      · rw [Function.update_of_ne heq] at hhandle
        exact h.told w handle hhandle hreceiving
  | disconnect id =>
    cases hstep
    apply Settled.broadcast
    intro w hw
    have hne : s.writer ≠ some id ∧ s.writer = some w := by
      by_cases hid : s.writer = some id <;> simp_all
    have heq : w ≠ id := by
      rintro rfl
      exact hne.1 hne.2
    simpa [Function.update_of_ne heq] using h.registered w hne.2

/-- The last frame, as it is written. -/
theorem Settled.text {s : State} (h : Settled s) {id : ClientId} {handle : ClientHandle}
    (hhandle : s.clients id = some handle) (hreceiving : handle.receiving = true) :
    handle.queued.getLast? =
      some ("\x7b\"t\":\"role\",\"role\":\"" ++ (if isWriter s id then "writer" else "observer") ++
        "\",\"owner\":\"" ++ (s.writer.map toString).getD "none" ++ "\"\x7d") := by
  have hrole : roleOf s.writer id = if isWriter s id then "writer" else "observer" := by
    simp [roleOf, isWriter]
  rw [h.told id handle hhandle hreceiving, hrole]
  rfl

/-- A token that is free is taken by a connect or a takeover and by nothing else. -/
theorem writer_none_step {s s' : State} {e : Step} (hnone : s.writer = none)
    (hstep : step s e = some s') :
    s'.writer = none ∨ (∃ id, e = .connect id) ∨ ∃ id, e = .takeover id := by
  cases e with
  | number | hangUp =>
    cases hstep
    exact .inl hnone
  | connect id => exact .inr (.inl ⟨id, rfl⟩)
  | takeover id => exact .inr (.inr ⟨id, rfl⟩)
  | disconnect id =>
    cases hstep
    simp [broadcastRoles, hnone]

/-- **In every state of every interleaving** there is at most one writer and it is registered, a
takeover by a client that is gone changes nothing, a token that is free stays free until a connect
or a takeover, and the last frame queued for each client that receives states its role and the
owner. -/
theorem arbiter_safe {s : State} (h : Machine.Reaches step (fun _ _ => True) start s) :
    (∀ a b, isWriter s a = true → isWriter s b = true → a = b) ∧
    (∀ id, isWriter s id = true → (s.clients id).isSome = true) ∧
    (∀ id, s.clients id = none → step s (.takeover id) = some s) ∧
    (s.writer = none → ∀ e s', step s e = some s' →
      s'.writer = none ∨ (∃ id, e = .connect id) ∨ ∃ id, e = .takeover id) ∧
    ∀ id handle, s.clients id = some handle → handle.receiving = true →
      handle.queued.getLast? =
        some ("\x7b\"t\":\"role\",\"role\":\"" ++
          (if isWriter s id then "writer" else "observer") ++ "\",\"owner\":\"" ++
          (s.writer.map toString).getD "none" ++ "\"\x7d") := by
  have hsettled : Settled s := by
    refine h.invariant ⟨?_, ?_⟩ fun _ _ _ hs _ hstep => hs.step hstep
    · exact nofun
    · exact nofun
  have hwriter : ∀ id, isWriter s id = true ↔ s.writer = some id := by simp [isWriter]
  refine ⟨?_, ?_, ?_, ?_, ?_⟩
  · intro a b ha hb
    rw [hwriter] at ha hb
    exact Option.some.inj (ha.symm.trans hb)
  · intro id hid
    exact hsettled.registered id ((hwriter id).1 hid)
  · intro id hgone
    simp [step, hgone]
  · intro hnone e s' hstep
    exact writer_none_step hnone hstep
  · exact fun id handle => hsettled.text

/-- Two connections enter against their numbers, the second is numbered first; the first writer
goes, the other takes over, and a client that is gone tries to. -/
theorem arbiter_safe_takeover :
    ∃ s, Machine.steps step start [.number, .number, .connect 2, .connect 1, .disconnect 2,
        .takeover 1, .takeover 2] = some s ∧ isWriter s 1 = true ∧
      ((s.clients 1).bind fun handle => handle.queued.getLast?) =
        some "\x7b\"t\":\"role\",\"role\":\"writer\",\"owner\":\"1\"\x7d" := by
  refine ⟨_, rfl, rfl, ?_⟩
  have hsafe := arbiter_safe (Machine.reaches_of_steps [.number, .number, .connect 2, .connect 1,
    .disconnect 2, .takeover 1, .takeover 2] .start rfl)
  refine (hsafe.2.2.2.2 1 _ rfl rfl).trans ?_
  decide +kernel

end EmbraOS.Ports.Arbiter
