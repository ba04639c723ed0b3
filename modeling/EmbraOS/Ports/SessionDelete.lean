import EmbraOS.Verified.Stages
import EmbraOS.Ports.SessionRestore

/-!
# Deleting a session while its turns are saved

`soft_delete` marks the meta document under the session's lock and then puts its stamp on the
history document outside of it.  A turn that is saved writes the whole history document from what
it has read, without a stamp.

The calls of any number of both are interleaved in any way, with no lock at all: the orders that
the lock allows are among them.  `deleted_stamped`: if turns write the history only while it has no
stamp, then at the end the history of a deleted session has one.
-/

namespace EmbraOS.Ports.Sessions

open Verified.Calls
open Verified.Timestamps

variable {Msg : Type}

/-! ## The stages of a save and of a deletion -/

inductive SaveCommand (Msg : Type) where
  | turn (messages : List Msg) (seen : Option DateTime) (now : DateTime)
  | softDelete (reason stamp : String)

/-- The answer is not looked at. -/
def ignore {α : Type} (p : Op Msg α) : Op Msg Unit := p.map fun _ => ()

def SaveCommand.prog (name : String) : SaveCommand Msg → Op Msg Unit
  | .turn messages seen now => ignore (appendTurn name messages seen now)
  | .softDelete reason stamp => ignore (Sessions.softDelete name reason stamp)

/-- A call that leaves meta and history alone. -/
def Harmless (c : DbCall Msg) : Prop :=
  ∀ s s' a, db.exec c s = some (s', a) → s'.metas = s.metas ∧ s'.histories = s.histories

/-- A program of such calls. -/
def Neutral {α : Type} : Op Msg α → Prop
  | .done _ => True
  | .call c k => Harmless c ∧ ∀ a, Neutral (k a)

/-- The last part of `soft_delete`: the summary and the times to live. -/
def closing (stamp : String) : Op Msg (Except Failure Unit) :=
  .call (DbCall.collectionExists .summaries) fun
    | some true =>
      patchSummaryStamp (some stamp) <|
        setTtls (.done (.ok ())) [.metas, .histories, .summaries]
    | _ => setTtls (.done (.ok ())) [.metas, .histories]

/-- Where a save or a deletion is: the call it makes next. -/
inductive SaveStage (Msg : Type) where
  | start
  /-- A turn writes the history. -/
  | writing (now : DateTime) (seen : Option DateTime) (history : SessionHistory Msg)
  | stamping (now : DateTime) (seen : Option DateTime) (count : Option Nat)
  /-- A turn writes the meta document. -/
  | rewriting (doc : SessionMeta)
  /-- A deletion writes the meta document. -/
  | deleting (stamp : String) (doc : SessionMeta)
  /-- A deletion looks for the history. -/
  | finding (stamp : String)
  | patching (stamp : String)
  | rest (p : Op Msg Unit) (hp : Neutral p)

/-- The calls that are left. -/
def SaveStage.prog (name : String) (command : SaveCommand Msg) : SaveStage Msg → Op Msg Unit
  | start => command.prog name
  | writing now seen history =>
    .call (DbCall.updateHistory history) fun
      | none => .done ()
      | some _ => ignore (stampTurn now (some (asU32 history.turns.length)) seen)
  | stamping now seen count => ignore (stampTurn now count seen)
  | rewriting doc => .call (DbCall.updateMeta doc) fun _ => .done ()
  | deleting stamp doc =>
    .call (DbCall.updateMeta doc) fun
      | none => .done ()
      | some _ => ignore (patchHistoryStamp (some stamp) (closing stamp))
  | finding stamp => ignore (patchHistoryStamp (some stamp) (closing stamp))
  | patching stamp => .call (DbCall.patchHistory (some stamp)) fun _ => ignore (closing stamp)
  | rest p _ => p

/-- The stamp is still to come. -/
def SaveStage.owes : SaveStage Msg → Bool
  | .finding _ => true
  | .patching _ => true
  | _ => false

/-! ## What a call does -/

def MetaDeleted (s : Docs Msg) : Prop := ∃ m, first s.metas = some m ∧ m.state = .deleted

/-- The history document, if there is one, has a stamp. -/
def Stamped (s : Docs Msg) : Prop := ∀ d, first s.histories = some d → d.deletedAt ≠ none

/-- What one call can do. -/
inductive SaveMoves : Docs Msg → SaveStage Msg → Docs Msg → SaveStage Msg → Prop where
  /-- Meta and history stay; a meta document that is to be written has the state it was read
  with, and a deletion that gives up its stamp has found no history. -/
  | quiet (s s' stage stage') (hmetas : s'.metas = s.metas)
      (hhistories : s'.histories = s.histories)
      (hread : ∀ doc, stage' = .rewriting doc → doc.state = .deleted → MetaDeleted s)
      (howes : stage.owes = true → stage'.owes = true ∨ first s.histories = none) :
      SaveMoves s stage s' stage'
  | rewritten (s s' doc p hp) (hmeta : first s'.metas = some doc)
      (hhistories : s'.histories = s.histories) : SaveMoves s (.rewriting doc) s' (.rest p hp)
  | deleted (s s' stamp doc) (hhistories : s'.histories = s.histories) :
      SaveMoves s (.deleting stamp doc) s' (.finding stamp)
  | written (s s' now seen history count) (hmetas : s'.metas = s.metas)
      (hthere : (first s.histories).isSome = true) :
      SaveMoves s (.writing now seen history) s' (.stamping now seen count)
  | patched (s s' stamp p hp) (hmetas : s'.metas = s.metas) (hstamped : Stamped s') :
      SaveMoves s (.patching stamp) s' (.rest p hp)

theorem neutral_setTtls {α : Type} (a : α) (colls : List Coll) :
    Neutral (setTtls (.done a) colls : Op Msg α) := by
  induction colls with
  | nil => exact trivial
  | cons coll colls ih =>
    refine ⟨?_, fun _ => ih⟩
    intro s s' a h
    simp only [db] at h
    split at h
    · cases h
      exact ⟨rfl, rfl⟩
    · cases h

theorem harmless_collectionExists (coll : Coll) :
    Harmless (DbCall.collectionExists coll : DbCall Msg) := by
  intro s s' a h
  cases h
  exact ⟨rfl, rfl⟩

theorem harmless_querySummary : Harmless (DbCall.querySummary : DbCall Msg) := by
  intro s s' a h
  obtain ⟨ds, _, heq⟩ := Option.map_eq_some_iff.1 h
  cases heq
  exact ⟨rfl, rfl⟩

theorem harmless_patchSummary (stamp : Option String) :
    Harmless (DbCall.patchSummary stamp : DbCall Msg) := by
  intro s s' a h
  obtain ⟨ds, _, heq⟩ := Option.map_eq_some_iff.1 h
  cases heq
  exact ⟨rfl, rfl⟩

theorem Neutral.ignore {α : Type} (p : Op Msg α) (h : Neutral p) : Neutral (ignore p) := by
  induction p with
  | done a => exact trivial
  | call c k ih => exact ⟨h.1, fun a => ih a (h.2 a)⟩

theorem neutral_closing (stamp : String) :
    Neutral (closing stamp : Op Msg (Except Failure Unit)) := by
  refine ⟨harmless_collectionExists .summaries, ?_⟩
  intro ans
  rcases ans with _ | _ | _
  · exact neutral_setTtls _ _
  · exact neutral_setTtls _ _
  · refine ⟨harmless_querySummary, ?_⟩
    intro found
    rcases found with _ | _ | d
    · exact neutral_setTtls _ _
    · exact neutral_setTtls _ _
    · exact ⟨harmless_patchSummary _, fun _ => neutral_setTtls _ _⟩

variable {name : String}

/-- To a program that changes nothing, from a stage that owes nothing. -/
theorem moves_rest {s : Docs Msg} {stage : SaveStage Msg} (p : Op Msg Unit) (hp : Neutral p)
    (howes : stage.owes = true → first s.histories = none) :
    SaveMoves s stage s (.rest p hp) :=
  .quiet _ _ _ _ rfl rfl (fun _ h => by cases h) (fun h => Or.inr (howes h))

theorem exec_queryMeta_eq {s s' : Docs Msg} {found : Option SessionMeta}
    (h : db.exec DbCall.queryMeta s = some (s', found)) : s' = s ∧ found = first s.metas := by
  obtain ⟨ms, hms, heq⟩ := Option.map_eq_some_iff.1 h
  cases heq
  exact ⟨rfl, by rw [first, hms]; rfl⟩

theorem exec_queryHistory_eq {s s' : Docs Msg} {found : Option (HistoryDoc Msg)}
    (h : db.exec DbCall.queryHistory s = some (s', found)) :
    s' = s ∧ found = first s.histories := by
  obtain ⟨hs, hhs, heq⟩ := Option.map_eq_some_iff.1 h
  cases heq
  exact ⟨rfl, by rw [first, hhs]; rfl⟩

theorem first_of_replaceFirst {δ : Type} {f : δ → δ} {coll : Option (List δ)} {ds : List δ}
    (h : replaceFirst f coll = some ds) :
    ∃ d, first coll = some d ∧ first (some ds) = some (f d) := by
  cases coll with
  | none => cases h
  | some olds =>
    cases olds with
    | nil => cases h
    | cons d olds =>
      cases h
      exact ⟨d, rfl, rfl⟩

theorem exec_updateHistory_eq {s s' : Docs Msg} {history : SessionHistory Msg} {a : Unit}
    (h : db.exec (DbCall.updateHistory history) s = some (s', a)) :
    s'.metas = s.metas ∧ (first s.histories).isSome = true := by
  obtain ⟨ds, hds, heq⟩ := Option.map_eq_some_iff.1 h
  obtain ⟨d, hd, _⟩ := first_of_replaceFirst hds
  cases heq
  exact ⟨rfl, by rw [hd]; rfl⟩

theorem exec_updateMeta_eq {s s' : Docs Msg} {doc : SessionMeta} {a : Unit}
    (h : db.exec (DbCall.updateMeta doc) s = some (s', a)) :
    first s'.metas = some doc ∧ s'.histories = s.histories := by
  obtain ⟨ds, hds, heq⟩ := Option.map_eq_some_iff.1 h
  obtain ⟨d, _, hd⟩ := first_of_replaceFirst hds
  cases heq
  exact ⟨hd, rfl⟩

theorem exec_patchHistory_eq {s s' : Docs Msg} {stamp : String} {a : Unit}
    (h : db.exec (DbCall.patchHistory (some stamp)) s = some (s', a)) :
    s'.metas = s.metas ∧ Stamped s' := by
  obtain ⟨ds, hds, heq⟩ := Option.map_eq_some_iff.1 h
  obtain ⟨d, _, hd⟩ := first_of_replaceFirst hds
  cases heq
  refine ⟨rfl, ?_⟩
  intro d' hd'
  obtain rfl := Option.some.inj (hd'.symm.trans hd)
  exact Option.some_ne_none stamp

theorem first_of_replaceFirst_none {δ : Type} {f : δ → δ} {coll : Option (List δ)}
    (h : replaceFirst f coll = none) : first coll = none := by
  cases coll with
  | none => rfl
  | some ds =>
    cases ds with
    | nil => rfl
    | cons d ds => cases h

/-- A program is that of a stage to which `stage` may move. -/
def MovesTo (name : String) (command : SaveCommand Msg) (s : Docs Msg) (stage : SaveStage Msg)
    (s' : Docs Msg) (p : Op Msg Unit) : Prop :=
  ∃ stage', p = stage'.prog name command ∧ SaveMoves s stage s' stage'

section Calls

variable {command : SaveCommand Msg} {stage : SaveStage Msg} {s : Docs Msg} {c : DbCall Msg}
  {k k' : Option ((api Msg).Ans c) → Op Msg Unit}

/-- A call is answered if it is carried out. -/
theorem movesTo_perform (hnone : db.exec c s = none → MovesTo name command s stage s (k none))
    (hsome : ∀ s' a, db.exec c s = some (s', a) → MovesTo name command s stage s' (k (some a))) :
    MovesTo name command s stage (db.perform c .answered s).1
      (k (db.perform c .answered s).2) := by
  cases hexec : db.exec c s with
  | none =>
    rw [perform_of_refused hexec .answered]
    exact hnone hexec
  | some out =>
    rw [perform_of_exec hexec .answered]
    exact hsome out.1 out.2 hexec

/-- From a stage that owes nothing, by a call that changes nothing. -/
theorem movesTo_quiet (stage' : SaveStage Msg) {p : Op Msg Unit} (hp : p = stage'.prog name command)
    (howes : stage.owes = false)
    (hread : ∀ doc, stage' = .rewriting doc → doc.state = .deleted → MetaDeleted s) :
    MovesTo name command s stage s p :=
  ⟨stage', hp, .quiet _ _ _ _ rfl rfl hread fun h => by rw [howes] at h; cases h⟩

theorem movesTo_done (howes : stage.owes = false) : MovesTo name command s stage s (.done ()) :=
  movesTo_quiet (.rest (.done ()) trivial) rfl howes fun _ h => by cases h

theorem call_congr (h : ∀ ans, k ans = k' ans) :
    (Prog.call c k : Op Msg Unit) = Prog.call c k' :=
  congrArg _ (funext h)

end Calls

/-- A step of a save or of a deletion is one of these moves. -/
theorem saveMoves_of_call {command : SaveCommand Msg} (stage : SaveStage Msg) (s : Docs Msg)
    {c : DbCall Msg} {k : Option ((api Msg).Ans c) → Op Msg Unit}
    (h : stage.prog name command = .call c k) :
    MovesTo name command s stage (db.perform c .answered s).1
      (k (db.perform c .answered s).2) := by
  refine movesTo_perform (fun hnone => ?_) fun s' found hexec => ?_
  · -- refused: only a deletion that has written the meta document goes on
    cases stage with
    | finding stamp =>
      cases h
      refine ⟨.rest (ignore (closing stamp)) (neutral_closing stamp).ignore, rfl,
        moves_rest _ _ fun _ => ?_⟩
      rw [first, Option.map_eq_none_iff.1 hnone]
      rfl
    | patching stamp =>
      cases h
      exact ⟨.rest (ignore (closing stamp)) (neutral_closing stamp).ignore, rfl,
        moves_rest _ _ fun _ => first_of_replaceFirst_none (Option.map_eq_none_iff.1 hnone)⟩
    | rest p hp =>
      obtain rfl : p = .call c k := h
      exact movesTo_quiet (.rest (k none) (hp.2 _)) rfl rfl fun _ h => by cases h
    | start =>
      cases command <;>
        · cases h
          exact movesTo_done rfl
    | _ =>
      cases h
      exact movesTo_done rfl
  cases stage with
  | start =>
    cases command with
    | turn messages seen now =>
      cases h
      obtain ⟨rfl, _⟩ := exec_queryHistory_eq hexec
      cases found with
      | none => exact movesTo_quiet (.stamping now seen none) rfl rfl fun _ h => by cases h
      | some doc =>
        by_cases hlegacy : doc.history.formatVersion < currentSessionFormat
        · refine ⟨.rest (.done ()) trivial, ?_, moves_rest _ _ fun h => by cases h⟩
          show Prog.bind (if _ then _ else _) _ = _
          rw [if_pos hlegacy]
          rfl
        · refine movesTo_quiet (.writing now seen
            { doc.history with turns := doc.history.turns ++ messages }) ?_ rfl
            fun _ h => by cases h
          show Prog.bind (if _ then _ else _) _ = _
          rw [if_neg hlegacy]
          exact call_congr fun ans => by cases ans <;> rfl
    | softDelete reason stamp =>
      cases h
      obtain ⟨rfl, _⟩ := exec_queryMeta_eq hexec
      cases found with
      | none => exact movesTo_done rfl
      | some doc =>
        exact movesTo_quiet (.deleting stamp (applySoftDelete reason stamp doc))
          (call_congr fun ans => by cases ans <;> rfl) rfl fun _ h => by cases h
  | writing now seen history =>
    cases h
    obtain ⟨hmetas, hthere⟩ := exec_updateHistory_eq hexec
    exact ⟨.stamping now seen _, rfl, .written _ _ _ _ _ _ hmetas hthere⟩
  | stamping now seen count =>
    cases h
    obtain ⟨rfl, hfound⟩ := exec_queryMeta_eq hexec
    cases found with
    | none => exact movesTo_done rfl
    | some doc =>
      refine movesTo_quiet (.rewriting (applyTurn now count seen doc))
        (call_congr fun ans => by cases ans <;> rfl) rfl ?_
      intro doc' hdoc' hdeleted
      cases hdoc'
      exact ⟨doc, hfound.symm, hdeleted⟩
  | rewriting doc =>
    cases h
    obtain ⟨hmeta, hhistories⟩ := exec_updateMeta_eq hexec
    exact ⟨.rest (.done ()) trivial, rfl, .rewritten _ _ _ _ _ hmeta hhistories⟩
  | deleting stamp doc =>
    cases h
    exact ⟨.finding stamp, rfl, .deleted _ _ _ _ (exec_updateMeta_eq hexec).2⟩
  | finding stamp =>
    cases h
    obtain ⟨rfl, hfound⟩ := exec_queryHistory_eq hexec
    cases found with
    | none => exact ⟨.rest (ignore (closing stamp)) (neutral_closing stamp).ignore, rfl,
        moves_rest _ _ fun _ => hfound.symm⟩
    | some doc => exact ⟨.patching stamp, rfl, .quiet _ _ _ _ rfl rfl
        (fun _ h => by cases h) (fun _ => Or.inl rfl)⟩
  | patching stamp =>
    cases h
    obtain ⟨hmetas, hstamped⟩ := exec_patchHistory_eq hexec
    exact ⟨.rest (ignore (closing stamp)) (neutral_closing stamp).ignore, rfl,
      .patched _ _ _ _ _ hmetas hstamped⟩
  | rest p hp =>
    obtain rfl : p = .call c k := h
    obtain ⟨hmetas, hhistories⟩ := hp.1 s s' found hexec
    exact ⟨.rest (k (some found)) (hp.2 _), rfl,
      .quiet _ _ _ _ hmetas hhistories (fun _ h => by cases h) (fun h => by cases h)⟩

/-! ## A deleted session is stamped or will be -/

variable {ι : Type} {s s' : Docs Msg} {st : ι → SaveStage Msg} {i : ι} {stage : SaveStage Msg}

def Owed (st : ι → SaveStage Msg) : Prop := ∃ i, (st i).owes = true

/-- The session is deleted, or a turn is about to write that it is. -/
def Marked (s : Docs Msg) (st : ι → SaveStage Msg) : Prop :=
  MetaDeleted s ∨ ∃ i doc, st i = .rewriting doc ∧ doc.state = .deleted

def Sound (s : Docs Msg) (st : ι → SaveStage Msg) : Prop := Marked s st → Stamped s ∨ Owed st

variable [DecidableEq ι]

theorem marked_of_update (hmetas : s'.metas = s.metas)
    (hread : ∀ doc, stage = .rewriting doc → doc.state = .deleted → MetaDeleted s)
    (h : Marked s' (Function.update st i stage)) : Marked s st := by
  rcases h with ⟨m, hm, hstate⟩ | ⟨j, doc, hj, hstate⟩
  · rw [hmetas] at hm
    exact Or.inl ⟨m, hm, hstate⟩
  · by_cases hne : j = i
    · rw [hne, Function.update_self] at hj
      exact Or.inl (hread doc hj hstate)
    · rw [Function.update_of_ne hne] at hj
      exact Or.inr ⟨j, doc, hj, hstate⟩

theorem owed_update (h : Owed st) (hi : (st i).owes = true → stage.owes = true) :
    Owed (Function.update st i stage) := by
  obtain ⟨j, hj⟩ := h
  by_cases hne : j = i
  · refine ⟨i, ?_⟩
    rw [Function.update_self]
    exact hi (hne ▸ hj)
  · refine ⟨j, ?_⟩
    rw [Function.update_of_ne hne]
    exact hj

/-- What one call keeps, if a turn writes the history only while it has no stamp. -/
theorem Sound.moves (h : Sound s st)
    (hfresh : ∀ now seen history, st i = .writing now seen history →
      ∀ d, first s.histories = some d → d.deletedAt = none)
    (hmoves : SaveMoves s (st i) s' stage) : Sound s' (Function.update st i stage) := by
  generalize hstage : st i = old at hmoves
  cases hmoves with
  | quiet s' old stage hmetas hhistories hread howes =>
    intro hmarked
    have hsame : Stamped s → Stamped s' := by
      intro hstamped
      rw [Stamped, hhistories]
      exact hstamped
    rcases h (marked_of_update hmetas hread hmarked) with hstamped | howed
    · exact Or.inl (hsame hstamped)
    by_cases hfound : first s.histories = none
    · left
      intro d hd
      rw [hhistories, hfound] at hd
      cases hd
    · right
      apply owed_update howed
      rw [hstage]
      exact fun hi => (howes hi).resolve_right hfound
  | rewritten s' doc p hp hmeta hhistories =>
    intro hmarked
    have hold : Marked s st := by
      rcases hmarked with ⟨m, hm, hstate⟩ | ⟨j, doc', hj, hstate⟩
      · obtain rfl := Option.some.inj (hmeta.symm.trans hm)
        exact Or.inr ⟨i, doc, hstage, hstate⟩
      · by_cases hne : j = i
        · rw [hne, Function.update_self] at hj
          cases hj
        · rw [Function.update_of_ne hne] at hj
          exact Or.inr ⟨j, doc', hj, hstate⟩
    rcases h hold with hstamped | howed
    · left
      rw [Stamped, hhistories]
      exact hstamped
    · right
      apply owed_update howed
      rw [hstage]
      exact fun hi => by cases hi
  | deleted s' stamp doc hhistories =>
    intro _
    refine Or.inr ⟨i, ?_⟩
    rw [Function.update_self]
    rfl
  | written s' now seen history count hmetas hthere =>
    intro hmarked
    right
    rcases h (marked_of_update hmetas (fun _ hr => by cases hr) hmarked) with hstamped | howed
    · -- a history with a stamp is not written
      obtain ⟨d, hd⟩ := Option.isSome_iff_exists.1 hthere
      exact absurd (hfresh now seen history hstage d hd) (hstamped d hd)
    · apply owed_update howed
      rw [hstage]
      exact fun hi => by cases hi
  | patched s' stamp p hp hmetas hstamped => exact fun _ => Or.inl hstamped

/-! ## Runs -/

variable (name) (commands : ι → SaveCommand Msg)

def saveProg (i : ι) (stage : SaveStage Msg) : Op Msg Unit := stage.prog name (commands i)

/-- All commands at their start. -/
def allSaves (s : Docs Msg) : Pool (api Msg) (Docs Msg) Unit ι :=
  .start s fun i => (commands i).prog name

/-- The next call of a task writes the history. -/
def writesHistory {α : Type} : Op Msg α → Bool
  | .call (.updateHistory _) _ => true
  | _ => false

/-- A call is answered unless it is refused, and a turn writes the history only while it has no
stamp. -/
def Unstamped (c : Pool (api Msg) (Docs Msg) Unit ι) (i : ι) (r : Reply) : Prop :=
  r = .answered ∧ (writesHistory (c.tasks i) = true →
    ∀ d, first c.state.histories = some d → d.deletedAt = none)

theorem reaches_sound (h : MetaDeleted s → Stamped s) {c : Pool (api Msg) (Docs Msg) Unit ι}
    (hreaches : Pool.Reaches db Unstamped (allSaves name commands s) c) :
    ∃ st, c.At (saveProg name commands) st ∧ Sound c.state st := by
  have hstart : Sound s fun _ : ι => .start := by
    rintro (hdeleted | ⟨_, _, hrewriting, _⟩)
    · exact Or.inl (h hdeleted)
    · cases hrewriting
  refine hreaches.invariant (J := fun c => ∃ st, c.At (saveProg name commands) st ∧
    Sound c.state st) ⟨fun _ => .start, fun _ => rfl, hstart⟩ ?_
  rintro c i r c' ⟨st, hat, hsound⟩ ⟨rfl, hfresh⟩ hstep
  obtain ⟨stage, hat', hmoves⟩ := hat.step (fun stage s' => SaveMoves c.state (st i) s' stage)
    hstep fun cl k hcall => saveMoves_of_call (st i) c.state hcall
  refine ⟨_, hat', hsound.moves ?_ hmoves⟩
  intro now seen history hstage
  apply hfresh
  rw [hat i, saveProg, hstage]
  rfl

theorem not_owes_of_done {command : SaveCommand Msg}
    (h : stage.prog name command = .done ()) : stage.owes = false := by
  cases stage with
  | finding | patching => cases h
  | start | writing | stamping | rewriting | deleting | rest => rfl

/-- Deletions and saved turns of one session, in any order of their calls, none of which fails and
in which turns write the history only while it has no stamp: when all have ended, the history of a
deleted session carries the stamp. -/
theorem deleted_stamped (s : Docs Msg) (h : MetaDeleted s → Stamped s)
    (c : Pool (api Msg) (Docs Msg) Unit ι)
    (hreaches : Pool.Reaches db Unstamped (allSaves name commands s) c)
    (hended : ∀ i, c.tasks i = .done ()) (hdeleted : MetaDeleted c.state) : Stamped c.state := by
  obtain ⟨st, hat, hsound⟩ := reaches_sound name commands h hreaches
  rcases hsound (Or.inl hdeleted) with hstamped | ⟨i, hi⟩
  · exact hstamped
  · rw [not_owes_of_done name ((hat i).symm.trans (hended i))] at hi
    cases hi

section Demo

/-- A turn and a deletion. -/
def turnAndDelete : Bool → SaveCommand String
  | false => .turn ["hi"] none demoTime
  | true => .softDelete "done with it" "2026-03-05T00:00:00+00:00"

def unstampedStep (c : Pool (api String) (Docs String) Unit Bool) (i : Bool) (r : Reply) : Bool :=
  decide (r = .answered) &&
    (!writesHistory (c.tasks i) || (first c.state.histories).all fun d => d.deletedAt.isNone)

theorem unstamped_of_unstampedStep (c : Pool (api String) (Docs String) Unit Bool) (i : Bool)
    (r : Reply) (h : unstampedStep c i r = true) : Unstamped c i r := by
  obtain ⟨hr, hfresh⟩ := Bool.and_eq_true_iff.1 h
  refine ⟨of_decide_eq_true hr, ?_⟩
  intro hwrites d hd
  rw [hwrites, hd] at hfresh
  exact Option.isNone_iff_eq_none.1 hfresh

/-- The turn is saved before the deletion begins. -/
def turnFirst : List (Bool × Reply) :=
  List.replicate 4 (false, .answered) ++ List.replicate 7 (true, .answered)

/-- The turn has read the history when the stamp comes, and writes it afterwards. -/
def stampInBetween : List (Bool × Reply) :=
  List.replicate 2 (true, .answered) ++ [(false, .answered)] ++
    List.replicate 2 (true, .answered) ++ List.replicate 3 (false, .answered) ++
    List.replicate 3 (true, .answered)

def isDeleted (c : Pool (api String) (Docs String) Unit Bool) : Bool :=
  (first c.state.metas).any fun m => decide (m.state = .deleted)

def allEnded (c : Pool (api String) (Docs String) Unit Bool) : Bool :=
  (c.tasks false).value?.isSome && (c.tasks true).value?.isSome

theorem done_of_allEnded {c : Pool (api String) (Docs String) Unit Bool} (h : allEnded c = true)
    (i : Bool) : c.tasks i = .done () := by
  obtain ⟨hfalse, htrue⟩ := Bool.and_eq_true_iff.1 h
  cases i with
  | false =>
    obtain ⟨a, ha⟩ := Option.isSome_iff_exists.1 hfalse
    exact Prog.eq_done_of_value? ha
  | true =>
    obtain ⟨a, ha⟩ := Option.isSome_iff_exists.1 htrue
    exact Prog.eq_done_of_value? ha

theorem metaDeleted_of_isDeleted {c : Pool (api String) (Docs String) Unit Bool}
    (h : isDeleted c = true) : MetaDeleted c.state := by
  obtain ⟨m, hm, hstate⟩ := (Option.any_eq_true _ _).1 h
  exact ⟨m, hm, of_decide_eq_true hstate⟩

theorem deleted_stamped_turn_first :
    ∃ c, Pool.Reaches db Unstamped (allSaves "work" turnAndDelete demoDocs) c ∧
      (∀ i, c.tasks i = .done ()) ∧ MetaDeleted c.state ∧ Stamped c.state := by
  have hsome : (((allSaves "work" turnAndDelete demoDocs).stepsIf db unstampedStep turnFirst).any
      fun c => allEnded c && isDeleted c) = true := by
    decide +kernel
  obtain ⟨c, hc, hall⟩ := (Option.any_eq_true _ _).1 hsome
  obtain ⟨hended, hdeleted⟩ := Bool.and_eq_true_iff.1 hall
  have hreaches := Pool.reaches_of_stepsIf unstamped_of_unstampedStep turnFirst .start hc
  have hstart : MetaDeleted demoDocs → Stamped demoDocs := by
    rintro ⟨m, hm, hstate⟩
    cases hm
    cases hstate
  refine ⟨c, hreaches, done_of_allEnded hended, metaDeleted_of_isDeleted hdeleted, ?_⟩
  exact deleted_stamped "work" turnAndDelete demoDocs hstart c hreaches (done_of_allEnded hended)
    (metaDeleted_of_isDeleted hdeleted)

/-- The stamp comes while a turn is being saved: in the end the session is deleted and its history
has no stamp. -/
theorem stamp_overwritten :
    ∃ c d, Pool.Reaches db (fun _ _ r => r = .answered)
        (allSaves "work" turnAndDelete demoDocs) c ∧
      (∀ i, c.tasks i = .done ()) ∧ MetaDeleted c.state ∧
      first c.state.histories = some d ∧ d.deletedAt = none := by
  have hsome : (((allSaves "work" turnAndDelete demoDocs).stepsIf db
      (fun _ _ r => decide (r = .answered)) stampInBetween).any fun c =>
        (allEnded c && isDeleted c) &&
          (first c.state.histories).any fun d => d.deletedAt.isNone) = true := by
    decide +kernel
  obtain ⟨c, hc, hall⟩ := (Option.any_eq_true _ _).1 hsome
  obtain ⟨hboth, hnone⟩ := Bool.and_eq_true_iff.1 hall
  obtain ⟨hended, hdeleted⟩ := Bool.and_eq_true_iff.1 hboth
  obtain ⟨d, hd, hstamp⟩ := (Option.any_eq_true _ _).1 hnone
  exact ⟨c, d, Pool.reaches_of_stepsIf (fun _ _ r hr => of_decide_eq_true hr) stampInBetween
    .start hc, done_of_allEnded hended, metaDeleted_of_isDeleted hdeleted, hd,
    Option.isNone_iff_eq_none.1 hstamp⟩

end Demo

end EmbraOS.Ports.Sessions
