import EmbraOS.Ports.Sessions

/-!
# Appending turns

`interleaved_turns` is about any number of `append_turn` calls and meta rewrites
of one session, interleaved in any way and with any call failing.  They hold the
session's lock, so `Config.locked` reduces the statement to one call from a state
between calls (`Between`): the history is what it was at the start and the
messages of the calls that saved, in the order of the lock.

`appendTurn_saves_iff` is about a single call in any state of the documents: an
answer of Ok means that the turn is stored, except where the history collection
has no document.
-/

namespace EmbraOS.Ports.Sessions

open Verified.Calls
open Verified.Timestamps

variable {Msg : Type}

/-! ## Reading the documents -/

/-- The messages of the session's history document. -/
def Docs.turns (s : Docs Msg) : Option (List Msg) :=
  (s.histories.bind List.head?).map (fun d => d.history.turns)

def Docs.turnCount (s : Docs Msg) : Option Nat :=
  (s.metas.bind List.head?).bind SessionMeta.turnCount

/-- The history and the meta document exist. -/
structure Docs.Live (s : Docs Msg) : Prop where
  metas : ∃ m ms, s.metas = some (m :: ms)
  histories : ∃ h hs, s.histories = some (h :: hs)

variable {hs : List (HistoryDoc Msg)} {ms : List SessionMeta} {f : SessionMeta → SessionMeta}

variable {s : Docs Msg} {m : SessionMeta} {d : HistoryDoc Msg} {K : Docs Msg → Prop}

theorem Docs.turns_of_cons {h : HistoryDoc Msg}
    (hhist : s.histories = some (h :: hs)) : s.turns = some h.history.turns := by
  rw [Docs.turns, hhist]
  rfl

/-- The history document with a turn added. -/
def extended (d : HistoryDoc Msg) (messages : List Msg) : HistoryDoc Msg :=
  ⟨{ d.history with turns := d.history.turns ++ messages }, none⟩

/-! ## The calls on documents that exist -/

theorem exec_queryMeta (h : s.metas = some ms) :
    db.exec DbCall.queryMeta s = some (s, ms.head?) := by
  simp only [db, h]
  rfl

theorem exec_queryHistory
    (h : s.histories = some hs) : db.exec DbCall.queryHistory s = some (s, hs.head?) := by
  simp only [db, h]
  rfl

theorem exec_queryMeta_none (h : s.metas = none) :
    db.exec DbCall.queryMeta s = none := by
  simp only [db, h]
  rfl

theorem exec_queryHistory_none (h : s.histories = none) :
    db.exec DbCall.queryHistory s = none := by
  simp only [db, h]
  rfl

theorem exec_updateMeta (h : s.metas = some (m :: ms)) (doc : SessionMeta) :
    db.exec (DbCall.updateMeta doc) s = some ({ s with metas := some (doc :: ms) }, ()) := by
  simp only [db, h, replaceFirst]
  rfl

theorem exec_updateHistory (h : s.histories = some (d :: hs)) (doc : SessionHistory Msg) :
    db.exec (DbCall.updateHistory doc) s =
      some ({ s with histories := some (⟨doc, none⟩ :: hs) }, ()) := by
  simp only [db, h, replaceFirst]
  rfl

/-- A meta rewrite touches the first meta document only, and answers Ok only when it
is rewritten. -/
theorem always_rewriteMeta
    (hK : ∀ s m ms, K s → K { s with metas := some (m :: ms) })
    (hmeta : s.metas = some (m :: ms)) (h : K s) :
    Always db K (fun s' r => K s' ∧ (∃ m' ms', s'.metas = some (m' :: ms')) ∧
      ∀ b, r = .ok b → s'.metas = some (f m :: ms)) (rewriteMetaLocked f) s := by
  have hwritten : K { s with metas := some (f m :: ms) } := hK s _ _ h
  have herror : ∀ s', K s' → (∃ m' ms', s'.metas = some (m' :: ms')) →
      Always db K (fun s' r => K s' ∧ (∃ m' ms', s'.metas = some (m' :: ms')) ∧
        ∀ b, r = Except.ok b → s'.metas = some (f m :: ms))
        (.done (Except.error Failure.db) : Op Msg (Except Failure Bool)) s' :=
    fun s' hs' hmeta' => ⟨hs', hs', hmeta', nofun⟩
  apply Always.call (exec_queryMeta hmeta) h
  · apply Always.call (exec_updateMeta hmeta (f m)) h
    · exact ⟨hwritten, hwritten, ⟨_, _, rfl⟩, fun _ _ => rfl⟩
    · exact herror s h ⟨m, ms, hmeta⟩
    · exact herror _ hwritten ⟨_, _, rfl⟩
  · exact herror s h ⟨m, ms, hmeta⟩
  · exact herror s h ⟨m, ms, hmeta⟩

/-! ## Requests -/

inductive Request (Msg : Type) where
  | append (messages : List Msg) (seen : Option DateTime) (now : DateTime)
  | rewrite (f : SessionMeta → SessionMeta)

inductive Result where
  | appended (r : Except SessionError Unit)
  | rewritten (r : Except Failure Bool)

def Request.messages : Request Msg → List Msg
  | .append messages _ _ => messages
  | .rewrite _ => []

/-- What a request does under the lock. -/
def Request.prog (name : String) : Request Msg → Op Msg Result
  | .append messages seen now => (appendTurn name messages seen now).map .appended
  | .rewrite f => (rewriteMetaLocked f).map .rewritten

section Interleaved

variable {ι : Type} (req : ι → Request Msg) (start : List Msg)

abbrev Log (Msg ι : Type) := List (ι × Result × Docs Msg)

/-- The history after the calls of `saved` on top of the first one. -/
def stored (saved : List ι) : List Msg := start ++ saved.flatMap (fun i => (req i).messages)

/-- The count of the meta document is that of the history, as a `u32`. -/
def Counted (s : Docs Msg) : Prop := s.turnCount = s.turns.map (fun t => asU32 t.length)

/-- The calls that answered Ok are among `saved`, and each left the count right. -/
def Answered (log : Log Msg ι) (saved : List ι) : Prop :=
  ∀ e ∈ log, e.2.1 = .appended (.ok ()) → e.1 ∈ saved ∧ Counted e.2.2

/-- A state between calls. -/
structure Between (log : Log Msg ι) (s : Docs Msg) : Prop where
  live : s.Live
  saved : ∃ saved, saved.Sublist (log.map Prod.fst) ∧ s.turns = some (stored req start saved) ∧
    Answered log saved

/-- A state during the call of `i`: its messages are stored or not. -/
structure During (log : Log Msg ι) (i : ι) (isSaved : Bool) (s : Docs Msg) : Prop where
  live : s.Live
  saved : ∃ saved, saved.Sublist (log.map Prod.fst) ∧
    s.turns = some (stored req start (saved ++ if isSaved then [i] else [])) ∧
    Answered log saved

/-- What a reader sees during the call of `i`. -/
def Seen (log : Log Msg ι) (i : ι) (s : Docs Msg) : Prop :=
  s.Live ∧ ∃ saved, saved.Sublist (log.map Prod.fst ++ [i]) ∧
    s.turns = some (stored req start saved) ∧ Answered log saved

variable {req start} {log : Log Msg ι} {i : ι} {s : Docs Msg}

theorem Between.during (h : Between req start log s) : During req start log i false s := by
  obtain ⟨saved, hsub, hturns, hans⟩ := h.saved
  exact ⟨h.live, saved, hsub, by simpa using hturns, hans⟩

variable {isSaved : Bool} {saved : List ι} {now : DateTime}

theorem During.metas (h : During req start log i isSaved s) {m : SessionMeta} :
    During req start log i isSaved { s with metas := some (m :: ms) } :=
  ⟨⟨⟨m, ms, rfl⟩, h.live.histories⟩, h.saved⟩

theorem During.sublist (h : saved.Sublist (log.map Prod.fst)) :
    (saved ++ if isSaved then [i] else []).Sublist (log.map Prod.fst ++ [i]) := by
  apply List.Sublist.append h
  cases isSaved with
  | false => exact List.nil_sublist _
  | true => exact List.Sublist.refl _

theorem Answered.append {more : List ι} (h : Answered log saved) :
    Answered log (saved ++ more) :=
  fun e he hok => ⟨List.mem_append_left _ (h e he hok).1, (h e he hok).2⟩

section

variable (h : During req start log i isSaved s)
include h

theorem During.seen :
    Seen req start log i s := by
  obtain ⟨saved, hsub, hturns, hans⟩ := h.saved
  exact ⟨h.live, _, During.sublist hsub, hturns, hans.append⟩

/-- A call may end without an Ok in any state, and with one when its messages are
stored and counted. -/
theorem During.ends {r : Result} (hr : r = .appended (.ok ()) → isSaved = true ∧ Counted s) :
    Between req start (log ++ [(i, r, s)]) s := by
  obtain ⟨saved, hsub, hturns, hans⟩ := h.saved
  refine ⟨h.live, saved ++ (if isSaved then [i] else []), ?_, hturns, ?_⟩
  · rw [List.map_append]
    exact During.sublist hsub
  · intro e he hok
    rcases List.mem_append.1 he with he | he
    · exact hans.append e he hok
    · obtain rfl := List.mem_singleton.1 he
      obtain ⟨rfl, hcount⟩ := hr hok
      exact ⟨by simp, hcount⟩

theorem During.ends_error (e : SessionError) :
    Always db (Seen req start log i) (fun s' r => Between req start (log ++ [(i, r, s')]) s')
      (.done (.appended (.error e)) : Op Msg Result) s :=
  ⟨h.seen, h.ends nofun⟩

end

/-! ## One call -/

/-- The meta half of `append_turn`, with the messages stored: an Ok means that the
count is stamped. -/
theorem always_stampTurn {seen : Option DateTime} {d : HistoryDoc Msg}
    (h : During req start log i true s) (hhist : s.histories = some (d :: hs)) :
    Always db (Seen req start log i) (fun s' r => Between req start (log ++ [(i, r, s')]) s')
      ((stampTurn now (some (asU32 d.history.turns.length)) seen).map .appended :
        Op Msg Result) s := by
  obtain ⟨m, ms, hmeta⟩ := h.live.metas
  have hrewrite := always_rewriteMeta
    (K := fun s' => During req start log i true s' ∧ s'.histories = some (d :: hs))
    (f := applyTurn now (some (asU32 d.history.turns.length)) seen)
    (fun _ _ _ hK => ⟨hK.1.metas, hK.2⟩) hmeta ⟨h, hhist⟩
  apply Always.map
  apply Always.map
  apply Always.mono (fun s' hs' => hs'.1.seen) _ _ s hrewrite
  rintro s' r ⟨⟨hduring, hsame⟩, -, hok⟩
  apply hduring.ends
  intro hr
  cases r with
  | error e => cases hr
  | ok b =>
    refine ⟨rfl, ?_⟩
    rw [Counted, Docs.turnCount, hok b rfl, Docs.turns_of_cons hsame]
    rfl

/-- **One call of `append_turn`** from a state between calls. -/
theorem always_appendTurn {name : String} {messages : List Msg} {seen : Option DateTime}
    (hreq : req i = .append messages seen now) (h : Between req start log s) :
    Always db (Seen req start log i) (fun s' r => Between req start (log ++ [(i, r, s')]) s')
      ((appendTurn name messages seen now).map .appended : Op Msg Result) s := by
  have hduring : During req start log i false s := h.during
  obtain ⟨d, hs, hhist⟩ := h.live.histories
  apply Always.call (exec_queryHistory hhist) hduring.seen
  · -- The history was read.
    show Always _ _ _ (Prog.bind (ite _ _ _) _) s
    split
    · exact hduring.ends_error _
    have hafter : During req start log i true
        { s with histories := some (extended d messages :: hs) } := by
      obtain ⟨saved, hsub, hturns, hans⟩ := h.saved
      rw [Docs.turns_of_cons hhist] at hturns
      refine ⟨⟨h.live.metas, ⟨_, _, rfl⟩⟩, saved, hsub, ?_, hans⟩
      rw [Docs.turns_of_cons rfl]
      show some (d.history.turns ++ messages) = _
      rw [Option.some.inj hturns]
      simp [stored, hreq, Request.messages]
    apply Always.call (exec_updateHistory hhist _) hduring.seen
    · exact always_stampTurn hafter rfl
    · exact hduring.ends_error _
    · exact hafter.ends_error _
  · exact hduring.ends_error _
  · exact hduring.ends_error _

/-- **One meta rewrite** from a state between calls. -/
theorem always_rewrite (h : Between req start log s) :
    Always db (Seen req start log i) (fun s' r => Between req start (log ++ [(i, r, s')]) s')
      ((rewriteMetaLocked f).map .rewritten : Op Msg Result) s := by
  obtain ⟨m, ms, hmeta⟩ := h.live.metas
  have hrewrite := always_rewriteMeta (K := During req start log i false) (f := f)
    (fun _ _ _ hK => hK.metas) hmeta h.during
  apply Always.map
  apply Always.mono (fun s' hs' => hs'.seen) _ _ s hrewrite
  rintro s' r ⟨hduring, -, -⟩
  apply hduring.ends
  exact nofun

end Interleaved

/-- **Turns are saved in the order of the lock.**  For any calls of `append_turn` and
meta rewrites on a session whose documents exist, in every interleaving and with any
database call failing: the history is the one from the start followed by the messages
of calls that took the lock, each once and in the order of the lock; every call of
`append_turn` that answered Ok is one of them; and when it answered, the count in the
meta document was the length of the history as a `u32`. -/
theorem interleaved_turns {ι : Type} [DecidableEq ι] (name : String) (req : ι → Request Msg)
    (s : Docs Msg) (start : List Msg) (hlive : s.Live) (hstart : s.turns = some start)
    (c : Config (api Msg) (Docs Msg) Result ι)
    (hreach : Config.Reaches db (Config.start s (fun i => (req i).prog name)) c) :
    c.order.Nodup ∧
    (∃ saved : List ι, saved.Sublist c.order ∧
      c.state.turns = some (start ++ saved.flatMap (fun i => (req i).messages)) ∧
      ∀ i, c.tasks i = .finished (.appended (.ok ())) → i ∈ saved) ∧
    (∀ i docs, (i, .appended (.ok ()), docs) ∈ c.log →
      docs.turnCount = docs.turns.map (fun t => t.length % 2 ^ 32)) := by
  have hserial := Config.locked
    (J := Between req start) (I := Seen req start)
    (Q := fun log i s' r => Between req start (log ++ [(i, r, s')]) s')
    (fun log s' i hJ _ => by
      show Always _ _ _ ((req i).prog name) s'
      cases hreq : req i with
      | append messages seen now => exact always_appendTurn hreq hJ
      | rewrite f => exact always_rewrite hJ)
    (fun _ _ _ _ hQ => hQ)
    ⟨hlive, [], List.nil_sublist _, by rw [hstart, stored]; simp, by simp [Answered]⟩ hreach
  -- The state is seen between calls or during one.
  have hseen : ∃ saved : List ι, saved.Sublist c.order ∧
      c.state.turns = some (stored req start saved) ∧ Answered c.log saved := by
    cases hholder : c.holder with
    | none =>
      obtain ⟨horder, hJ⟩ := hserial.free hholder
      rw [horder]
      exact hJ.saved
    | some i =>
      obtain ⟨horder, p, -, halways⟩ := hserial.held i hholder
      rw [horder]
      exact halways.inv.2
  obtain ⟨saved, hsub, hturns, hans⟩ := hseen
  refine ⟨hserial.nodup, ⟨saved, hsub, hturns, ?_⟩, ?_⟩
  · intro i hfinished
    obtain ⟨docs, hdocs⟩ := hserial.returned i _ hfinished
    exact (hans _ hdocs rfl).1
  · intro i docs hmem
    exact (hans _ hmem rfl).2

/-! A session without turns, a turn and a state flip on it. -/

def demoTime : DateTime :=
  ⟨2026, 3, 4, 9, 30, 15, 500000000, by decide, by decide, by decide, by decide, by decide,
    by decide⟩

def demoDocs : Docs String where
  metas := some [newMeta "s" "m1" demoTime none]
  histories := some [⟨⟨"s", currentSessionFormat, []⟩, none⟩]

def demoRequest : Bool → Request String
  | false => .append ["hello"] none demoTime
  | true => .rewrite (applyState .detached demoTime)

/-- The turn and then the flip, the turn's last call ending as given. -/
def demoEvents (last : Reply) : List (Event Bool) :=
  [.acquire false, .call false .answered, .call false .answered, .call false .answered,
    .call false last, .finish false, .acquire true, .call true .answered,
    .call true .answered, .finish true]

def demoStart : Config (api String) (Docs String) Result Bool :=
  Config.start demoDocs (fun i => (demoRequest i).prog "s")

theorem demo_reaches (last : Reply) {c : Config (api String) (Docs String) Result Bool}
    (h : demoStart.steps db (demoEvents last) = some c) : Config.Reaches db demoStart c :=
  Config.reaches_of_steps (demoEvents last) demoStart c .start h

theorem interleaved_turns_demo :
    ∃ c, demoStart.steps db (demoEvents .answered) = some c ∧ c.order.Nodup :=
  ⟨_, rfl, (interleaved_turns "s" demoRequest demoDocs []
    ⟨⟨_, _, rfl⟩, ⟨_, _, rfl⟩⟩ rfl _ (demo_reaches .answered rfl)).1⟩

/-- A turn whose meta write fails, and a state flip that answers Ok after it: the
count is still that of the turn before. -/
theorem rewrite_ok_count_behind :
    ∃ c, Config.Reaches db demoStart c ∧
      ∃ docs, (true, .rewritten (.ok true), docs) ∈ c.log ∧
        docs.turns = some ["hello"] ∧ docs.turnCount = some 0 :=
  ⟨_, demo_reaches .failed rfl, _, List.mem_cons_of_mem _ List.mem_cons_self, rfl, rfl⟩

/-! ## A single call, in any state -/

/-- The turn's messages are at the end of the stored history. -/
def Saved (messages : List Msg) (s : Docs Msg) : Prop :=
  ∃ earlier, s.turns = some (earlier ++ messages)

/-- What a meta rewrite keeps, in every state. -/
theorem always_rewriteMeta_keeps (hs : K s)
    (hK : ∀ m ms, s.metas = some (m :: ms) → K { s with metas := some (f m :: ms) }) :
    Always db K (fun _ _ => True) (rewriteMetaLocked f) s := by
  cases hmeta : s.metas with
  | none => exact Always.refused (exec_queryMeta_none hmeta) hs ⟨hs, trivial⟩
  | some ms =>
    refine Always.call (exec_queryMeta hmeta) hs ?_ ⟨hs, trivial⟩ ⟨hs, trivial⟩
    cases ms with
    | nil => exact ⟨hs, trivial⟩
    | cons m ms =>
      have hwritten := hK m ms hmeta
      exact Always.call (exec_updateMeta hmeta (f m)) hs ⟨hwritten, trivial⟩ ⟨hs, trivial⟩
        ⟨hwritten, trivial⟩

theorem always_rewriteMeta_histories (s : Docs Msg) :
    Always db (fun s' => s'.histories = s.histories) (fun _ _ => True)
      (rewriteMetaLocked f) s :=
  always_rewriteMeta_keeps rfl (fun _ _ _ => rfl)

/-- With a history document an Ok means that the turn is stored. -/
theorem always_appendTurn_saved (hhist : s.histories = some (d :: hs)) (name : String)
    (messages : List Msg) (seen : Option DateTime) (now : DateTime) :
    Always db (fun _ => True) (fun s' r => r = .ok () → Saved messages s')
      (appendTurn name messages seen now) s := by
  have herror : ∀ s' e, Always db (fun _ => True) (fun s' r => r = .ok () → Saved messages s')
      (.done (.error e) : Op Msg (Except SessionError Unit)) s' :=
    fun s' e => ⟨trivial, nofun⟩
  apply Always.call (exec_queryHistory hhist) trivial
  · show Always _ _ _ (ite _ _ _) s
    split
    · exact herror _ _
    apply Always.call (exec_updateHistory hhist _) trivial
    · apply Always.map
      apply Always.mono (fun _ _ => trivial) _ _ _ (Always.withInv _ _
        (always_rewriteMeta_histories _))
      rintro s' r ⟨hsame, -⟩ -
      exact ⟨d.history.turns, Docs.turns_of_cons hsame⟩
    · exact herror _ _
    · exact herror _ _
  · exact herror _ _
  · exact herror _ _

/-- Without documents in it the history collection gives nothing to write to, and
the call goes on to the meta document. -/
theorem run_appendTurn_empty
    (hhist : s.histories = some []) (hmeta : s.metas = some ms) (name : String)
    (messages : List Msg) (seen : Option DateTime) (now : DateTime) :
    (run db (fun _ => .answered) (appendTurn name messages seen now) s).2 = .ok () ∧
      (run db (fun _ => .answered) (appendTurn name messages seen now) s).1.turns = none := by
  obtain ⟨metas, histories, summaries, config⟩ := s
  obtain rfl : histories = some [] := hhist
  obtain rfl : metas = some ms := hmeta
  cases ms with
  | nil => exact ⟨rfl, rfl⟩
  | cons m ms => exact ⟨rfl, rfl⟩

/-- **An Ok of `append_turn` means that the turn is stored**, whatever fails, in exactly
the states in which the history collection is not without documents (or the meta
collection is missing too). -/
theorem appendTurn_saves_iff (name : String) (messages : List Msg) (seen : Option DateTime)
    (now : DateTime) (s : Docs Msg) :
    (∀ reply, (run db reply (appendTurn name messages seen now) s).2 = .ok () →
      Saved messages (run db reply (appendTurn name messages seen now) s).1) ↔
      (s.histories = some [] → s.metas = none) := by
  constructor
  · intro h hhist
    cases hmeta : s.metas with
    | none => rfl
    | some ms =>
      obtain ⟨hok, hnone⟩ := run_appendTurn_empty hhist hmeta name messages seen now
      obtain ⟨earlier, hsome⟩ := h _ hok
      rw [hnone] at hsome
      cases hsome
  · intro hcond reply
    refine Always.run reply (appendTurn name messages seen now) s
      (?_ : Always db (fun _ => True) (fun s' r => r = Except.ok () → Saved messages s') _ s)
    cases hhist : s.histories with
    | none =>
      exact Always.refused (exec_queryHistory_none hhist) trivial
        ⟨trivial, nofun⟩
    | some hs =>
      cases hs with
      | cons d hs => exact always_appendTurn_saved hhist name messages seen now
      | nil =>
        have herror : Always db (fun _ => True)
            (fun s' r => r = .ok () → Saved messages s')
            (.done (.error (.io .db)) : Op Msg (Except SessionError Unit)) s :=
          ⟨trivial, nofun⟩
        apply Always.call (exec_queryHistory hhist) trivial _ herror herror
        exact Always.refused (exec_queryMeta_none (hcond hhist)) trivial herror

/-- `create` fails at its last write; the turn that follows is answered Ok and is
nowhere. -/
theorem append_ok_unsaved :
    let created := (run db (fun c => match c with
      | DbCall.writeHistory _ => .failed
      | _ => .answered) (create "s" "m1" demoTime : Op String _) {}).1
    let appended := run db (fun _ => .answered) (appendTurn "s" ["hello"] none demoTime) created
    created.metas.isSome ∧ created.histories = some [] ∧
      appended.2.isOk = true ∧ appended.1.turns = none := by
  decide +kernel

end EmbraOS.Ports.Sessions
