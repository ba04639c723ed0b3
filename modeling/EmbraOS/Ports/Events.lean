import EmbraOS.Ports.Reminders
import EmbraOS.Ports.Sessions
import EmbraOS.Verified.Machine

/-!
# What happened since a session's last turn

Port of `cutoff` and `gather` of `embra-brain/src/sessions/events.rs`, with the steps of a
turn that use them: the turn notes its start, reads what came after the session's
watermark, and when it is saved the watermark moves to the start.  Reminders fire and cron
runs are recorded all along.

`events_shown_once` says under which conditions the blocks of the saved turns hold every
event once.  They do not when more than fifty events of a kind wait, when one is recorded
between the start of a turn and its read, or when one is recorded later than it is stamped
and a turn has read in between.
-/

namespace EmbraOS.Ports.Events

open Verified
open Verified.Serde
open Verified.SortedWindow
open Verified.Timestamps
open Ports.Reminders (markFired)
open Ports.Sessions (SessionMeta applyTurn)

/-! ## Documents -/

/-- The calendar library, as far as it reads texts. -/
structure Calendar where
  parse : String → Option DateTime
  parse_toRfc3339 : ∀ t : DateTime, t.FourDigit → parse t.toRfc3339 = some t

def textField (doc : Json) (field : String) : Option String := (doc.get? field).bind Json.asStr?

def strField (doc : Json) (field : String) : String := (textField doc field).getD ""

def timeField (cal : Calendar) (doc : Json) (field : String) : Option DateTime :=
  (textField doc field).bind cal.parse

def itemPreviewMax : Nat := 160

def preview (text : String) : String :=
  let text := Text.trim text
  if text.utf8ByteSize > itemPreviewMax then Text.truncateStr text itemPreviewMax ++ "…" else text

def cronResultMax : Nat := 4096

structure CronRun where
  id : String
  jobId : String
  command : String
  startedAt : DateTime
  elapsedMs : Nat
  isError : Bool
  result : String

/-- A run as it is recorded; the database adds the id. -/
def cronRunDoc (run : CronRun) : Json :=
  let kept := Text.truncateStr run.result cronResultMax
  .obj [("_id", .str run.id), ("job_id", .str run.jobId), ("command", .str run.command),
    ("started_at", .str run.startedAt.toRfc3339), ("elapsed_ms", .num (.posInt run.elapsedMs)),
    ("is_error", .bool run.isError), ("result", .str kept),
    ("truncated", .bool (kept.utf8ByteSize < run.result.utf8ByteSize))]

/-! ## What a turn reads -/

def eventsWindow : Nat := 50

def cutoff (session : SessionMeta) : DateTime := session.eventsSeenAt.getD session.lastActive

/-- The answer to `reminders_since_body` and `cron_runs_since_body`: newest first, then by
id, and no more than the window. -/
def querySince (field : String) (docs : List Json) (since : String) : List Json :=
  window (fun doc => OrderDual.toDual (toLex (strField doc field, strField doc "_id")))
    eventsWindow (docs.filter fun doc => (textField doc field).any (since < ·))

/-- The time and the entry of a document, when it is stamped after `since`. -/
def entryOf? {ε : Type} (cal : Calendar) (field : String) (entry : Json → DateTime → ε)
    (since : DateTime) (doc : Json) : Option (DateTime × ε) :=
  (timeField cal doc field).bind fun time =>
    if since.Before time then some (time, entry doc time) else none

/-- The documents stamped after `since`, each as its entry, newest first. -/
def newest {ε : Type} (cal : Calendar) (field : String) (entry : Json → DateTime → ε)
    (docs : List Json) (since : DateTime) : List ε :=
  let found := docs.filterMap (entryOf? cal field entry since)
  (found.insertionSort fun a b => b.1.NotAfter a.1).map Prod.snd

def reminderEntry (doc : Json) (time : DateTime) : String × DateTime :=
  (preview (strField doc "message"), time)

def runEntry (doc : Json) (time : DateTime) : String × DateTime × Bool × String :=
  (strField doc "command", time, ((doc.get? "is_error").bind Json.asBool?).getD false,
    preview (strField doc "result"))

def remindersFired (cal : Calendar) (docs : List Json) (since : DateTime) :
    List (String × DateTime) :=
  newest cal "fired_at" reminderEntry docs since

def runsSince (cal : Calendar) (docs : List Json) (since : DateTime) :
    List (String × DateTime × Bool × String) :=
  newest cal "started_at" runEntry docs since

structure EventsDigest where
  reminders : List (String × DateTime)
  cronRuns : List (String × DateTime × Bool × String)

/-! ## The machine -/

/-- An event: its document, and the time the document is stamped with. -/
structure Event (field : String) where
  doc : Json
  time : DateTime
  stamped : textField doc field = some time.toRfc3339

def Event.ofReminder (doc : Json) (now : DateTime) : Event "fired_at" where
  doc := markFired doc now.toRfc3339
  time := now
  stamped := by
    rw [textField, markFired, Json.get?_merge doc (by simp)]
    rfl

def Event.ofRun (run : CronRun) : Event "started_at" where
  doc := cronRunDoc run
  time := run.startedAt
  stamped := rfl

/-- A collection of events, and all that were ever recorded in it. -/
structure Lane (field : String) where
  stored : List (Event field)
  recorded : List (Event field)

def Lane.record {field : String} (lane : Lane field) (e : Event field) : Lane field :=
  ⟨lane.stored ++ [e], lane.recorded ++ [e]⟩

/-- Documents disappear, by their retention or by hand. -/
def Lane.expire {field : String} (lane : Lane field) (keep : Json → Bool) : Lane field :=
  { lane with stored := lane.stored.filter fun e => keep e.doc }

def Lane.docs {field : String} (lane : Lane field) : List Json := lane.stored.map Event.doc

/-- Where the turn of the session stands. -/
inductive Phase where
  | idle
  | begun (started : DateTime)
  | halfway (started since : DateTime) (reminders : List (String × DateTime))
  | gathered (started : DateTime) (digest : EventsDigest)

structure State where
  reminders : Lane "fired_at"
  cronRuns : Lane "started_at"
  session : SessionMeta
  phase : Phase
  /-- What the saved turns carried. -/
  saved : List EventsDigest

inductive Step where
  | fire (doc : Json) (now : DateTime)
  | run (run : CronRun)
  | expireReminders (keep : Json → Bool)
  | expireRuns (keep : Json → Bool)
  | begin (now : DateTime)
  | readReminders
  | readRuns
  | save (now : DateTime) (count : Option Nat)
  /-- The turn ends without being saved. -/
  | abandon

def start (session : SessionMeta) (reminders : List (Event "fired_at"))
    (cronRuns : List (Event "started_at")) : State :=
  { reminders := ⟨reminders, reminders⟩, cronRuns := ⟨cronRuns, cronRuns⟩, session := session,
    phase := .idle, saved := [] }

def step (cal : Calendar) (s : State) : Step → Option State
  | .fire doc now => some { s with reminders := s.reminders.record (.ofReminder doc now) }
  | .run run => some { s with cronRuns := s.cronRuns.record (.ofRun run) }
  | .expireReminders keep => some { s with reminders := s.reminders.expire keep }
  | .expireRuns keep => some { s with cronRuns := s.cronRuns.expire keep }
  | .begin now =>
    match s.phase with
    | .idle => some { s with phase := .begun now }
    | _ => none
  -- the first half of `gather`, with the watermark read in front of it
  | .readReminders =>
    match s.phase with
    | .begun started =>
      let since := cutoff s.session
      let docs := querySince "fired_at" s.reminders.docs since.toRfc3339
      some { s with phase := .halfway started since (remindersFired cal docs since) }
    | _ => none
  | .readRuns =>
    match s.phase with
    | .halfway started since reminders =>
      let docs := querySince "started_at" s.cronRuns.docs since.toRfc3339
      some { s with phase := .gathered started ⟨reminders, runsSince cal docs since⟩ }
    | _ => none
  | .save now count =>
    match s.phase with
    | .gathered started digest =>
      some
        { s with
          session := applyTurn now count (some started) s.session
          phase := .idle
          saved := s.saved ++ [digest] }
    | _ => none
  | .abandon => some { s with phase := .idle }

/-! ## The promise -/

/-- Stamped after the one time and not after the other. -/
def Within (first last : DateTime) {field : String} (e : Event field) : Bool :=
  decide (first.Before e.time) && decide (e.time.NotAfter last)

/-- The saved turns carry the events up to the watermark, each once; those after it are to
come. -/
structure ShownOnce (first : DateTime) (s : State) : Prop where
  reminders : (s.saved.flatMap EventsDigest.reminders).Perm
    ((s.reminders.recorded.filter (Within first (cutoff s.session))).map
      fun e => reminderEntry e.doc e.time)
  cronRuns : (s.saved.flatMap EventsDigest.cronRuns).Perm
    ((s.cronRuns.recorded.filter (Within first (cutoff s.session))).map
      fun e => runEntry e.doc e.time)

/-- How many events the next read of a lane has to take. -/
def Lane.waiting {field : String} (lane : Lane field) (since : DateTime) : Nat :=
  (lane.stored.filter fun e => since.Before e.time).length

/-- The start of the turn at hand, and the reminders it has read. -/
def Phase.reminders? : Phase → Option (DateTime × Option (List (String × DateTime)))
  | .idle => none
  | .begun started => some (started, none)
  | .halfway started _ reminders => some (started, some reminders)
  | .gathered started digest => some (started, some digest.reminders)

/-- The start of the turn at hand, and the runs it has read. -/
def Phase.runs? : Phase → Option (DateTime × Option (List (String × DateTime × Bool × String)))
  | .idle => none
  | .begun started => some (started, none)
  | .halfway started _ _ => some (started, none)
  | .gathered started digest => some (started, some digest.cronRuns)

/-- An event comes in time: stamped after the watermark, and not after the start of a turn
that has yet to read, but after the start of one that has read. -/
def InTime {ε : Type} (watermark : DateTime) (turn : Option (DateTime × Option ε))
    (time : DateTime) : Prop :=
  time.FourDigit ∧ watermark.Before time ∧
    ∀ started found, turn = some (started, found) →
      if found.isSome then started.Before time else time.NotAfter started

/-- The conditions on the steps: events come in time, none disappears before it is shown,
no more wait than a read takes, and a turn starts after what has been recorded. -/
def Timely (s : State) : Step → Prop
  | .fire _ now => InTime (cutoff s.session) s.phase.reminders? now
  | .run run => InTime (cutoff s.session) s.phase.runs? run.startedAt
  | .expireReminders keep =>
    ∀ e ∈ s.reminders.stored, (cutoff s.session).Before e.time → keep e.doc = true
  | .expireRuns keep =>
    ∀ e ∈ s.cronRuns.stored, (cutoff s.session).Before e.time → keep e.doc = true
  | .begin now => now.FourDigit ∧ (cutoff s.session).NotAfter now ∧
      (∀ e ∈ s.reminders.recorded, e.time.NotAfter now) ∧
      ∀ e ∈ s.cronRuns.recorded, e.time.NotAfter now
  | .readReminders => s.reminders.waiting (cutoff s.session) ≤ eventsWindow
  | .readRuns => s.cronRuns.waiting (cutoff s.session) ≤ eventsWindow
  | .save _ _ => True
  | .abandon => True

/-! ## One read -/

section Lane

variable {field : String} {ε : Type} {entry : Json → DateTime → ε}

theorem Event.timeField_eq (cal : Calendar) (e : Event field) (h : e.time.FourDigit) :
    timeField cal e.doc field = some e.time := by
  rw [timeField, e.stamped, Option.bind_some, cal.parse_toRfc3339 e.time h]

/-- The texts are compared as the times are. -/
theorem filter_docs {since : DateTime} (hsince : since.FourDigit) {events : List (Event field)}
    (hyear : ∀ e ∈ events, e.time.FourDigit) :
    (events.map Event.doc).filter (fun doc => (textField doc field).any (since.toRfc3339 < ·)) =
      (events.filter fun e => since.Before e.time).map Event.doc := by
  rw [List.filter_map]
  congr 1
  apply List.filter_congr
  intro e he
  rw [Function.comp_apply, e.stamped, Option.any_some]
  exact decide_eq_decide.2 (DateTime.toRfc3339_lt_iff hsince (hyear e he))

variable (entry) in
/-- A read that the window is wide enough for takes every event after the time, once. -/
theorem newest_querySince (cal : Calendar) {since : DateTime} (hsince : since.FourDigit)
    {events : List (Event field)} (hyear : ∀ e ∈ events, e.time.FourDigit)
    (hfew : (events.filter fun e => since.Before e.time).length ≤ eventsWindow) :
    (newest cal field entry
        (querySince field (events.map Event.doc) since.toRfc3339) since).Perm
      ((events.filter fun e => since.Before e.time).map fun e => entry e.doc e.time) := by
  have hquery : (querySince field (events.map Event.doc) since.toRfc3339).Perm
      ((events.filter fun e => since.Before e.time).map Event.doc) := by
    rw [querySince, filter_docs hsince hyear]
    exact window_perm (by rwa [List.length_map])
  have hfound : ((events.filter fun e => since.Before e.time).map Event.doc).filterMap
      (entryOf? cal field entry since) =
      (events.filter fun e => since.Before e.time).map fun e => (e.time, entry e.doc e.time) := by
    rw [List.filterMap_map, ← List.filterMap_eq_map]
    apply List.filterMap_congr
    intro e he
    obtain ⟨hmem, hafter⟩ := List.mem_filter.1 he
    rw [Function.comp_apply, entryOf?, e.timeField_eq cal (hyear e hmem), Option.bind_some,
      if_pos (of_decide_eq_true hafter)]
    rfl
  have hentries := hquery.filterMap (entryOf? cal field entry since)
  rw [hfound] at hentries
  have hsorted := List.perm_insertionSort (fun a b : DateTime × ε => b.1.NotAfter a.1)
    ((querySince field (events.map Event.doc) since.toRfc3339).filterMap
      (entryOf? cal field entry since))
  have hmapped := (hsorted.trans hentries).map Prod.snd
  rw [List.map_map] at hmapped
  exact hmapped

/-! ## What a lane keeps -/

/-- What holds of a lane between the steps: nothing after the watermark has disappeared,
the saved turns carried what is before it, and the turn at hand has read what lies between
the watermark and its start. -/
structure Lane.Kept (entry : Json → DateTime → ε) (first watermark : DateTime) (shown : List ε)
    (turn : Option (DateTime × Option (List ε))) (lane : Lane field) : Prop where
  year : ∀ e ∈ lane.stored, e.time.FourDigit
  ahead : (lane.stored.filter fun e => watermark.Before e.time).Perm
    (lane.recorded.filter fun e => watermark.Before e.time)
  shown : shown.Perm ((lane.recorded.filter (Within first watermark)).map fun e =>
    entry e.doc e.time)
  unread : ∀ started, turn = some (started, none) → ∀ e ∈ lane.recorded, e.time.NotAfter started
  read : ∀ started found, turn = some (started, some found) →
    found.Perm ((lane.recorded.filter (Within watermark started)).map fun e => entry e.doc e.time)

variable {first watermark : DateTime} {shown : List ε} {lane : Lane field}
  {turn : Option (DateTime × Option (List ε))}

section

variable (h : lane.Kept entry first watermark shown turn)
include h

theorem Lane.Kept.record {e : Event field} (htime : InTime watermark turn e.time) :
    (lane.record e).Kept entry first watermark shown turn := by
  obtain ⟨hyear, hafter, hturn⟩ := htime
  refine ⟨?_, ?_, ?_, ?_, ?_⟩
  · intro e' he'
    rcases List.mem_append.1 he' with hold | hnew
    · exact h.year e' hold
    · rw [List.mem_singleton.1 hnew]
      exact hyear
  · rw [Lane.record, List.filter_append, List.filter_append]
    exact h.ahead.append_right _
  · -- the event is after the watermark
    have hnot : Within first watermark e = false := by
      simp [Within, DateTime.NotAfter, hafter]
    rw [Lane.record, List.filter_append, List.filter_singleton, hnot, cond_false, List.append_nil]
    exact h.shown
  · intro started hunread e' he'
    rcases List.mem_append.1 he' with hold | hnew
    · exact h.unread started hunread e' hold
    · rw [List.mem_singleton.1 hnew]
      exact hturn started none hunread
  · intro started found hread
    have hlate : started.Before e.time := hturn started (some found) hread
    have hnot : Within watermark started e = false := by
      simp [Within, DateTime.NotAfter, hlate]
    rw [Lane.record, List.filter_append, List.filter_singleton, hnot, cond_false, List.append_nil]
    exact h.read started found hread

theorem Lane.Kept.expire {keep : Json → Bool}
    (hkeep : ∀ e ∈ lane.stored, watermark.Before e.time → keep e.doc = true) :
    (lane.expire keep).Kept entry first watermark shown turn := by
  refine ⟨fun e he => h.year e (List.mem_of_mem_filter he), ?_, h.shown, h.unread, h.read⟩
  have hsame : (lane.expire keep).stored.filter (fun e => watermark.Before e.time) =
      lane.stored.filter fun e => watermark.Before e.time := by
    rw [Lane.expire, List.filter_filter]
    apply List.filter_congr
    intro e he
    by_cases hafter : watermark.Before e.time
    · simp [hafter, hkeep e he hafter]
    · simp [hafter]
  rw [hsame]
  exact h.ahead

theorem Lane.Kept.begin {now : DateTime} (hnow : ∀ e ∈ lane.recorded, e.time.NotAfter now) :
    lane.Kept entry first watermark shown (some (now, none)) := by
  refine ⟨h.year, h.ahead, h.shown, ?_, nofun⟩
  rintro started ⟨⟩
  exact hnow

theorem Lane.Kept.readAll (cal : Calendar)
    (hfour : watermark.FourDigit) {started : DateTime} (hturn : turn = some (started, none))
    (hfew : lane.waiting watermark ≤ eventsWindow) :
    lane.Kept entry first watermark shown (some (started, some
      (newest cal field entry (querySince field lane.docs watermark.toRfc3339) watermark))) := by
  refine ⟨h.year, h.ahead, h.shown, nofun, ?_⟩
  rintro _ _ ⟨⟩
  have hread := newest_querySince entry cal hfour h.year hfew
  refine hread.trans ((h.ahead.map _).trans (List.Perm.of_eq ?_))
  congr 1
  apply List.filter_congr
  intro e he
  simp [Within, h.unread started hturn e he]

end

/-- The events up to the start are those up to the watermark and those from it on. -/
theorem within_split {started : DateTime} (hfirst : first.NotAfter watermark)
    (hstarted : watermark.NotAfter started) (events : List (Event field)) :
    (events.filter (Within first watermark) ++ events.filter (Within watermark started)).Perm
      (events.filter (Within first started)) := by
  have hbefore : events.filter (Within first watermark) =
      (events.filter (Within first started)).filter fun e => e.time.NotAfter watermark := by
    rw [List.filter_filter]
    apply List.filter_congr
    intro e _
    rw [Bool.eq_iff_iff]
    simp only [Within, Bool.and_eq_true, decide_eq_true_eq]
    constructor
    · exact fun h => ⟨h.2, h.1, h.2.trans hstarted⟩
    · exact fun h => ⟨h.2.1, h.1⟩
  have hafter : events.filter (Within watermark started) =
      (events.filter (Within first started)).filter
        fun e => !decide (e.time.NotAfter watermark) := by
    rw [List.filter_filter]
    apply List.filter_congr
    intro e _
    rw [Bool.eq_iff_iff]
    simp only [Within, Bool.and_eq_true, Bool.not_eq_true', decide_eq_true_eq,
      decide_eq_false_iff_not]
    constructor
    · exact fun h => ⟨fun hnot => hnot h.1, hfirst.trans_before h.1, h.2⟩
    · exact fun h => ⟨not_not.1 h.1, h.2.2⟩
  rw [hbefore, hafter]
  exact List.filter_append_perm _ _

theorem Lane.Kept.save (h : lane.Kept entry first watermark shown turn)
    {started : DateTime} {found : List ε} (hturn : turn = some (started, some found))
    (hfirst : first.NotAfter watermark) (hstarted : watermark.NotAfter started) :
    lane.Kept entry first started (shown ++ found) none := by
  refine ⟨h.year, ?_, ?_, nofun, nofun⟩
  · have hlater : ∀ events : List (Event field),
        events.filter (fun e => started.Before e.time) =
          (events.filter fun e => watermark.Before e.time).filter
            fun e => started.Before e.time := by
      intro events
      rw [List.filter_filter]
      apply List.filter_congr
      intro e _
      by_cases hafter : started.Before e.time
      · simp [hafter, hstarted.trans_before hafter]
      · simp [hafter]
    rw [hlater, hlater lane.recorded]
    exact h.ahead.filter _
  · refine (h.shown.append (h.read started found hturn)).trans ?_
    rw [← List.map_append]
    exact (within_split hfirst hstarted _).map _

theorem Lane.Kept.abandon (h : lane.Kept entry first watermark shown turn) :
    lane.Kept entry first watermark shown none :=
  ⟨h.year, h.ahead, h.shown, nofun, nofun⟩

end Lane

/-! ## What the runs keep -/

/-- The turn at hand started at a time the texts can tell, after the watermark it reads. -/
def Phase.Sound (watermark : DateTime) : Phase → Prop
  | .idle => True
  | .begun started => started.FourDigit ∧ watermark.NotAfter started
  | .halfway started since _ =>
    started.FourDigit ∧ watermark.NotAfter started ∧ since = watermark
  | .gathered started _ => started.FourDigit ∧ watermark.NotAfter started

structure Kept (first : DateTime) (s : State) : Prop where
  year : (cutoff s.session).FourDigit
  first_le : first.NotAfter (cutoff s.session)
  phase : s.phase.Sound (cutoff s.session)
  reminders : s.reminders.Kept reminderEntry first (cutoff s.session)
    (s.saved.flatMap EventsDigest.reminders) s.phase.reminders?
  cronRuns : s.cronRuns.Kept runEntry first (cutoff s.session)
    (s.saved.flatMap EventsDigest.cronRuns) s.phase.runs?

theorem Lane.kept_start {field : String} {ε : Type} (entry : Json → DateTime → ε)
    (first : DateTime) {events : List (Event field)} (h : ∀ e ∈ events, e.time.FourDigit) :
    Lane.Kept entry first first [] none ⟨events, events⟩ := by
  refine ⟨h, List.Perm.refl _, ?_, nofun, nofun⟩
  have hnone : events.filter (Within first first) = [] := by
    rw [List.filter_eq_nil_iff]
    intro e _
    simp only [Within, Bool.and_eq_true, decide_eq_true_eq]
    exact fun hwithin => hwithin.2 hwithin.1
  rw [hnone]
  exact List.Perm.refl _

theorem cutoff_applyTurn (now started : DateTime) (count : Option Nat) (session : SessionMeta) :
    cutoff (applyTurn now count (some started) session) = started := rfl

theorem Kept.step {cal : Calendar} {first : DateTime} {s s' : State} {e : Step}
    (h : Kept first s) (hok : Timely s e) (hstep : step cal s e = some s') : Kept first s' := by
  have hsound := h.phase
  have hreminders := h.reminders
  have hruns := h.cronRuns
  cases e with
  | fire doc now =>
    cases hstep
    exact { h with reminders := h.reminders.record hok }
  | run run =>
    cases hstep
    exact { h with cronRuns := h.cronRuns.record hok }
  | expireReminders keep =>
    cases hstep
    exact { h with reminders := h.reminders.expire hok }
  | expireRuns keep =>
    cases hstep
    exact { h with cronRuns := h.cronRuns.expire hok }
  | begin now =>
    obtain ⟨hfour, hafter, hreminders, hruns⟩ := hok
    dsimp only [Events.step] at hstep
    split at hstep
    · cases hstep
      exact { h with phase := ⟨hfour, hafter⟩, reminders := h.reminders.begin hreminders
                     cronRuns := h.cronRuns.begin hruns }
    · cases hstep
  | readReminders =>
    dsimp only [Events.step] at hstep
    split at hstep
    · rename_i started hphase
      cases hstep
      rw [hphase] at hsound hreminders hruns
      exact { h with phase := ⟨hsound.1, hsound.2, rfl⟩, cronRuns := hruns
                     reminders := hreminders.readAll cal h.year rfl hok }
    · cases hstep
  | readRuns =>
    dsimp only [Events.step] at hstep
    split at hstep
    · rename_i started since reminders hphase
      cases hstep
      rw [hphase] at hsound hreminders hruns
      obtain ⟨hfour, hafter, rfl⟩ := hsound
      exact { h with phase := ⟨hfour, hafter⟩, reminders := hreminders
                     cronRuns := hruns.readAll cal h.year rfl hok }
    · cases hstep
  | save now count =>
    dsimp only [Events.step] at hstep
    split at hstep
    · rename_i started digest hphase
      cases hstep
      rw [hphase] at hsound hreminders hruns
      obtain ⟨hfour, hafter⟩ := hsound
      refine ⟨hfour, h.first_le.trans hafter, trivial, ?_, ?_⟩
      · simpa [cutoff_applyTurn, Phase.reminders?] using hreminders.save rfl h.first_le hafter
      · simpa [cutoff_applyTurn, Phase.runs?] using hruns.save rfl h.first_le hafter
    · cases hstep
  | abandon =>
    cases hstep
    exact { h with phase := trivial, reminders := h.reminders.abandon
                   cronRuns := h.cronRuns.abandon }

/-- **Every event in one block**: in every run whose steps are all timely, from any session
and any events, the blocks of the saved turns hold the events up to the watermark, each
once, and none of those after it. -/
theorem events_shown_once (cal : Calendar) (session : SessionMeta)
    (reminders : List (Event "fired_at")) (cronRuns : List (Event "started_at"))
    (hsession : (cutoff session).FourDigit) (hreminders : ∀ e ∈ reminders, e.time.FourDigit)
    (hruns : ∀ e ∈ cronRuns, e.time.FourDigit) {s : State}
    (h : Machine.Reaches (step cal) Timely (start session reminders cronRuns) s) :
    ShownOnce (cutoff session) s := by
  have hstart : Kept (cutoff session) (start session reminders cronRuns) :=
    { year := hsession
      first_le := DateTime.notAfter_self _
      phase := trivial
      reminders := Lane.kept_start reminderEntry _ hreminders
      cronRuns := Lane.kept_start runEntry _ hruns }
  have hkept : Kept (cutoff session) s :=
    h.invariant hstart fun _ _ _ hs hok hstep => hs.step hok hstep
  exact ⟨hkept.reminders.shown, hkept.cronRuns.shown⟩

/-! ## One day -/

/-- A calendar reads at least the texts it writes. -/
noncomputable def calendar : Calendar where
  parse text := by
    classical
    exact if h : ∃ t : DateTime, t.FourDigit ∧ t.toRfc3339 = text then some h.choose else none
  parse_toRfc3339 := by
    intro t ht
    have hex : ∃ t' : DateTime, t'.FourDigit ∧ t'.toRfc3339 = t.toRfc3339 := ⟨t, ht, rfl⟩
    rw [dif_pos hex]
    exact congrArg some (DateTime.toRfc3339_inj hex.choose_spec.1 ht hex.choose_spec.2)

theorem october_le : 10 ≤ 12 := by decide

theorem eighth_le : 8 ≤ 31 := by decide

theorem zero_lt_sixty : 0 < 60 := by decide

theorem zero_lt_nanos : 0 < 1000000000 := by decide

/-- The hours of one day. -/
def hourOf (h : Fin 24) : DateTime :=
  { year := 2026, month := 10, day := 8, hour := h, minute := 0, second := 0, nanos := 0,
    month_le := october_le, day_le := eighth_le, hour_lt := h.isLt, minute_lt := zero_lt_sixty,
    second_lt := zero_lt_sixty, nanos_lt := zero_lt_nanos }

theorem fourDigit_hourOf (h : Fin 24) : (hourOf h).FourDigit := by
  show (0 : Int) ≤ 2026 ∧ (2026 : Int) ≤ 9999
  decide

/-- A session that has been active at midnight. -/
def midnight : SessionMeta :=
  { id := "s", name := "s", state := .active, createdAt := hourOf 0, lastActive := hourOf 0,
    provider := none, model := none, turnCount := none, deletedAt := none, deletedReason := none,
    eventsSeenAt := none }

/-- The steps of one turn that nothing comes between. -/
def wholeTurn (started ended : DateTime) : List Step :=
  [.begin started, .readReminders, .readRuns, .save ended none]

def stretch : Json :=
  .obj [("_id", .str "r1"), ("fired", .bool false), ("message", .str "stretch"),
    ("trigger_at", .str "2026-10-08T00:59:00+00:00")]

/-- A reminder that fires before a turn is in its block. -/
theorem events_shown_once_one :
    ∃ s, Machine.steps (step calendar) (start midnight [] [])
        (.fire stretch (hourOf 1) :: wholeTurn (hourOf 2) (hourOf 3)) = some s ∧
      s.saved.length = 1 ∧ s.reminders.recorded.length = 1 ∧ ShownOnce (hourOf 0) s := by
  refine ⟨_, rfl, rfl, rfl, ?_⟩
  refine events_shown_once calendar midnight [] [] (fourDigit_hourOf 0) nofun nofun ?_
  have hfire : Machine.Reaches (step calendar) Timely (start midnight [] []) _ :=
    .step (.fire stretch (hourOf 1)) .start ⟨fourDigit_hourOf 1, by decide, nofun⟩ rfl
  have hbegin := hfire.step (Step.begin (hourOf 2))
    ⟨fourDigit_hourOf 2, by decide, List.forall_mem_singleton.2 (by decide), nofun⟩ rfl
  have hreminders := hbegin.step Step.readReminders
    (show Lane.waiting _ _ ≤ eventsWindow by decide) rfl
  have hruns := hreminders.step Step.readRuns
    (show Lane.waiting _ _ ≤ eventsWindow by decide) rfl
  exact hruns.step (Step.save (hourOf 3) none) trivial rfl

theorem length_newest_le {ε : Type} (cal : Calendar) (field : String)
    (entry : Json → DateTime → ε) (docs : List Json) (text : String) (since : DateTime) :
    (newest cal field entry (querySince field docs text) since).length ≤ eventsWindow := by
  rw [newest, List.length_map, List.length_insertionSort]
  refine (List.length_filterMap_le _ _).trans ?_
  rw [querySince, window, List.length_take]
  exact Nat.min_le_left _ _

/-- A reminder that is the only one, and so read once by each read after a time before it. -/
theorem length_remindersFired_one (cal : Calendar) {since now : DateTime} (hsince : since.FourDigit)
    (hnow : now.FourDigit) (hafter : since.Before now) (doc : Json) :
    (remindersFired cal (querySince "fired_at" [(Event.ofReminder doc now).doc] since.toRfc3339)
      since).length = 1 := by
  have hfilter : [Event.ofReminder doc now].filter (fun e => since.Before e.time) =
      [Event.ofReminder doc now] := by
    rw [List.filter_singleton, show (Event.ofReminder doc now).time = now from rfl,
      decide_eq_true hafter, cond_true]
  have hperm := newest_querySince reminderEntry cal hsince
    (List.forall_mem_singleton.2 hnow : ∀ e ∈ [Event.ofReminder doc now], e.time.FourDigit)
    (by rw [hfilter, List.length_singleton]; decide)
  rw [hfilter] at hperm
  exact hperm.length_eq

theorem ShownOnce.length_reminders {first : DateTime} {s : State} (h : ShownOnce first s) :
    (s.saved.map fun digest => digest.reminders.length).sum =
      (s.reminders.recorded.filter (Within first (cutoff s.session))).length := by
  have hlength := h.reminders.length_eq
  rwa [List.length_flatMap, List.length_map] at hlength

/-- A reminder that fires between the start of a turn and its read is in the blocks of two
turns; a run that is recorded after a turn has read, but was started before the turn, is in
none; and of fifty-one reminders between two turns one is in none. -/
theorem events_shown_wrongly : (∃ s, Machine.steps (step calendar) (start midnight [] [])
        ([.begin (hourOf 1), .fire stretch (hourOf 2), .readReminders, .readRuns,
          .save (hourOf 3) none] ++ wholeTurn (hourOf 4) (hourOf 5)) = some s ∧
      s.reminders.recorded.length = 1 ∧
      (s.saved.map fun digest => digest.reminders.length) = [1, 1] ∧ ¬ ShownOnce (hourOf 0) s) ∧
    (∃ s, Machine.steps (step calendar) (start midnight [] [])
        [.begin (hourOf 2), .readReminders, .readRuns, .run ⟨"r", "j", "c", hourOf 1, 0, false, ""⟩,
          .save (hourOf 3) none] = some s ∧
      ¬ ShownOnce (hourOf 0) s) ∧
    ∃ s, Machine.steps (step calendar) (start midnight [] [])
        (List.replicate 51 (.fire stretch (hourOf 1)) ++ wholeTurn (hourOf 2) (hourOf 3)) = some s ∧
      ¬ ShownOnce (hourOf 0) s := by
  refine ⟨?_, ?_, ?_⟩
  · have hfirst := length_remindersFired_one calendar (fourDigit_hourOf 0) (fourDigit_hourOf 2)
      (by decide) stretch
    have hsecond := length_remindersFired_one calendar (fourDigit_hourOf 1) (fourDigit_hourOf 2)
      (by decide) stretch
    have htwice := congrArg₂ (fun m n => [m, n]) hfirst hsecond
    refine ⟨_, rfl, rfl, htwice, fun h => ?_⟩
    have hsum := h.length_reminders.symm.trans (congrArg List.sum htwice)
    exact absurd hsum (by decide)
  · refine ⟨_, rfl, fun h => ?_⟩
    -- the run is between the watermarks, and the one block has been read without it
    exact absurd h.cronRuns.length_eq (by decide)
  · refine ⟨_, rfl, fun h => ?_⟩
    have hle := length_newest_le calendar "fired_at" reminderEntry
      (List.replicate 51 (Event.ofReminder stretch (hourOf 1)).doc) (hourOf 0).toRfc3339 (hourOf 0)
    have hsum : (newest calendar "fired_at" reminderEntry (querySince "fired_at"
        (List.replicate 51 (Event.ofReminder stretch (hourOf 1)).doc) (hourOf 0).toRfc3339)
        (hourOf 0)).length + 0 = 51 := h.length_reminders
    rw [Nat.add_zero] at hsum
    rw [hsum] at hle
    exact absurd hle (by decide)

end EmbraOS.Ports.Events
