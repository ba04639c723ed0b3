import EmbraOS.Verified.Serde
import EmbraOS.Verified.SortedWindow
import EmbraOS.Verified.Timestamps

/-!
# Reminders

Port of `embra-brain/src/tools/reminders.rs`: the reminders of the store, the
query for those that are due, and `check_reminders`, which marks a reminder as
fired before it hands it over.

The collection is the list of its documents.  A tick comes with the answers of
the database: whether the query is answered, and for each document how its
update ends (`Reply`).
-/

namespace EmbraOS.Ports.Reminders

open Verified.Serde
open Verified.SortedWindow
open Verified.Timestamps

/-! ## Documents -/

def asBool? : Json → Option Bool
  | .bool b => some b
  | _ => none

/-- A reminder as `countdown` stores it; the database adds the id. -/
def reminderDoc (id message : String) (trigger now : DateTime) (act : Bool) : Json :=
  .obj [("_id", .str id), ("message", .str message), ("trigger_at", .str trigger.toRfc3339),
    ("created_at", .str now.toRfc3339), ("fired", .bool false), ("act", .bool act)]

/-- The id under which the database keeps a document. -/
def key (doc : Json) : Option String := (doc.get? "_id").bind Json.asStr?

def trigger (doc : Json) : Option String := (doc.get? "trigger_at").bind Json.asStr?

/-- `fired` is missing or not true. -/
def notFired (doc : Json) : Bool := !((doc.get? "fired").bind asBool?).getD false

def markFired (doc : Json) (now : String) : Json :=
  doc.merge (.obj [("fired", .bool true), ("fired_at", .str now)])

/-! ## The database -/

def reminderWindow : Nat := 500

/-- The filter of `due_reminders_query_body`. -/
def matchesDue (now : String) (doc : Json) : Bool :=
  (trigger doc).any (· ≤ now) &&
    ((doc.get? "fired").isNone || (doc.get? "fired").bind asBool? = some false)

/-- The order of the query: trigger, then id. -/
def sortKey (doc : Json) : String ×ₗ String :=
  toLex ((trigger doc).getD "", (key doc).getD "")

/-- The answer to `due_reminders_query_body`. -/
def queryDue (docs : List Json) (now : String) (limit : Nat) : List Json :=
  window sortKey limit (docs.filter (matchesDue now))

/-- Replace the document of that id. -/
def put (id : String) (doc : Json) (docs : List Json) : List Json :=
  docs.map (fun d => if key d = some id then doc else d)

/-- How an update ends: stored and answered, not stored, or stored while the
answer is lost, which the caller sees as an error. -/
inductive Reply where
  | stored
  | failed
  | unanswered
  deriving DecidableEq, Repr

/-! ## A tick -/

def dueReminders (docs : List Json) (now : String) (max : Nat) : List Json :=
  let due := (docs.filter notFired).filterMap (fun doc =>
    (trigger doc).bind (fun t => if t ≠ "" ∧ t ≤ now then some (t, doc) else none))
  ((due.insertionSort (fun a b => a.1 ≤ b.1)).take max).map Prod.snd

structure FiredReminder where
  text : String
  message : String
  act : Bool
  deriving DecidableEq, Repr

/-- A reminder handed over, with the id of its document. -/
structure Delivery where
  id : String
  reminder : FiredReminder
  deriving DecidableEq, Repr

def messageOf (doc : Json) : String :=
  ((doc.get? "message").bind Json.asStr?).getD "Reminder"

def firedReminder (doc : Json) : FiredReminder where
  text := "Reminder: " ++ messageOf doc
  message := messageOf doc
  act := ((doc.get? "act").bind asBool?).getD false

/-- `doc.get("_id").or(doc.get("id"))`. -/
def docId (doc : Json) : Option String :=
  ((doc.get? "_id").or (doc.get? "id")).bind Json.asStr?

structure Tick where
  now : DateTime
  max : Nat
  answered : Bool
  reply : String → Reply

/-- One turn of the loop. -/
def fire (now : String) (reply : String → Reply) (acc : List Json × List Delivery)
    (doc : Json) : List Json × List Delivery :=
  match docId doc with
  | none => acc
  | some id =>
    match reply id with
    | .failed => acc
    | .unanswered => (put id (markFired doc now) acc.1, acc.2)
    | .stored => (put id (markFired doc now) acc.1, acc.2 ++ [⟨id, firedReminder doc⟩])

/-- The documents that a tick goes through. -/
def selected (docs : List Json) (tick : Tick) : List Json :=
  if tick.max = 0 ∨ tick.answered = false then []
  else
    dueReminders (queryDue docs tick.now.toRfc3339 reminderWindow) tick.now.toRfc3339 tick.max

def checkReminders (docs : List Json) (tick : Tick) : List Json × List Delivery :=
  (selected docs tick).foldl (fire tick.now.toRfc3339 tick.reply) (docs, [])

/-! ## Runs -/

/-- The collection after some ticks, and what each of them handed over. -/
def run (docs : List Json) : List Tick → List Json × List (Tick × Delivery)
  | [] => (docs, [])
  | tick :: ticks =>
    let r := checkReminders docs tick
    let rest := run r.1 ticks
    (rest.1, r.2.map (fun d => (tick, d)) ++ rest.2)

end EmbraOS.Ports.Reminders
