import EmbraOS.Verified.Calls
import EmbraOS.Verified.Text
import EmbraOS.Verified.Timestamps

/-!
# The documents of a session

Port of `SessionStore` in `embra-brain/src/sessions/mod.rs` for one session: its
three collections in the database, and `create`, `append_turn`, `rewrite_meta`,
`soft_delete` and `restore` as programs of database calls.

A collection is the list of its documents, oldest first; a read takes the first,
which is the session's document, and an update or a patch goes to the id of the
document that was read.  The turns are messages of any type.
-/

namespace EmbraOS.Ports.Sessions

open Verified.Calls
open Verified.Text
open Verified.Timestamps

/-! ## Documents -/

def currentSessionFormat : Nat := 2

inductive SessionState where
  | active
  | detached
  | closed
  | deleted
  deriving DecidableEq, Repr

structure SessionMeta where
  id : String
  name : String
  state : SessionState
  createdAt : DateTime
  lastActive : DateTime
  provider : Option String
  model : Option String
  /-- A `u32`. -/
  turnCount : Option Nat
  deletedAt : Option String
  deletedReason : Option String
  eventsSeenAt : Option DateTime
  deriving DecidableEq, Repr

structure SessionHistory (Msg : Type) where
  sessionName : String
  formatVersion : Nat
  turns : List Msg
  deriving DecidableEq, Repr

/-- A history as it is stored.  A null stamp is as good as none. -/
structure HistoryDoc (Msg : Type) where
  history : SessionHistory Msg
  deletedAt : Option String
  deriving DecidableEq, Repr

structure SummaryDoc where
  text : String
  deletedAt : Option String
  deriving DecidableEq, Repr

/-- The collections of the session, `none` for one that does not exist, and the
provider and model that the configuration gives. -/
structure Docs (Msg : Type) where
  metas : Option (List SessionMeta) := none
  histories : Option (List (HistoryDoc Msg)) := none
  summaries : Option (List SummaryDoc) := none
  config : Option (String × String) := none
  deriving DecidableEq, Repr

/-! ## The database -/

inductive Coll where
  | metas
  | histories
  | summaries
  deriving DecidableEq, Repr

inductive DbCall (Msg : Type) where
  | collectionExists (coll : Coll)
  | createCollection (coll : Coll)
  | loadConfig
  | queryMeta
  | queryHistory
  | querySummary
  | writeMeta (doc : SessionMeta)
  | writeHistory (doc : SessionHistory Msg)
  | updateMeta (doc : SessionMeta)
  | updateHistory (doc : SessionHistory Msg)
  | patchHistory (stamp : Option String)
  | patchSummary (stamp : Option String)
  | setTtl (coll : Coll)
  deriving DecidableEq, Repr

@[reducible]
def api (Msg : Type) : Api where
  Call := DbCall Msg
  Ans
    | .collectionExists _ => Bool
    | .loadConfig => String × String
    | .queryMeta => Option SessionMeta
    | .queryHistory => Option (HistoryDoc Msg)
    | .querySummary => Option SummaryDoc
    | _ => Unit

variable {Msg : Type}

def Docs.has (s : Docs Msg) : Coll → Bool
  | .metas => s.metas.isSome
  | .histories => s.histories.isSome
  | .summaries => s.summaries.isSome

def Docs.create (s : Docs Msg) : Coll → Docs Msg
  | .metas => { s with metas := some [] }
  | .histories => { s with histories := some [] }
  | .summaries => { s with summaries := some [] }

/-- The first document of a collection is replaced; refused when there is none. -/
def replaceFirst {δ : Type} (f : δ → δ) : Option (List δ) → Option (List δ)
  | some (d :: ds) => some (f d :: ds)
  | _ => none

def db : Server (api Msg) (Docs Msg) where
  exec
    | .collectionExists coll, s => some (s, s.has coll)
    | .createCollection coll, s => if s.has coll then none else some (s.create coll, ())
    | .loadConfig, s => s.config.map (fun c => (s, c))
    | .queryMeta, s => s.metas.map (fun ds => (s, ds.head?))
    | .queryHistory, s => s.histories.map (fun ds => (s, ds.head?))
    | .querySummary, s => s.summaries.map (fun ds => (s, ds.head?))
    | .writeMeta doc, s => s.metas.map (fun ds => ({ s with metas := some (ds ++ [doc]) }, ()))
    | .writeHistory doc, s =>
      s.histories.map (fun ds => ({ s with histories := some (ds ++ [⟨doc, none⟩]) }, ()))
    | .updateMeta doc, s =>
      (replaceFirst (fun _ => doc) s.metas).map (fun ds => ({ s with metas := some ds }, ()))
    | .updateHistory doc, s =>
      (replaceFirst (fun _ => ⟨doc, none⟩) s.histories).map
        (fun ds => ({ s with histories := some ds }, ()))
    | .patchHistory stamp, s =>
      (replaceFirst (fun d => { d with deletedAt := stamp }) s.histories).map
        (fun ds => ({ s with histories := some ds }, ()))
    | .patchSummary stamp, s =>
      (replaceFirst (fun d => { d with deletedAt := stamp }) s.summaries).map
        (fun ds => ({ s with summaries := some ds }, ()))
    | .setTtl coll, s => if s.has coll then some (s, ()) else none

/-! ## Errors -/

inductive Failure where
  /-- A database call failed. -/
  | db
  | message (text : String)
  deriving DecidableEq, Repr

inductive SessionError where
  | legacyReadOnly (name : String)
  | io (cause : Failure)
  deriving DecidableEq, Repr

/-! ## Changes of the meta document -/

def applySoftDelete (reason stamp : String) (m : SessionMeta) : SessionMeta :=
  { m with state := .deleted, deletedAt := some stamp, deletedReason := some reason }

def applyRestore (m : SessionMeta) : SessionMeta :=
  { m with state := .detached, deletedAt := none, deletedReason := none }

def applyState (state : SessionState) (now : DateTime) (m : SessionMeta) : SessionMeta :=
  { m with state := state, lastActive := now }

/-- The change `append_turn` makes. -/
def applyTurn (now : DateTime) (count : Option Nat) (seen : Option DateTime)
    (m : SessionMeta) : SessionMeta :=
  { m with
    lastActive := now
    turnCount := count.or m.turnCount
    eventsSeenAt := seen.or m.eventsSeenAt }

/-! ## Operations -/

abbrev Op (Msg α : Type) := Prog (api Msg) α

/-- Whether a document was found and rewritten. -/
def rewriteMetaLocked (f : SessionMeta → SessionMeta) : Op Msg (Except Failure Bool) :=
  .call DbCall.queryMeta fun
    | none => .done (.error .db)
    | some none => .done (.ok false)
    | some (some m) => .call (DbCall.updateMeta (f m)) fun
        | none => .done (.error .db)
        | some _ => .done (.ok true)

/-- `as u32`. -/
def asU32 (n : Nat) : Nat := n % 2 ^ 32

/-- The second half of `append_turn`. -/
def stampTurn (now : DateTime) (count : Option Nat) (seen : Option DateTime) :
    Op Msg (Except SessionError Unit) :=
  (rewriteMetaLocked (applyTurn now count seen)).map fun
    | .error e => .error (.io e)
    | .ok _ => .ok ()

/-- What runs under the session's lock. -/
def appendTurn (name : String) (messages : List Msg) (seen : Option DateTime)
    (now : DateTime) : Op Msg (Except SessionError Unit) :=
  .call DbCall.queryHistory fun
    | none => .done (.error (.io .db))
    | some none => stampTurn now none seen
    | some (some doc) =>
      if doc.history.formatVersion < currentSessionFormat then
        .done (.error (.legacyReadOnly name))
      else
        let history := { doc.history with turns := doc.history.turns ++ messages }
        .call (DbCall.updateHistory history) fun
          | none => .done (.error (.io .db))
          | some _ => stampTurn now (some (asU32 history.turns.length)) seen

def validSessionName (name : String) : Bool :=
  name.toList ≠ [] && name.utf8ByteSize ≤ 64 && name.toList.head?.any isAsciiAlphanumeric &&
    name.toList.all (fun c => isAsciiAlphanumeric c || c = '_' || c = '-')

/-- `?` after a call. -/
def orFail {α : Type} (c : DbCall Msg) (k : (api Msg).Ans c → Op Msg (Except Failure α)) :
    Op Msg (Except Failure α) :=
  .call c fun
    | none => .done (.error .db)
    | some a => k a

/-- The duplicate guard: a read that fails does not block. -/
def alreadyExists (metaExists : Bool) : Op Msg Bool :=
  if metaExists then .call DbCall.queryMeta fun r => .done (Option.join r).isSome
  else .done false

def ensureCollection {α : Type} (coll : Coll) (present : Bool)
    (k : Op Msg (Except Failure α)) : Op Msg (Except Failure α) :=
  if present then k else orFail (.createCollection coll) fun _ => k

def newMeta (name id : String) (now : DateTime) (config : Option (String × String)) :
    SessionMeta :=
  ⟨id, name, .active, now, now, config.map Prod.fst, config.map Prod.snd, some 0, none, none,
    none⟩

def writeDocs (name id : String) (now : DateTime) : Op Msg (Except Failure SessionMeta) :=
  .call DbCall.loadConfig fun config =>
    let doc := newMeta name id now config
    orFail (.writeMeta doc) fun _ =>
      orFail (.writeHistory ⟨name, currentSessionFormat, []⟩) fun _ => .done (.ok doc)

def create (name id : String) (now : DateTime) : Op Msg (Except Failure SessionMeta) :=
  if !validSessionName name then
    .done (.error (.message ("'" ++ name ++ "' is not a session name: letters, digits, '_' " ++
      "and '-', starting with a letter or a digit, at most 64 characters")))
  else
    orFail (.collectionExists .metas) fun metaExists =>
      (alreadyExists metaExists).bind fun dup =>
        if dup then .done (.error (.message ("session '" ++ name ++ "' already exists")))
        else
          ensureCollection .metas metaExists
            (orFail (.collectionExists .histories) fun historyExists =>
              ensureCollection .histories historyExists (writeDocs name id now))

/-- `patch_deleted_at` on the history; what fails is skipped. -/
def patchHistoryStamp {α : Type} (stamp : Option String) (k : Op Msg α) : Op Msg α :=
  .call DbCall.queryHistory fun
    | some (some _) => .call (DbCall.patchHistory stamp) fun _ => k
    | _ => k

def patchSummaryStamp {α : Type} (stamp : Option String) (k : Op Msg α) : Op Msg α :=
  .call DbCall.querySummary fun
    | some (some _) => .call (DbCall.patchSummary stamp) fun _ => k
    | _ => k

def setTtls {α : Type} (k : Op Msg α) : List Coll → Op Msg α
  | [] => k
  | coll :: colls => .call (DbCall.setTtl coll) fun _ => setTtls k colls

def softDelete (name reason stamp : String) : Op Msg (Except Failure Unit) :=
  (rewriteMetaLocked (applySoftDelete reason stamp)).bind fun
    | .error e => .done (.error e)
    | .ok false =>
      .done (.error (.message ("session '" ++ name ++ "' has no meta doc to delete")))
    | .ok true =>
      patchHistoryStamp (some stamp) <|
        .call (DbCall.collectionExists .summaries) fun
          | some true =>
            patchSummaryStamp (some stamp) <|
              setTtls (.done (.ok ())) [.metas, .histories, .summaries]
          | _ => setTtls (.done (.ok ())) [.metas, .histories]

def restore (name : String) : Op Msg (Except Failure Unit) :=
  (rewriteMetaLocked applyRestore).bind fun
    | .error e => .done (.error e)
    | .ok false =>
      .done (.error (.message ("session '" ++ name ++
        "' has no meta doc — already reaped, nothing to restore")))
    | .ok true =>
      patchHistoryStamp none <|
        .call (DbCall.collectionExists .summaries) fun
          | some true => patchSummaryStamp none (.done (.ok ()))
          | _ => .done (.ok ())

end EmbraOS.Ports.Sessions
