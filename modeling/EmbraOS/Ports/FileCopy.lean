import EmbraOS.Ports.Files
import EmbraOS.Verified.LinkWalk

/-!
# Copying a directory tree into the workspace

Port of the tree half of `embra-brain/src/tools/file_copy.rs`: the plan of a copy with its budgets,
the links it leaves out, the copy itself and the roll-back.  A source that is a single file takes
another way through the tool, which is not followed here; modes are not modelled, nor are special
files.

A link is recreated as it is written, after a look at where its target leads by the text and, when
something is there already, where that really is.

The plan reads one directory a turn; `planTree_inBudget` says that its budget of entries is enough
of them, and that a plan is within its budgets.
-/

namespace EmbraOS.Ports.FileCopy

open Verified
open Verified.Text (join)
open Verified.UnixPath
open Verified.FileTree
open Ports.Jail
open Ports.Files (Sys discardTemp commitTemp)

/-! ## Options and plans -/

structure Caps where
  maxBytes : Nat
  maxEntries : Nat
  freeReserve : Nat

def Caps.default : Caps where
  maxBytes := 512 * 1024 * 1024
  maxEntries := 100000
  freeReserve := 256 * 1024 * 1024

structure CopyOptions where
  recursive : Bool
  overwrite : Bool
  dryRun : Bool
  exclude : List String
  jailRoot : Root
  caps : Caps
  failAfterFiles : Option Nat
  availableOverride : Option Nat

/-- What the tool takes from the process and the system. -/
structure Env where
  pid : Nat
  /-- The number of the next tree that is taken back. -/
  rollbackSeq : Nat
  /-- `statvfs`: the bytes that are free where a directory is. -/
  availableBytes : Tree → Loc → Except String Nat
  /-- The `Debug` form of a text. -/
  quoted : String → String

inductive SkipReason where
  | symlinkOutside (resolved : Loc)
  | symlinkFenced (why : String)
  | unreadable (error : String)
  deriving DecidableEq, Repr

def SkipReason.describe : SkipReason → String
  | symlinkOutside resolved =>
    "symlink target outside " ++ workspaceRoot.text ++ ": " ++ text resolved
  | symlinkFenced why => "symlink target fenced: " ++ why
  | unreadable error => "unreadable: " ++ error

/-- Paths are relative to the roots; the first directory is the root itself. -/
structure CopyPlan where
  files : List (Path × Nat)
  dirs : List Path
  symlinks : List (Path × String)
  skipped : List (Path × SkipReason)
  excluded : List (Path × Bool)
  totalBytes : Nat
  entries : Nat

def CopyPlan.empty : CopyPlan := ⟨[], [], [], [], [], 0, 0⟩

/-! ## Where a link would lead -/

/-- A `..` at the root stays there. -/
def normalizeLexical (p : Path) : Loc := lexFrom [] p

/-- The target of a link as a path: a relative one starts at the link's new parent. -/
def joined (linkNew : Path) (raw : String) : Path :=
  if Text.startsWith raw "/" then ofText raw else (parent? linkNew).getD [] ++ segments raw

def symlinkTargetOk (linkNew : Path) (raw : String) (jail : Path) : Except SkipReason Unit :=
  let resolved := normalizeLexical (joined linkNew raw)
  if within resolved (components jail) = false then .error (.symlinkOutside resolved)
  else
    match fenceOwnedDirs jail resolved with
    | .error why => .error (.symlinkFenced why)
    | .ok () => .ok ()

/-! ## The plan -/

/-- The names in a directory. -/
def namesIn (fs : Tree) (loc : Loc) : List String :=
  (fs.nodes.filterMap (fun n => if n.1.dropLast = loc then n.1.getLast? else none)).dedup

/-- `read_dir`, sorted. -/
def readDir (fs : Tree) (p : Path) : Except Errno (List String) :=
  match fs.canonicalize p with
  | .error e => .error e
  | .ok loc =>
    if fs.entry loc = some .dir then .ok ((namesIn fs loc).insertionSort (· ≤ ·))
    else .error .enotdir

def CopyPlan.skip (plan : CopyPlan) (rel : Path) (reason : SkipReason) : CopyPlan :=
  { plan with skipped := plan.skipped ++ [(rel, reason)] }

/-- A link is kept when its target is inside by the text and, if it is there, in fact. -/
def planLink (fs : Tree) (dst : Path) (jail : Path) (plan : CopyPlan) (rel : Path)
    (raw : String) : CopyPlan :=
  let linkNew := dst ++ rel
  match symlinkTargetOk linkNew raw jail with
  | .error reason => plan.skip rel reason
  | .ok () =>
    match fs.canonicalize (normalizeLexical (joined linkNew raw)) with
    | .ok real =>
      if within real (components jail) = false then plan.skip rel (.symlinkOutside real)
      else { plan with symlinks := plan.symlinks ++ [(rel, raw)] }
    | .error _ => { plan with symlinks := plan.symlinks ++ [(rel, raw)] }

/-- One entry of a directory, with the directories below it that are still to be read. -/
def planEntry (fs : Tree) (src dst : Path) (opts : CopyOptions) (relDir : Path)
    (acc : CopyPlan × List Path) (name : String) : Except String (CopyPlan × List Path) :=
  let rel := relDir ++ [name]
  let plan := { acc.1 with entries := acc.1.entries + 1 }
  if plan.entries > opts.caps.maxEntries then
    .error ("source tree " ++ text src ++ " has more than " ++ toString opts.caps.maxEntries ++
      " entries — the file_copy entry budget. Narrow the copy (exclude) or copy subtrees.")
  else
    match fs.lstat (src ++ rel) with
    | .error e => .ok (plan.skip rel (.unreadable e.text), acc.2)
    | .ok md =>
      if name ∈ opts.exclude then
        .ok ({ plan with excluded := plan.excluded ++ [(rel, decide (md = .dir))] }, acc.2)
      else
        match md with
        | .link raw => .ok (planLink fs dst opts.jailRoot.path plan rel raw, acc.2)
        | .dir => .ok ({ plan with dirs := plan.dirs ++ [rel] }, acc.2 ++ [rel])
        | .file bytes =>
          let total := plan.totalBytes + bytes.length
          if total > opts.caps.maxBytes then
            .error ("source tree " ++ text src ++ " holds more than " ++
              toString opts.caps.maxBytes ++ " bytes (" ++
              toString (opts.caps.maxBytes / (1024 * 1024)) ++
              " MiB) — over the file_copy per-call budget. Copy in parts or exclude " ++
              "large subtrees.")
          else
            .ok ({ plan with totalBytes := total,
                             files := plan.files ++ [(rel, bytes.length)] }, acc.2)

def planNames (fs : Tree) (src dst : Path) (opts : CopyOptions) (relDir : Path) :
    CopyPlan × List Path → List String → Except String (CopyPlan × List Path)
  | acc, [] => .ok acc
  | acc, name :: names =>
    match planEntry fs src dst opts relDir acc name with
    | .error e => .error e
    | .ok acc' => planNames fs src dst opts relDir acc' names

/-- The directories on the stack, the top first; each takes a turn. -/
def planLoop (fs : Tree) (src dst : Path) (opts : CopyOptions) :
    Nat → CopyPlan → List Path → Except String CopyPlan
  | _, plan, [] => .ok plan
  | 0, _, _ :: _ => .error "no turns left"
  | turns + 1, plan, relDir :: stack =>
    match readDir fs (src ++ relDir) with
    | .error e => .error ("failed to read " ++ text (src ++ relDir) ++ ": " ++ e.text)
    | .ok names =>
      match planNames fs src dst opts relDir (plan, []) names with
      | .error e => .error e
      | .ok (plan', children) => planLoop fs src dst opts turns plan' (children ++ stack)

/-- A directory that takes a turn is the root or counts as an entry. -/
def planTree (fs : Tree) (src dst : Path) (opts : CopyOptions) : Except String CopyPlan :=
  match fs.lstat src with
  | .error e => .error ("failed to stat " ++ text src ++ ": " ++ e.text)
  | .ok _ =>
    planLoop fs src dst opts (opts.caps.maxEntries + 1) { CopyPlan.empty with dirs := [[]] }
      [[]]

/-! ## The turns of the plan -/

section Turns

variable {fs : Tree} {src dst : Path} {opts : CopyOptions}

/-- What becomes of a link: it is left out, or both looks at its target found it inside. -/
theorem planLink_cases (fs : Tree) (dst jail : Path) (plan : CopyPlan) (rel : Path)
    (raw : String) :
    (∃ reason, planLink fs dst jail plan rel raw = plan.skip rel reason) ∨
      planLink fs dst jail plan rel raw =
          { plan with symlinks := plan.symlinks ++ [(rel, raw)] } ∧
        symlinkTargetOk (dst ++ rel) raw jail = .ok () ∧
        ∀ real, fs.canonicalize (normalizeLexical (joined (dst ++ rel) raw)) = .ok real →
          within real (components jail) = true := by
  rw [planLink]
  cases htext : symlinkTargetOk (dst ++ rel) raw jail with
  | error reason => exact Or.inl ⟨reason, rfl⟩
  | ok u =>
    cases hreal : fs.canonicalize (normalizeLexical (joined (dst ++ rel) raw)) with
    | error e => exact Or.inr ⟨rfl, rfl, by simp⟩
    | ok real =>
      cases hwithin : within real (components jail) with
      | false => exact Or.inl ⟨.symlinkOutside real, by simp [hwithin]⟩
      | true => exact Or.inr ⟨by simp [hwithin], rfl, by simpa using hwithin⟩

/-- Both budgets are kept, and the bytes are those of the files. -/
structure InBudget (opts : CopyOptions) (plan : CopyPlan) : Prop where
  entries : plan.entries ≤ opts.caps.maxEntries
  bytes : plan.totalBytes ≤ opts.caps.maxBytes
  total : plan.totalBytes = (plan.files.map Prod.snd).sum

theorem planLink_inBudget {plan : CopyPlan} (h : InBudget opts plan) (jail rel : Path)
    (raw : String) : InBudget opts (planLink fs dst jail plan rel raw) ∧
      (planLink fs dst jail plan rel raw).entries = plan.entries := by
  rcases planLink_cases fs dst jail plan rel raw with ⟨reason, heq⟩ | ⟨heq, -⟩ <;>
    exact heq ▸ ⟨⟨h.entries, h.bytes, h.total⟩, rfl⟩

/-- The walk is stopped by the source, not for want of turns. -/
def Stops (e : String) : Prop := e ≠ "no turns left"

/-- An entry is counted, and may be a directory to read. -/
theorem planEntry_spec (relDir : Path) {acc : CopyPlan × List Path} (name : String)
    (h : InBudget opts acc.1) :
    (∃ e, planEntry fs src dst opts relDir acc name = .error e ∧ Stops e) ∨
      ∃ acc', planEntry fs src dst opts relDir acc name = .ok acc' ∧ InBudget opts acc'.1 ∧
        acc'.2.length + acc.1.entries ≤ acc.2.length + acc'.1.entries := by
  unfold planEntry
  dsimp only
  split
  · exact .inl ⟨_, rfl, by simp [Stops, ← String.toList_inj]⟩
  rename_i hbudget
  have hcounted : InBudget opts { acc.1 with entries := acc.1.entries + 1 } :=
    ⟨Nat.not_lt.1 hbudget, h.bytes, h.total⟩
  split
  · exact .inr ⟨_, rfl, ⟨hcounted.entries, h.bytes, h.total⟩, by simp [CopyPlan.skip]⟩
  split
  · exact .inr ⟨_, rfl, ⟨hcounted.entries, h.bytes, h.total⟩, by simp⟩
  split
  · refine .inr ⟨_, rfl, (planLink_inBudget hcounted _ _ _).1, ?_⟩
    simp [(planLink_inBudget hcounted _ _ _).2]
  · exact .inr ⟨_, rfl, ⟨hcounted.entries, h.bytes, h.total⟩, by simp; omega⟩
  split
  · exact .inl ⟨_, rfl, by simp [Stops, ← String.toList_inj]⟩
  · rename_i hbytes
    refine .inr ⟨_, rfl, ⟨hcounted.entries, Nat.not_lt.1 hbytes, ?_⟩, by simp⟩
    simp [h.total]

theorem planNames_spec (relDir : Path) (names : List String) :
    ∀ {acc : CopyPlan × List Path}, InBudget opts acc.1 →
    (∃ e, planNames fs src dst opts relDir acc names = .error e ∧ Stops e) ∨
      ∃ acc', planNames fs src dst opts relDir acc names = .ok acc' ∧ InBudget opts acc'.1 ∧
        acc'.2.length + acc.1.entries ≤ acc.2.length + acc'.1.entries := by
  induction names with
  | nil => exact fun h => .inr ⟨_, rfl, h, Nat.le_refl _⟩
  | cons name names ih =>
    intro acc h
    rw [planNames]
    rcases planEntry_spec relDir name h with ⟨e, he, hstops⟩ | ⟨next, hnext, hkept, hread⟩
    · rw [he]
      exact .inl ⟨e, rfl, hstops⟩
    rw [hnext]
    refine (ih hkept).imp_right ?_
    rintro ⟨acc', hacc', hkept', hread'⟩
    exact ⟨acc', hacc', hkept', by omega⟩

/-- By induction on the turns: a directory on the stack has been counted, but for the root. -/
theorem planLoop_spec (turns : Nat) : ∀ {plan : CopyPlan} {stack : List Path},
    InBudget opts plan → stack.length + opts.caps.maxEntries ≤ turns + plan.entries →
    (∃ e, planLoop fs src dst opts turns plan stack = .error e ∧ Stops e) ∨
      ∃ plan', planLoop fs src dst opts turns plan stack = .ok plan' ∧ InBudget opts plan' := by
  induction turns with
  | zero =>
    intro plan stack h hturns
    have hbudget := h.entries
    obtain rfl : stack = [] := List.length_eq_zero_iff.1 (by omega)
    exact .inr ⟨plan, rfl, h⟩
  | succ turns ih =>
    intro plan stack h hturns
    cases stack with
    | nil => exact .inr ⟨plan, rfl, h⟩
    | cons relDir stack =>
      rw [planLoop]
      split
      · exact .inl ⟨_, rfl, by simp [Stops, ← String.toList_inj]⟩
      rename_i names _
      rcases @planNames_spec fs src dst opts relDir names (plan, []) h with
        ⟨e, he, hstops⟩ | ⟨⟨plan', children⟩, hnames, hkept, hread⟩
      · rw [he]
        exact .inl ⟨e, rfl, hstops⟩
      rw [hnames]
      refine ih hkept ?_
      simp only [List.length_append, List.length_cons, List.length_nil] at hread hturns ⊢
      omega

/-- **The plan of a copy ends, within its budgets.**  Whatever the tree, the walk is over before
its turns are: it is stopped by what it finds, or gives a plan with at most as many entries and
bytes as allowed, the bytes those of its files. -/
theorem planTree_inBudget : (∃ e, planTree fs src dst opts = .error e ∧ Stops e) ∨
      ∃ plan, planTree fs src dst opts = .ok plan ∧ InBudget opts plan := by
  rw [planTree]
  split
  · exact .inl ⟨_, rfl, by simp [Stops, ← String.toList_inj]⟩
  · refine planLoop_spec _ ⟨Nat.zero_le _, Nat.zero_le _, rfl⟩ ?_
    simp [CopyPlan.empty, Nat.add_comm]

end Turns

/-! ## The copy -/

def tmpTag : String := "embra-copy"

def tempPathFor (pid seq : Nat) (target : Path) : Except String Path :=
  match parent? target with
  | none => .error "target has no parent directory"
  | some dir =>
    match fileName? target with
    | none => .error "target has no file name"
    | some fname =>
      .ok (dir ++ ["." ++ fname ++ "." ++ tmpTag ++ "." ++ toString pid ++ "." ++
        toString seq ++ ".tmp"])

/-- The bytes of a file, up to a limit, in a temporary file. -/
def copyBounded (fs : Tree) (src tmp : Path) (limit : Nat) : Tree × Except String Nat :=
  match fs.canonicalize src with
  | .error e => (fs, .error ("failed to open source: " ++ e.text))
  | .ok loc =>
    match fs.entry loc with
    | some (.file bytes) =>
      match fs.createFile tmp bytes with
      | .error e => (fs, .error ("failed to create temp file: " ++ e.text))
      | .ok fs' =>
        if bytes.length > limit then
          (fs', .error ("source yielded more than " ++ toString limit ++
            " bytes — over the file_copy byte budget (stat size is advisory; the " ++
            "budget counts bytes actually read)"))
        else (fs', .ok bytes.length)
    | _ => (fs, .error ("failed to read source: " ++ Errno.eisdir.text))

/-- The temporary file goes when the copy stops. -/
def copyFileAtomic (pid : Nat) (s : Sys) (src dst : Path) (limit : Nat) :
    Sys × Except String Nat :=
  match tempPathFor pid s.seq dst with
  | .error e => (s, .error e)
  | .ok tmp =>
    let seq := (s.seq + 1) % 2 ^ 64
    match copyBounded s.tree src tmp limit with
    | (fs, .error e) => (⟨discardTemp fs tmp, seq⟩, .error e)
    | (fs, .ok bytes) =>
      match commitTemp fs tmp dst with
      | (fs', .error e) => (⟨fs', seq⟩, .error e)
      | (fs', .ok ()) => (⟨fs', seq⟩, .ok bytes)

def makeDirs (dst : Path) : Tree → List Path → Tree × Except String Unit
  | fs, [] => (fs, .ok ())
  | fs, rel :: rels =>
    match fs.mkdir (dst ++ rel) with
    | .error e => (fs, .error ("failed to create " ++ text (dst ++ rel) ++ ": " ++ e.text))
    | .ok fs' => makeDirs dst fs' rels

/-- The files from a number on, with what is left of the budget and what was copied. -/
def copyFiles (pid : Nat) (src dst : Path) (failAfterFiles : Option Nat) :
    Nat → Nat → Nat → Sys → List (Path × Nat) → Sys × Except String Nat
  | _, _, copied, s, [] => (s, .ok copied)
  | i, remaining, copied, s, (rel, _) :: files =>
    if failAfterFiles = some i then (s, .error "injected failure (test)")
    else
      match s.tree.lstat (src ++ rel) with
      | .error e => (s, .error (join "/" rel ++ " vanished during the copy: " ++ e.text))
      | .ok (.file _) =>
        match copyFileAtomic pid s (src ++ rel) (dst ++ rel) remaining with
        | (s', .error e) => (s', .error (join "/" rel ++ ": " ++ e))
        | (s', .ok n) =>
          copyFiles pid src dst failAfterFiles (i + 1) (remaining - n) (copied + n) s'
            files
      | .ok _ => (s, .error (join "/" rel ++ " changed type during the copy"))

def makeLinks (dst : Path) : Tree → List (Path × String) → Tree × Except String Unit
  | fs, [] => (fs, .ok ())
  | fs, (rel, raw) :: links =>
    match fs.symlink raw (dst ++ rel) with
    | .error e =>
      (fs, .error ("failed to create symlink " ++ text (dst ++ rel) ++ ": " ++ e.text))
    | .ok fs' => makeLinks dst fs' links

def executeTree (pid : Nat) (s : Sys) (src dst : Path) (plan : CopyPlan) (opts : CopyOptions) :
    Sys × Except String Nat :=
  match makeDirs dst s.tree (plan.dirs.drop 1) with
  | (fs, .error e) => ({ s with tree := fs }, .error e)
  | (fs, .ok ()) =>
    match copyFiles pid src dst opts.failAfterFiles 0 opts.caps.maxBytes 0
      { s with tree := fs } plan.files with
    | (s', .error e) => (s', .error e)
    | (s', .ok copied) =>
      match makeLinks dst s'.tree plan.symlinks with
      | (fs', .error e) => ({ s' with tree := fs' }, .error e)
      | (fs', .ok ()) => ({ s' with tree := fs' }, .ok copied)

/-- `RollbackGuard::wipe`: the tree is moved aside and removed; what could not be is told. -/
def wipe (env : Env) (fs : Tree) (root : Path) : Tree × Option Path :=
  let name := (fileName? root).getD "root"
  let doomed := (parent? root).getD [] ++ ["." ++ name ++ ".embra-copy-rollback." ++
    toString env.pid ++ "." ++ toString env.rollbackSeq]
  let (fs', target) :=
    match fs.rename root doomed with
    | .ok fs' => (fs', doomed)
    | .error _ => (fs, root)
  match fs'.removeDirAll target with
  | .ok fs'' => (fs'', none)
  | .error _ => (fs', some target)

/-! ## What is told -/

def enumCap : Nat := 10

def plural (n : Nat) (one many : String) : String :=
  if n = 1 then "1 " ++ one else toString n ++ " " ++ many

def cappedList (items : List String) : String :=
  if items.length ≤ enumCap then join ", " items
  else
    join ", " (items.take enumCap) ++ " … and " ++ toString (items.length - enumCap) ++ " more"

def skippedLine : Path × SkipReason → String
  | (p, .symlinkOutside resolved) =>
    "\n  skipped: " ++ join "/" p ++ " → " ++ text resolved ++ " (" ++
      (SkipReason.symlinkOutside resolved).describe ++ ")"
  | (p, reason) => "\n  skipped: " ++ join "/" p ++ " (" ++ reason.describe ++ ")"

def excludedItem : Path × Bool → String
  | (p, true) => join "/" p ++ "/ (directory)"
  | (p, false) => join "/" p ++ " (file)"

/-- `executed` is what was copied, and `none` on a dry run. -/
def renderTreeReport (src dst : Path) (plan : CopyPlan) (executed : Option Nat) : String :=
  let head := if executed = none then "DRY RUN — no write\nWould copy" else "Copied"
  let skipped := join "" ((plan.skipped.take enumCap).map skippedLine) ++
    if plan.skipped.length > enumCap then
      "\n  skipped: … and " ++ toString (plan.skipped.length - enumCap) ++ " more"
    else ""
  let note :=
    match executed with
    | some copied =>
      if copied ≠ plan.totalBytes then
        "\n  note: source changed during the copy — planned " ++ toString plan.totalBytes ++
          " bytes, copied " ++ toString copied ++ " bytes"
      else ""
    | none => ""
  head ++ " " ++ text src ++ "/ → " ++ text dst ++ "/: " ++
    plural plan.files.length "file" "files" ++ ", " ++
    plural plan.dirs.length "directory" "directories" ++ ", " ++
    plural plan.symlinks.length "symlink" "symlinks" ++ ", " ++
    toString (executed.getD plan.totalBytes) ++ " bytes" ++
    (if plan.excluded = [] then ""
      else "\n  excluded: " ++ cappedList (plan.excluded.map excludedItem)) ++
    skipped ++ note

def nothing (msg : String) : String := "Error: " ++ msg ++ "\nNothing copied."

def unchanged (msg : String) : String := "Error: " ++ msg ++ "\nDestination unchanged."

def intoDirMsg (dst src : Path) : String :=
  "destination " ++ text dst ++ " is an existing directory — file_copy never copies INTO a " ++
    "directory; give the full target path (e.g. " ++ text dst ++ "/" ++
    (fileName? src).getD "<name>" ++ ")"

/-! ## The tool -/

inductive Outcome where
  | refused (message : String)
  /-- The source is a single file. -/
  | single
  | dryRun (plan : CopyPlan) (report : String)
  | copied (real : Jail.Real) (plan : CopyPlan) (report : String)
  | rolledBack (message : String)

/-- Is there something at the destination? -/
def dstExists (fs : Tree) (dst src : Path) : Except String Bool :=
  match fs.lstat dst with
  | .ok .dir => .error (nothing (intoDirMsg dst src))
  | .ok (.link _) =>
    match fs.canonicalize dst with
    | .ok loc =>
      if fs.entry loc = some .dir then .error (nothing (intoDirMsg dst src)) else .ok true
    | .error .enoent =>
      .error (nothing ("destination " ++ text dst ++
        " is a dangling symlink — file_delete it first"))
    | .error e =>
      .error (nothing ("failed to stat destination " ++ text dst ++ ": " ++ e.text))
  | .ok (.file _) => .ok true
  | .error .enoent => .ok false
  | .error e => .error (nothing ("failed to stat destination " ++ text dst ++ ": " ++ e.text))

/-- What a tree copy asks of its options and its destination. -/
def treeRefusal (env : Env) (fs : Tree) (src dst : Path) (opts : CopyOptions) :
    Option String :=
  match dstExists fs dst src with
  | .error e => some e
  | .ok dstThere =>
    if opts.recursive = false then
      some (nothing ("source " ++ text src ++
        " is a directory — pass recursive=true to copy a directory tree"))
    else if opts.overwrite then
      some (nothing ("overwrite applies to single files only — a tree copy never merges " ++
        "into an existing destination"))
    else if dstThere then
      some (unchanged ("destination " ++ text dst ++
        " already exists — file_copy never merges trees; copy to a new path or remove it " ++
        "first"))
    else
      match opts.exclude.find? (fun x => x = "" ∨ Text.contains x "/" = true) with
      | some x =>
        some (nothing ("exclude entries are exact basenames (no '/' or globs): " ++
          env.quoted x))
      | none =>
        match fenceOwnedDirs opts.jailRoot.path dst with
        | .error e => some e
        | .ok () => none

/-- What is asked of the real destination. -/
def realRefusal (src : Path) (real : Jail.Real) : Option String :=
  match fenceOwnedDirs real.root real.path with
  | .error e => some e
  | .ok () =>
    if components real.path = components src then
      some (nothing ("source and destination are the same path (" ++ text src ++ ")"))
    else if startsWith real.path src then
      some (nothing ("destination " ++ text real.path ++ " is inside the source tree " ++
        text src ++ " — cannot copy a directory into itself"))
    else none

def freeSpaceCheck (opts : CopyOptions) (available planned : Nat) : Option String :=
  if min (planned + opts.caps.freeReserve) (2 ^ 64 - 1) > available then
    some (nothing ("this copy needs " ++ toString planned ++ " bytes but only " ++
      toString available ++ " bytes are free on " ++ opts.jailRoot.text ++
      ", and the file_copy reserve keeps " ++ toString opts.caps.freeReserve ++
      " bytes for WardSONDB"))
  else none

def available (env : Env) (fs : Tree) (opts : CopyOptions) (real : Jail.Real) : Except String Nat :=
  match opts.availableOverride with
  | some a => .ok a
  | none => env.availableBytes fs real.ancestor

def makeParents (fs : Tree) (dst : Path) : Tree × Except String Unit :=
  match parent? dst with
  | none => (fs, .ok ())
  | some parent =>
    match fs.createDirAll parent with
    | (fs', .ok ()) => (fs', .ok ())
    | (fs', .error e) =>
      (fs', .error (nothing ("failed to create directory " ++ text parent ++ ": " ++ e.text)))

/-- The root of the destination must be new. -/
def makeRoot (fs : Tree) (dst : Path) : Tree × Except String Unit :=
  match makeParents fs dst with
  | (fs', .error e) => (fs', .error e)
  | (fs', .ok ()) =>
    match fs'.mkdir dst with
    | .error e => (fs', .error (nothing ("failed to create " ++ text dst ++ ": " ++ e.text)))
    | .ok fs'' => (fs'', .ok ())

def rollBack (env : Env) (s : Sys) (dst : Path) (e : String) : Sys × Outcome :=
  let (fs, leftover) := wipe env s.tree dst
  ({ s with tree := fs }, .rolledBack ("Error: " ++ e ++ "\nRolled back: " ++ text dst ++
    " removed, nothing of the tree remains." ++
    match leftover with
    | some l =>
      "\n  note: rollback could not fully remove " ++ text l ++
        " — remove it with dir_delete force=true"
    | none => ""))

/-- The part after the plan. -/
def copyPlanned (env : Env) (s : Sys) (src : Path) (opts : CopyOptions) (real : Jail.Real)
    (plan : CopyPlan) : Sys × Outcome :=
  if opts.dryRun then (s, .dryRun plan (renderTreeReport src real.path plan none))
  else
    match makeRoot s.tree real.path with
    | (fs, .error e) => ({ s with tree := fs }, .refused e)
    | (fs, .ok ()) =>
      match executeTree env.pid { s with tree := fs } src real.path plan opts with
      | (s', .ok copied) =>
        (s', .copied real plan (renderTreeReport src real.path plan (some copied)))
      | (s', .error e) => rollBack env s' real.path e

def copyTree (env : Env) (s : Sys) (src dst : Path) (opts : CopyOptions) : Sys × Outcome :=
  match treeRefusal env s.tree src dst opts with
  | some e => (s, .refused e)
  | none =>
    match Jail.real s.tree opts.jailRoot dst with
    | .error e => (s, .refused (e ++ "\nNothing copied."))
    | .ok real =>
      match realRefusal src real with
      | some e => (s, .refused e)
      | none =>
        match available env s.tree opts real with
        | .error e => (s, .refused (nothing e))
        | .ok free =>
          match planTree s.tree src real.path opts with
          | .error e => (s, .refused (nothing e))
          | .ok plan =>
            match freeSpaceCheck opts free plan.totalBytes with
            | some e => (s, .refused e)
            | none => copyPlanned env s src opts real plan

/-- The source is a path that `file_read` may read. -/
def copyAt (env : Env) (s : Sys) (src dst : Path) (opts : CopyOptions) : Sys × Outcome :=
  match s.tree.canonicalize src with
  | .error e =>
    (s, .refused (nothing ("failed to stat source " ++ text src ++ ": " ++ e.text)))
  | .ok loc =>
    if s.tree.entry loc = some .dir then copyTree env s src dst opts else (s, .single)

def fileCopyIn (env : Env) (s : Sys) (opts : CopyOptions) (src : Path) (destination : String) :
    Sys × Outcome :=
  match lexical opts.jailRoot destination with
  | .error e => (s, .refused e)
  | .ok dst => copyAt env s src (ofText dst) opts

end EmbraOS.Ports.FileCopy
