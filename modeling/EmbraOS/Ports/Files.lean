import EmbraOS.Ports.Jail
import EmbraOS.Verified.Utf8

/-!
# The file tools of the workspace

Port of the writing half of `embra-brain/src/tools/engineering/files.rs`, with
the atomic writer of `file_patch.rs` that `file_write` goes through.  Each tool
takes its paths from the jail and works on the real path; what it answers is
the text the model reads.

A call is an `Op`, and `run` makes a list of them one after the other on one
file system.  The counter of the temporary names lives as long as the process,
so it is part of the state.
-/

namespace EmbraOS.Ports.Files

open Verified
open Verified.UnixPath
open Verified.FileTree
open Ports.Jail

/-- The file system, and the next temporary name. -/
structure Sys where
  tree : Tree
  seq : Nat

/-! ## Directories on the way -/

def ensureParentDirs (fs : Tree) (path : Path) : Tree × Except String Unit :=
  match parent? path with
  | none => (fs, .ok ())
  | some parent =>
    match fs.canonicalize parent with
    | .ok _ => (fs, .ok ())
    | .error _ =>
      match fs.createDirAll parent with
      | (fs', .ok ()) => (fs', .ok ())
      | (fs', .error e) =>
        (fs', .error ("Failed to create directory " ++ text parent ++ ": " ++ e.text))

/-! ## The atomic writer -/

def tmpTag : String := "embra-patch"

def tempName (pid seq : Nat) (fname : String) : String :=
  "." ++ fname ++ "." ++ tmpTag ++ "." ++ toString pid ++ "." ++ toString seq ++ ".tmp"

def tempPathFor (pid seq : Nat) (target : Path) : Except String Path :=
  match parent? target with
  | none => .error "target has no parent directory"
  | some dir =>
    match fileName? target with
    | none => .error "target has no file name"
    | some fname => .ok (dir ++ [tempName pid seq fname])

/-- `remove_file`, the result left aside. -/
def discardTemp (fs : Tree) (path : Path) : Tree :=
  match fs.unlink path with
  | .ok fs' => fs'
  | .error _ => fs

/-- `tokio::fs::metadata`: a target that is not there is made. -/
def statTarget (fs : Tree) (target : Path) : Except String Unit :=
  match fs.canonicalize target with
  | .ok _ => .ok ()
  | .error .enoent => .ok ()
  | .error e => .error ("failed to stat target: " ++ e.text)

def stage (fs : Tree) (target tmp : Path) (bytes : List UInt8) :
    Except String Tree :=
  match statTarget fs target with
  | .error e => .error e
  | .ok () =>
    match fs.createFile tmp bytes with
    | .error e => .error ("failed to create temp file: " ++ e.text)
    | .ok fs' => .ok fs'

def commitTemp (fs : Tree) (tmp target : Path) : Tree × Except String Unit :=
  match fs.rename tmp target with
  | .ok fs' => (fs', .ok ())
  | .error e =>
    (discardTemp fs tmp, .error ("failed to rename temp over target: " ++ e.text))

def applyAtomic (fs : Tree) (target tmp : Path) (bytes : List UInt8) :
    Tree × Except String Unit :=
  match stage fs target tmp bytes with
  | .error e => (discardTemp fs tmp, .error e)
  | .ok fs' => commitTemp fs' tmp target

/-- The counter moves on when there is a temporary name, and wraps. -/
def writeAtomicCreate (pid : Nat) (s : Sys) (target : Path) (bytes : List UInt8) :
    Sys × Except String Unit :=
  match tempPathFor pid s.seq target with
  | .error e => (s, .error e)
  | .ok tmp =>
    let r := applyAtomic s.tree target tmp bytes
    ({ tree := r.1, seq := (s.seq + 1) % 2 ^ 64 }, r.2)

/-! ## The tools -/

/-- `str::lines().count()`. -/
def lineCount (content : String) : Nat :=
  content.toList.count '\n' +
    if content.toList.getLast?.all (fun c => c == '\n') then 0 else 1

def writeAt (pid : Nat) (s : Sys) (path : Path) (content : String) : Sys × String :=
  match ensureParentDirs s.tree path with
  | (fs, .error e) => ({ s with tree := fs }, e)
  | (fs, .ok ()) =>
    let bytes := Utf8.encode content.toList
    match writeAtomicCreate pid { s with tree := fs } path bytes with
    | (s', .ok ()) =>
      (s', "Written " ++ toString bytes.length ++ " bytes (" ++
        toString (lineCount content) ++ " lines) to " ++ text path)
    | (s', .error e) =>
      (s', "Failed to write file: " ++ e ++ " — target left unchanged")

def fileWriteIn (root : Root) (pid : Nat) (s : Sys) (rawPath content : String) :
    Sys × String :=
  match jailedWritePath s.tree root rawPath with
  | .error e => (s, e)
  | .ok path => writeAt pid s path content

def mkdirIn (root : Root) (fs : Tree) (rawPath : String) : Tree × String :=
  match jailedWritePath fs root rawPath with
  | .error e => (fs, e)
  | .ok path =>
    match fs.lstat path with
    | .ok _ => (fs, "Directory already exists: " ++ text path)
    | .error _ =>
      match fs.createDirAll path with
      | (fs', .ok ()) => (fs', "Created directory: " ++ text path)
      | (fs', .error e) => (fs', "Failed to create directory: " ++ e.text)

/-- The link holds the target as it was written, after the lexical check. -/
def fileSymlinkIn (root : Root) (fs : Tree) (rawTarget rawLink : String) :
    Tree × String :=
  match lexical root rawTarget with
  | .error e => (fs, e)
  | .ok target =>
    match jailedWritePath fs root rawLink with
    | .error e => (fs, e)
    | .ok link =>
      match jailedWritePath fs root rawTarget with
      | .error e => (fs, e)
      | .ok _ =>
        match fs.lstat link with
        | .ok _ =>
          (fs, "file_symlink rejected (link path already exists: " ++
            text link ++ ")")
        | .error _ =>
          match fs.symlink target link with
          | .ok fs' =>
            (fs', "Symlink created: " ++ text link ++ " → " ++ target)
          | .error e => (fs, "file_symlink failed: " ++ e.text)

def fileDeleteIn (root : Root) (fs : Tree) (rawPath : String) : Tree × String :=
  match jailedRemovePath fs root rawPath with
  | .error e => (fs, e)
  | .ok path =>
    match fs.lstat path with
    | .error .enoent => (fs, "File not found: " ++ text path)
    | .error e => (fs, "Failed to stat " ++ text path ++ ": " ++ e.text)
    | .ok .dir =>
      (fs, "Cannot delete directory with file_delete (use dir_delete for " ++
        "directories): " ++ text path)
    | .ok (.link _) =>
      match fs.unlink path with
      | .ok fs' => (fs', "Deleted symlink: " ++ text path)
      | .error e => (fs, "Failed to delete " ++ text path ++ ": " ++ e.text)
    | .ok (.file _) =>
      match fs.unlink path with
      | .ok fs' => (fs', "Deleted: " ++ text path)
      | .error e => (fs, "Failed to delete " ++ text path ++ ": " ++ e.text)

def fileMoveIn (root : Root) (fs : Tree) (rawSrc rawDst : String) : Tree × String :=
  match jailedRemovePath fs root rawSrc with
  | .error e => (fs, e)
  | .ok src =>
    match jailedWritePath fs root rawDst with
    | .error e => (fs, e)
    | .ok dst =>
      match fs.lstat src with
      | .error _ => (fs, "Source not found: " ++ text src)
      | .ok _ =>
        match fs.lstat dst with
        | .ok _ => (fs, "Destination already exists: " ++ text dst)
        | .error _ =>
          match ensureParentDirs fs dst with
          | (fs', .error e) => (fs', e)
          | (fs', .ok ()) =>
            match fs'.rename src dst with
            | .ok fs'' =>
              (fs'', "Moved: " ++ text src ++ " → " ++ text dst)
            | .error e =>
              (fs', "Failed to move " ++ text src ++ " → " ++ text dst ++
                ": " ++ e.text)

/-- The removal of a directory by its real path. -/
def removeDirectory (fs : Tree) (path : Path) (force : Bool) : Tree × String :=
  match fs.lstat path with
  | .error .enoent => (fs, "Directory not found: " ++ text path)
  | .error e => (fs, "Failed to stat " ++ text path ++ ": " ++ e.text)
  | .ok .dir =>
    if force then
      match fs.removeDirAll path with
      | .ok fs' => (fs', "Deleted directory and all contents: " ++ text path)
      | .error e =>
        (fs, "Failed to delete directory " ++ text path ++ ": " ++ e.text)
    else
      match fs.rmdir path with
      | .ok fs' => (fs', "Deleted empty directory: " ++ text path)
      | .error .enotempty =>
        (fs, "Directory is not empty: " ++ text path ++ ". Use dir_delete " ++
          text path ++ " --force to remove with contents.")
      | .error e =>
        (fs, "Failed to delete directory " ++ text path ++ ": " ++ e.text)
  | .ok _ =>
    (fs, "Not a directory (use file_delete for files and links): " ++ text path)

/-- The checks of `jailedRemovePath`, with the root refused in between. -/
def dirDeleteIn (root : Root) (fs : Tree) (rawPath : String) (force : Bool) :
    Tree × String :=
  match lexical root rawPath with
  | .error e => (fs, e)
  | .ok lex =>
    match fenceOwnedDirs root.path (ofText lex) with
    | .error e => (fs, e)
    | .ok () =>
      if components (ofText lex) = components root.path then
        (fs, "Refusing to delete the workspace itself (" ++ root.text ++
          "); name a directory under it.")
      else
        match realParent fs root (ofText lex) with
        | .error e => (fs, e)
        | .ok (rootCanon, path) =>
          match fenceOwnedDirs rootCanon path with
          | .error e => (fs, e)
          | .ok () => removeDirectory fs path force

/-! ## Runs -/

/-- A call of a file tool. -/
inductive Op where
  | write (path content : String)
  | mkdir (path : String)
  | symlink (target link : String)
  | delete (path : String)
  | move (src dst : String)
  | dirDelete (path : String) (force : Bool)

/-- A tool that makes no temporary name. -/
def Sys.lift (s : Sys) (r : Tree × String) : Sys × String :=
  ({ s with tree := r.1 }, r.2)

def Op.call (root : Root) (pid : Nat) (s : Sys) : Op → Sys × String
  | .write path content => fileWriteIn root pid s path content
  | .mkdir path => s.lift (mkdirIn root s.tree path)
  | .symlink target link => s.lift (fileSymlinkIn root s.tree target link)
  | .delete path => s.lift (fileDeleteIn root s.tree path)
  | .move src dst => s.lift (fileMoveIn root s.tree src dst)
  | .dirDelete path force => s.lift (dirDeleteIn root s.tree path force)

/-- The calls in order, with what they answer. -/
def run (root : Root) (pid : Nat) : Sys → List Op → Sys × List String
  | s, [] => (s, [])
  | s, op :: ops =>
    let r := op.call root pid s
    let rest := run root pid r.1 ops
    (rest.1, r.2 :: rest.2)

end EmbraOS.Ports.Files
