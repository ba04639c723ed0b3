import Mathlib
import EmbraOS.Verified.Serde
import EmbraOS.Verified.Text

/-!
# Dumps and removal records

The files that `knowledge_dump` and the removing tools write and that
`knowledge_restore` reads (`embra-brain/src/knowledge/{removal,restore,tools}.rs`):
one record a line, headed by a `meta` record, cut into parts under a cap.  A line
is kept as the value it holds; `lineBytes` is the length of its text.

`payload_writeParts` says that the parts hold the records in the order written, and
`values_records` that reading the files of a set meets the values of their lines in order.
-/

namespace EmbraOS.Ports.Dump

open Verified.Serde

/-! ## Collections -/

def semanticCollection : String := "memory.semantic"

def proceduralCollection : String := "memory.procedural"

/-! ## Parts -/

/-- A part: its header, and the records in it. -/
structure Part where
  name : String
  header : Json
  records : List Json
  bytes : Nat

/-- A dump being written; the last part is not yet closed. -/
structure PartWriter where
  stem : String
  partBytes : Nat
  header : Json
  parts : List Part
  current : Part

namespace PartWriter

variable (lineBytes : Json → Nat)

/-- `{index:04}`. -/
def fourDigits (index : Nat) : String :=
  String.ofList (List.replicate (4 - (toString index).length) '0') ++ toString index

def partName (stem : String) (partBytes index : Nat) : String :=
  (if partBytes = 0 then stem else stem ++ "-part" ++ fourDigits index) ++ ".jsonl"

/-- `next_part`: a file of its own, headed by the meta record. -/
def nextPart (stem : String) (partBytes : Nat) (header : Json) (closed : Nat) : Part :=
  let line := (header.set "stem" (.str stem)).set "part" (.num (.posInt (closed + 1)))
  ⟨partName stem partBytes (closed + 1), line, [], lineBytes line⟩

/-- `PartWriter::open`. -/
def start (stem : String) (header : Json) (partBytes : Nat) : PartWriter :=
  ⟨stem, partBytes, header, [], nextPart lineBytes stem partBytes header 0⟩

/-- `close_part`, then `next_part`. -/
def roll (w : PartWriter) : PartWriter :=
  { w with
    parts := w.parts ++ [w.current]
    current := nextPart lineBytes w.stem w.partBytes w.header (w.parts.length + 1) }

def push (w : PartWriter) (record : Json) : PartWriter :=
  { w with
    current :=
      { w.current with
        records := w.current.records ++ [record]
        bytes := w.current.bytes + lineBytes record } }

/-- One record; a part that holds one already is closed before it grows past the cap. -/
def record (w : PartWriter) (record : Json) : PartWriter :=
  if 0 < w.partBytes ∧ 0 < w.current.records.length ∧
      w.partBytes < w.current.bytes + lineBytes record then
    push lineBytes (roll lineBytes w) record
  else push lineBytes w record

def finish (w : PartWriter) : List Part := w.parts ++ [w.current]

/-- The records written so far. -/
def payload (w : PartWriter) : List Json := (finish w).flatMap Part.records

variable {lineBytes}

theorem payload_push (w : PartWriter) (v : Json) :
    payload (push lineBytes w v) = payload w ++ [v] := by
  simp [payload, finish, push]

theorem payload_roll (w : PartWriter) : payload (roll lineBytes w) = payload w := by
  simp [payload, finish, roll, nextPart]

theorem payload_record (w : PartWriter) (v : Json) :
    payload (record lineBytes w v) = payload w ++ [v] := by
  unfold record
  split
  · rw [payload_push, payload_roll]
  · exact payload_push w v

end PartWriter

/-- The parts of a set. -/
def writeParts (lineBytes : Json → Nat) (stem : String) (header : Json) (partBytes : Nat)
    (records : List Json) : List Part :=
  (records.foldl (PartWriter.record lineBytes)
    (PartWriter.start lineBytes stem header partBytes)).finish

section

variable {lineBytes : Json → Nat}

private theorem payload_foldl (records : List Json) :
    ∀ w : PartWriter, (records.foldl (PartWriter.record lineBytes) w).payload =
      w.payload ++ records := by
  induction records with
  | nil =>
    intro w
    simp
  | cons v records ih =>
    intro w
    rw [List.foldl_cons, ih, PartWriter.payload_record, List.append_assoc]
    rfl

/-- The parts hold the records in the order written, each once. -/
theorem payload_writeParts (stem : String) (header : Json) (partBytes : Nat)
    (records : List Json) :
    (writeParts lineBytes stem header partBytes records).flatMap Part.records = records := by
  have hstart : (PartWriter.start lineBytes stem header partBytes).payload = [] := rfl
  show (records.foldl (PartWriter.record lineBytes)
    (PartWriter.start lineBytes stem header partBytes)).payload = records
  rw [payload_foldl, hstart, List.nil_append]

end

/-! ## Files -/

/-- A line: nothing, a text that is not JSON, or a record. -/
inductive Line where
  | blank
  | bad (why : String)
  | record (v : Json)

structure File where
  name : String
  lines : List Line

/-- A part as a file. -/
def Part.file (p : Part) : File := ⟨p.name, .record p.header :: p.records.map .record⟩

/-- The files of a set in the order they are read in. -/
def sortFiles (files : List File) : List File :=
  files.mergeSort (fun a b => decide (a.name ≤ b.name))

def Line.value? : Line → Option Json
  | .record v => some v
  | _ => none

/-- A line of a file with its place; a blank one is skipped. -/
def labelled (name : String) (n : Nat) : Line → Option (String × Except String Json)
  | .blank => none
  | .bad why => some (name ++ ":" ++ toString n, .error why)
  | .record v => some (name ++ ":" ++ toString n, .ok v)

/-- `records`: every line of the files, in order, with where it is. -/
def records (files : List File) : List (String × Except String Json) :=
  files.flatMap (fun f => (f.lines.zipIdx 1).filterMap (fun l => labelled f.name l.2 l.1))

/-- The values of the lines that are JSON. -/
def values (lines : List (String × Except String Json)) : List Json :=
  lines.filterMap (fun l => l.2.toOption)

private theorem values_labelled (name : String) (lines : List Line) :
    ∀ n, values ((lines.zipIdx n).filterMap (fun l => labelled name l.2 l.1)) =
      lines.filterMap Line.value? := by
  induction lines with
  | nil => exact fun _ => rfl
  | cons line lines ih =>
    intro n
    have hrest := ih (n + 1)
    unfold values at hrest ⊢
    cases line with
    | blank =>
      simp only [List.zipIdx_cons, List.filterMap_cons, labelled, Line.value?]
      exact hrest
    | bad why =>
      simp only [List.zipIdx_cons, List.filterMap_cons, labelled, Line.value?,
        Except.toOption]
      exact hrest
    | record v =>
      simp only [List.zipIdx_cons, List.filterMap_cons, labelled, Line.value?,
        Except.toOption]
      exact congrArg (v :: ·) hrest

theorem values_records (files : List File) :
    values (records files) = files.flatMap (fun f => f.lines.filterMap Line.value?) := by
  unfold values records
  rw [List.filterMap_flatMap]
  congr 1
  funext f
  exact values_labelled f.name f.lines 1

end EmbraOS.Ports.Dump
