import EmbraOS.Verified.Blocks
import EmbraOS.Verified.SortedForm

/-!
# The operator's CA certificates

Port of `embrad/src/ca_bundle.rs`: the files of the drop-in directory are accepted one by one,
by a count of their certificate pairs, and written behind the stock bundle in the order of
their names.

`bundle_blocks_iff`: the certificates of the bundle are those of the stock bundle and of each
file, exactly when no accepted file but the last leaves a certificate unfinished;
`unfinished_swallows_next` is a file that does.
-/

namespace EmbraOS.Ports.CaBundle

open Verified.Blocks
open Verified.Search
open Verified.SortedForm

abbrev Text := List Char

def maxCaFileSize : Nat := 256 * 1024

def pemBegin : Text := "-----BEGIN CERTIFICATE-----".toList

def pemEnd : Text := "-----END CERTIFICATE-----".toList

def pem : Marks Char where
  opening := pemBegin
  closing := pemEnd
  opening_ne := by decide
  closing_ne := by decide

/-! ## One file -/

/-- The loop of `pem_cert_count`; every round takes a pair off the text. -/
def pemCertCountFrom : Nat → Text → Nat
  | 0, _ => 0
  | fuel + 1, rest =>
    match before? pemBegin rest with
    | none => 0
    | some front =>
      let afterBegin := rest.drop (front.length + pemBegin.length)
      match before? pemEnd afterBegin with
      | none => 0
      | some body =>
        pemCertCountFrom fuel (afterBegin.drop (body.length + pemEnd.length)) + 1

def pemCertCount (content : Text) : Nat := pemCertCountFrom (content.length + 1) content

inductive Rejection where
  | tooLarge (size : Nat)
  | noPair
  deriving DecidableEq, Repr

def Rejection.text : Rejection → String
  | .tooLarge size =>
    toString size ++ " bytes exceeds the " ++ toString maxCaFileSize ++ " byte cap"
  | .noPair => "no BEGIN/END CERTIFICATE pair found"

def checkCaFile (size : Nat) (content : Text) : Except Rejection Nat :=
  if size > maxCaFileSize then .error (.tooLarge size)
  else if pemCertCount content = 0 then .error .noPair
  else .ok (pemCertCount content)

/-! ## The directory -/

/-- An entry of the drop-in directory, as the system answers for it. -/
structure DirEntry where
  name : Text
  isFile : Bool
  /-- The length in its metadata. -/
  size : Option Nat
  /-- Its text, if it can be read as one. -/
  content : Option Text

/-- `Path::extension` of a file name. -/
def extension (name : Text) : Option Text :=
  match rsplitOnce '.' name with
  | none => none
  | some ([], _) => none
  | some (_ :: _, ext) => some ext

def isCertExt (name : Text) : Bool :=
  extension name = some "pem".toList || extension name = some "crt".toList

/-- The name and the text of an entry that is taken. -/
def acceptEntry (entry : DirEntry) : Option (Text × Text) :=
  if !entry.isFile || !isCertExt entry.name then none
  else
    let size := entry.size.getD (2 ^ 64 - 1)
    let content := if size ≤ maxCaFileSize then entry.content.getD [] else []
    match checkCaFile size content with
    | .ok _ => some (entry.name, content)
    | .error _ => none

/-- The accepted files in the order of their names; a directory that cannot be read has
none. -/
def collectOperatorCerts (dir : Option (List DirEntry)) : List (Text × Text) :=
  sortBy Prod.fst ((dir.getD []).filterMap acceptEntry)

/-! ## The bundle -/

def trimEndNewlines (text : Text) : Text := text.rdropWhile (· = '\n')

def mergeBundle (base : Text) (extras : List (Text × Text)) : Text :=
  trimEndNewlines base ++ '\n' :: extras.flatMap (fun file => trimEndNewlines file.2 ++ ['\n'])

def planBundle (base : Option Text) (extras : List (Text × Text)) : Option Text :=
  match base with
  | none => none
  | some base =>
    if base.isEmpty || extras.isEmpty then none else some (mergeBundle base extras)

/-- The bundle that is exported; `written` says whether its file could be written. -/
def setupOperatorCaTrust (dir : Option (List DirEntry)) (base : Option Text) (written : Bool) :
    Option Text :=
  let extras := collectOperatorCerts dir
  if extras.isEmpty then none
  else
    match planBundle base extras with
    | none => none
    | some bundle => if written then some bundle else none

/-- The certificates of each file, where its text stands in the bundle. -/
def placedFiles : Nat → List (Text × Text) → List (Block Char)
  | _, [] => []
  | pos, file :: files =>
    blocks pem pos file.2 ++ placedFiles (pos + (trimEndNewlines file.2).length + 1) files

/-! ## The count -/

/-- The loop counts the certificates. -/
theorem pemCertCountFrom_eq (fuel : Nat) : ∀ text : Text, text.length < fuel →
    pemCertCountFrom fuel text = closedFrom pem false text := by
  induction fuel with
  | zero => exact fun _ h => absurd h (Nat.not_lt_zero _)
  | succ fuel ih =>
    intro text hfuel
    have hopening := closedFrom_false (m := pem) text
    rw [show pem.opening = pemBegin from rfl] at hopening
    rw [pemCertCountFrom, hopening]
    cases hfront : before? pemBegin text with
    | none => rfl
    | some front =>
      dsimp only
      have hshorter : (text.drop (front.length + pemBegin.length)).length < fuel := by
        obtain ⟨⟨r, hr⟩, -⟩ := before?_spec hfront
        have hlength := congrArg List.length hr
        have hbegin : pemBegin.length = 27 := by decide
        rw [List.length_append, List.length_append] at hlength
        rw [List.length_drop]
        omega
      generalize text.drop (front.length + pemBegin.length) = afterBegin at hshorter
      have hclosing := closedFrom_true (m := pem) afterBegin
      rw [show pem.closing = pemEnd from rfl] at hclosing
      rw [hclosing]
      cases before? pemEnd afterBegin with
      | none => rfl
      | some body =>
        dsimp only
        rw [ih]
        rw [List.length_drop]
        omega

theorem pemCertCount_eq (pos : Nat) (content : Text) :
    pemCertCount content = (blocks pem pos content).length := by
  rw [length_blocks]
  exact pemCertCountFrom_eq _ content (Nat.lt_succ_self _)

theorem blocks_ne_nil_of_checked {size : Nat} {content : Text} {n : Nat}
    (h : checkCaFile size content = .ok n) : blocks pem 0 content ≠ [] := by
  unfold checkCaFile at h
  split at h
  · cases h
  split at h
  · cases h
  · rename_i hcount
    rw [pemCertCount_eq 0] at hcount
    exact fun hnil => hcount (List.length_eq_zero_iff.2 hnil)

theorem blocks_ne_nil_of_accepted {entry : DirEntry} {file : Text × Text}
    (h : acceptEntry entry = some file) : blocks pem 0 file.2 ≠ [] := by
  unfold acceptEntry at h
  split at h
  · cases h
  dsimp only at h
  generalize (if entry.size.getD (2 ^ 64 - 1) ≤ maxCaFileSize then entry.content.getD []
    else []) = content at h
  split at h
  · rename_i hok
    cases h
    exact blocks_ne_nil_of_checked hok
  · cases h

/-! ## The certificates of the bundle -/

theorem newline_notMem_pemBegin : '\n' ∉ pem.opening := by decide

theorem newline_notMem_pemEnd : '\n' ∉ pem.closing := by decide

theorem trimEndNewlines_append (text : Text) :
    ∃ n, text = trimEndNewlines text ++ List.replicate n '\n' := by
  refine ⟨(text.rtakeWhile (· = '\n')).length, ?_⟩
  have hall : ∀ c ∈ text.rtakeWhile (· = '\n'), c = '\n' := by
    intro c hc
    exact of_decide_eq_true (List.mem_rtakeWhile_imp (p := fun c => decide (c = '\n')) hc)
  rw [← List.eq_replicate_of_mem hall]
  exact List.rdropWhile_append_rtakeWhile.symm

theorem blocks_trimEndNewlines (pos : Nat) (text : Text) :
    blocks pem pos (trimEndNewlines text) = blocks pem pos text ∧
      unfinished pem (trimEndNewlines text) = unfinished pem text := by
  obtain ⟨n, hn⟩ := trimEndNewlines_append text
  obtain ⟨hblocks, hopen⟩ := scan_append_replicate newline_notMem_pemBegin newline_notMem_pemEnd
    pos (trimEndNewlines text) n
  rw [← hn] at hblocks hopen
  exact ⟨hblocks.symm, hopen.symm⟩

theorem placedFiles_eq (files : List (Text × Text)) : ∀ pos,
    placedFiles pos files = placed pem pos (files.map fun file => trimEndNewlines file.2) := by
  induction files with
  | nil => exact fun _ => rfl
  | cons file files ih =>
    intro pos
    rw [placedFiles, List.map_cons, placed, ih, (blocks_trimEndNewlines pos file.2).1]

theorem merged_map (base : Text) (extras : List (Text × Text)) :
    mergeBundle base extras =
      merged '\n' (trimEndNewlines base :: extras.map fun file => trimEndNewlines file.2) := by
  rw [merged_cons]
  unfold mergeBundle merged
  rw [List.flatMap_map]

theorem closing_infix_of_accepted {dir : Option (List DirEntry)} {file : Text × Text}
    (h : file ∈ collectOperatorCerts dir) : pem.closing <:+: trimEndNewlines file.2 := by
  have hmem := (sortBy_perm Prod.fst _).mem_iff.1 h
  obtain ⟨entry, -, haccept⟩ := List.mem_filterMap.1 hmem
  have hne := blocks_ne_nil_of_accepted haccept
  rw [← (blocks_trimEndNewlines 0 file.2).1] at hne
  exact closing_infix_of_closed _ 0 none 0 hne

/-- The certificates of an exported bundle are those of the stock bundle and of each accepted
file, in the order of the names and where the file stands, exactly when no accepted file but
the last leaves one unfinished. -/
theorem bundle_blocks_iff (dir : Option (List DirEntry)) (base bundle : Text)
    (hbundle : setupOperatorCaTrust dir (some base) true = some bundle)
    (hbase : unfinished pem base = false) :
    blocks pem 0 bundle = blocks pem 0 base ++
        placedFiles ((trimEndNewlines base).length + 1) (collectOperatorCerts dir) ↔
      ∀ file ∈ (collectOperatorCerts dir).dropLast, unfinished pem file.2 = false := by
  have hmerge : bundle = mergeBundle base (collectOperatorCerts dir) ∧
      collectOperatorCerts dir ≠ [] := by
    unfold setupOperatorCaTrust planBundle at hbundle
    dsimp only at hbundle
    split at hbundle
    · cases hbundle
    rename_i hsome
    split at hbundle
    · cases hbundle
    rename_i hplan
    split at hplan
    · cases hplan
    · cases hplan
      cases hbundle
      exact ⟨rfl, fun hnil => hsome (by rw [hnil]; rfl)⟩
  obtain ⟨rfl, hne⟩ := hmerge
  have hbase : unfinished pem (trimEndNewlines base) = false := by
    rw [(blocks_trimEndNewlines 0 base).2]
    exact hbase
  have hclosing : ∀ x ∈ (trimEndNewlines base ::
      (collectOperatorCerts dir).map fun file => trimEndNewlines file.2).tail,
      pem.closing <:+: x := by
    intro x hx
    obtain ⟨file, hfile, rfl⟩ := List.mem_map.1 hx
    exact closing_infix_of_accepted hfile
  have hiff := blocks_merged_iff newline_notMem_pemBegin newline_notMem_pemEnd _ 0 hclosing
  rw [merged_map, placedFiles_eq, ← (blocks_trimEndNewlines 0 base).1]
  rw [placed, Nat.zero_add] at hiff
  rw [hiff, List.dropLast_cons_of_ne_nil (by simpa using hne), ← List.map_dropLast]
  constructor
  · intro hall file hfile
    rw [← (blocks_trimEndNewlines 0 file.2).2]
    exact hall _ (List.mem_cons_of_mem _ (List.mem_map_of_mem hfile))
  · intro hall x hx
    rcases List.mem_cons.1 hx with rfl | hx
    · exact hbase
    · obtain ⟨file, hfile, rfl⟩ := List.mem_map.1 hx
      rw [(blocks_trimEndNewlines 0 file.2).2]
      exact hall file hfile

/-! ## An unfinished certificate -/

def cert (body : String) : Text := pemBegin ++ body.toList ++ pemEnd

def certFile (name : String) (content : Text) : DirEntry :=
  ⟨name.toList, true, some content.length, some content⟩

/-- Two files, given in the other order, and the stock bundle. -/
theorem bundle_blocks_iff_two :
    setupOperatorCaTrust (some [certFile "b.pem" (cert "B"), certFile "a.crt" (cert "A")])
        (some (cert "R")) true =
          some (cert "R" ++ ['\n'] ++ cert "A" ++ ['\n'] ++ cert "B" ++ ['\n']) ∧
      blocks pem 0 (cert "R" ++ ['\n'] ++ cert "A" ++ ['\n'] ++ cert "B" ++ ['\n']) =
        [⟨0, cert "R"⟩, ⟨54, cert "A"⟩, ⟨108, cert "B"⟩] := by
  refine ⟨by decide +kernel, ?_⟩
  rw [(bundle_blocks_iff (some [certFile "b.pem" (cert "B"), certFile "a.crt" (cert "A")])
    (cert "R") _ (by decide +kernel) (by decide +kernel)).2 (by decide +kernel)]
  decide +kernel

/-- A certificate that is cut off, in a file that holds another one, takes the certificate of
the next file into it. -/
theorem unfinished_swallows_next :
    ∃ bundle, setupOperatorCaTrust (some [certFile "a.pem" (cert "A" ++ pemBegin),
        certFile "b.pem" (cert "B")]) (some (cert "R")) true = some bundle ∧
      (blocks pem 0 bundle).map Block.text =
        [cert "R", cert "A", pemBegin ++ ['\n'] ++ cert "B"] :=
  ⟨mergeBundle (cert "R") [("a.pem".toList, cert "A" ++ pemBegin), ("b.pem".toList, cert "B")],
    by decide +kernel, by decide +kernel⟩

end EmbraOS.Ports.CaBundle
