import EmbraOS.Verified.Slice
import EmbraOS.Verified.Splice
import EmbraOS.Verified.Text
import EmbraOS.Verified.Utf8

/-!
# Planning a batch of exact edits

`tools/file_patch.rs`: every edit is matched against the original buffer, all
edits are validated, and only then one output is assembled.  The planner
collects the spans of all edits, sorts them, looks for an overlap among
neighbours and rebuilds the buffer in one pass.

`findAll_spec` characterises the matcher, `planPatch_cases` says when a plan
comes out, and the pass is `Splice.sweep`, so the output is the simultaneous
replacement of all matched spans (`Splice.sweep_eq_substitute`).
`planPatch_spec` puts this together.  A `none` is a panic of the source: no
slice, index or `expect` of the planner or of its diagnostics can fail.

The matcher goes on behind each match, so an edit for one place can be accepted
although its needle also stands at a place that overlaps the match.
`planPatch_unique_iff` says when: the needle has a period, and the buffer goes
on with it.
-/

namespace EmbraOS.Ports.FilePatch

open Verified.Slice
open Verified.Splice
open Verified.Text
open Verified.Utf8

/-- Enumeration cap of the ambiguous-match report. -/
def enumCap : Nat := 10

/-- Bytes of a context line that diagnostics show. -/
def contextLineMax : Nat := 100

/-- Bytes of context on each side of a divergence. -/
def divergeContext : Nat := 24

def lf : UInt8 := 0x0A

/-- One normalised edit. -/
structure Edit where
  old : List UInt8
  new : List UInt8
  /-- The needle of the other escape mode and the `raw` value to suggest. -/
  altOld : Option (List UInt8 × Bool) := none
  replaceAll : Bool := false
  expectCount : Option Nat := none
  note : Option String := none
  deriving DecidableEq, Repr

structure EditReport where
  spans : List Nat
  oldLen : Nat
  newLen : Nat
  note : Option String
  deriving DecidableEq, Repr

structure PatchPlan where
  output : List UInt8
  reports : List EditReport
  totalReplacements : Nat
  deriving DecidableEq, Repr

/-! ## Matching -/

/-- The loop of `find_all` from position `i`. -/
def findLoop (haystack needle : List UInt8) (first : UInt8) (lastStart : Nat) :
    Nat → Nat → List Nat
  | 0, _ => []
  | fuel + 1, i =>
    if i ≤ lastStart then
      match ((haystack.take (lastStart + 1)).drop i).findIdx? (· == first) with
      | none => []
      | some off =>
        let s := i + off
        if (haystack.drop s).take needle.length = needle then
          s :: findLoop haystack needle first lastStart fuel
            (s + needle.length)
        else findLoop haystack needle first lastStart fuel (s + 1)
    else []

/-- All non-overlapping occurrences, left to right. -/
def findAll (haystack needle : List UInt8) : List Nat :=
  match needle with
  | [] => []
  | first :: _ =>
    if haystack.length < needle.length then []
    else
      let lastStart := haystack.length - needle.length
      findLoop haystack needle first lastStart (lastStart + 1) 0

/-- 1-based line number of a byte offset. -/
def lineOf (buffer : List UInt8) (pos : Nat) : Nat :=
  1 + (buffer.take (min pos buffer.length)).count lf

/-- The position of the last element that passes the test. -/
def rposition? (test : UInt8 → Bool) (xs : List UInt8) : Option Nat :=
  (xs.reverse.findIdx? test).map (fun k => xs.length - 1 - k)

/-- The line around `pos`, read lossily and cut for display. -/
def contextLine (buffer : List UInt8) (pos : Nat) : String :=
  let pos := min pos buffer.length
  let start :=
    match rposition? (· == lf) (buffer.take pos) with
    | some i => i + 1
    | none => 0
  let stop :=
    match (buffer.drop pos).findIdx? (· == lf) with
    | some i => pos + i
    | none => buffer.length
  let line := String.ofList (fromUtf8Lossy ((buffer.take stop).drop start))
  let t := truncateStr line contextLineMax
  if t.utf8ByteSize < line.utf8ByteSize then t ++ "…" else t

/-- One-line rendering of raw bytes. -/
def displaySnip (bytes : List UInt8) : String :=
  let s := String.ofList (fromUtf8Lossy bytes)
  let s := replace s "\\" "\\\\"
  let s := replace s "\n" "\\n"
  let s := replace s "\t" "\\t"
  replace s "\r" "\\r"

/-! ## Zero-match diagnostics -/

/-- Strip trailing blanks and tabs from every line. -/
def stripTrailingWsPerLine (s : String) : String :=
  let parts := segments '\n' s.toList
  let strip := fun line : List Char =>
    String.ofList ((line.reverse.dropWhile (fun c => c = ' ' || c = '\t')).reverse)
  join "\n" ((parts.1 ++ [parts.2]).map strip)

def foldConfusable (ch : Char) : List Char :=
  let n := ch.toNat
  if n = 0x2018 || n = 0x2019 then [Char.ofNat 0x27]
  else if n = 0x201C || n = 0x201D then ['"']
  else if n = 0x00A0 then [' ']
  else if n = 0x2013 || n = 0x2014 || n = 0x2212 then ['-']
  else if n = 0x2026 then ['.', '.', '.']
  else [ch]

/-- Fold of the typographic look-alikes. -/
def foldConfusables (s : String) : String :=
  String.ofList (s.toList.flatMap foldConfusable)

def lineOfStr (s : String) (pos : Nat) : Nat := lineOf (encode s.toList) pos

/-- The binary search of `prefix_divergence`.  `none` is the fuel running
out, which `bisect_spec` excludes. -/
def bisect (occurs : Nat → Bool) : Nat → Nat → Nat → Option Nat
  | 0, lo, hi => if hi - lo > 1 then none else some lo
  | fuel + 1, lo, hi =>
    if hi - lo > 1 then
      let mid := lo + (hi - lo) / 2
      if occurs mid then bisect occurs fuel mid hi
      else bisect occurs fuel lo mid
    else some lo

/-- Where the needle leaves the file behind its longest occurring beginning. -/
def prefixDivergence (buffer needle : List UInt8) : Option String := do
  let occurs := fun len => (findAll buffer (needle.take len)).head?
  let lo ← bisect (fun len => (occurs len).isSome) needle.length 0 needle.length
  if lo = 0 then
    some ("  no near-match under any relaxation\n" ++
      "  no prefix of old_string occurs in the file")
  else
    let pos ← occurs lo
    let ctxStart := lo - 12
    let fileEnd := min (pos + lo + divergeContext) buffer.length
    let givenEnd := min (lo + divergeContext) needle.length
    let fileHas ← slice? buffer (pos + ctxStart) fileEnd
    let given ← slice? needle ctxStart givenEnd
    some ("  no near-match under any relaxation\n  longest matching prefix: " ++
      toString lo ++ " of " ++ toString needle.length ++ " bytes, at line " ++
      toString (lineOf buffer pos) ++ "\n  diverges at old_string byte " ++
      toString lo ++ ":\n    file has: \"…" ++ displaySnip fileHas ++
      "\"\n    given:    \"…" ++ displaySnip given ++ "\"")

/-- One relaxation: its name, and the two texts it compares. -/
structure Probe where
  name : String
  hay : String
  needle : String

def probes (hay needle : String) : List Probe :=
  [⟨"trailing-whitespace", stripTrailingWsPerLine hay,
      stripTrailingWsPerLine needle⟩,
    ⟨"whole-string-trim", hay, trim needle⟩,
    ⟨"crlf-to-lf", replace hay "\r\n" "\n", replace needle "\r\n" "\n"⟩,
    ⟨"typographic-confusables", foldConfusables hay, foldConfusables needle⟩]

def Probe.line (p : Probe) : Option String :=
  if p.needle = "" then none
  else
    (findAll (encode p.hay.toList) (encode p.needle.toList)).head?.map
      (fun pos => "  near-match at line " ++ toString (lineOfStr p.hay pos) ++
        " under relaxation: " ++ p.name)

/-- The line for the needle of the other escape mode, when that matches. -/
def altLine (buffer : List UInt8) (edit : Edit) : Option String :=
  match edit.altOld with
  | none => none
  | some (alt, suggestRaw) =>
    match findAll buffer alt with
    | [] => none
    | first :: rest =>
      some ("  would match with raw: " ++ toString suggestRaw ++ " (" ++
        toString (rest.length + 1) ++ " occurrence(s), first at line " ++
        toString (lineOf buffer first) ++ ")")

def zeroMatchReport (buffer : List UInt8) (edit : Edit) (idx : Nat) :
    Option String := do
  let header := "no exact match for edits[" ++ toString idx ++ "].old_string"
  let hay := String.ofList (fromUtf8Lossy buffer)
  let needle := String.ofList (fromUtf8Lossy edit.old)
  let near := (probes hay needle).filterMap Probe.line ++
    (altLine buffer edit).toList
  let last ←
    if near ≠ [] then
      some "  (not applied — extend or correct old_string and retry)"
    else prefixDivergence buffer edit.old
  some (join "\n" (header :: (near ++ [last])))

def ambiguousReport (buffer : List UInt8) (spans : List Nat) (idx count : Nat) :
    String :=
  let header := "edits[" ++ toString idx ++ "].old_string matches " ++
    toString count ++
    " times — extend old_string with more context or set replace_all"
  let shown := (spans.take enumCap).map (fun pos =>
    "  line " ++ padLeft 5 (toString (lineOf buffer pos)) ++ ": " ++
      contextLine buffer pos)
  let more := if count > enumCap then
    ["  … " ++ toString (count - enumCap) ++ " more"] else []
  join "\n" (header :: (shown ++ more))

/-! ## The planner -/

/-- Phase 1 for one edit: its matches in the original buffer. -/
def matchEdit (buffer : List UInt8) (idx : Nat) (edit : Edit) :
    Option (Except String (List Nat)) :=
  if edit.old = [] then
    some (.error ("edits[" ++ toString idx ++
      "].old_string is empty — empty match anchors are meaningless"))
  else
    let spans := findAll buffer edit.old
    let count := spans.length
    if count = 0 then (zeroMatchReport buffer edit idx).map .error
    else
      match edit.expectCount.filter (fun e => decide (count ≠ e)) with
      | some expected =>
        some (.error ("edits[" ++ toString idx ++ "] expect_count is " ++
          toString expected ++ " but old_string matches " ++ toString count ++
          " time(s)"))
      | none =>
        if count > 1 && !edit.replaceAll then
          some (.error (ambiguousReport buffer spans idx count))
        else some (.ok spans)

/-- Phase 1: the first edit that fails ends it. -/
def matchEdits (buffer : List UInt8) : Nat → List Edit →
    Option (Except String (List (List Nat)))
  | _, [] => some (.ok [])
  | idx, edit :: edits => do
    match ← matchEdit buffer idx edit with
    | .error message => some (.error message)
    | .ok spans =>
      match ← matchEdits buffer (idx + 1) edits with
      | .error message => some (.error message)
      | .ok kept => some (.ok (spans :: kept))

/-- `(start, end, edit_idx)`. -/
structure MatchSpan where
  start : Nat
  stop : Nat
  idx : Nat
  deriving DecidableEq, Repr

/-- The order of the tuples. -/
def MatchSpan.Le (a b : MatchSpan) : Prop :=
  a.start < b.start ∨ a.start = b.start ∧
    (a.stop < b.stop ∨ a.stop = b.stop ∧ a.idx ≤ b.idx)

instance (a b : MatchSpan) : Decidable (MatchSpan.Le a b) :=
  inferInstanceAs (Decidable (_ ∨ _))

/-- The spans of the edits from number `idx` on. -/
def collectSpans : Nat → List Edit → List (List Nat) → List MatchSpan
  | idx, edit :: edits, spans :: kept =>
    spans.map (fun s => ⟨s, s + edit.old.length, idx⟩) ++
      collectSpans (idx + 1) edits kept
  | _, _, _ => []

/-- The first pair of neighbours that overlap. -/
def firstOverlap : List MatchSpan → Option (MatchSpan × MatchSpan)
  | a :: b :: rest =>
    if a.stop > b.start then some (a, b) else firstOverlap (b :: rest)
  | _ => none

def overlapReport (buffer : List UInt8) (a b : MatchSpan) : String :=
  let line := fun m : MatchSpan =>
    "\n  edits[" ++ toString m.idx ++ "]: bytes " ++ toString m.start ++ ".." ++
      toString m.stop ++ " (line " ++ toString (lineOf buffer m.start) ++ ")"
  "edits[" ++ toString a.idx ++ "] and edits[" ++ toString b.idx ++
    "] have overlapping matches" ++ line a ++ line b

/-- Phase 3 from `cursor` on. -/
def applySpans (buffer : List UInt8) (edits : List Edit) :
    Nat → List MatchSpan → Option (List UInt8)
  | cursor, [] => sliceFrom? buffer cursor
  | cursor, m :: rest => do
    let gap ← slice? buffer cursor m.start
    let edit ← edits[m.idx]?
    let tail ← applySpans buffer edits m.stop rest
    some (gap ++ (edit.new ++ tail))

def editReports (edits : List Edit) (kept : List (List Nat)) : List EditReport :=
  (edits.zip kept).map (fun (edit, spans) =>
    { spans := spans
      oldLen := edit.old.length
      newLen := edit.new.length
      note := edit.note })

def planPatch (buffer : List UInt8) (edits : List Edit) :
    Option (Except String PatchPlan) :=
  if edits = [] then
    some (.error "edits is empty — supply at least one edit")
  else do
    match ← matchEdits buffer 0 edits with
    | .error message => some (.error message)
    | .ok kept =>
      let allSpans := (collectSpans 0 edits kept).insertionSort MatchSpan.Le
      match firstOverlap allSpans with
      | some (a, b) => some (.error (overlapReport buffer a b))
      | none =>
        let output ← applySpans buffer edits 0 allSpans
        some (.ok
          { output := output
            reports := editReports edits kept
            totalReplacements := allSpans.length })

/-! ## The matcher -/

/-- The needle stands at position `s`. -/
def OccursAt (haystack needle : List UInt8) (s : Nat) : Prop :=
  (haystack.drop s).take needle.length = needle

variable {haystack needle rest buffer : List UInt8} {s : Nat} {edits : List Edit}
  {ms : List MatchSpan}

theorem OccursAt.le (h : OccursAt haystack needle s) (hne : needle ≠ []) :
    s + needle.length ≤ haystack.length := by
  have hlen := congrArg List.length h
  rw [List.length_take, List.length_drop] at hlen
  have hpos : 0 < needle.length := List.length_pos_iff.2 hne
  omega

/-- Where the needle stands, its first byte stands. -/
private theorem OccursAt.head {first : UInt8} (h : OccursAt haystack (first :: rest) s) :
    haystack[s]? = some first := by
  have hhead := congrArg List.head? h
  rw [List.head?_take, if_neg (by simp), List.head?_drop, List.head?_cons] at hhead
  exact hhead

/-- Matches from `i` on: they are occurrences, apart from each other, and
every occurrence begins inside one of them. -/
structure MatchesFrom (haystack needle : List UInt8) (i : Nat)
    (out : List Nat) : Prop where
  ge : ∀ s ∈ out, i ≤ s
  occurs : ∀ s ∈ out, OccursAt haystack needle s
  apart : out.Pairwise (fun s t => s + needle.length ≤ t)
  complete : ∀ s, i ≤ s → OccursAt haystack needle s →
    ∃ m ∈ out, m ≤ s ∧ s < m + needle.length

theorem findLoop_spec {first : UInt8} {lastStart : Nat} (hneedle : needle = first :: rest)
    (hlast : lastStart + needle.length = haystack.length) (fuel : Nat) :
    ∀ i, lastStart < i + fuel →
      MatchesFrom haystack needle i
        (findLoop haystack needle first lastStart fuel i) := by
  have hpos : 0 < needle.length := by simp [hneedle]
  have hne : needle ≠ [] := by simp [hneedle]
  have hnone : ∀ i, lastStart < i → MatchesFrom haystack needle i [] := by
    intro i hi
    refine { ge := by simp, occurs := by simp, apart := .nil, complete := ?_ }
    intro s hs hocc
    have := hocc.le hne
    omega
  induction fuel with
  | zero => intro i hi; exact hnone i (by omega)
  | succ fuel ih =>
    intro i hfuel
    rw [findLoop]
    split
    · rename_i hi
      cases hfind : ((haystack.take (lastStart + 1)).drop i).findIdx?
          (· == first) with
      | none =>
        refine { ge := by simp, occurs := by simp, apart := .nil,
                 complete := ?_ }
        intro s hs hocc
        -- an occurrence would have put its first byte into the window
        exfalso
        have hle := hocc.le hne
        have hhead := (hneedle ▸ hocc : OccursAt haystack (first :: rest) s).head
        rw [List.findIdx?_eq_none_iff] at hfind
        have hmem : first ∈ (haystack.take (lastStart + 1)).drop i := by
          apply List.mem_of_getElem? (i := s - i)
          rw [List.getElem?_drop, List.getElem?_take,
            if_pos (by omega), show i + (s - i) = s by omega]
          exact hhead
        simpa using hfind first hmem
      | some off =>
        obtain ⟨hoff, hbyte, hbefore⟩ :=
          List.findIdx?_eq_some_iff_getElem.1 hfind
        rw [List.length_drop, List.length_take] at hoff
        -- no occurrence begins before the byte that was found
        have hskip : ∀ s, i ≤ s → s < i + off →
            ¬OccursAt haystack needle s := by
          intro s hs hlt hocc
          have hhead :=
            (hneedle ▸ hocc : OccursAt haystack (first :: rest) s).head
          have hb := hbefore (s - i) (by omega)
          rw [List.getElem_drop, List.getElem_take] at hb
          have hsome : haystack[s]? =
              some (haystack[i + (s - i)]) := by
            rw [← List.getElem?_eq_getElem, show i + (s - i) = s by omega]
          rw [hhead] at hsome
          exact hb (by simp [Option.some.inj hsome])
        dsimp only
        split
        · rename_i hocc
          have hrec := ih (i + off + needle.length) (by omega)
          refine { ge := ?_, occurs := ?_, apart := ?_, complete := ?_ }
          · rintro s (_ | ⟨_, hs⟩)
            · omega
            · have := hrec.ge s hs
              omega
          · rintro s (_ | ⟨_, hs⟩)
            · exact hocc
            · exact hrec.occurs s hs
          · exact List.pairwise_cons.2 ⟨hrec.ge, hrec.apart⟩
          · intro s hs hs'
            by_cases hlt : s < i + off
            · exact absurd hs' (hskip s hs hlt)
            · by_cases hin : s < i + off + needle.length
              · exact ⟨i + off, by simp, by omega, hin⟩
              · obtain ⟨m, hm, h1, h2⟩ := hrec.complete s (by omega) hs'
                exact ⟨m, by simp [hm], h1, h2⟩
        · rename_i hocc
          have hrec := ih (i + off + 1) (by omega)
          refine { ge := ?_, occurs := hrec.occurs, apart := hrec.apart,
                   complete := ?_ }
          · intro s hs
            have := hrec.ge s hs
            omega
          · intro s hs hs'
            by_cases hlt : s < i + off
            · exact absurd hs' (hskip s hs hlt)
            · by_cases heq : s = i + off
              · rw [heq] at hs'
                exact absurd hs' hocc
              · exact hrec.complete s (by omega) hs'
    · exact hnone i (by omega)

/-- The matcher: left to right, without overlap, and no occurrence is missed
but those that begin inside a match. -/
theorem findAll_spec (hne : needle ≠ []) :
    MatchesFrom haystack needle 0 (findAll haystack needle) := by
  obtain ⟨first, rest, rfl⟩ := List.exists_cons_of_ne_nil hne
  rw [findAll]
  split
  · rename_i hshort
    refine { ge := by simp, occurs := by simp, apart := .nil, complete := ?_ }
    intro s _ hocc
    have := hocc.le hne
    omega
  · exact findLoop_spec rfl (by omega) _ 0 (by omega)

theorem findAll_ne_nil_iff (hne : needle ≠ []) :
    findAll haystack needle ≠ [] ↔ ∃ s, OccursAt haystack needle s := by
  have hspec := @findAll_spec haystack needle hne
  constructor
  · intro h
    obtain ⟨s, rest, hs⟩ := List.exists_cons_of_ne_nil h
    exact ⟨s, hspec.occurs s (by simp [hs])⟩
  · rintro ⟨s, hs⟩ hnil
    obtain ⟨m, hm, -⟩ := hspec.complete s (Nat.zero_le _) hs
    rw [hnil] at hm
    exact absurd hm (by simp)

/-! ## The diagnostics do not panic -/

/-- The search stops at a length that passes, and the next one does not. -/
theorem bisect_spec (occurs : Nat → Bool) (fuel : Nat) :
    ∀ lo hi, lo < hi → hi - lo ≤ fuel + 1 →
      ∃ r, bisect occurs fuel lo hi = some r ∧ r < hi ∧ (r = lo ∨ occurs r = true) ∧
        (r + 1 = hi ∨ occurs (r + 1) = false) := by
  induction fuel with
  | zero =>
    intro lo hi hlt hfuel
    exact ⟨lo, by rw [bisect, if_neg (by omega)], hlt, Or.inl rfl, Or.inl (by omega)⟩
  | succ fuel ih =>
    intro lo hi hlt hfuel
    rw [bisect]
    split
    · dsimp only
      split
      · rename_i hmid
        obtain ⟨r, hr, hrlt, hor, hend⟩ :=
          ih (lo + (hi - lo) / 2) hi (by omega) (by omega)
        refine ⟨r, hr, hrlt, Or.inr ?_, hend⟩
        rcases hor with rfl | hor
        · exact hmid
        · exact hor
      · rename_i hmid
        obtain ⟨r, hr, hrlt, hor, hend⟩ :=
          ih lo (lo + (hi - lo) / 2) (by omega) (by omega)
        refine ⟨r, hr, by omega, hor, Or.inr ?_⟩
        rcases hend with hend | hend
        · rw [hend]
          exact Bool.not_eq_true _ ▸ hmid
        · exact hend
    · exact ⟨lo, rfl, hlt, Or.inl rfl, Or.inl (by omega)⟩

/-- The first `k` bytes of the needle stand in the buffer. -/
def Begins (buffer needle : List UInt8) (k : Nat) : Prop :=
  ∃ s, OccursAt buffer (needle.take k) s

/-- A beginning stands where a longer one does. -/
theorem Begins.mono {m n : Nat} (h : Begins buffer needle n) (hmn : m ≤ n) :
    Begins buffer needle m := by
  obtain ⟨s, hs⟩ := h
  have hcut := congrArg (List.take m) hs
  rw [List.take_take, List.take_take, Nat.min_eq_left hmn, List.length_take] at hcut
  refine ⟨s, ?_⟩
  rw [OccursAt, List.length_take, ← hcut, ← Nat.min_assoc, Nat.min_eq_left hmn]

/-- A place is on the line after the line feeds before it. -/
theorem lineOf_eq (buffer : List UInt8) (pos : Nat) :
    lineOf buffer pos = (buffer.take pos).count lf + 1 := by
  rw [lineOf, ← List.take_eq_take_min, Nat.add_comm]

/-- What is said of the first `k` bytes, with the line where they stand first: one more than the
line feeds before it. -/
def Reported (buffer needle : List UInt8) (k : Nat) : Prop :=
  if k = 0 then prefixDivergence buffer needle = some ("  no near-match under any relaxation\n" ++
    "  no prefix of old_string occurs in the file")
  else ∃ pos windows, OccursAt buffer (needle.take k) pos ∧
    (∀ s < pos, ¬OccursAt buffer (needle.take k) s) ∧
    prefixDivergence buffer needle =
      some ("  no near-match under any relaxation\n  longest matching prefix: " ++ toString k ++
        " of " ++ toString needle.length ++ " bytes, at line " ++
        toString ((buffer.take pos).count lf + 1) ++ "\n  diverges at old_string byte " ++
        toString k ++ ":\n    file has: \"…" ++ windows)

theorem prefixDivergence_reported (buffer needle : List UInt8) :
    ∃ k, Begins buffer needle k ∧ (needle.length ≤ k + 1 ∨ ¬Begins buffer needle (k + 1)) ∧
      Reported buffer needle k := by
  by_cases hneedle : needle = []
  · subst hneedle
    exact ⟨0, ⟨0, rfl⟩, Or.inl (Nat.zero_le _), rfl⟩
  have hne : ∀ {m}, m ≠ 0 → needle.take m ≠ [] :=
    fun hm h => (List.take_eq_nil_iff.1 h).elim hm hneedle
  obtain ⟨k, hk, hlt, hor, hend⟩ := bisect_spec
    (fun len => (findAll buffer (needle.take len)).head?.isSome) needle.length 0
    needle.length (List.length_pos_iff.2 hneedle) (by omega)
  have hstop : needle.length ≤ k + 1 ∨ ¬Begins buffer needle (k + 1) := by
    refine hend.imp (fun h => h.ge) fun hend hbegins => ?_
    have hfound := List.isSome_head?.2 ((findAll_ne_nil_iff (hne k.succ_ne_zero)).2 hbegins)
    rw [hend] at hfound
    cases hfound
  by_cases hzero : k = 0
  · refine ⟨k, hzero ▸ ⟨0, rfl⟩, hstop, ?_⟩
    simp only [Reported, prefixDivergence, hk, Option.bind_eq_bind, Option.bind_some]
    rw [if_pos hzero, if_pos hzero]
  obtain ⟨pos, hpos⟩ := Option.isSome_iff_exists.1 (hor.resolve_left hzero)
  have hspec := @findAll_spec buffer _ (hne hzero)
  have hocc := hspec.occurs pos (List.mem_of_head? hpos)
  refine ⟨k, ⟨pos, hocc⟩, hstop, ?_⟩
  rw [Reported, if_neg hzero]
  refine ⟨pos, ?_, hocc, ?_, ?_⟩
  rotate_left
  · intro s hs hearly
    obtain ⟨m, hm, hle, -⟩ := hspec.complete s (Nat.zero_le s) hearly
    obtain ⟨rest, hrest⟩ := List.head?_eq_some_iff.1 hpos
    rw [hrest] at hm hspec
    rcases List.mem_cons.1 hm with rfl | hm
    · omega
    · have := (List.pairwise_cons.1 hspec.apart).1 m hm
      omega
  · -- the beginning stands in the buffer, so both windows are inside
    have hin := hocc.le (hne hzero)
    rw [List.length_take, Nat.min_eq_left hlt.le] at hin
    simp only [prefixDivergence, hk, Option.bind_eq_bind, Option.bind_some]
    rw [if_neg hzero, hpos, Option.bind_some, slice?_eq (by omega) (by omega),
      Option.bind_some, slice?_eq (by omega) (by omega)]
    simp only [Option.bind_some, lineOf_eq, String.append_assoc]
    rfl

theorem prefixDivergence_isSome (buffer needle : List UInt8) :
    (prefixDivergence buffer needle).isSome = true := by
  obtain ⟨k, -, -, hreport⟩ := prefixDivergence_reported buffer needle
  rw [Reported] at hreport
  split at hreport
  · rw [hreport, Option.isSome_some]
  · obtain ⟨pos, windows, -, -, hreport⟩ := hreport
    rw [hreport, Option.isSome_some]

/-- **The longest beginning.**  A beginning of the needle stands wherever a longer one does.  When
the needle does not match, the report is about the longest beginning that stands in the buffer
and the line of its first place. -/
theorem prefixDivergence_longest (buffer needle : List UInt8) :
    (∀ m n, m ≤ n → Begins buffer needle n → Begins buffer needle m) ∧
      (findAll buffer needle = [] → ∃ k, Reported buffer needle k ∧
        ∀ m ≤ needle.length, Begins buffer needle m ↔ m ≤ k) := by
  refine ⟨fun m n hmn h => h.mono hmn, fun hnone => ?_⟩
  obtain ⟨k, hbegins, hstop, hreport⟩ := prefixDivergence_reported buffer needle
  refine ⟨k, hreport, fun m hm => ⟨fun h => ?_, hbegins.mono⟩⟩
  by_contra hkm
  have hnext := h.mono (show k + 1 ≤ m by omega)
  refine hstop.elim (fun hlen => ?_) fun hnot => hnot hnext
  rw [show k + 1 = needle.length by omega, Begins, List.take_length] at hnext
  exact (findAll_ne_nil_iff (List.length_pos_iff.1 (by omega))).2 hnext hnone

/-- The beginning may end inside a character: `è` and `é` share their first byte. -/
theorem prefixDivergence_inside_character :
    findAll (encode ['è']) (encode ['é']) = [] ∧ isBoundary (encode ['é']) 1 = false ∧
      prefixDivergence (encode ['è']) (encode ['é']) =
        some ("  no near-match under any relaxation\n  longest matching prefix: 1 of 2 bytes, " ++
          "at line 1\n  diverges at old_string byte 1:\n    file has: \"…è\"\n" ++
          "    given:    \"…é\"") := by
  decide +kernel

theorem zeroMatchReport_isSome (buffer : List UInt8) (edit : Edit) (idx : Nat) :
    (zeroMatchReport buffer edit idx).isSome = true := by
  obtain ⟨text, htext⟩ :=
    Option.isSome_iff_exists.1 (prefixDivergence_isSome buffer edit.old)
  simp only [zeroMatchReport, htext]
  split <;> rfl

/-! ## Phase 1 -/

/-- What is asked of one edit. -/
structure Accepts (buffer : List UInt8) (edit : Edit) : Prop where
  nonempty : edit.old ≠ []
  occurs : ∃ s, OccursAt buffer edit.old s
  count : ∀ n, edit.expectCount = some n → (findAll buffer edit.old).length = n
  unique : edit.replaceAll = false → (findAll buffer edit.old).length = 1

theorem matchEdit_spec (buffer : List UInt8) (idx : Nat) (edit : Edit) :
    (Accepts buffer edit ∧
      matchEdit buffer idx edit = some (.ok (findAll buffer edit.old))) ∨
    (¬Accepts buffer edit ∧
      ∃ message, matchEdit buffer idx edit = some (.error message)) := by
  unfold matchEdit
  split
  · rename_i hempty
    exact Or.inr ⟨fun h => h.nonempty hempty, _, rfl⟩
  rename_i hne
  dsimp only
  split
  · rename_i hzero
    obtain ⟨report, hreport⟩ :=
      Option.isSome_iff_exists.1 (zeroMatchReport_isSome buffer edit idx)
    refine Or.inr ⟨fun h => ?_, report, by rw [hreport]; rfl⟩
    exact (findAll_ne_nil_iff hne).2 h.occurs (List.length_eq_zero_iff.1 hzero)
  · rename_i hzero
    have hoccurs : ∃ s, OccursAt buffer edit.old s :=
      (findAll_ne_nil_iff hne).1 (fun h => hzero (by rw [h]; rfl))
    split
    · rename_i expected hexpected
      rw [Option.filter_eq_some_iff] at hexpected
      refine Or.inr ⟨fun h => ?_, _, rfl⟩
      exact (of_decide_eq_true hexpected.2) (h.count expected hexpected.1)
    · rename_i hexpected
      rw [Option.filter_eq_none_iff] at hexpected
      have hcount : ∀ n, edit.expectCount = some n →
          (findAll buffer edit.old).length = n := by
        intro n hn
        have := hexpected n hn
        simpa using this
      split
      · rename_i hmany
        simp only [Bool.and_eq_true, decide_eq_true_eq,
          Bool.not_eq_true'] at hmany
        refine Or.inr ⟨fun h => ?_, _, rfl⟩
        have := h.unique hmany.2
        omega
      · rename_i hmany
        simp only [Bool.and_eq_true, decide_eq_true_eq,
          Bool.not_eq_true', not_and] at hmany
        refine Or.inl ⟨⟨hne, hoccurs, hcount, fun hall => ?_⟩, rfl⟩
        have hle : ¬1 < (findAll buffer edit.old).length :=
          fun h => hmany h hall
        omega

theorem matchEdits_spec (buffer : List UInt8) (edits : List Edit) :
    ∀ idx, ((∀ e ∈ edits, Accepts buffer e) ∧
        matchEdits buffer idx edits =
          some (.ok (edits.map (fun e => findAll buffer e.old)))) ∨
      (¬(∀ e ∈ edits, Accepts buffer e) ∧
        ∃ message, matchEdits buffer idx edits = some (.error message)) := by
  induction edits with
  | nil => intro idx; exact Or.inl ⟨by simp, rfl⟩
  | cons edit edits ih =>
    intro idx
    rcases matchEdit_spec buffer idx edit with
      ⟨haccepts, hedit⟩ | ⟨hrejects, message, hedit⟩
    · rcases ih (idx + 1) with ⟨hall, hrest⟩ | ⟨hnot, message, hrest⟩
      · refine Or.inl ⟨by simpa using ⟨haccepts, hall⟩, ?_⟩
        simp [matchEdits, hedit, hrest]
      · refine Or.inr ⟨fun h => hnot (fun e he => h e (by simp [he])),
          message, ?_⟩
        simp [matchEdits, hedit, hrest]
    · refine Or.inr ⟨fun h => hrejects (h edit (by simp)), message, ?_⟩
      simp [matchEdits, hedit]

/-! ## Phases 2 and 3 -/

/-- The matched spans of all edits, with their replacements. -/
def matchedSpans (buffer : List UInt8) (edits : List Edit) : List (Span UInt8) :=
  edits.flatMap (fun e => (findAll buffer e.old).map
    (fun s => ⟨s, s + e.old.length, e.new⟩))

theorem matchedSpans_fits (h : ∀ e ∈ edits, e.old ≠ []) :
    ∀ sp ∈ matchedSpans buffer edits, sp.Fits buffer.length := by
  intro sp hsp
  obtain ⟨e, he, hmem⟩ := List.mem_flatMap.1 hsp
  obtain ⟨s, hs, rfl⟩ := List.mem_map.1 hmem
  have hle := ((findAll_spec (h e he)).occurs s hs).le (h e he)
  have hpos : 0 < e.old.length := List.length_pos_iff.2 (h e he)
  exact { lt := by simp only; omega, le := hle }

/-- The span a tuple stands for. -/
def MatchSpan.toSpan (edits : List Edit) (m : MatchSpan) : Span UInt8 :=
  ⟨m.start, m.stop, ((edits[m.idx]?).map Edit.new).getD []⟩

/-- The collected tuples are the matched spans, each with the number of its
edit.  The edits before the current one are generalised. -/
theorem collectSpans_spec (buffer : List UInt8) (edits : List Edit) :
    ∀ before, ((collectSpans before.length edits
          (edits.map (fun e => findAll buffer e.old))).map
        (MatchSpan.toSpan (before ++ edits)) = matchedSpans buffer edits) ∧
      ∀ m ∈ collectSpans before.length edits
        (edits.map (fun e => findAll buffer e.old)),
        m.idx < (before ++ edits).length := by
  induction edits with
  | nil => intro before; simp [collectSpans, matchedSpans]
  | cons edit edits ih =>
    intro before
    obtain ⟨hmap, hidx⟩ := ih (before ++ [edit])
    rw [List.length_append, List.length_singleton, List.append_assoc,
      List.singleton_append] at hmap hidx
    constructor
    · have hcons : matchedSpans buffer (edit :: edits) =
          (findAll buffer edit.old).map
            (fun s => ⟨s, s + edit.old.length, edit.new⟩) ++
            matchedSpans buffer edits := List.flatMap_cons
      rw [List.map_cons, collectSpans, List.map_append, hmap, hcons,
        List.map_map]
      congr 1
      apply List.map_congr_left
      intro s _
      simp [MatchSpan.toSpan]
    · intro m hm
      rw [List.map_cons, collectSpans, List.mem_append] at hm
      rcases hm with hm | hm
      · obtain ⟨s, -, rfl⟩ := List.mem_map.1 hm
        simp
      · exact hidx m hm

/-- Phase 3 over tuples in order is the one-pass replacement. -/
theorem applySpans_eq (ms : List MatchSpan) :
    ∀ cursor, cursor ≤ buffer.length →
      (∀ m ∈ ms, m.idx < edits.length ∧ (m.toSpan edits).Fits buffer.length) →
      (∀ m ∈ ms, cursor ≤ m.start) →
      ms.Pairwise (fun a b => a.stop ≤ b.start) →
      applySpans buffer edits cursor ms =
        some (sweep buffer cursor (ms.map (MatchSpan.toSpan edits))) := by
  induction ms with
  | nil =>
    intro cursor hcursor _ _ _
    rw [applySpans, sliceFrom?_eq hcursor]
    rfl
  | cons m ms ih =>
    intro cursor hcursor hfits hge hsorted
    obtain ⟨hhead, htail⟩ := List.pairwise_cons.1 hsorted
    obtain ⟨hidx, hfit⟩ := hfits m (by simp)
    have hstart := hge m (by simp)
    have hlt : m.start < m.stop := hfit.lt
    have hle : m.stop ≤ buffer.length := hfit.le
    have hrest := ih m.stop hle (fun m' hm' => hfits m' (by simp [hm'])) hhead
      htail
    have hedit : edits[m.idx]? = some edits[m.idx] :=
      List.getElem?_eq_getElem hidx
    simp only [applySpans, slice?_eq hstart (by omega : m.start ≤ buffer.length),
      hedit, hrest, Option.bind_eq_bind, Option.bind_some, List.map_cons, sweep,
      List.drop_take]
    simp [MatchSpan.toSpan, hedit]

/-- No neighbours overlap. -/
theorem firstOverlap_eq_none_iff (hlt : ∀ m ∈ ms, m.start < m.stop) :
    firstOverlap ms = none ↔ ms.Pairwise (fun a b => a.stop ≤ b.start) := by
  induction ms with
  | nil => simp [firstOverlap]
  | cons a ms ih =>
    cases ms with
    | nil => simp [firstOverlap]
    | cons b rest =>
      have ih := ih (fun m hm => hlt m (by simp [hm]))
      rw [firstOverlap, List.pairwise_cons]
      split
      · rename_i hgt
        constructor
        · simp
        · rintro ⟨hhead, -⟩
          have := hhead b (by simp)
          omega
      · rename_i hgt
        rw [ih]
        constructor
        · intro hpair
          refine ⟨?_, hpair⟩
          have hb := (List.pairwise_cons.1 hpair).1
          rintro m (_ | ⟨_, hm⟩)
          · omega
          · have h1 := hb m hm
            have h2 := hlt b (by simp)
            omega
        · exact And.right

/-- In sorted order, no overlap of neighbours is no overlap at all. -/
theorem firstOverlap_sorted_iff
    (hlt : ∀ m ∈ ms, m.start < m.stop) (hsorted : ms.Pairwise MatchSpan.Le) :
    firstOverlap ms = none ↔
      (ms.map (MatchSpan.toSpan edits)).Pairwise Span.Disjoint := by
  rw [firstOverlap_eq_none_iff hlt, List.pairwise_map]
  constructor
  · intro h
    exact h.imp (fun hab => Or.inl hab)
  intro h
  have hboth := List.Pairwise.and_mem.1 (hsorted.and h)
  refine hboth.imp ?_
  rintro a b ⟨ha, hb, hle, hdisj⟩
  rcases hdisj with hdisj | hdisj
  · exact hdisj
  · have h1 := hlt a ha
    have h2 := hlt b hb
    simp only [MatchSpan.toSpan] at hdisj
    rcases hle with hle | hle <;> omega

instance : IsTrans MatchSpan MatchSpan.Le where
  trans a b c hab hbc := by
    unfold MatchSpan.Le at *
    omega

instance : Std.Total MatchSpan.Le where
  total a b := by
    unfold MatchSpan.Le
    omega

/-! ## The plan -/

/-- When a plan is to come out. -/
structure Plannable (buffer : List UInt8) (edits : List Edit) : Prop where
  nonempty : edits ≠ []
  accepts : ∀ e ∈ edits, Accepts buffer e
  disjoint : (matchedSpans buffer edits).Pairwise Span.Disjoint

/-- When a plan comes out, and what it holds. -/
theorem planPatch_cases (buffer : List UInt8) (edits : List Edit) :
    (Plannable buffer edits ∧
      ∃ plan, planPatch buffer edits = some (.ok plan) ∧
        plan.output = substitute buffer (matchedSpans buffer edits)) ∨
    (¬Plannable buffer edits ∧
      ∃ message, planPatch buffer edits = some (.error message)) := by
  unfold planPatch
  split
  · rename_i hempty
    exact Or.inr ⟨fun h => h.nonempty hempty, _, rfl⟩
  rename_i hne
  rcases matchEdits_spec buffer edits 0 with
    ⟨hall, hkept⟩ | ⟨hnot, message, hkept⟩
  · obtain ⟨hmap, hidx⟩ := collectSpans_spec buffer edits []
    simp only [List.length_nil, List.nil_append] at hmap hidx
    generalize htuples : collectSpans 0 edits
      (edits.map (fun e => findAll buffer e.old)) = tuples at hmap hidx
    have hperm := List.perm_insertionSort MatchSpan.Le tuples
    have hsorted := List.pairwise_insertionSort MatchSpan.Le tuples
    simp only [hkept, htuples, Option.bind_eq_bind, Option.bind_some]
    generalize tuples.insertionSort MatchSpan.Le = sorted at hperm hsorted
    -- the sorted tuples stand for the matched spans in another order
    have hspans : (sorted.map (MatchSpan.toSpan edits)).Perm
        (matchedSpans buffer edits) := hmap ▸ hperm.map _
    have hfits : ∀ m ∈ sorted, m.idx < edits.length ∧
        (m.toSpan edits).Fits buffer.length := by
      intro m hm
      refine ⟨hidx m (hperm.mem_iff.1 hm), ?_⟩
      exact matchedSpans_fits (fun e he => (hall e he).nonempty) _
        (hspans.mem_iff.1 (List.mem_map_of_mem hm))
    have hlt : ∀ m ∈ sorted, m.start < m.stop := fun m hm => (hfits m hm).2.lt
    have hdisj : (matchedSpans buffer edits).Pairwise Span.Disjoint ↔
        firstOverlap sorted = none := by
      rw [@firstOverlap_sorted_iff edits sorted hlt hsorted]
      exact (hspans.pairwise_iff Span.Disjoint.symm).symm
    cases hover : firstOverlap sorted with
    | some pair =>
      refine Or.inr ⟨fun h => ?_, _, rfl⟩
      rw [hdisj.1 h.disjoint] at hover
      exact absurd hover (by simp)
    | none =>
      have hpair := (firstOverlap_eq_none_iff hlt).1 hover
      have happly := applySpans_eq sorted 0 (Nat.zero_le _) hfits
        (fun _ _ => Nat.zero_le _) hpair
      have hsweep : sweep buffer 0 (sorted.map (MatchSpan.toSpan edits)) =
          substitute buffer (matchedSpans buffer edits) := by
        have hmapFits : ∀ sp ∈ sorted.map (MatchSpan.toSpan edits),
            sp.Fits buffer.length := by
          intro sp hsp
          obtain ⟨m, hm, rfl⟩ := List.mem_map.1 hsp
          exact (hfits m hm).2
        rw [sweep_eq_substitute hmapFits (List.pairwise_map.2 hpair)]
        exact substitute_perm hspans hmapFits
          ((firstOverlap_sorted_iff hlt hsorted).1 hover)
      refine Or.inl ⟨⟨hne, hall, hdisj.2 hover⟩, ?_⟩
      simp only [happly, Option.bind_some]
      exact ⟨_, rfl, hsweep⟩
  · refine Or.inr ⟨fun h => hnot h.accepts, message, ?_⟩
    simp only [hkept, Option.bind_eq_bind, Option.bind_some]

/-- The output of a plan, when there is one. -/
def outputOf : Option (Except String PatchPlan) → Option (List UInt8)
  | some (.ok plan) => some plan.output
  | _ => none

section Order

variable {buffer : List UInt8} {edits edits' : List Edit}

theorem matchedSpans_perm (h : edits.Perm edits') :
    (matchedSpans buffer edits).Perm (matchedSpans buffer edits') :=
  h.flatMap_right _

theorem Plannable.perm (hplan : Plannable buffer edits) (h : edits.Perm edits') :
    Plannable buffer edits' where
  nonempty := fun hnil => hplan.nonempty (by rw [hnil] at h; exact h.eq_nil)
  accepts := fun e he => hplan.accepts e (h.mem_iff.2 he)
  disjoint := ((matchedSpans_perm h).pairwise_iff Span.Disjoint.symm).1
    hplan.disjoint

/-- Permuting the edits changes neither success nor the output. -/
theorem outputOf_planPatch_perm (h : edits.Perm edits') :
    outputOf (planPatch buffer edits) = outputOf (planPatch buffer edits') := by
  rcases planPatch_cases buffer edits with
    ⟨hok, plan, hplan, hout⟩ | ⟨hnot, message, hplan⟩ <;>
  rcases planPatch_cases buffer edits' with
    ⟨hok', plan', hplan', hout'⟩ | ⟨hnot', message', hplan'⟩
  · rw [hplan, hplan', outputOf, outputOf, hout, hout',
      substitute_perm (matchedSpans_perm h)
        (matchedSpans_fits (fun e he => (hok.accepts e he).nonempty)) hok.disjoint]
  · exact absurd (hok.perm h) hnot'
  · exact absurd (hok'.perm h.symm) hnot
  · rw [hplan, hplan']
    rfl

end Order

/-- For every buffer and every list of edits, the planner answers with a plan
or a message.  It gives a plan exactly when there is an edit, every edit is
acceptable by itself and all matched spans are pairwise disjoint; then the
output is the original with exactly those spans replaced.  The spans of an
edit are the left-to-right occurrences of its needle in the original.  The
order of the edits does not matter. -/
theorem planPatch_spec (buffer : List UInt8) (edits : List Edit) :
    (planPatch buffer edits).isSome = true ∧
    ((∃ plan, planPatch buffer edits = some (.ok plan)) ↔
      Plannable buffer edits) ∧
    (∀ plan, planPatch buffer edits = some (.ok plan) →
      plan.output = substitute buffer (matchedSpans buffer edits) ∧
      ∀ e ∈ edits, MatchesFrom buffer e.old 0 (findAll buffer e.old)) ∧
    ∀ edits', edits.Perm edits' →
      outputOf (planPatch buffer edits') = outputOf (planPatch buffer edits) := by
  refine ⟨?_, ?_, ?_, fun edits' h => (outputOf_planPatch_perm h).symm⟩
  · rcases planPatch_cases buffer edits with
      ⟨-, plan, hplan, -⟩ | ⟨-, message, hplan⟩ <;> rw [hplan] <;> rfl
  · rcases planPatch_cases buffer edits with
      ⟨hok, plan, hplan, -⟩ | ⟨hnot, message, hplan⟩
    · exact ⟨fun _ => hok, fun _ => ⟨plan, hplan⟩⟩
    · refine ⟨?_, fun h => absurd h hnot⟩
      rintro ⟨plan, hplan'⟩
      rw [hplan] at hplan'
      simp at hplan'
  · intro plan hplan
    rcases planPatch_cases buffer edits with
      ⟨hok, plan', hplan', hout⟩ | ⟨-, message, hplan'⟩
    · rw [hplan] at hplan'
      obtain rfl : plan = plan' := by simpa using hplan'
      exact ⟨hout, fun e he => findAll_spec (hok.accepts e he).nonempty⟩
    · rw [hplan] at hplan'
      simp at hplan'

/-- The empty list of edits is refused, though nothing is wrong with any of
its edits or spans. -/
theorem planPatch_refuses_nil :
    (∀ e ∈ ([] : List Edit), Accepts [0x61] e) ∧
      (matchedSpans [0x61] []).Pairwise Span.Disjoint ∧
      planPatch [0x61] [] =
        some (.error "edits is empty — supply at least one edit") :=
  ⟨by simp, List.Pairwise.nil, rfl⟩

-- two edits whose matches touch, given in the wrong order
example : outputOf (planPatch [0x61, 0x62, 0x63]
    [{ old := [0x62], new := [0x58, 0x59] }, { old := [0x61], new := [0x62] }]) =
    some [0x62, 0x58, 0x59, 0x63] := by
  decide

/-! ## One place -/

/-- The needle agrees with itself shifted by `d`. -/
def Period (needle : List UInt8) (d : Nat) : Prop :=
  0 < d ∧ d < needle.length ∧ needle.drop d <+: needle

/-- Behind the needle at `m` the buffer has the last `d` bytes of the needle again. -/
def GoesOn (buffer needle : List UInt8) (m d : Nat) : Prop :=
  (buffer.drop (m + needle.length)).take d = needle.drop (needle.length - d)

/-- An occurrence that overlaps another one is a period of the needle the buffer goes on with. -/
theorem occursAt_shift_iff {m d : Nat}
    (hm : OccursAt buffer needle m) (hpos : 0 < d) (hd : d < needle.length) :
    OccursAt buffer needle (m + d) ↔ Period needle d ∧ GoesOn buffer needle m d := by
  obtain ⟨rest, hrest⟩ : ∃ rest, buffer.drop m = needle ++ rest := by
    refine ⟨(buffer.drop m).drop needle.length, ?_⟩
    conv_lhs => rw [← List.take_append_drop needle.length (buffer.drop m)]
    rw [hm]
  have hbehind : buffer.drop (m + needle.length) = rest := by
    rw [← List.drop_drop, hrest, List.drop_left]
  have hshifted : (buffer.drop (m + d)).take needle.length = needle.drop d ++ rest.take d := by
    rw [← List.drop_drop, hrest, List.drop_append_of_le_length hd.le, List.take_append,
      List.take_of_length_le (by simp), List.length_drop]
    congr 2
    omega
  have hlen : (needle.drop d).length = (needle.take (needle.length - d)).length := by
    rw [List.length_drop, List.length_take]
    omega
  have hneedle : needle.take (needle.length - d) ++ needle.drop (needle.length - d) = needle :=
    List.take_append_drop _ _
  rw [OccursAt, hshifted, GoesOn, hbehind]
  constructor
  · intro heq
    obtain ⟨hfront, hback⟩ := List.append_inj (heq.trans hneedle.symm) hlen
    refine ⟨⟨hpos, hd, ?_⟩, hback⟩
    rw [hfront]
    exact List.take_prefix _ _
  · rintro ⟨⟨-, -, hperiod⟩, hback⟩
    have hfront : needle.drop d = needle.take (needle.length - d) := by
      rw [List.prefix_iff_eq_take.1 hperiod, List.length_drop]
    rw [hfront, hback, hneedle]

/-- An accepted edit for one place has its needle at one position only exactly when the buffer
goes on with no period of the needle there. -/
theorem planPatch_unique_iff {plan : PatchPlan} {edit : Edit}
    (hplan : planPatch buffer edits = some (.ok plan)) (hedit : edit ∈ edits)
    (hone : edit.replaceAll = false) :
    (∃! s, OccursAt buffer edit.old s) ↔
      ∀ m d, OccursAt buffer edit.old m → Period edit.old d → ¬GoesOn buffer edit.old m d := by
  have haccepts : Accepts buffer edit := by
    rcases planPatch_cases buffer edits with ⟨hok, -⟩ | ⟨-, message, hmessage⟩
    · exact hok.accepts edit hedit
    · rw [hplan] at hmessage
      cases hmessage
  have hspec := @findAll_spec buffer edit.old haccepts.nonempty
  obtain ⟨match₀, hmatch⟩ := List.length_eq_one_iff.1 (haccepts.unique hone)
  rw [hmatch] at hspec
  constructor
  · rintro ⟨s, -, honly⟩ m d hm hperiod hgoes
    have hshift := (occursAt_shift_iff hm hperiod.1 hperiod.2.1).2 ⟨hperiod, hgoes⟩
    have hsame : m + d = m := (honly _ hshift).trans (honly m hm).symm
    have hpos := hperiod.1
    omega
  · intro hnone
    have hoccurs := hspec.occurs match₀ List.mem_cons_self
    refine ⟨match₀, hoccurs, ?_⟩
    intro s hs
    obtain ⟨m, hm, hle, hlt⟩ := hspec.complete s (Nat.zero_le s) hs
    obtain rfl := List.mem_singleton.1 hm
    by_contra hne
    -- the other occurrence begins inside the match
    obtain ⟨d, rfl⟩ := Nat.exists_eq_add_of_le hle
    have hpos : 0 < d := by omega
    have hboth := (occursAt_shift_iff hoccurs hpos (by omega)).1 hs
    exact hnone m d hoccurs hboth.1 hboth.2

/-- `"aa"` in `"aaa"`: the edit is accepted, and its needle stands at two places. -/
theorem planPatch_takes_one_of_two :
    planPatch [0x61, 0x61, 0x61] [{ old := [0x61, 0x61], new := [0x62] }] =
        some (.ok ⟨[0x62, 0x61], [⟨[0], 2, 1, none⟩], 1⟩) ∧
      OccursAt [0x61, 0x61, 0x61] [0x61, 0x61] 0 ∧ OccursAt [0x61, 0x61, 0x61] [0x61, 0x61] 1 :=
  ⟨by decide, rfl, rfl⟩

/-- A needle without a period stands at one place. -/
theorem planPatch_unique_ab : ∃! s, OccursAt [0x61, 0x62, 0x61] [0x61, 0x62] s := by
  have hplan : planPatch [0x61, 0x62, 0x61] [{ old := [0x61, 0x62], new := [0x63] }] =
      some (.ok ⟨[0x63, 0x61], [⟨[0], 2, 1, none⟩], 1⟩) := by
    decide
  refine (planPatch_unique_iff hplan List.mem_cons_self rfl).2 ?_
  rintro m d - ⟨hpos, hlt, hperiod⟩
  have hd : d = 1 := by
    change d < 2 at hlt
    omega
  subst hd
  exact absurd hperiod (by decide)

end EmbraOS.Ports.FilePatch
