import EmbraOS.Verified.Checked
import EmbraOS.Verified.Utf8

/-!
# Reading a window of a file

`file_read` of `tools/engineering/files.rs`, from the point where the path is known to be a
file: the window that is read, its cut before a character that does not fit, the text of it
within the ceiling, and the trailer that says where to continue.  A file is its bytes, a text
is its UTF-8 bytes, and every addition and subtraction on `u64` and `usize` is one of
`Checked`: the model comes out as `none` where the machine would wrap or an index would be out
of range.

## Main results

* `decodeWithin_total`: decoding within a budget never fails, keeps to the budget and stands
  for no more bytes than the window has.
* `readFile_total`: a call whose window can be computed is answered with a piece of the file
  and a trailer that names its end.
* `readFile_window_iff`: for which calls the window lies in the file and nothing wraps.
-/

namespace EmbraOS.Ports.FileRead

open Verified Verified.Checked

/-- The width of `u64` and `usize`. -/
def width : Nat := 64

def maxToolResultSize : Nat := 2097152

def toolResultEnvelope : Nat := 4096

/-- `FILE_READ_MAX`: the ceiling for one call. -/
def fileReadMax : Nat := maxToolResultSize - toolResultEnvelope

/-- `read_window`: the window of a call from the tool's optional fields. -/
def readWindow (offset limit : Option Nat) : Nat × Nat :=
  (offset.getD 0, min (limit.getD fileReadMax) fileReadMax)

/-! ## Decoding within a budget -/

/-- A byte window read as text. -/
structure Decoded where
  text : List UInt8
  /-- How many bytes of the window the text stands for. -/
  rawLen : Nat
  /-- How many byte sequences were not UTF-8 and read as `U+FFFD`. -/
  replaced : Nat
deriving DecidableEq, Repr

/-- The bytes of `U+FFFD`. -/
def replacement : List UInt8 := [0xEF, 0xBF, 0xBD]

/-- `str::is_char_boundary`. -/
def isCharBoundary (valid : List UInt8) (index : Nat) : Bool :=
  index == 0 ||
    match valid[index]? with
    | none => index == valid.length
    | some b => !(0x80 ≤ b && b ≤ 0xBF)

/-- `while !valid.is_char_boundary(end) { end -= 1; }`. -/
def floorBoundary (valid : List UInt8) : Nat → Option Nat
  | 0 => if isCharBoundary valid 0 then some 0 else none
  | e + 1 => if isCharBoundary valid (e + 1) then some (e + 1) else floorBoundary valid e

/-- The loop of `decode_within` over the chunks that are left. -/
def decodeLoop (budget : Nat) : Decoded → List Utf8.Chunk → Option Decoded
  | d, [] => some d
  | d, chunk :: rest => do
    let room ← sub? budget d.text.length
    if room < chunk.valid.length then
      let stop ← floorBoundary chunk.valid room
      let rawLen ← add? width d.rawLen stop
      return { d with text := d.text ++ chunk.valid.take stop, rawLen := rawLen }
    else
      let text := d.text ++ chunk.valid
      let rawLen ← add? width d.rawLen chunk.valid.length
      if chunk.invalid.isEmpty then
        decodeLoop budget { d with text := text, rawLen := rawLen } rest
      else
        let room ← sub? budget text.length
        if room < replacement.length then
          return { d with text := text, rawLen := rawLen }
        else
          let rawLen ← add? width rawLen chunk.invalid.length
          let replaced ← add? width d.replaced 1
          decodeLoop budget ⟨text ++ replacement, rawLen, replaced⟩ rest

/-- `decode_within`: a window as `String::from_utf8_lossy` reads it, up to `budget` bytes. -/
def decodeWithin (window : List UInt8) (budget : Nat) : Option Decoded :=
  decodeLoop budget ⟨[], 0, 0⟩ (Utf8.utf8Chunks window)

/-- The loop of `cut_character_len` over the places `back` bytes before the end. -/
def cutLoop (window : List UInt8) : List Nat → Option Nat
  | [] => some 0
  | back :: rest => do
    let i ← sub? window.length back
    let b ← window[i]?
    -- a continuation byte: look further back
    if 0x80 ≤ b ∧ b ≤ 0xBF then cutLoop window rest
    else
      let need :=
        if 0xC0 ≤ b ∧ b ≤ 0xDF then 2
        else if 0xE0 ≤ b ∧ b ≤ 0xEF then 3
        else if 0xF0 ≤ b ∧ b ≤ 0xF7 then 4
        else 0
      return if back < need then back else 0

/-- `cut_character_len`: the length of the character a window cuts at its end. -/
def cutCharacterLen (window : List UInt8) : Option Nat :=
  cutLoop window (List.range' 1 (min window.length 3))

/-! ## The call -/

/-- The trailer of a read that does not reach the end. -/
structure More where
  left : Nat
  next : Nat
  /-- Whether it nudges to leave the limit out. -/
  tip : Bool
deriving DecidableEq, Repr

/-- What the call answers about a file. -/
inductive Reply where
  | pastEof (offset size : Nat)
  | binary (size : Nat)
  | shown (size offset readEnd replaced : Nat) (content : List UInt8) (more : Option More)
deriving DecidableEq, Repr

def More.text (m : More) : String :=
  "\n[... " ++ toString m.left ++ " more bytes. Continue with offset=" ++ toString m.next
    ++ (if m.tip then " (tip: omit limit to read up to the full per-call ceiling in one call)"
        else "")
    ++ " ]"

/-- The answer as the bytes the dispatcher gets. -/
def Reply.text (path : String) : Reply → List UInt8
  | .pastEof offset size =>
    Utf8.encode ("Offset " ++ toString offset ++ " is at or past EOF (" ++ toString size
      ++ " bytes)").toList
  | .binary size =>
    Utf8.encode (path ++ " is a binary file (" ++ toString size
      ++ " bytes); for images use image_view").toList
  | .shown size offset readEnd replaced content more =>
    Utf8.encode ("=== " ++ path ++ " (" ++ toString size ++ " bytes, showing "
      ++ toString offset ++ ".." ++ toString readEnd
      ++ (if 0 < replaced then
            "; not UTF-8: " ++ toString replaced ++ " byte sequence(s) shown as U+FFFD, "
              ++ "writing this text back would alter the file"
          else "")
      ++ ") ===\n").toList
    ++ content ++ Utf8.encode ((more.map More.text).getD "").toList

/-- The end of the window: `(offset + limit as u64).min(size)`. -/
def windowEnd (size offset limit : Nat) : Option Nat := do
  let sum ← add? width offset (min limit fileReadMax)
  return min sum size

/-- The window without the character it cuts at its end, unless that is all of it. -/
def endWindow (buf : List UInt8) (stops size : Nat) : Option (List UInt8) :=
  if stops < size then do
    let cut ← cutCharacterLen buf
    if cut < buf.length then
      let keep ← sub? buf.length cut
      return buf.take keep
    else return buf
  else some buf

/-- The answer for a window that has been read. -/
def showWindow (size offset limit stops : Nat) (buf : List UInt8) : Option Reply := do
  -- a null byte in the first 1 KB: not text
  if (buf.take 1024).contains 0 then
    return .binary size
  else
    let buf ← endWindow buf stops size
    let decoded ← decodeWithin buf fileReadMax
    let readEnd ← add? width offset decoded.rawLen
    if readEnd < size then
      let left ← sub? size readEnd
      return .shown size offset readEnd decoded.replaced decoded.text
        (some ⟨left, readEnd, min limit fileReadMax < fileReadMax⟩)
    else
      return .shown size offset readEnd decoded.replaced decoded.text none

/-- `file_read` of a file: the guard, the window, what is shown of it. -/
def readFile (data : List UInt8) (offset limit : Nat) : Option Reply := do
  let size := data.length
  if size ≤ offset ∧ 0 < size then
    return .pastEof offset size
  else
    let stops ← windowEnd size offset limit
    let readBytes ← sub? stops offset
    showWindow size offset limit stops ((data.drop offset).take readBytes)

/-- `FileReadArgs::run` of a file, with the tool's optional fields. -/
def run (data : List UInt8) (offset limit : Option Nat) : Option Reply :=
  readFile data (readWindow offset limit).1 (readWindow offset limit).2

/-! ## The text of a window -/

/-- Walking back to a boundary always ends, at the latest before the first byte. -/
theorem floorBoundary_total (valid : List UInt8) (e : Nat) :
    ∃ stop ≤ e, floorBoundary valid e = some stop := by
  induction e with
  | zero => exact ⟨0, le_rfl, by simp [floorBoundary, isCharBoundary]⟩
  | succ e ih =>
    by_cases h : isCharBoundary valid (e + 1) = true
    · exact ⟨e + 1, le_rfl, by simp [floorBoundary, h]⟩
    · obtain ⟨stop, hle, heq⟩ := ih
      exact ⟨stop, by omega, by simpa [floorBoundary, h] using heq⟩

/-- What the loop keeps: the text is within the budget, and there is at least a byte for each
replacement. -/
structure Within (budget : Nat) (d : Decoded) : Prop where
  text : d.text.length ≤ budget
  replaced : d.replaced ≤ d.rawLen

theorem decodeLoop_total (budget : Nat) (chunks : List Utf8.Chunk) :
    ∀ d : Decoded, Within budget d →
      d.rawLen + (chunks.map Utf8.Chunk.length).sum < 2 ^ width →
      ∃ r, decodeLoop budget d chunks = some r ∧ Within budget r ∧
        r.rawLen ≤ d.rawLen + (chunks.map Utf8.Chunk.length).sum := by
  induction chunks with
  | nil =>
    intro d hd _
    exact ⟨d, rfl, hd, by simp⟩
  | cons chunk rest ih =>
    intro d hd hsum
    have htext := hd.text
    have hreplaced := hd.replaced
    simp only [List.map_cons, List.sum_cons, Utf8.Chunk.length] at hsum ⊢
    by_cases hroom : budget - d.text.length < chunk.valid.length
    · -- the run does not fit: its front up to a boundary, and the loop is left
      obtain ⟨stop, hle, hstop⟩ := floorBoundary_total chunk.valid (budget - d.text.length)
      refine ⟨⟨d.text ++ chunk.valid.take stop, d.rawLen + stop, d.replaced⟩, ?_, ⟨?_, ?_⟩, ?_⟩
      · simp [decodeLoop, sub?_eq hd.text, hroom, hstop,
          add?_eq (show d.rawLen + stop < 2 ^ width by omega)]
      · simp only [List.length_append, List.length_take]
        omega
      · show d.replaced ≤ d.rawLen + stop
        omega
      · show d.rawLen + stop ≤ _
        omega
    · have hvalid : (d.text ++ chunk.valid).length ≤ budget := by
        rw [List.length_append]
        omega
      have hraw : d.rawLen + chunk.valid.length < 2 ^ width := by omega
      by_cases hempty : chunk.invalid.isEmpty = true
      · obtain ⟨r, hr, hin, hle⟩ :=
          ih ⟨d.text ++ chunk.valid, d.rawLen + chunk.valid.length, d.replaced⟩
            ⟨hvalid, by show d.replaced ≤ d.rawLen + chunk.valid.length; omega⟩
            (by show d.rawLen + chunk.valid.length + _ < _; omega)
        refine ⟨r, ?_, hin, ?_⟩
        · simpa [decodeLoop, sub?_eq hd.text, hroom, add?_eq hraw, hempty] using hr
        · have hle : r.rawLen ≤ d.rawLen + chunk.valid.length + _ := hle
          omega
      · have hinvalid : 0 < chunk.invalid.length := by
          rw [List.length_pos_iff]
          simpa using hempty
        by_cases hmark : budget - (d.text ++ chunk.valid).length < replacement.length
        · refine ⟨⟨d.text ++ chunk.valid, d.rawLen + chunk.valid.length, d.replaced⟩, ?_,
            ⟨hvalid, ?_⟩, ?_⟩
          · simp only [decodeLoop, sub?_eq hd.text, sub?_eq hvalid, hroom, add?_eq hraw,
              hempty, hmark, Option.bind_eq_bind, Option.bind_some, if_false, if_true]
            rfl
          · show d.replaced ≤ d.rawLen + chunk.valid.length
            omega
          · show d.rawLen + chunk.valid.length ≤ _
            omega
        · have hraw' : d.rawLen + chunk.valid.length + chunk.invalid.length < 2 ^ width := by
            omega
          have hcount : d.replaced + 1 < 2 ^ width := by omega
          obtain ⟨r, hr, hin, hle⟩ :=
            ih ⟨d.text ++ chunk.valid ++ replacement,
                d.rawLen + chunk.valid.length + chunk.invalid.length, d.replaced + 1⟩
              ⟨by
                show (d.text ++ chunk.valid ++ replacement).length ≤ budget
                rw [List.length_append]
                omega,
               by
                show d.replaced + 1 ≤ d.rawLen + chunk.valid.length + chunk.invalid.length
                omega⟩
              (by
                show d.rawLen + chunk.valid.length + chunk.invalid.length + _ < _
                omega)
          refine ⟨r, ?_, hin, ?_⟩
          · simp only [decodeLoop, sub?_eq hd.text, sub?_eq hvalid, hroom, add?_eq hraw,
              add?_eq hraw', add?_eq hcount, hempty, hmark, Option.bind_eq_bind,
              Option.bind_some, if_false]
            exact hr
          · have hle : r.rawLen ≤ d.rawLen + chunk.valid.length + chunk.invalid.length + _ := hle
            omega

/-- Decoding a window within a budget never fails. -/
theorem decodeWithin_total {window : List UInt8} (budget : Nat)
    (h : window.length < 2 ^ width) :
    ∃ d, decodeWithin window budget = some d ∧ d.text.length ≤ budget ∧
      d.rawLen ≤ window.length := by
  obtain ⟨d, hd, hin, hle⟩ := decodeLoop_total budget (Utf8.utf8Chunks window) ⟨[], 0, 0⟩
    ⟨Nat.zero_le _, le_rfl⟩ (by simpa [Utf8.sum_length_utf8Chunks] using h)
  refine ⟨d, hd, hin.text, ?_⟩
  simpa [Utf8.sum_length_utf8Chunks] using hle

example : decodeWithin [0x61, 0xFF, 0xC3, 0xA9] 5
    = some ⟨[0x61, 0xEF, 0xBF, 0xBD], 2, 1⟩ := by decide

theorem cutLoop_total {window : List UInt8} {places : List Nat}
    (h : ∀ back ∈ places, 0 < back ∧ back ≤ window.length) :
    ∃ cut, cutLoop window places = some cut := by
  induction places with
  | nil => exact ⟨0, rfl⟩
  | cons back rest ih =>
    obtain ⟨hpos, hle⟩ := h back List.mem_cons_self
    have hlt : window.length - back < window.length := by omega
    obtain ⟨cut, hcut⟩ := ih fun b hb => h b (List.mem_cons_of_mem _ hb)
    simp only [cutLoop, sub?_eq hle, List.getElem?_eq_getElem hlt, Option.bind_eq_bind,
      Option.bind_some]
    split
    · exact ⟨cut, hcut⟩
    · exact ⟨_, rfl⟩

/-- Looking for the cut character never leaves the window. -/
theorem cutCharacterLen_total (window : List UInt8) :
    ∃ cut, cutCharacterLen window = some cut := by
  apply cutLoop_total
  intro back hback
  rw [List.mem_range'_1] at hback
  omega

/-- The window that is decoded is a front of the one that was read. -/
theorem endWindow_total (buf : List UInt8) (stops size : Nat) :
    ∃ kept, endWindow buf stops size = some kept ∧ kept.length ≤ buf.length := by
  by_cases hend : stops < size
  · obtain ⟨cut, hcut⟩ := cutCharacterLen_total buf
    by_cases hlt : cut < buf.length
    · exact ⟨buf.take (buf.length - cut), by simp [endWindow, hend, hcut, hlt, sub?_eq hlt.le],
        by simp⟩
    · exact ⟨buf, by simp [endWindow, hend, hcut, hlt], le_rfl⟩
  · exact ⟨buf, by simp [endWindow, hend], le_rfl⟩

/-! ## The window -/

/-- A reply about a file of `size` bytes: what it shows is a piece of the file no larger than
the ceiling, and the trailer stands exactly where something is left, with how much and where. -/
def Reply.Sound (size : Nat) : Reply → Prop
  | .shown s offset readEnd _ content more =>
    s = size ∧ offset ≤ readEnd ∧ readEnd ≤ size ∧ content.length ≤ fileReadMax ∧
      (more = none ↔ readEnd = size) ∧
      ∀ m, more = some m → m.left = size - readEnd ∧ m.next = readEnd
  | _ => True

theorem showWindow_total {size offset stops : Nat} (limit : Nat) {buf : List UInt8}
    (hsize : size < 2 ^ width) (hstops : stops ≤ size) (hbuf : offset + buf.length = stops) :
    ∃ reply, showWindow size offset limit stops buf = some reply ∧ reply.Sound size := by
  by_cases hnul : (buf.take 1024).contains 0 = true
  · exact ⟨.binary size, by simp only [showWindow, hnul, if_true]; rfl, trivial⟩
  obtain ⟨kept, hkept, hle⟩ := endWindow_total buf stops size
  obtain ⟨d, hd, htext, hraw⟩ := decodeWithin_total fileReadMax
    (show kept.length < 2 ^ width by omega)
  have hend : offset + d.rawLen < 2 ^ width := by omega
  by_cases hmore : offset + d.rawLen < size
  · refine ⟨.shown size offset (offset + d.rawLen) d.replaced d.text
        (some ⟨size - (offset + d.rawLen), offset + d.rawLen,
          min limit fileReadMax < fileReadMax⟩), ?_, ?_⟩
    · simp only [showWindow, hnul, hkept, hd, add?_eq hend, hmore, sub?_eq hmore.le,
        Option.bind_eq_bind, Option.bind_some, if_true]
      rfl
    · refine ⟨rfl, by omega, by omega, htext, ?_, ?_⟩
      · simp only [reduceCtorEq, false_iff]
        omega
      · rintro m ⟨⟩
        exact ⟨rfl, rfl⟩
  · refine ⟨.shown size offset (offset + d.rawLen) d.replaced d.text none, ?_, ?_⟩
    · simp only [showWindow, hnul, hkept, hd, add?_eq hend, hmore,
        Option.bind_eq_bind, Option.bind_some, if_false]
      rfl
    · refine ⟨rfl, by omega, by omega, htext, ?_, ?_⟩
      · simp only [true_iff]
        omega
      · rintro m ⟨⟩

/-- The calls whose window can be computed: an empty file is read from its start, and the end
of the window fits the machine. -/
def Fits (size offset limit : Nat) : Prop :=
  (size = 0 → offset = 0) ∧ offset + min limit fileReadMax < 2 ^ width

/-- A call that fits and that the guard lets through is answered. -/
theorem readFile_total {data : List UInt8} {offset limit : Nat} (hsize : data.length < 2 ^ width)
    (hguard : ¬ (data.length ≤ offset ∧ 0 < data.length))
    (hfit : Fits data.length offset limit) :
    ∃ reply, readFile data offset limit = some reply ∧ reply.Sound data.length := by
  have hoff : offset ≤ data.length := by
    rcases Nat.eq_zero_or_pos data.length with hzero | hpos
    · rw [hfit.1 hzero]
      omega
    · omega
  have hstops : windowEnd data.length offset limit
      = some (min (offset + min limit fileReadMax) data.length) := by
    simp [windowEnd, add?_eq hfit.2]
  have hle : offset ≤ min (offset + min limit fileReadMax) data.length := by omega
  obtain ⟨reply, hreply, hsound⟩ := showWindow_total limit hsize
    (Nat.min_le_right (offset + min limit fileReadMax) data.length)
    (show offset + ((data.drop offset).take
        (min (offset + min limit fileReadMax) data.length - offset)).length = _ by
      rw [List.length_take, List.length_drop]
      omega)
  refine ⟨reply, ?_, hsound⟩
  simp only [readFile, hguard, hstops, sub?_eq hle, Option.bind_eq_bind, Option.bind_some,
    if_false]
  exact hreply

/-- For a call that the guard lets through, the window lies in the file and nothing wraps, in
it or in what follows, exactly when an empty file is read from offset 0 and the end of the
window fits. -/
theorem readFile_window_iff (data : List UInt8) (offset limit : Nat)
    (hsize : data.length < 2 ^ width)
    (hguard : ¬ (data.length ≤ offset ∧ 0 < data.length)) :
    ((∃ stops, windowEnd data.length offset limit = some stops ∧
        offset ≤ stops ∧ stops ≤ data.length) ∧
      ∃ reply, readFile data offset limit = some reply ∧ reply.Sound data.length) ↔
    Fits data.length offset limit := by
  constructor
  · rintro ⟨⟨stops, hstops, hle, hend⟩, -⟩
    refine ⟨fun hzero => by omega, ?_⟩
    by_contra hwrap
    simp [windowEnd, add?, fit?, hwrap] at hstops
  · intro hfit
    obtain ⟨reply, hreply, hsound⟩ := readFile_total hsize hguard hfit
    refine ⟨⟨_, by simp [windowEnd, add?_eq hfit.2]; rfl, ?_, Nat.min_le_right _ _⟩,
      reply, hreply, hsound⟩
    have hzero := hfit.1
    omega

/-- Two bytes from the middle of a small file. -/
theorem readFile_window_middle :
    ((∃ stops, windowEnd 4 1 2 = some stops ∧ 1 ≤ stops ∧ stops ≤ 4) ∧
      ∃ reply, readFile [0x61, 0x62, 0x63, 0x64] 1 2 = some reply ∧ reply.Sound 4) ∧
      (run [0x61, 0x62, 0x63, 0x64] (some 1) (some 2)).map (Reply.text "a.txt") =
        some (Utf8.encode ("=== a.txt (4 bytes, showing 1..3) ===\nbc\n[... 1 more bytes. " ++
          "Continue with offset=3 (tip: omit limit to read up to the full per-call ceiling in " ++
          "one call) ]").toList) :=
  ⟨(readFile_window_iff [0x61, 0x62, 0x63, 0x64] 1 2 (by decide) (by decide)).mpr
    ⟨by decide, by decide⟩, by decide +kernel⟩

/-- The guard lets every offset into an empty file through, and the size of the window is then
taken by a subtraction that wraps: nothing is answered, where any other file says that the
offset is past its end. -/
theorem readFile_empty_wraps :
    ¬ (([] : List UInt8).length ≤ 1 ∧ 0 < ([] : List UInt8).length) ∧
      windowEnd 0 1 fileReadMax = some 0 ∧ sub? 0 1 = none ∧ readFile [] 1 fileReadMax = none ∧
      readFile [0x61] 1 fileReadMax = some (.pastEof 1 1) := by
  decide

end EmbraOS.Ports.FileRead
