import EmbraOS.Verified.Slice
import EmbraOS.Verified.Utf8

/-!
# Line framing for server-sent event streams

`provider/sse.rs`: chunks in, complete lines out.  `LineBuffer` keeps the
bytes received, where the unread part starts and how far the search for a
newline has come, and drops read bytes from the front only when enough have
piled up.

The state-machine invariant (`LineBuffer.Inv`) puts the two cursors in order
and says that the scanned stretch holds no newline.  Under it `push` and
`nextLine` are total although every slice and subtraction in them is partial,
and each acts on the *unread* bytes in one way only: `push` appends to them
(`push_spec`), `nextLine` takes the first complete segment off them
(`nextLine_spec`).  Over a whole run the lines handed out are therefore a
prefix of the lines of the concatenated input, and what is left is the lines
of the unread bytes (`run_lines`).
-/

namespace EmbraOS.Ports.Sse

open Verified.Slice
open Verified.Utf8

/-- Read bytes are dropped from the front once this many have piled up. -/
def compactAt : Nat := 64 * 1024

/-- `b'\n'`. -/
def newline : UInt8 := 10

/-- `b'\r'`. -/
def carriageReturn : UInt8 := 13

structure LineBuffer where
  pending : List UInt8 := []
  /-- Where the unread part of `pending` starts. -/
  start : Nat := 0
  /-- No newline lies between `start` and here. -/
  scanned : Nat := 0
  deriving DecidableEq, Repr

namespace LineBuffer

/-- `none` is a panic: a drain past the end or a subtraction below zero. -/
def push (b : LineBuffer) (chunk : List UInt8) : Option LineBuffer :=
  if b.start = b.pending.length then
    some { pending := chunk, start := 0, scanned := 0 }
  else if compactAt ≤ b.start then do
    let rest ← sliceFrom? b.pending b.start
    let scanned ← checkedSub? b.scanned b.start
    some { pending := rest ++ chunk, start := 0, scanned := scanned }
  else
    some { b with pending := b.pending ++ chunk }

/-- The `\r` bytes at the end of a line go, however many there are. -/
def stripCr (line : List UInt8) : List UInt8 :=
  line.rdropWhile (fun b => b == carriageReturn)

/-- A line as it is handed out. -/
def lineText (line : List UInt8) : String :=
  String.ofList (fromUtf8Lossy (stripCr line))

/-- `none` is a panic (a slice out of range); the inner `none` is the
source's `None`: no complete line yet. -/
def nextLine (b : LineBuffer) : Option (LineBuffer × Option String) := do
  let unscanned ← sliceFrom? b.pending b.scanned
  match unscanned.idxOf? newline with
  | none => some ({ b with scanned := b.pending.length }, none)
  | some offset =>
    let nl := b.scanned + offset
    let line ← slice? b.pending b.start nl
    some ({ b with start := nl + 1, scanned := nl + 1 },
      some (lineText line))

/-- The bytes received and not yet handed out. -/
def unread (b : LineBuffer) : List UInt8 := b.pending.drop b.start

/-! ## The invariant of the two cursors -/

structure Inv (b : LineBuffer) : Prop where
  start_le : b.start ≤ b.scanned
  scanned_le : b.scanned ≤ b.pending.length
  clear : newline ∉ (b.pending.take b.scanned).drop b.start

theorem inv_default : Inv {} :=
  { start_le := Nat.le_refl _
    scanned_le := Nat.le_refl _
    clear := by simp }

/-- The unread bytes are the scanned stretch followed by the unscanned one. -/
theorem unread_eq (b : LineBuffer) (h : Inv b) :
    b.unread =
      (b.pending.take b.scanned).drop b.start ++ b.pending.drop b.scanned := by
  have hlen : b.start ≤ (b.pending.take b.scanned).length := by
    rw [List.length_take]
    exact Nat.le_min.2 ⟨h.start_le, Nat.le_trans h.start_le h.scanned_le⟩
  calc b.unread
      = (b.pending.take b.scanned ++ b.pending.drop b.scanned).drop b.start := by
        rw [List.take_append_drop, unread]
    _ = _ := List.drop_append_of_le_length hlen

/-- `push` never panics, keeps the invariant and appends to the unread
bytes. -/
theorem push_spec (b : LineBuffer) (chunk : List UInt8) (h : Inv b) :
    ∃ b', b.push chunk = some b' ∧ Inv b' ∧ b'.unread = b.unread ++ chunk := by
  unfold push
  by_cases hread : b.start = b.pending.length
  · -- everything was read: the buffer is cleared
    refine ⟨_, if_pos hread, ⟨Nat.le_refl _, Nat.zero_le _, by simp⟩, ?_⟩
    simp [unread, hread]
  · rw [if_neg hread]
    by_cases hcompact : compactAt ≤ b.start
    · have hstart : b.start ≤ b.pending.length :=
        Nat.le_trans h.start_le h.scanned_le
      rw [if_pos hcompact, sliceFrom?_eq hstart, checkedSub?_eq h.start_le]
      refine ⟨_, rfl, ⟨Nat.zero_le _, ?_, ?_⟩, ?_⟩
      · have := h.scanned_le
        simp only [List.length_append, List.length_drop]
        omega
      · have hle : b.scanned - b.start ≤ (b.pending.drop b.start).length := by
          have := h.scanned_le
          rw [List.length_drop]
          omega
        rw [List.drop_zero, List.take_append_of_le_length hle,
          ← List.drop_take]
        exact h.clear
      · simp [unread]
    · rw [if_neg hcompact]
      have hstart : b.start ≤ b.pending.length :=
        Nat.le_trans h.start_le h.scanned_le
      refine ⟨_, rfl, ⟨h.start_le, ?_, ?_⟩, ?_⟩
      · have := h.scanned_le
        simp only [List.length_append]
        omega
      · simp only [List.take_append_of_le_length h.scanned_le]
        exact h.clear
      · exact List.drop_append_of_le_length hstart

private theorem idxOf?_append_cons {pre post : List UInt8}
    (h : newline ∉ pre) :
    (pre ++ newline :: post).idxOf? newline = some pre.length := by
  induction pre with
  | nil => simp [List.idxOf?, List.findIdx?_cons]
  | cons x pre ih =>
    have hx : x ≠ newline := fun e => h (by simp [e])
    have hpre : newline ∉ pre := fun hm => h (by simp [hm])
    have ih' := ih hpre
    rw [List.idxOf?] at ih' ⊢
    simp [List.findIdx?_cons, hx, ih']

/-- `nextLine` never panics and keeps the invariant.  It hands out nothing
exactly when the unread bytes hold no newline, and then leaves them alone;
otherwise it hands out their first line and drops it. -/
theorem nextLine_spec (b : LineBuffer) (h : Inv b) :
    (newline ∉ b.unread ∧
      ∃ b', b.nextLine = some (b', none) ∧ Inv b' ∧ b'.unread = b.unread) ∨
    (∃ line rest, newline ∉ line ∧ b.unread = line ++ newline :: rest ∧
      ∃ b', b.nextLine = some (b', some (lineText line)) ∧ Inv b' ∧
        b'.unread = rest) := by
  have hunread := unread_eq b h
  unfold nextLine
  rw [sliceFrom?_eq h.scanned_le]
  rcases notMem_or_split newline (b.pending.drop b.scanned) with
    hfree | ⟨pre, post, hpre, hsplit⟩
  · left
    have hnone : (b.pending.drop b.scanned).idxOf? newline = none := by
      rw [List.idxOf?_eq_none_iff]
      exact hfree
    refine ⟨?_, { b with scanned := b.pending.length }, ?_, ?_, rfl⟩
    · rw [hunread, List.mem_append]
      exact fun hm => hm.elim h.clear hfree
    · simp only [Option.bind_eq_bind, Option.bind_some, hnone]
    · refine ⟨Nat.le_trans h.start_le h.scanned_le, Nat.le_refl _, ?_⟩
      simp only [List.take_length]
      intro hm
      have : newline ∈ b.unread := hm
      rw [hunread, List.mem_append] at this
      exact this.elim h.clear hfree
  · right
    have hlen : b.scanned + pre.length < b.pending.length := by
      have hl := congrArg List.length hsplit
      simp only [List.length_drop, List.length_append, List.length_cons] at hl
      omega
    have hstart : b.start ≤ b.scanned + pre.length :=
      Nat.le_trans h.start_le (Nat.le_add_right _ _)
    -- the line is the scanned stretch, then the bytes up to the newline
    have hline : (b.pending.take (b.scanned + pre.length)).drop b.start =
        (b.pending.take b.scanned).drop b.start ++ pre := by
      have htake : b.pending.take (b.scanned + pre.length) =
          b.pending.take b.scanned ++ pre := by
        rw [List.take_add, hsplit, List.take_left]
      have hle : b.start ≤ (b.pending.take b.scanned).length := by
        rw [List.length_take]
        exact Nat.le_min.2 ⟨h.start_le, Nat.le_trans h.start_le h.scanned_le⟩
      rw [htake, List.drop_append_of_le_length hle]
    have hrest : b.pending.drop (b.scanned + pre.length + 1) = post := by
      rw [Nat.add_assoc, ← List.drop_drop, hsplit]
      simp
    refine ⟨(b.pending.take b.scanned).drop b.start ++ pre, post, ?_, ?_,
      { b with
        start := b.scanned + pre.length + 1
        scanned := b.scanned + pre.length + 1 }, ?_, ?_, hrest⟩
    · rw [List.mem_append]
      exact fun hm => hm.elim h.clear hpre
    · rw [hunread, hsplit, List.append_assoc]
    · simp only [Option.bind_eq_bind, Option.bind_some, hsplit,
        idxOf?_append_cons hpre]
      rw [slice?_eq hstart (Nat.le_of_lt hlen), hline]
      rfl
    · exact
        { start_le := Nat.le_refl _
          scanned_le := hlen
          clear := by simp }

end LineBuffer

/-! ## Runs -/

/-- A call on the buffer. -/
inductive Call where
  | push (chunk : List UInt8)
  | nextLine
  deriving DecidableEq, Repr

/-- The bytes a sequence of calls has pushed. -/
def pushed : List Call → List UInt8
  | [] => []
  | .push chunk :: calls => chunk ++ pushed calls
  | .nextLine :: calls => pushed calls

/-- Run the calls in order; the lines handed out, in order.  `none` if a
call panics. -/
def run : LineBuffer → List Call → Option (LineBuffer × List String)
  | b, [] => some (b, [])
  | b, .push chunk :: calls => do
    let b ← b.push chunk
    run b calls
  | b, .nextLine :: calls => do
    let (b, line) ← b.nextLine
    let (b, out) ← run b calls
    some (b, line.toList ++ out)

/-- The lines of a byte sequence: what stands before each line feed, without the carriage returns
at its end. -/
def linesOf (bytes : List UInt8) : List String :=
  (segments 10 bytes).1.map fun line => String.ofList (fromUtf8Lossy (line.rdropWhile (· == 13)))

/-- A line is handed out as it is in `linesOf`. -/
theorem linesOf_eq (bytes : List UInt8) :
    linesOf bytes = (segments newline bytes).1.map LineBuffer.lineText := rfl

/-- The run lemma, from any state that satisfies the invariant. -/
theorem run_spec (calls : List Call) : ∀ b : LineBuffer, b.Inv →
    ∃ b' out, run b calls = some (b', out) ∧ b'.Inv ∧
      linesOf (b.unread ++ pushed calls) = out ++ linesOf b'.unread ∧
      (segments newline (b.unread ++ pushed calls)).2 =
        (segments newline b'.unread).2 := by
  induction calls with
  | nil =>
    intro b h
    exact ⟨b, [], rfl, h, by simp [pushed], by simp [pushed]⟩
  | cons call calls ih =>
    intro b h
    cases call with
    | push chunk =>
      obtain ⟨b₁, hpush, hinv, hunread⟩ := b.push_spec chunk h
      obtain ⟨b', out, hrun, hinv', hlines, htail⟩ := ih b₁ hinv
      refine ⟨b', out, ?_, hinv', ?_, ?_⟩
      · simp only [run, hpush, Option.bind_eq_bind, Option.bind_some, hrun]
      · rw [← hlines, hunread, pushed, List.append_assoc]
      · rw [← htail, hunread, pushed, List.append_assoc]
    | nextLine =>
      rcases b.nextLine_spec h with
        ⟨_, b₁, hnext, hinv, hunread⟩ |
        ⟨line, rest, hfree, hsplit, b₁, hnext, hinv, hunread⟩
      · obtain ⟨b', out, hrun, hinv', hlines, htail⟩ := ih b₁ hinv
        refine ⟨b', out, ?_, hinv', ?_, ?_⟩
        · simp only [run, hnext, Option.bind_eq_bind, Option.bind_some,
            hrun, Option.toList_none, List.nil_append]
        · rw [← hlines, hunread, pushed]
        · rw [← htail, hunread, pushed]
      · obtain ⟨b', out, hrun, hinv', hlines, htail⟩ := ih b₁ hinv
        rw [hunread] at hlines htail
        refine ⟨b', LineBuffer.lineText line :: out, ?_, hinv', ?_, ?_⟩
        · simp only [run, hnext, Option.bind_eq_bind, Option.bind_some,
            hrun, Option.toList_some, List.singleton_append]
        · rw [hsplit, List.append_assoc, List.cons_append, linesOf_eq,
            segments_append_cons hfree, List.map_cons, List.cons_append]
          exact congrArg _ hlines
        · rw [hsplit, List.append_assoc, List.cons_append,
            segments_append_cons hfree]
          exact htail

/-- However the bytes are cut into chunks and however `push` and `nextLine`
interleave, from the empty buffer: no call panics, the cursors stay in order,
and the lines handed out followed by the lines of the unread bytes are the
lines of the concatenated input, with the same unterminated tail.  A further
`nextLine` hands out nothing exactly when no complete line is left, and then
every line has been handed out and the tail is what remains. -/
theorem run_lines (calls : List Call) :
    ∃ b out, run {} calls = some (b, out) ∧
      b.start ≤ b.scanned ∧ b.scanned ≤ b.pending.length ∧
      linesOf (pushed calls) = out ++ linesOf b.unread ∧
      (segments newline (pushed calls)).2 = (segments newline b.unread).2 ∧
      ((∃ b', b.nextLine = some (b', none)) ↔ newline ∉ b.unread) ∧
      (newline ∉ b.unread →
        out = linesOf (pushed calls) ∧
        b.unread = (segments newline (pushed calls)).2) := by
  obtain ⟨b, out, hrun, hinv, hlines, htail⟩ :=
    run_spec calls {} LineBuffer.inv_default
  have hempty : ({} : LineBuffer).unread = [] := rfl
  rw [hempty, List.nil_append] at hlines htail
  refine ⟨b, out, hrun, hinv.start_le, hinv.scanned_le, hlines, htail, ?_, ?_⟩
  · rcases b.nextLine_spec hinv with
      ⟨hfree, b', hnext, -, -⟩ | ⟨line, rest, -, hsplit, b', hnext, -, -⟩
    · exact ⟨fun _ => hfree, fun _ => ⟨b', hnext⟩⟩
    · constructor
      · rintro ⟨b'', hnone⟩
        rw [hnext] at hnone
        simp at hnone
      · intro hfree
        rw [hsplit] at hfree
        simp at hfree
  · intro hfree
    rw [linesOf_eq, linesOf_eq, segments_of_notMem hfree, List.map_nil,
      List.append_nil] at hlines
    rw [segments_of_notMem hfree] at htail
    exact ⟨hlines.symm, htail.symm⟩

-- a chunk boundary inside a character, and one between CR and LF
example : run {} [.push [0x63, 0xC3], .nextLine, .push [0xA9, 0x0D], .nextLine,
      .push [0x0A, 0x78], .nextLine, .nextLine] =
    some (⟨[0x63, 0xC3, 0xA9, 0x0D, 0x0A, 0x78], 5, 6⟩, ["cé"]) := by
  decide

/-! ## Reading a stream line by line -/

section Pump

variable {σ ρ : Type} (step : σ → String → Except ρ σ)

/-- The inner loop of a reader: the complete lines are handled one by one, until one of them ends
the reading.  `fuel` bounds the lines. -/
def consume : Nat → LineBuffer → σ → Option (Except ρ (LineBuffer × σ))
  | 0, _, _ => none
  | fuel + 1, b, s =>
    match b.nextLine with
    | none => none
    | some (b, none) => some (.ok (b, s))
    | some (b, some line) =>
      match step s line with
      | .error r => some (.error r)
      | .ok s => consume fuel b s

/-- The outer loop, over the chunks of a response. -/
def pumpFrom : List (List UInt8) → LineBuffer → σ → Option (Except ρ σ)
  | [], _, s => some (.ok s)
  | chunk :: chunks, b, s =>
    match b.push chunk with
    | none => none
    | some b =>
      match consume step (b.unread.length + 1) b s with
      | none => none
      | some (.error r) => some (.error r)
      | some (.ok (b, s)) => pumpFrom chunks b s

theorem linesOf_append_newline {line : List UInt8} (h : newline ∉ line) (rest : List UInt8) :
    linesOf (line ++ newline :: rest) = LineBuffer.lineText line :: linesOf rest := by
  rw [linesOf_eq, linesOf_eq, segments_append_cons h, List.map_cons]

/-- The inner loop is total, and what it leaves is handled as the lines it took would have been
with whatever bytes come after. -/
theorem consume_spec : ∀ fuel b s, b.Inv → b.unread.length < fuel →
    ∃ result, consume step fuel b s = some result ∧
      ((∃ r, result = .error r ∧
          ∀ more, (linesOf (b.unread ++ more)).foldlM step s = .error r) ∨
        ∃ b' s', result = .ok (b', s') ∧ b'.Inv ∧ newline ∉ b'.unread ∧
          ∀ more, (linesOf (b.unread ++ more)).foldlM step s =
            (linesOf (b'.unread ++ more)).foldlM step s') := by
  intro fuel
  induction fuel with
  | zero => exact fun b s _ hfuel => absurd hfuel (Nat.not_lt_zero _)
  | succ fuel ih =>
    intro b s hinv hfuel
    rw [consume]
    rcases b.nextLine_spec hinv with
      ⟨hfree, b', hnext, hinv', hunread⟩ | ⟨line, rest, hfree, hsplit, b', hnext, hinv', hunread⟩
    · rw [hnext]
      exact ⟨_, rfl, .inr ⟨b', s, rfl, hinv', hunread ▸ hfree, fun more => by rw [hunread]⟩⟩
    have hlines : ∀ more, linesOf (b.unread ++ more) =
        LineBuffer.lineText line :: linesOf (b'.unread ++ more) := by
      intro more
      rw [hsplit, hunread, List.append_assoc, List.cons_append, linesOf_append_newline hfree]
    have hshort : b'.unread.length < fuel := by
      rw [hsplit, List.length_append, List.length_cons] at hfuel
      rw [hunread]
      omega
    rw [hnext]
    cases hstep : step s (LineBuffer.lineText line) with
    | error r =>
      refine ⟨.error r, by simp only [hstep], .inl ⟨r, rfl, fun more => ?_⟩⟩
      rw [hlines, List.foldlM_cons, hstep]
      rfl
    | ok s' =>
      have hfold : ∀ more, (linesOf (b.unread ++ more)).foldlM step s =
          (linesOf (b'.unread ++ more)).foldlM step s' := by
        intro more
        rw [hlines, List.foldlM_cons, hstep]
        rfl
      simp only [hstep]
      simpa only [hfold] using ih b' s' hinv' hshort

/-- Reading a stream is reading the lines of its bytes, however they are cut into chunks. -/
theorem pumpFrom_spec (chunks : List (List UInt8)) : ∀ b s, b.Inv → newline ∉ b.unread →
    pumpFrom step chunks b s = some ((linesOf (b.unread ++ chunks.flatten)).foldlM step s) := by
  induction chunks with
  | nil =>
    intro b s _ hfree
    rw [List.flatten_nil, List.append_nil, linesOf_eq, segments_of_notMem hfree]
    rfl
  | cons chunk chunks ih =>
    intro b s hinv _
    obtain ⟨b₁, hpush, hinv₁, hunread⟩ := b.push_spec chunk hinv
    obtain ⟨result, hconsume, hcases⟩ :=
      consume_spec step (b₁.unread.length + 1) b₁ s hinv₁ (Nat.lt_succ_self _)
    have hbytes : b.unread ++ (chunk :: chunks).flatten = b₁.unread ++ chunks.flatten := by
      rw [hunread, List.flatten_cons, List.append_assoc]
    rw [pumpFrom, hpush, hbytes]
    rcases hcases with ⟨r, rfl, hall⟩ | ⟨b', s', rfl, hinv', hfree, hall⟩
    · simp only [hconsume, hall]
    · simp only [hconsume, hall]
      exact ih b' s' hinv' hfree

end Pump

end EmbraOS.Ports.Sse
