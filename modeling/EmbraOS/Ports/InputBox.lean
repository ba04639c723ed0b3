import Mathlib

/-!
# The layout of the input box

Port of `embra-console/src/terminal/input_layout.rs`: a text is packed into rows of at most a
given number of cells, and the cursor, a position in the text, is located in the same pass.  The
cells of a character come from a table (`CharWidths`).

The cursor is placed before its character is, so before the code knows whether the character
still fits its row.  A wide character that is moved to the next row leaves the cursor behind
(`cursor_left_behind`); in every other case the cursor is where the character is
(`layout_input_spec`).
-/

namespace EmbraOS.Ports.InputBox

/-! ## The code -/

/-- `UnicodeWidthChar::width`: the cells of a character, and `none` for a control character. -/
structure CharWidths where
  width : Char → Option Nat
  newline : width '\n' = none

/-- `InputLayout`, its rows as lists of characters. -/
structure InputLayout where
  rows : List (List Char)
  cursorRow : Nat
  cursorCol : Nat
  deriving DecidableEq

/-- `InputLayout::content_rows`. -/
def InputLayout.contentRows (layout : InputLayout) : Nat :=
  max (max layout.rows.length (layout.cursorRow + 1)) 1

/-- The variables of the loop. -/
structure Packing where
  rows : List (List Char) := []
  current : List Char := []
  col : Nat := 0
  cursorRow : Nat := 0
  cursorCol : Nat := 0

section Code

variable (widths : CharWidths) (innerWidth cursorPos : Nat)

/-- `UnicodeWidthChar::width(ch).unwrap_or(0)`. -/
def cells (ch : Char) : Nat := (widths.width ch).getD 0

/-- `place_cursor`; `col as u16` keeps the low 16 bits. -/
def Packing.placeCursor (st : Packing) : Packing :=
  if innerWidth ≤ st.col then { st with cursorRow := st.rows.length + 1, cursorCol := 0 }
  else { st with cursorRow := st.rows.length, cursorCol := st.col % 2 ^ 16 }

/-- The row is over. -/
def Packing.endRow (st : Packing) : Packing :=
  { st with rows := st.rows ++ [st.current], current := [], col := 0 }

/-- Whether a character starts the next row. -/
def wraps (current : List Char) (col : Nat) (ch : Char) : Bool :=
  0 < cells widths ch && innerWidth < col + cells widths ch && !current.isEmpty

/-- The body of the loop, for the character number `i`. -/
def Packing.consume (st : Packing) (i : Nat) (ch : Char) : Packing :=
  let st := if i = cursorPos then st.placeCursor innerWidth else st
  if ch = '\n' then st.endRow
  else
    let st := if wraps widths innerWidth st.current st.col ch then st.endRow else st
    { st with current := st.current ++ [ch], col := st.col + cells widths ch }

def consumeAll : Nat → Packing → List Char → Packing
  | _, st, [] => st
  | i, st, ch :: rest => consumeAll (i + 1) (st.consume widths innerWidth cursorPos i ch) rest

/-- `layout_input`. -/
def layoutInput (input : List Char) : InputLayout :=
  if innerWidth = 0 then { rows := [[]], cursorRow := 0, cursorCol := 0 }
  else
    let st := consumeAll widths innerWidth cursorPos 0 {} input
    let st := if input.length ≤ cursorPos then st.placeCursor innerWidth else st
    { rows := st.rows ++ [st.current], cursorRow := st.cursorRow, cursorCol := st.cursorCol }

end Code

/-! ## Lines -/

/-- A row, and whether a newline ends it. -/
abbrev Line := List Char × Bool

/-- The text of a line, its newline restored. -/
def Line.text (line : Line) : List Char := line.1 ++ if line.2 then ['\n'] else []

section Lines

variable (widths : CharWidths) (innerWidth : Nat)

def rowWidth (row : List Char) : Nat := (row.map (cells widths)).sum

/-- One character: the lines that are over, and the row it is on. -/
def packStep (packed : List Line × List Char) (ch : Char) : List Line × List Char :=
  if ch = '\n' then (packed.1 ++ [(packed.2, true)], [])
  else if wraps widths innerWidth packed.2 (rowWidth widths packed.2) ch then
    (packed.1 ++ [(packed.2, false)], [ch])
  else (packed.1, packed.2 ++ [ch])

def pack (text : List Char) : List Line × List Char :=
  text.foldl (packStep widths innerWidth) ([], [])

/-- All lines of a text. -/
def linesOf (text : List Char) : List Line :=
  (pack widths innerWidth text).1 ++ [((pack widths innerWidth text).2, false)]

/-- A row fits, or is one character too wide for any row, with nothing behind it that takes
cells. -/
def RowFits (row : List Char) : Prop :=
  rowWidth widths row ≤ innerWidth ∨
    ∃ ch marks, row = ch :: marks ∧ innerWidth < cells widths ch ∧
      ∀ mark ∈ marks, cells widths mark = 0

/-- The loop's variables are those of the packing. -/
structure Packs (st : Packing) (packed : List Line × List Char) : Prop where
  rows : st.rows = packed.1.map Prod.fst
  current : st.current = packed.2
  col : st.col = rowWidth widths packed.2

variable {widths innerWidth}

theorem rowWidth_append (a b : List Char) :
    rowWidth widths (a ++ b) = rowWidth widths a + rowWidth widths b := by
  simp [rowWidth]

variable {st : Packing} {packed : List Line × List Char}

theorem Packs.placeCursor
    (h : Packs widths st packed) : Packs widths (st.placeCursor innerWidth) packed := by
  unfold Packing.placeCursor
  split <;> exact ⟨h.rows, h.current, h.col⟩

theorem Packs.consume (h : Packs widths st packed) (cursorPos i : Nat) (ch : Char) :
    Packs widths (st.consume widths innerWidth cursorPos i ch)
      (packStep widths innerWidth packed ch) := by
  have hplaced : Packs widths (if i = cursorPos then st.placeCursor innerWidth else st) packed := by
    split
    · exact h.placeCursor
    · exact h
  generalize hst : (if i = cursorPos then st.placeCursor innerWidth else st) = placed at hplaced
  simp only [Packing.consume, hst, packStep]
  by_cases hnewline : ch = '\n'
  · rw [if_pos hnewline, if_pos hnewline]
    exact ⟨by simp [Packing.endRow, hplaced.rows, hplaced.current], rfl, rfl⟩
  · rw [if_neg hnewline, if_neg hnewline, hplaced.current, hplaced.col]
    split
    · exact ⟨by simp [Packing.endRow, hplaced.rows, hplaced.current], rfl,
        by simp [Packing.endRow, rowWidth]⟩
    · exact ⟨hplaced.rows, by simp [hplaced.current],
        by rw [hplaced.col, rowWidth_append]; simp [rowWidth]⟩

theorem Packs.consumeAll (cursorPos : Nat) (text : List Char) (h : Packs widths st packed)
    (i : Nat) :
    Packs widths (consumeAll widths innerWidth cursorPos i st text)
      (text.foldl (packStep widths innerWidth) packed) := by
  induction text generalizing st packed i with
  | nil => exact h
  | cons ch rest ih => exact ih (h.consume cursorPos i ch) (i + 1)

variable (widths innerWidth) in
/-- The three ways a character goes. -/
theorem packStep_cases (packed : List Line × List Char) (ch : Char) :
    (ch = '\n' ∧ packStep widths innerWidth packed ch = (packed.1 ++ [(packed.2, true)], [])) ∨
    (ch ≠ '\n' ∧ 0 < cells widths ch ∧
      innerWidth < rowWidth widths packed.2 + cells widths ch ∧ packed.2 ≠ [] ∧
      packStep widths innerWidth packed ch = (packed.1 ++ [(packed.2, false)], [ch])) ∨
    (ch ≠ '\n' ∧
      (cells widths ch = 0 ∨ rowWidth widths packed.2 + cells widths ch ≤ innerWidth ∨
        packed.2 = []) ∧
      packStep widths innerWidth packed ch = (packed.1, packed.2 ++ [ch])) := by
  unfold packStep
  by_cases hnewline : ch = '\n'
  · exact .inl ⟨hnewline, if_pos hnewline⟩
  rw [if_neg hnewline]
  cases hwraps : wraps widths innerWidth packed.2 (rowWidth widths packed.2) ch with
  | true =>
    simp only [wraps, Bool.and_eq_true, decide_eq_true_eq, Bool.not_eq_true',
      List.isEmpty_eq_false_iff] at hwraps
    exact .inr (.inl ⟨hnewline, hwraps.1.1, hwraps.1.2, hwraps.2, if_pos rfl⟩)
  | false =>
    refine .inr (.inr ⟨hnewline, ?_, if_neg (by simp)⟩)
    simp only [wraps, Bool.and_eq_false_iff, decide_eq_false_iff_not, Bool.not_eq_false',
      List.isEmpty_iff] at hwraps
    rcases hwraps with (hzero | hfits) | hempty
    · exact .inl (by omega)
    · exact .inr (.inl (by omega))
    · exact .inr (.inr hempty)

/-- What holds of the lines of a text: nothing is lost, all rows fit, and a row that nothing is on
yet was not begun by a wrap. -/
structure Packed (widths : CharWidths) (innerWidth : Nat) (text : List Char)
    (packed : List Line × List Char) : Prop where
  text : packed.1.flatMap Line.text ++ packed.2 = text
  fits : ∀ line ∈ packed.1, RowFits widths innerWidth line.1
  fitsLast : RowFits widths innerWidth packed.2
  fresh : packed.2 = [] → ∀ row, packed.1.getLast? ≠ some (row, false)

theorem RowFits.extend {row : List Char} (h : RowFits widths innerWidth row) {ch : Char}
    (hch : cells widths ch = 0 ∨ rowWidth widths row + cells widths ch ≤ innerWidth ∨ row = []) :
    RowFits widths innerWidth (row ++ [ch]) := by
  have hwidth : rowWidth widths (row ++ [ch]) = rowWidth widths row + cells widths ch := by
    rw [rowWidth_append]
    simp [rowWidth]
  by_cases hle : rowWidth widths (row ++ [ch]) ≤ innerWidth
  · exact .inl hle
  rcases hch with hzero | hfits | rfl
  · rcases h with h | ⟨first, marks, rfl, hfirst, hmarks⟩
    · omega
    refine .inr ⟨first, marks ++ [ch], rfl, hfirst, ?_⟩
    intro mark hmark
    rcases List.mem_append.1 hmark with hmark | hmark
    · exact hmarks mark hmark
    · rw [List.mem_singleton.1 hmark, hzero]
  · omega
  · refine .inr ⟨ch, [], rfl, ?_, by simp⟩
    simp [rowWidth] at hle
    exact hle

theorem Packed.step {text : List Char} (h : Packed widths innerWidth text packed) (ch : Char) :
    Packed widths innerWidth (text ++ [ch]) (packStep widths innerWidth packed ch) := by
  have hclosed : ∀ newline, ∀ line ∈ packed.1 ++ [(packed.2, newline)],
      RowFits widths innerWidth line.1 := by
    intro newline line hline
    rcases List.mem_append.1 hline with hline | hline
    · exact h.fits line hline
    · rw [List.mem_singleton.1 hline]
      exact h.fitsLast
  rcases packStep_cases widths innerWidth packed ch with
    ⟨rfl, heq⟩ | ⟨_, _, _, _, heq⟩ | ⟨_, hch, heq⟩
  · rw [heq]
    exact ⟨by simp [← h.text, Line.text], hclosed true, .inl (Nat.zero_le _), by simp⟩
  · rw [heq]
    refine ⟨by simp [← h.text, Line.text], hclosed false, ?_, by simp⟩
    exact RowFits.extend (.inl (Nat.zero_le _)) (.inr (.inr rfl))
  · rw [heq]
    exact ⟨by simp [← h.text], h.fits, h.fitsLast.extend hch, by simp⟩

theorem packed_pack (text : List Char) :
    Packed widths innerWidth text (pack widths innerWidth text) := by
  induction text using List.reverseRecOn with
  | nil => exact ⟨rfl, by simp [pack], .inl (Nat.zero_le _), by simp [pack]⟩
  | append_singleton text ch ih =>
    rw [pack, List.foldl_append, List.foldl_cons, List.foldl_nil]
    exact ih.step ch

/-- The rest of a text adds to the row there is and then to the lines behind it. -/
theorem foldl_packStep_extends (text : List Char) (packed : List Line × List Char) :
    ∃ right newline after,
      (text.foldl (packStep widths innerWidth) packed).1 ++
          [((text.foldl (packStep widths innerWidth) packed).2, false)] =
        packed.1 ++ (packed.2 ++ right, newline) :: after := by
  induction text generalizing packed with
  | nil => exact ⟨[], false, [], by simp⟩
  | cons ch rest ih =>
    obtain ⟨right, newline, after, hrest⟩ := ih (packStep widths innerWidth packed ch)
    rw [List.foldl_cons, hrest]
    rcases packStep_cases widths innerWidth packed ch with
      ⟨_, heq⟩ | ⟨_, _, _, _, heq⟩ | ⟨_, _, heq⟩
    · exact ⟨[], true, (right, newline) :: after, by simp [heq]⟩
    · exact ⟨[], false, (ch :: right, newline) :: after, by simp [heq]⟩
    · exact ⟨ch :: right, newline, after, by simp [heq]⟩

end Lines

/-! ## The cursor -/

section Cursor

variable (widths : CharWidths) (innerWidth cursorPos : Nat)

theorem consumeAll_append (i : Nat) (st : Packing) (front rest : List Char) :
    consumeAll widths innerWidth cursorPos i st (front ++ rest) =
      consumeAll widths innerWidth cursorPos (i + front.length)
        (consumeAll widths innerWidth cursorPos i st front) rest := by
  induction front generalizing i st with
  | nil => rfl
  | cons ch front ih =>
    rw [List.cons_append, consumeAll, consumeAll, ih, List.length_cons, Nat.add_assoc,
      Nat.add_comm 1]

/-- A character moves the cursor only when the cursor stands before it. -/
theorem consume_cursor (st : Packing) (i : Nat) (ch : Char) :
    (st.consume widths innerWidth cursorPos i ch).cursorRow =
        (if i = cursorPos then st.placeCursor innerWidth else st).cursorRow ∧
      (st.consume widths innerWidth cursorPos i ch).cursorCol =
        (if i = cursorPos then st.placeCursor innerWidth else st).cursorCol := by
  simp only [Packing.consume]
  generalize (if i = cursorPos then st.placeCursor innerWidth else st) = placed
  by_cases hnewline : ch = '\n'
  · rw [if_pos hnewline]
    exact ⟨rfl, rfl⟩
  · rw [if_neg hnewline]
    split <;> exact ⟨rfl, rfl⟩

theorem consumeAll_cursor (text : List Char) (i : Nat) (st : Packing) (h : cursorPos < i) :
    (consumeAll widths innerWidth cursorPos i st text).cursorRow = st.cursorRow ∧
      (consumeAll widths innerWidth cursorPos i st text).cursorCol = st.cursorCol := by
  induction text generalizing i st with
  | nil => exact ⟨rfl, rfl⟩
  | cons ch rest ih =>
    obtain ⟨hrow, hcol⟩ := consume_cursor widths innerWidth cursorPos st i ch
    rw [if_neg (by omega)] at hrow hcol
    obtain ⟨hrow', hcol'⟩ := ih (i + 1) (st.consume widths innerWidth cursorPos i ch) (by omega)
    rw [consumeAll, hrow', hcol', hrow, hcol]
    exact ⟨rfl, rfl⟩

/-- Where the cursor ends up that stands before a character: where the packing of the text before
it says. -/
theorem layoutInput_cursor (hpos : innerWidth ≠ 0) (front rest : List Char) (ch : Char)
    (hfront : front.length = cursorPos) :
    ((layoutInput widths innerWidth cursorPos (front ++ ch :: rest)).cursorRow,
      (layoutInput widths innerWidth cursorPos (front ++ ch :: rest)).cursorCol) =
    if innerWidth ≤ rowWidth widths (pack widths innerWidth front).2 then
      ((pack widths innerWidth front).1.length + 1, 0)
    else ((pack widths innerWidth front).1.length,
      rowWidth widths (pack widths innerWidth front).2 % 2 ^ 16) := by
  have hpacks : Packs widths (consumeAll widths innerWidth cursorPos 0 {} front)
      (pack widths innerWidth front) := Packs.consumeAll cursorPos front ⟨rfl, rfl, rfl⟩ 0
  generalize hst : consumeAll widths innerWidth cursorPos 0 {} front = st at hpacks
  obtain ⟨hrow, hcol⟩ := consume_cursor widths innerWidth cursorPos st cursorPos ch
  obtain ⟨hrow', hcol'⟩ := consumeAll_cursor widths innerWidth cursorPos rest (cursorPos + 1)
    (st.consume widths innerWidth cursorPos cursorPos ch) (by omega)
  rw [if_pos rfl] at hrow hcol
  rw [hrow] at hrow'
  rw [hcol] at hcol'
  have hlength : ¬ (front ++ ch :: rest).length ≤ cursorPos := by simp; omega
  simp only [layoutInput, if_neg hpos, if_neg hlength]
  rw [consumeAll_append, Nat.zero_add, hfront, hst, consumeAll, hrow', hcol', ← hpacks.col]
  have hrows : st.rows.length = (pack widths innerWidth front).1.length := by
    rw [hpacks.rows, List.length_map]
  unfold Packing.placeCursor
  split
  · rw [hrows]
  · rw [hrows]

theorem layoutInput_rows (hpos : innerWidth ≠ 0) (input : List Char) :
    (layoutInput widths innerWidth cursorPos input).rows =
      (linesOf widths innerWidth input).map Prod.fst := by
  have hpacks : Packs widths (consumeAll widths innerWidth cursorPos 0 {} input)
      (pack widths innerWidth input) := Packs.consumeAll cursorPos input ⟨rfl, rfl, rfl⟩ 0
  have hplaced : Packs widths
      (if input.length ≤ cursorPos then
        (consumeAll widths innerWidth cursorPos 0 {} input).placeCursor innerWidth
      else consumeAll widths innerWidth cursorPos 0 {} input)
      (pack widths innerWidth input) := by
    split
    · exact hpacks.placeCursor
    · exact hpacks
  simp only [layoutInput, if_neg hpos]
  rw [hplaced.rows, hplaced.current, linesOf, List.map_append]
  rfl

/-- The character the cursor stands before, found in the lines: it starts the row after a wrap or
continues the row there is, and the cursor is with it unless it was wrapped from a row with free
cells. -/
theorem cursor_at_iff (hpos : 1 ≤ innerWidth) (hterminal : innerWidth ≤ 2 ^ 16)
    (front rest : List Char) (ch : Char) (hfront : front.length = cursorPos)
    (hcells : 0 < cells widths ch) :
    ∃ before left right newline after,
      linesOf widths innerWidth (front ++ ch :: rest) =
        before ++ (left ++ ch :: right, newline) :: after ∧
      (before.flatMap Line.text ++ left).length = cursorPos ∧
      (((layoutInput widths innerWidth cursorPos (front ++ ch :: rest)).cursorRow =
            before.length ∧
          (layoutInput widths innerWidth cursorPos (front ++ ch :: rest)).cursorCol =
            rowWidth widths left) ↔
        ∀ row, left = [] → before.getLast? = some (row, false) →
          innerWidth ≤ rowWidth widths row) := by
  have hcursor := layoutInput_cursor widths innerWidth cursorPos (by omega) front rest ch hfront
  have hpacked : Packed widths innerWidth front (pack widths innerWidth front) := packed_pack front
  obtain ⟨right, newline, after, hlines⟩ := foldl_packStep_extends rest
    (packStep widths innerWidth (pack widths innerWidth front) ch)
  have hlinesOf : linesOf widths innerWidth (front ++ ch :: rest) =
      (packStep widths innerWidth (pack widths innerWidth front) ch).1 ++
        ((packStep widths innerWidth (pack widths innerWidth front) ch).2 ++ right, newline) ::
          after := by
    rw [← hlines, linesOf, pack, List.foldl_append, List.foldl_cons]
    rfl
  generalize pack widths innerWidth front = packed at hcursor hpacked hlinesOf
  have hindex : (packed.1.flatMap Line.text ++ packed.2).length = cursorPos := by
    rw [hpacked.text, hfront]
  rcases packStep_cases widths innerWidth packed ch with
    ⟨rfl, _⟩ | ⟨_, _, hover, hne, hstep⟩ | ⟨_, hroom, hstep⟩
  · simp [cells, widths.newline] at hcells
  · -- the character starts a row of its own
    rw [hstep] at hlinesOf
    refine ⟨packed.1 ++ [(packed.2, false)], [], right, newline, after, hlinesOf,
      by simpa [Line.text] using hindex, ?_⟩
    split at hcursor
    · rename_i hfull
      obtain ⟨hrow, hcol⟩ := Prod.mk.inj hcursor
      refine iff_of_true ⟨by simp [hrow], by simp [hcol, rowWidth]⟩ ?_
      intro row _ hlast
      simp only [List.getLast?_append, List.getLast?_singleton, Option.some_or, Option.some.injEq,
        Prod.mk.injEq, and_true] at hlast
      rw [← hlast]
      exact hfull
    · rename_i hfree
      obtain ⟨hrow, _⟩ := Prod.mk.inj hcursor
      refine iff_of_false ?_ ?_
      · rintro ⟨hrow', _⟩
        rw [hrow, List.length_append, List.length_singleton] at hrow'
        omega
      · intro hall
        exact hfree (hall packed.2 rfl (by simp))
  · -- it goes on the row there is, which has room
    rw [hstep] at hlinesOf
    refine ⟨packed.1, packed.2, right, newline, after, by simpa using hlinesOf, hindex, ?_⟩
    have hfree : rowWidth widths packed.2 < innerWidth := by
      rcases hroom with hroom | hroom | hroom
      · omega
      · omega
      · simp [hroom, rowWidth]
        omega
    rw [if_neg (by omega), Nat.mod_eq_of_lt (by omega)] at hcursor
    obtain ⟨hrow, hcol⟩ := Prod.mk.inj hcursor
    refine iff_of_true ⟨hrow, hcol⟩ ?_
    intro row hempty hlast
    exact absurd hlast (hpacked.fresh hempty row)

/-- **The layout of the input.**  The rows, newlines restored, are the text; a row fits the box or
is one character too wide for it; the cursor's row is one of the rows shown; and before a character
that takes cells the cursor is where the character is, unless the character was moved to the next
row from a row with free cells. -/
theorem layout_input_spec (input : List Char) (hpos : 1 ≤ innerWidth)
    (hterminal : innerWidth ≤ 2 ^ 16) :
    ∃ lines : List Line,
      (layoutInput widths innerWidth cursorPos input).rows = lines.map Prod.fst ∧
      lines.flatMap Line.text = input ∧
      (∀ row ∈ (layoutInput widths innerWidth cursorPos input).rows,
        RowFits widths innerWidth row) ∧
      (layoutInput widths innerWidth cursorPos input).cursorRow <
        (layoutInput widths innerWidth cursorPos input).contentRows ∧
      ∀ ch, input[cursorPos]? = some ch → 0 < cells widths ch →
        ∃ before left right newline after,
          lines = before ++ (left ++ ch :: right, newline) :: after ∧
          (before.flatMap Line.text ++ left).length = cursorPos ∧
          (((layoutInput widths innerWidth cursorPos input).cursorRow = before.length ∧
              (layoutInput widths innerWidth cursorPos input).cursorCol = rowWidth widths left) ↔
            ∀ row, left = [] → before.getLast? = some (row, false) →
              innerWidth ≤ rowWidth widths row) := by
  have hrows := layoutInput_rows widths innerWidth cursorPos (by omega) input
  have hpacked : Packed widths innerWidth input (pack widths innerWidth input) := packed_pack input
  refine ⟨linesOf widths innerWidth input, hrows, ?_, ?_, ?_, ?_⟩
  · simpa [linesOf, Line.text] using hpacked.text
  · intro row hrow
    rw [hrows, linesOf, List.map_append] at hrow
    rcases List.mem_append.1 hrow with hrow | hrow
    · obtain ⟨line, hline, rfl⟩ := List.mem_map.1 hrow
      exact hpacked.fits line hline
    · rw [List.mem_singleton.1 hrow]
      exact hpacked.fitsLast
  · unfold InputLayout.contentRows
    omega
  · intro ch hch hcells
    obtain ⟨hlt, hget⟩ := List.getElem?_eq_some_iff.1 hch
    have hsplit : input = input.take cursorPos ++ ch :: input.drop (cursorPos + 1) := by
      rw [← hget, List.cons_getElem_drop_succ, List.take_append_drop]
    have hiff := cursor_at_iff widths innerWidth cursorPos hpos hterminal (input.take cursorPos)
      (input.drop (cursorPos + 1)) ch (by simp; omega) hcells
    rw [← hsplit] at hiff
    exact hiff

end Cursor

/-- A table for letters, one wide character and one mark. -/
def sampleWidths : CharWidths where
  width := fun ch =>
    if ch = '\n' then none else if ch = '日' then some 2 else if ch = '́' then some 0 else some 1
  newline := rfl

/-- Three letters and a wide character in a box of four cells, the cursor after two of them. -/
theorem layout_input_spec_letters :
    ∃ lines : List Line,
      (layoutInput sampleWidths 4 2 "abc日".toList).rows = lines.map Prod.fst ∧
      lines.flatMap Line.text = "abc日".toList ∧
      (∀ row ∈ (layoutInput sampleWidths 4 2 "abc日".toList).rows, RowFits sampleWidths 4 row) ∧
      (layoutInput sampleWidths 4 2 "abc日".toList).cursorRow <
        (layoutInput sampleWidths 4 2 "abc日".toList).contentRows ∧
      ∃ before left right newline after,
        lines = before ++ (left ++ 'c' :: right, newline) :: after ∧
        (before.flatMap Line.text ++ left).length = 2 := by
  obtain ⟨lines, hrows, htext, hfits, hshown, hcursor⟩ :=
    layout_input_spec sampleWidths 4 2 "abc日".toList (by decide) (by decide)
  obtain ⟨before, left, right, newline, after, hlines, hlength, -⟩ :=
    hcursor 'c' rfl (by decide)
  exact ⟨lines, hrows, htext, hfits, hshown, before, left, right, newline, after, hlines, hlength⟩

/-- A text without newlines that fits the box is one row. -/
theorem pack_short (widths : CharWidths) (innerWidth : Nat) {text : List Char}
    (hline : '\n' ∉ text) (hfits : rowWidth widths text ≤ innerWidth) :
    pack widths innerWidth text = ([], text) := by
  induction text using List.reverseRecOn with
  | nil => rfl
  | append_singleton text ch ih =>
    rw [rowWidth_append] at hfits
    have hch : rowWidth widths [ch] = cells widths ch := by simp [rowWidth]
    have hfront := ih (fun h => hline (List.mem_append_left _ h)) (by omega)
    unfold pack at hfront ⊢
    rw [List.foldl_append, hfront, List.foldl_cons, List.foldl_nil]
    rcases packStep_cases widths innerWidth ([], text) ch with
      ⟨rfl, _⟩ | ⟨_, _, hover, _, _⟩ | ⟨_, _, hstep⟩
    · simp at hline
    · simp only at hover
      omega
    · simpa using hstep

/-- The cursor before the last of a row of letters, in a box that holds them all. -/
theorem layoutInput_letters_col (n : Nat) :
    (layoutInput sampleWidths (n + 1) n (List.replicate n 'a' ++ ['a'])).cursorCol =
      n % 2 ^ 16 := by
  have hcell : cells sampleWidths 'a' = 1 := by decide
  have hwidth : rowWidth sampleWidths (List.replicate n 'a') = n := by
    rw [rowWidth, List.map_replicate, List.sum_replicate, hcell, smul_eq_mul, Nat.mul_one]
  have hline : '\n' ∉ List.replicate n 'a' := fun h => by
    have := List.eq_of_mem_replicate h
    contradiction
  have hcursor := layoutInput_cursor sampleWidths (n + 1) n (by omega)
    (List.replicate n 'a') [] 'a' (List.length_replicate ..)
  rw [pack_short sampleWidths (n + 1) hline (by omega), hwidth, if_neg (by omega)] at hcursor
  exact (Prod.mk.inj hcursor).2

/-- The wide character is on the second row and the cursor before it on the first; a mark behind a
character that is too wide for the box stays on its row; and in a box of more cells than a column
has numbers, the column starts again. -/
theorem cursor_left_behind :
    layoutInput sampleWidths 4 3 "abc日".toList =
      { rows := ["abc".toList, "日".toList], cursorRow := 0, cursorCol := 3 } ∧
    (layoutInput sampleWidths 1 0 "日́".toList).rows = ["日́".toList] ∧
    (layoutInput sampleWidths 65537 65536 (List.replicate 65536 'a' ++ ['a'])).cursorCol = 0 :=
  ⟨by decide +kernel, by decide +kernel, layoutInput_letters_col 65536⟩

end EmbraOS.Ports.InputBox
