import EmbraOS.Verified.Search
import EmbraOS.Verified.Text

/-!
# Byte places in a text

A text is a list of characters, a place in it a number of bytes.  `splitBytes` cuts a text at a
place if no character lies across it, `slice?` is the piece between two places.  `floorBoundary`
and `ceilBoundary` move a place back and on to the next one between characters.

`slice?_window`: the piece from a place moved back to a later one moved on is never refused; it is
what `coverBytes` has beyond `takeBytes`.  `infix_inside`: when the place comes from an image of
the text, character by character, that is `Near` the text, the image of the piece has what the
image has there.
-/

namespace EmbraOS.Verified.BytePlaces

open String (utf8Len)
open Verified.Search (infix_middle)
open Verified.Text (takeBytes)

/-- Both sides of a place. -/
def splitBytes : List Char → Nat → Option (List Char × List Char)
  | text, 0 => some ([], text)
  | [], _ + 1 => none
  | c :: cs, n + 1 =>
    if c.utf8Size ≤ n + 1 then
      (splitBytes cs (n + 1 - c.utf8Size)).map fun p => (c :: p.1, p.2)
    else none

def isCharBoundary (text : List Char) (n : Nat) : Bool := (splitBytes text n).isSome

/-- `text[start..stop]`. -/
def slice? (text : List Char) (start stop : Nat) : Option (List Char) :=
  if start ≤ stop then
    (splitBytes text start).bind fun p => (splitBytes p.2 (stop - start)).map Prod.fst
  else none

/-- `while start > 0 && !text.is_char_boundary(start) { start -= 1 }` -/
def floorBoundary (text : List Char) : Nat → Nat
  | 0 => 0
  | n + 1 => if isCharBoundary text (n + 1) then n + 1 else floorBoundary text n

/-- `while end < text.len() && !text.is_char_boundary(end) { end += 1 }`, with the places that
are left before the text ends. -/
def ceilFrom (text : List Char) : Nat → Nat → Nat
  | 0, stop => stop
  | left + 1, stop => if isCharBoundary text stop then stop else ceilFrom text left (stop + 1)

def ceilBoundary (text : List Char) (stop : Nat) : Nat := ceilFrom text (utf8Len text - stop) stop

/-- The shortest prefix of at least `n` bytes; the whole text if it has fewer. -/
def coverBytes : List Char → Nat → List Char
  | _, 0 => []
  | [], _ + 1 => []
  | c :: cs, n + 1 => c :: coverBytes cs (n + 1 - c.utf8Size)

/-! ## Cutting at a place -/

@[simp] theorem splitBytes_zero (text : List Char) : splitBytes text 0 = some ([], text) := by
  cases text <;> rfl

variable {n lo hi : Nat} {text x : List Char}

theorem splitBytes_cons {c : Char} (cs : List Char) (h : c.utf8Size ≤ n) :
    splitBytes (c :: cs) n = (splitBytes cs (n - c.utf8Size)).map fun p => (c :: p.1, p.2) := by
  cases n with
  | zero => exact absurd h (Nat.not_le.2 c.utf8Size_pos)
  | succ n => rw [splitBytes, if_pos h]

theorem splitBytes_append (x y : List Char) : splitBytes (x ++ y) (utf8Len x) = some (x, y) := by
  induction x with
  | nil => exact splitBytes_zero y
  | cons c x ih =>
    rw [List.cons_append, String.utf8Len_cons, splitBytes_cons _ (Nat.le_add_left _ _),
      Nat.add_sub_cancel, ih]
    rfl

theorem splitBytes_spec {y : List Char} (h : splitBytes text n = some (x, y)) :
    text = x ++ y ∧ utf8Len x = n := by
  induction text generalizing n x y with
  | nil =>
    cases n with
    | zero =>
      cases h
      exact ⟨rfl, rfl⟩
    | succ n => cases h
  | cons c cs ih =>
    cases n with
    | zero =>
      cases h
      exact ⟨rfl, rfl⟩
    | succ n =>
      rw [splitBytes] at h
      split at h
      · rename_i hsize
        obtain ⟨⟨x', y'⟩, hcut, heq⟩ := Option.map_eq_some_iff.1 h
        cases heq
        obtain ⟨rfl, hlen⟩ := ih hcut
        refine ⟨rfl, ?_⟩
        rw [String.utf8Len_cons, hlen]
        omega
      · cases h

theorem isCharBoundary_utf8Len (h : x <+: text) :
    isCharBoundary text (utf8Len x) = true := by
  obtain ⟨y, rfl⟩ := h
  rw [isCharBoundary, splitBytes_append]
  rfl

theorem exists_of_isCharBoundary (h : isCharBoundary text n = true) :
    ∃ x y, text = x ++ y ∧ utf8Len x = n := by
  obtain ⟨⟨x, y⟩, hcut⟩ := Option.isSome_iff_exists.1 h
  exact ⟨x, y, splitBytes_spec hcut⟩

theorem slice?_append (x m y : List Char) :
    slice? (x ++ m ++ y) (utf8Len x) (utf8Len (x ++ m)) = some m := by
  rw [slice?, String.utf8Len_append, if_pos (Nat.le_add_right _ _), List.append_assoc,
    splitBytes_append, Option.bind_some, Nat.add_sub_cancel_left, splitBytes_append]
  rfl

/-! ## The place before and the place behind -/

theorem takeBytes_isPart (n : Nat) (text : List Char) : takeBytes n text <+: text := by
  induction text generalizing n with
  | nil => exact List.prefix_rfl
  | cons c cs ih =>
    rw [takeBytes]
    split
    · exact List.cons_prefix_cons.2 ⟨rfl, ih _⟩
    · exact List.nil_prefix

theorem coverBytes_isPart (text : List Char) (n : Nat) : coverBytes text n <+: text := by
  induction text generalizing n with
  | nil => cases n <;> exact List.prefix_rfl
  | cons c cs ih =>
    cases n with
    | zero => exact List.nil_prefix
    | succ n => exact List.cons_prefix_cons.2 ⟨rfl, ih _⟩

theorem takeBytes_utf8Len (x y : List Char) : takeBytes (utf8Len x) (x ++ y) = x := by
  induction x with
  | nil =>
    cases y with
    | nil => rfl
    | cons c cs => exact if_neg (Nat.not_le.2 c.utf8Size_pos)
  | cons c x ih =>
    rw [List.cons_append, takeBytes, String.utf8Len_cons, if_pos (Nat.le_add_left _ _),
      Nat.add_sub_cancel, ih]

theorem coverBytes_utf8Len (x y : List Char) : coverBytes (x ++ y) (utf8Len x) = x := by
  induction x with
  | nil => cases y <;> rfl
  | cons c x ih =>
    have hpos := c.utf8Size_pos
    obtain ⟨n, hn⟩ : ∃ n, utf8Len (c :: x) = n + 1 :=
      Nat.exists_eq_succ_of_ne_zero (by rw [String.utf8Len_cons]; omega)
    rw [List.cons_append, hn, coverBytes, ← hn, String.utf8Len_cons, Nat.add_sub_cancel, ih]

theorem utf8Len_takeBytes_le (n : Nat) (text : List Char) : utf8Len (takeBytes n text) ≤ n := by
  induction text generalizing n with
  | nil => exact Nat.zero_le n
  | cons c cs ih =>
    rw [takeBytes]
    split
    · rename_i hsize
      have hrest := ih (n - c.utf8Size)
      rw [String.utf8Len_cons]
      omega
    · exact Nat.zero_le n

theorem takeBytes_of_le (h : utf8Len text ≤ n) :
    takeBytes n text = text := by
  induction text generalizing n with
  | nil => rfl
  | cons c cs ih =>
    rw [String.utf8Len_cons] at h
    rw [takeBytes, if_pos (by omega), ih (by omega)]

/-- Inside a character the two prefixes do not change. -/
theorem takeBytes_succ (h : isCharBoundary text (n + 1) = false) :
    takeBytes (n + 1) text = takeBytes n text := by
  induction text generalizing n with
  | nil => rfl
  | cons c cs ih =>
    have hne : c.utf8Size ≠ n + 1 := by
      intro heq
      have hboundary := isCharBoundary_utf8Len (List.prefix_append [c] cs)
      rw [String.utf8Len_cons, String.utf8Len_nil, Nat.zero_add, heq] at hboundary
      exact Bool.false_ne_true (h.symm.trans hboundary)
    rw [takeBytes, takeBytes]
    by_cases hle : c.utf8Size ≤ n
    · rw [if_pos hle, if_pos (Nat.le_succ_of_le hle), Nat.succ_sub hle]
      congr 1
      apply ih
      rw [isCharBoundary, splitBytes_cons cs (Nat.le_succ_of_le hle), Option.isSome_map,
        Nat.succ_sub hle] at h
      exact h
    · rw [if_neg hle, if_neg (by omega)]

theorem coverBytes_succ (hn : n < utf8Len text)
    (h : isCharBoundary text n = false) : coverBytes text n = coverBytes text (n + 1) := by
  induction text generalizing n with
  | nil => exact absurd hn (Nat.not_lt_zero n)
  | cons c cs ih =>
    have hpos := c.utf8Size_pos
    cases n with
    | zero =>
      rw [isCharBoundary, splitBytes_zero] at h
      cases h
    | succ n =>
      rw [coverBytes, coverBytes]
      congr 1
      by_cases hle : c.utf8Size ≤ n + 1
      · rw [Nat.succ_sub hle]
        apply ih
        · rw [String.utf8Len_cons] at hn
          omega
        · rw [isCharBoundary, splitBytes_cons cs hle, Option.isSome_map] at h
          exact h
      · rw [Nat.sub_eq_zero_of_le (by omega), Nat.sub_eq_zero_of_le (by omega)]

theorem floorBoundary_eq (text : List Char) (n : Nat) :
    floorBoundary text n = utf8Len (takeBytes n text) := by
  induction n with
  | zero =>
    have hnil := takeBytes_utf8Len [] text
    rw [String.utf8Len_nil, List.nil_append] at hnil
    rw [hnil]
    rfl
  | succ n ih =>
    rw [floorBoundary]
    split
    · rename_i hboundary
      obtain ⟨x, y, rfl, hx⟩ := exists_of_isCharBoundary hboundary
      rw [← hx, takeBytes_utf8Len]
    · rename_i hinside
      rw [takeBytes_succ (Bool.eq_false_iff.2 hinside), ih]

theorem ceilFrom_eq (text : List Char) (left : Nat) : ∀ stop, stop + left = utf8Len text →
    ceilFrom text left stop = utf8Len (coverBytes text stop) := by
  induction left with
  | zero =>
    intro stop hstop
    have hall := coverBytes_utf8Len text []
    rw [List.append_nil] at hall
    rw [show stop = utf8Len text from hstop, hall]
    rfl
  | succ left ih =>
    intro stop hstop
    rw [ceilFrom]
    split
    · rename_i hboundary
      obtain ⟨x, y, rfl, hx⟩ := exists_of_isCharBoundary hboundary
      rw [← hx, coverBytes_utf8Len]
    · rename_i hinside
      rw [coverBytes_succ (by omega) (Bool.eq_false_iff.2 hinside), ih (stop + 1) (by omega)]

/-- Beyond the end of the text there is nothing more to cover. -/
theorem coverBytes_min (text : List Char) (n : Nat) :
    coverBytes text (min n (utf8Len text)) = coverBytes text n := by
  induction text generalizing n with
  | nil => cases n <;> rfl
  | cons c cs ih =>
    have hpos := c.utf8Size_pos
    cases n with
    | zero => rw [Nat.zero_min]
    | succ n =>
      obtain ⟨k, hk⟩ : ∃ k, min (n + 1) (utf8Len (c :: cs)) = k + 1 :=
        Nat.exists_eq_succ_of_ne_zero (by rw [String.utf8Len_cons]; omega)
      rw [hk, coverBytes, coverBytes, ← ih (n + 1 - c.utf8Size),
        show k + 1 - c.utf8Size = min (n + 1 - c.utf8Size) (utf8Len cs) by
          rw [← hk, String.utf8Len_cons]
          omega]

theorem ceilBoundary_eq (text : List Char) (n : Nat) :
    ceilBoundary text (min n (utf8Len text)) = utf8Len (coverBytes text n) := by
  rw [ceilBoundary, ceilFrom_eq _ _ _ (Nat.add_sub_cancel' (min_le_right _ _)), coverBytes_min]

theorem takeBytes_prefix_coverBytes (h : lo ≤ hi) (text : List Char) :
    takeBytes lo text <+: coverBytes text hi := by
  induction text generalizing lo hi with
  | nil => exact List.nil_prefix
  | cons c cs ih =>
    rw [takeBytes]
    split
    · rename_i hsize
      have hpos := c.utf8Size_pos
      obtain ⟨n, rfl⟩ : ∃ n, hi = n + 1 := Nat.exists_eq_succ_of_ne_zero (by omega)
      exact List.cons_prefix_cons.2 ⟨rfl, ih (Nat.sub_le_sub_right h _)⟩
    · exact List.nil_prefix

/-! ## Windows -/

/-- A text cut in three, the middle covering the bytes from `lo` to `hi`. -/
structure Window (text : List Char) (lo hi : Nat) where
  before : List Char
  inside : List Char
  after : List Char
  whole : text = before ++ inside ++ after
  start : before = takeBytes lo text
  stop : before ++ inside = coverBytes text hi

def window {lo hi : Nat} (h : lo ≤ hi) (text : List Char) : Window text lo hi where
  before := takeBytes lo text
  inside := (coverBytes text hi).drop (takeBytes lo text).length
  after := text.drop (coverBytes text hi).length
  whole := by
    rw [List.prefix_iff_eq_append.1 (takeBytes_prefix_coverBytes h text),
      List.prefix_iff_eq_append.1 (coverBytes_isPart text hi)]
  start := rfl
  stop := List.prefix_iff_eq_append.1 (takeBytes_prefix_coverBytes h text)

theorem slice?_window (w : Window text lo hi) :
    slice? text (floorBoundary text lo) (ceilBoundary text (min hi (utf8Len text))) =
      some w.inside := by
  rw [floorBoundary_eq, ceilBoundary_eq, ← w.start, ← w.stop]
  nth_rewrite 1 [w.whole]
  exact slice?_append _ _ _

/-! ## Places of an image -/

/-- Before a place of the image of a text no character begins more than `pad` bytes further in the
text than in the image, or ends more than `pad` bytes further in the image. -/
def Near (f : Char → List Char) (text : List Char) (pad stop : Nat) : Prop :=
  ∀ i < text.length, ((text.take i).flatMap f).length < stop →
    utf8Len (text.take i) ≤ utf8Len ((text.take i).flatMap f) + pad ∧
    utf8Len ((text.take (i + 1)).flatMap f) ≤ utf8Len (text.take (i + 1)) + pad

instance decidableNear (f : Char → List Char) (text : List Char) (pad stop : Nat) :
    Decidable (Near f text pad stop) :=
  inferInstanceAs (Decidable (∀ i < _, _))

theorem utf8Len_le_of_prefix (h : x <+: text) : utf8Len x ≤ utf8Len text := by
  obtain ⟨y, rfl⟩ := h
  rw [String.utf8Len_append]
  exact Nat.le_add_right _ _

theorem utf8Len_lt_of_prefix {z : List Char} (hx : x <+: text) (hz : z <+: text)
    (h : x.length < z.length) : utf8Len x < utf8Len z := by
  obtain ⟨y, rfl⟩ := List.prefix_of_prefix_length_le hx hz h.le
  have hne : utf8Len y ≠ 0 := by
    intro hzero
    rw [String.utf8Len_eq_zero.1 hzero, List.append_nil] at h
    exact Nat.lt_irrefl _ h
  rw [String.utf8Len_append]
  omega

theorem coverBytes_eq_or_le (text : List Char) (n : Nat) :
    coverBytes text n = text ∨ n ≤ utf8Len (coverBytes text n) := by
  induction text generalizing n with
  | nil => cases n <;> exact .inl rfl
  | cons c cs ih =>
    cases n with
    | zero => exact .inr (Nat.zero_le _)
    | succ n =>
      rw [coverBytes, String.utf8Len_cons]
      rcases ih (n + 1 - c.utf8Size) with hall | hle
      · exact .inl (by rw [hall])
      · exact .inr (by omega)

section Image

variable {f : Char → List Char} {pat front back : List Char} {pad : Nat}
  (himage : text.flatMap f = front ++ pat ++ back) (hpat : pat ≠ [])
  (hnear : Near f text pad (front ++ pat).length)
include himage hpat hnear

/-- What is cut off in front of the piece is in front of the pattern in the image. -/
theorem length_flatMap_takeBytes_le :
    ((takeBytes (utf8Len front - pad) text).flatMap f).length ≤ front.length := by
  have hbefore := List.prefix_iff_eq_take.1 (takeBytes_isPart (utf8Len front - pad) text)
  have hsize := utf8Len_takeBytes_le (utf8Len front - pad) text
  generalize takeBytes (utf8Len front - pad) text = before at hbefore hsize ⊢
  by_contra hlong
  -- the character whose image goes beyond the front
  have hcross : ∃ i, i ≤ before.length ∧ front.length < ((text.take i).flatMap f).length :=
    ⟨before.length, le_rfl, by rw [← hbefore]; omega⟩
  obtain ⟨hle, hgt⟩ := Nat.find_spec hcross
  have hmin := fun j => @Nat.find_min _ _ hcross j
  generalize Nat.find hcross = i at hle hgt hmin
  cases i with
  | zero => exact Nat.not_lt_zero _ hgt
  | succ j =>
    have hshort : ((text.take j).flatMap f).length ≤ front.length := by
      by_contra hj
      exact hmin j (Nat.lt_succ_self j) ⟨by omega, by omega⟩
    have hpos := List.length_pos_iff.2 hpat
    have hlen : before.length ≤ text.length := by
      rw [hbefore]
      exact (List.take_prefix _ _).length_le
    have hdrift := (hnear j (by omega) (by rw [List.length_append]; omega)).2
    have hpart : utf8Len (text.take (j + 1)) ≤ utf8Len before := by
      rw [hbefore]
      exact utf8Len_le_of_prefix (List.take_prefix_take_left hle)
    have hfront : front <+: text.flatMap f := ⟨pat ++ back, by rw [himage, List.append_assoc]⟩
    have hlt := utf8Len_lt_of_prefix hfront ((List.take_prefix (j + 1) text).flatMap f) hgt
    have hsome : utf8Len (text.take (j + 1)) ≠ 0 := by
      intro hzero
      rw [String.utf8Len_eq_zero.1 hzero] at hgt
      exact Nat.not_lt_zero _ hgt
    omega

omit hpat in
/-- The image up to the end of the piece has all of the pattern. -/
theorem length_le_flatMap_coverBytes : (front ++ pat).length ≤
    ((coverBytes text (utf8Len front + utf8Len pat + pad)).flatMap f).length := by
  have hcover := coverBytes_isPart text (utf8Len front + utf8Len pat + pad)
  have hend := coverBytes_eq_or_le text (utf8Len front + utf8Len pat + pad)
  generalize coverBytes text (utf8Len front + utf8Len pat + pad) = cover at hcover hend ⊢
  by_contra hshort
  have hpart : front ++ pat <+: text.flatMap f := ⟨back, himage.symm⟩
  rcases hend with rfl | hle
  · exact hshort hpart.length_le
  have hlt : cover.length < text.length := by
    by_contra hlong
    rw [hcover.eq_of_length_le (Nat.le_of_not_lt hlong)] at hshort
    exact hshort hpart.length_le
  have hdrift := hnear cover.length hlt
  rw [← List.prefix_iff_eq_take.1 hcover] at hdrift
  have hbound := (hdrift (Nat.lt_of_not_le hshort)).1
  have hless := utf8Len_lt_of_prefix (hcover.flatMap f) hpart (Nat.lt_of_not_le hshort)
  rw [String.utf8Len_append] at hless
  omega

/-- The piece around the place of a pattern in a near image has the pattern in its image. -/
theorem infix_inside
    (w : Window text (utf8Len front - pad) (utf8Len front + utf8Len pat + pad)) :
    pat <:+: w.inside.flatMap f := by
  have hlow := length_flatMap_takeBytes_le himage hpat hnear
  have hhigh := length_le_flatMap_coverBytes himage hnear
  rw [← w.start] at hlow
  rw [← w.stop, List.flatMap_append] at hhigh
  rw [w.whole, List.flatMap_append, List.flatMap_append] at himage
  exact infix_middle himage hlow hhigh

end Image

end EmbraOS.Verified.BytePlaces
