/-!
# Checked slices and separator-terminated segments

Facts about finite sequences that every scanner in this package rests on.

* Rust's slice expressions and unsigned subtractions are *partial*: out of
  range they panic.  `sliceFrom?`, `slice?` and `checkedSub?` give them an
  `Option` meaning, so that "this never panics" is a statement about the
  result being `some`.
* `segments sep xs` cuts a sequence after every occurrence of `sep` into the
  complete segments (without their separator) and the unterminated tail:
  `segments_append_cons` takes off the first segment, and
  `segments_of_notMem` says when there is none.
* `chunks size xs` are the consecutive pieces of `xs` of that size, the last
  one shorter.
-/

namespace EmbraOS.Verified.Slice

variable {α : Type} [DecidableEq α]

/-! ## Partial operations -/

/-- `xs[i..]`: defined when `i` is at most the length. -/
def sliceFrom? (xs : List α) (i : Nat) : Option (List α) :=
  if i ≤ xs.length then some (xs.drop i) else none

/-- `xs[i..j]`: defined when `i ≤ j` and `j` is at most the length. -/
def slice? (xs : List α) (i j : Nat) : Option (List α) :=
  if i ≤ j ∧ j ≤ xs.length then some ((xs.take j).drop i) else none

/-- Unsigned subtraction without wrap-around. -/
def checkedSub? (a b : Nat) : Option Nat :=
  if b ≤ a then some (a - b) else none

omit [DecidableEq α] in
theorem sliceFrom?_eq {xs : List α} {i : Nat} (h : i ≤ xs.length) :
    sliceFrom? xs i = some (xs.drop i) := if_pos h

omit [DecidableEq α] in
theorem slice?_eq {xs : List α} {i j : Nat} (hij : i ≤ j) (hj : j ≤ xs.length) :
    slice? xs i j = some ((xs.take j).drop i) := if_pos ⟨hij, hj⟩

theorem checkedSub?_eq {a b : Nat} (h : b ≤ a) :
    checkedSub? a b = some (a - b) := if_pos h

/-! ## Segments -/

/-- The complete segments of `xs`, each without the `sep` that ends it, and
the unterminated tail. -/
def segments (sep : α) : List α → List (List α) × List α
  | [] => ([], [])
  | x :: xs =>
    if x = sep then ([] :: (segments sep xs).1, (segments sep xs).2)
    else match segments sep xs with
      | ([], tail) => ([], x :: tail)
      | (line :: lines, tail) => ((x :: line) :: lines, tail)

/-- A sequence without the separator is all tail. -/
theorem segments_of_notMem {sep : α} {xs : List α} (h : sep ∉ xs) :
    segments sep xs = ([], xs) := by
  induction xs with
  | nil => rfl
  | cons x xs ih =>
    have hx : x ≠ sep := fun e => h (by simp [e])
    have hxs : sep ∉ xs := fun hm => h (by simp [hm])
    simp only [segments, if_neg hx, ih hxs]

/-- The first segment ends at the first separator. -/
theorem segments_append_cons {sep : α} {xs : List α} (h : sep ∉ xs)
    (ys : List α) :
    segments sep (xs ++ sep :: ys) =
      (xs :: (segments sep ys).1, (segments sep ys).2) := by
  induction xs with
  | nil => simp [segments]
  | cons x xs ih =>
    have hx : x ≠ sep := fun e => h (by simp [e])
    have hxs : sep ∉ xs := fun hm => h (by simp [hm])
    rw [List.cons_append, segments, if_neg hx, ih hxs]

/-- Every sequence is separator-free, or splits at its first separator. -/
theorem notMem_or_split (sep : α) (xs : List α) :
    sep ∉ xs ∨ ∃ pre post, sep ∉ pre ∧ xs = pre ++ sep :: post := by
  by_cases h : sep ∈ xs
  · obtain ⟨pre, post, hxs, hpre⟩ := List.eq_append_cons_of_mem h
    exact Or.inr ⟨pre, post, hpre, hxs⟩
  · exact Or.inl h

/-! ## Chunks -/

omit [DecidableEq α]

/-- Fill `current` up to `size`, then start the next chunk. -/
def chunksFrom (size : Nat) : List α → List α → List (List α)
  | current, [] => if current.isEmpty then [] else [current]
  | current, x :: xs =>
    if size ≤ current.length + 1 then (current ++ [x]) :: chunksFrom size [] xs
    else chunksFrom size (current ++ [x]) xs

/-- `xs.chunks(size)`. -/
def chunks (size : Nat) (xs : List α) : List (List α) := chunksFrom size [] xs

end EmbraOS.Verified.Slice
