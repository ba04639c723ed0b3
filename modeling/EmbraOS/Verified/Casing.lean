import Mathlib

/-!
# Lower case of a text

`str::to_lowercase` goes letter by letter, but for the sigma: it is final (ς) where a letter
stands in front of it and none behind it, letters being looked for across characters that case
ignores.  `lowerIn` lowers a piece of a text where it stands; a text without a sigma is lowered
letter by letter (`lower_eq_flatMap`).
-/

namespace EmbraOS.Verified.Casing

open String (utf8Len)

/-- The tables of the standard library. -/
structure Tables where
  toLower : Char → List Char
  cased : Char → Bool
  caseIgnorable : Char → Bool

namespace Tables

variable (t : Tables)

def caseIgnorableThenCased (text : List Char) : Bool :=
  match text.dropWhile t.caseIgnorable with
  | c :: _ => t.cased c
  | [] => false

/-- The form of a sigma; the text in front of it is given from the sigma back. -/
def mapUppercaseSigma (before after : List Char) : Char :=
  if t.caseIgnorableThenCased before && !t.caseIgnorableThenCased after then 'ς' else 'σ'

/-- The lower case of a piece, between what stands in front of it (from its end back) and what
stands behind it. -/
def lowerIn (before : List Char) : List Char → List Char → List Char
  | [], _ => []
  | c :: cs, after =>
    (if c = 'Σ' then [t.mapUppercaseSigma before (cs ++ after)] else t.toLower c) ++
      lowerIn (c :: before) cs after

def lower (text : List Char) : List Char := t.lowerIn [] text []

/-- Without a sigma every letter is lowered alone. -/
theorem lowerIn_eq_flatMap {text : List Char} (h : 'Σ' ∉ text) : ∀ before after,
    t.lowerIn before text after = text.flatMap t.toLower := by
  induction text with
  | nil => exact fun _ _ => rfl
  | cons c cs ih =>
    intro before after
    obtain ⟨hc, hcs⟩ := List.ne_and_not_mem_of_not_mem_cons h
    rw [lowerIn, if_neg hc.symm, ih hcs, List.flatMap_cons]

theorem lower_eq_flatMap {text : List Char} (h : 'Σ' ∉ text) :
    t.lower text = text.flatMap t.toLower :=
  t.lowerIn_eq_flatMap h [] []

end Tables

end EmbraOS.Verified.Casing
