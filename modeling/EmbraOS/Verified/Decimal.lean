import Mathlib
import EmbraOS.Verified.Text

/-!
# Decimal texts of machine integers

`parseUsize` is `str::parse::<usize>` on a 64-bit machine.  `parseUsize_repr`: a number that fits
is read back from its decimal text.
-/

namespace EmbraOS.Verified.Decimal

open Verified.Text

/-- The digits of a number; one plus sign may stand in front. -/
def unsignedDigits : List Char → List Char
  | '+' :: digits => digits
  | digits => digits

def parseUsize (text : String) : Option Nat :=
  let digits := unsignedDigits text.toList
  if digits.isEmpty || !digits.all Char.isDigit then none
  else
    let n := Nat.ofDigitChars 10 digits 0
    if n < 2 ^ 64 then some n else none

theorem toList_repr (n : Nat) : (Nat.repr n).toList = Nat.toDigits 10 n := by
  rw [Nat.repr_eq_ofList_toDigits, String.toList_ofList]

theorem isDigit_of_mem_repr {n : Nat} {c : Char} (h : c ∈ (Nat.repr n).toList) :
    c.isDigit = true := by
  rw [toList_repr] at h
  exact Nat.isDigit_of_mem_toDigits (by decide) (by decide) h

theorem notMem_repr {c : Char} (h : c.isDigit = false) (n : Nat) : c ∉ (Nat.repr n).toList := by
  intro hin
  rw [isDigit_of_mem_repr hin] at h
  cases h

theorem isWhitespace_of_isDigit {c : Char} (h : c.isDigit = true) : isWhitespace c = false := by
  obtain ⟨hlow, hhigh⟩ := Bool.and_eq_true_iff.1 h
  have hlow : 48 ≤ c.toNat := UInt32.le_iff_toNat_le.1 (of_decide_eq_true hlow)
  have hhigh : c.toNat ≤ 57 := UInt32.le_iff_toNat_le.1 (of_decide_eq_true hhigh)
  unfold isWhitespace
  simp only [Bool.or_eq_false_iff, Bool.and_eq_false_iff, decide_eq_false_iff_not,
    beq_eq_false_iff_ne]
  omega

theorem trim_repr (n : Nat) : trim (Nat.repr n) = Nat.repr n :=
  trim_eq_self fun _ hc => isWhitespace_of_isDigit (isDigit_of_mem_repr hc)

theorem parseUsize_repr_eq (n : Nat) :
    parseUsize (Nat.repr n) = if n < 2 ^ 64 then some n else none := by
  have hplus : unsignedDigits (Nat.repr n).toList = Nat.toDigits 10 n := by
    have hnot := notMem_repr (c := '+') rfl n
    rw [toList_repr] at hnot ⊢
    unfold unsignedDigits
    split
    · rename_i heq
      rw [heq] at hnot
      exact absurd List.mem_cons_self hnot
    · rfl
  have hdigits : (Nat.toDigits 10 n).all Char.isDigit = true := by
    rw [List.all_eq_true]
    intro c hc
    exact Nat.isDigit_of_mem_toDigits (by decide) (by decide) hc
  have hnonempty : (Nat.toDigits 10 n).isEmpty = false := by
    rw [List.isEmpty_eq_false_iff]
    exact Nat.toDigits_ne_nil
  unfold parseUsize
  dsimp only
  rw [hplus, hdigits, hnonempty, if_neg (by decide),
    Nat.ofDigitChars_toDigits (by decide) (by decide)]

theorem parseUsize_repr {n : Nat} (h : n < 2 ^ 64) : parseUsize (Nat.repr n) = some n := by
  rw [parseUsize_repr_eq, if_pos h]

end EmbraOS.Verified.Decimal
