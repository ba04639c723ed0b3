import Mathlib

/-!
# Fixed-width arithmetic that reports a wrap

Operations on unsigned numbers of `w` bits, as natural numbers, with `none` where the machine
would wrap around.  A computation that comes out as `some` has wrapped nowhere.
-/

namespace EmbraOS.Verified.Checked

/-- A value that has to fit into `w` bits. -/
def fit? (w n : Nat) : Option Nat := if n < 2 ^ w then some n else none

/-- `a + b`. -/
def add? (w a b : Nat) : Option Nat := fit? w (a + b)

/-- `a - b`. -/
def sub? (a b : Nat) : Option Nat := if b ≤ a then some (a - b) else none

theorem fit?_eq {w n : Nat} (h : n < 2 ^ w) : fit? w n = some n := if_pos h

theorem add?_eq {w a b : Nat} (h : a + b < 2 ^ w) : add? w a b = some (a + b) := fit?_eq h

theorem sub?_eq {a b : Nat} (h : b ≤ a) : sub? a b = some (a - b) := if_pos h

end EmbraOS.Verified.Checked
