import Mathlib

/-!
# Timestamps as text

A UTC date and time as the host's calendar library prints it in RFC 3339, with
as many digits of the second's fraction as it needs (none, 3, 6 or 9).  Programs
that store such a text compare times by comparing texts.

`toRfc3339_le_iff` says when that is right: for the years 0 to 9999, in which
the year has four digits and no sign.  A later year is printed with a `+`, which
is smaller than every digit, so its text comes before the text of any year it
comes after.
-/

namespace EmbraOS.Verified.Timestamps

/-! ## Order of texts -/

theorem append_lt_append {α : Type} [LT α] (x : List α) {u v : List α} (h : u < v) :
    x ++ u < x ++ v := by
  induction x with
  | nil => exact h
  | cons a x ih => exact List.Lex.cons ih

theorem lt_append_of_lt {α : Type} [LT α] {x y : List α} (hlen : x.length = y.length)
    (h : x < y) (u v : List α) : x ++ u < y ++ v := by
  induction x generalizing y with
  | nil =>
    cases y with
    | nil => cases h
    | cons b y => simp at hlen
  | cons a x ih =>
    cases h with
    | rel hab => exact List.Lex.rel hab
    | cons hxy => exact List.Lex.cons (ih (by simpa using hlen) hxy)

/-! ## Digits -/

/-- The last `w` decimal digits of a number, zeros in front. -/
def digits : Nat → Nat → List Char
  | 0, _ => []
  | w + 1, n => digits w (n / 10) ++ [Nat.digitChar (n % 10)]

@[simp] theorem length_digits (w n : Nat) : (digits w n).length = w := by
  induction w generalizing n with
  | zero => rfl
  | succ w ih => simp [digits, ih]

theorem digitChar_lt {a b : Nat} (hb : b < 10) (h : a < b) :
    Nat.digitChar a < Nat.digitChar b := by
  have hall : ∀ b < 10, ∀ a < b, Nat.digitChar a < Nat.digitChar b := by decide
  exact hall b hb a h

theorem plus_lt_digitChar {a : Nat} (h : a < 10) : '+' < Nat.digitChar a := by
  have hall : ∀ a < 10, '+' < Nat.digitChar a := by decide
  exact hall a h

theorem digits_lt {w n m : Nat} (hm : m < 10 ^ w) (h : n < m) : digits w n < digits w m := by
  induction w generalizing n m with
  | zero =>
    rw [Nat.pow_zero] at hm
    omega
  | succ w ih =>
    rw [digits, digits]
    have hm10 : m / 10 < 10 ^ w := by
      rw [Nat.pow_succ] at hm
      omega
    rcases Nat.lt_or_ge (n / 10) (m / 10) with hlt | hge
    · exact lt_append_of_lt (by simp) (ih hm10 hlt) _ _
    · have heq : n / 10 = m / 10 := by omega
      rw [heq]
      exact append_lt_append _ (List.Lex.rel (digitChar_lt (by omega) (by omega)))

/-- A block of digits decides the order of what starts with it. -/
theorem digits_append_lt {w n m : Nat} (hm : m < 10 ^ w) (h : n < m) (u v : List Char) :
    digits w n ++ u < digits w m ++ v :=
  lt_append_of_lt (by simp) (digits_lt hm h) u v

/-- A field before the others. -/
theorem field_lt {w n m : Nat} {u v : List Char} {P : Prop} (hm : m < 10 ^ w)
    (h : n < m ∨ n = m ∧ P) (hrest : P → u < v) : digits w n ++ u < digits w m ++ v := by
  rcases h with hlt | ⟨rfl, h⟩
  · exact digits_append_lt hm hlt u v
  · exact append_lt_append _ (hrest h)

theorem digits_add (a b n : Nat) :
    digits (a + b) n = digits a (n / 10 ^ b) ++ digits b n := by
  induction b generalizing n with
  | zero => simp [digits]
  | succ b ih =>
    rw [← Nat.add_assoc, digits, ih, digits, List.append_assoc, Nat.div_div_eq_div_mul,
      Nat.pow_succ, Nat.mul_comm 10]

theorem plus_lt_digits {w : Nat} (hw : 0 < w) (n : Nat) (u v : List Char) :
    '+' :: u < digits w n ++ v := by
  induction w generalizing n v with
  | zero => exact absurd hw (Nat.lt_irrefl 0)
  | succ w ih =>
    rw [digits, List.append_assoc]
    rcases Nat.eq_zero_or_pos w with rfl | hpos
    · exact List.Lex.rel (plus_lt_digitChar (Nat.mod_lt _ (by decide)))
    · exact ih hpos _ _

/-! ## The fraction of a second -/

def zone : List Char := "+00:00".toList

/-- The fraction and the zone. -/
def fraction (nanos : Nat) : List Char :=
  if nanos = 0 then zone
  else if nanos % 1000000 = 0 then '.' :: (digits 3 (nanos / 1000000) ++ zone)
  else if nanos % 1000 = 0 then '.' :: (digits 6 (nanos / 1000) ++ zone)
  else '.' :: (digits 9 nanos ++ zone)

/-- A fraction of `a` digits against a longer one: where the first has its zone
the second has a digit. -/
theorem short_lt {a b q n : Nat} (hb : 0 < b) (hn : n / 10 ^ b < 10 ^ a)
    (h : q ≤ n / 10 ^ b) : digits a q ++ zone < digits (a + b) n ++ zone := by
  rw [digits_add, List.append_assoc]
  rcases Nat.lt_or_eq_of_le h with hlt | rfl
  · exact digits_append_lt hn hlt _ _
  · exact append_lt_append _ (plus_lt_digits hb n _ _)

/-- A longer fraction against one of `a` digits that is greater. -/
theorem long_lt {a b q n : Nat} (hq : q < 10 ^ a) (h : n / 10 ^ b < q) :
    digits (a + b) n ++ zone < digits a q ++ zone := by
  rw [digits_add, List.append_assoc]
  exact digits_append_lt hq h _ _

theorem zone_lt_dot (u : List Char) : zone < '.' :: u :=
  List.Lex.rel (by decide)

theorem fraction_lt {n m : Nat} (hm : m < 1000000000) (h : n < m) :
    fraction n < fraction m := by
  unfold fraction
  rw [if_neg (by omega : ¬ m = 0)]
  by_cases hn0 : n = 0
  · rw [if_pos hn0]
    split
    · exact zone_lt_dot _
    · split
      · exact zone_lt_dot _
      · exact zone_lt_dot _
  rw [if_neg hn0]
  -- The digits that are shown of one and of the other.
  by_cases hn3 : n % 1000000 = 0
  · rw [if_pos hn3]
    by_cases hm3 : m % 1000000 = 0
    · rw [if_pos hm3]
      exact List.Lex.cons (digits_append_lt (by omega) (by omega) _ _)
    rw [if_neg hm3]
    by_cases hm6 : m % 1000 = 0
    · rw [if_pos hm6]
      exact List.Lex.cons (short_lt (a := 3) (b := 3) (by decide) (by omega) (by omega))
    · rw [if_neg hm6]
      exact List.Lex.cons (short_lt (a := 3) (b := 6) (by decide) (by omega) (by omega))
  rw [if_neg hn3]
  by_cases hn6 : n % 1000 = 0
  · rw [if_pos hn6]
    by_cases hm3 : m % 1000000 = 0
    · rw [if_pos hm3]
      exact List.Lex.cons (long_lt (a := 3) (b := 3) (by omega) (by omega))
    rw [if_neg hm3]
    by_cases hm6 : m % 1000 = 0
    · rw [if_pos hm6]
      exact List.Lex.cons (digits_append_lt (by omega) (by omega) _ _)
    · rw [if_neg hm6]
      exact List.Lex.cons (short_lt (a := 6) (b := 3) (by decide) (by omega) (by omega))
  rw [if_neg hn6]
  by_cases hm3 : m % 1000000 = 0
  · rw [if_pos hm3]
    exact List.Lex.cons (long_lt (a := 3) (b := 6) (by omega) (by omega))
  rw [if_neg hm3]
  by_cases hm6 : m % 1000 = 0
  · rw [if_pos hm6]
    exact List.Lex.cons (long_lt (a := 6) (b := 3) (by omega) (by omega))
  · rw [if_neg hm6]
    exact List.Lex.cons (digits_append_lt (by omega) (by omega) _ _)

/-! ## Dates and times -/

/-- A UTC date and time. -/
structure DateTime where
  year : Int
  month : Nat
  day : Nat
  hour : Nat
  minute : Nat
  second : Nat
  nanos : Nat
  month_le : month ≤ 12
  day_le : day ≤ 31
  hour_lt : hour < 24
  minute_lt : minute < 60
  second_lt : second < 60
  nanos_lt : nanos < 1000000000
  deriving DecidableEq, Repr

namespace DateTime

/-- Earlier on the calendar. -/
def Before (a b : DateTime) : Prop :=
  a.year < b.year ∨ a.year = b.year ∧
    (a.month < b.month ∨ a.month = b.month ∧
      (a.day < b.day ∨ a.day = b.day ∧
        (a.hour < b.hour ∨ a.hour = b.hour ∧
          (a.minute < b.minute ∨ a.minute = b.minute ∧
            (a.second < b.second ∨ a.second = b.second ∧ a.nanos < b.nanos)))))

instance (a b : DateTime) : Decidable (a.Before b) :=
  inferInstanceAs (Decidable (_ ∨ _))

/-- At the time `b` the time `a` has come. -/
def NotAfter (a b : DateTime) : Prop := ¬ b.Before a

instance (a b : DateTime) : Decidable (a.NotAfter b) :=
  inferInstanceAs (Decidable (¬ _))

variable {a b c : DateTime}

theorem eq_of_not_before (hab : ¬ a.Before b) (hba : ¬ b.Before a) :
    a = b := by
  unfold Before at hab hba
  have hyear : a.year = b.year := by omega
  have hmonth : a.month = b.month := by omega
  have hday : a.day = b.day := by omega
  have hhour : a.hour = b.hour := by omega
  have hminute : a.minute = b.minute := by omega
  have hsecond : a.second = b.second := by omega
  have hnanos : a.nanos = b.nanos := by omega
  cases a
  cases b
  simp_all

theorem not_before_self (a : DateTime) : ¬ a.Before a := by
  unfold Before
  omega

theorem Before.trans (hab : a.Before b) (hbc : b.Before c) : a.Before c := by
  unfold Before at *
  omega

theorem Before.trans_notAfter (hab : a.Before b) (hbc : b.NotAfter c) :
    a.Before c := by
  by_cases h : b.Before c
  · exact hab.trans h
  · rwa [← eq_of_not_before h hbc]

theorem NotAfter.trans_before (hab : a.NotAfter b) (hbc : b.Before c) :
    a.Before c := by
  by_cases h : a.Before b
  · exact h.trans hbc
  · rwa [eq_of_not_before h hab]

theorem NotAfter.trans (hab : a.NotAfter b) (hbc : b.NotAfter c) :
    a.NotAfter c := fun hca => hbc (hca.trans_notAfter hab)

theorem notAfter_self (a : DateTime) : a.NotAfter a := not_before_self a

/-- The year has four digits and no sign. -/
def FourDigit (t : DateTime) : Prop := 0 ≤ t.year ∧ t.year ≤ 9999

instance (t : DateTime) : Decidable t.FourDigit := inferInstanceAs (Decidable (_ ∧ _))

/-- `{:+05}` of a year that has not four digits. -/
def signedYear (y : Int) : List Char :=
  (if y < 0 then '-' else '+') ::
    (List.replicate (4 - (Nat.repr y.natAbs).length) '0' ++ (Nat.repr y.natAbs).toList)

def yearText (y : Int) : List Char :=
  if 0 ≤ y ∧ y ≤ 9999 then digits 4 y.toNat else signedYear y

/-- What follows the year. -/
def afterYear (t : DateTime) : List Char :=
  '-' :: (digits 2 t.month ++ ('-' :: (digits 2 t.day ++ ('T' :: (digits 2 t.hour ++
    (':' :: (digits 2 t.minute ++ (':' :: (digits 2 t.second ++ fraction t.nanos)))))))))

def chars (t : DateTime) : List Char := yearText t.year ++ t.afterYear

/-- `to_rfc3339`. -/
def toRfc3339 (t : DateTime) : String := String.ofList t.chars

theorem yearText_of_fourDigit {t : DateTime} (h : t.FourDigit) :
    yearText t.year = digits 4 t.year.toNat := if_pos h

variable (ha : a.FourDigit) (hb : b.FourDigit)
include ha hb

theorem chars_lt (h : a.Before b) : a.chars < b.chars := by
  rw [chars, chars, yearText_of_fourDigit ha, yearText_of_fourDigit hb]
  unfold afterYear
  have hyear := h.imp (fun hlt => (Int.toNat_lt_toNat (by have := ha.1; omega)).2 hlt)
    (And.imp_left (congrArg Int.toNat))
  refine field_lt (by have := hb.2; omega) hyear fun h => .cons ?_
  refine field_lt (by have := b.month_le; omega) h fun h => .cons ?_
  refine field_lt (by have := b.day_le; omega) h fun h => .cons ?_
  refine field_lt (by have := b.hour_lt; omega) h fun h => .cons ?_
  refine field_lt (by have := b.minute_lt; omega) h fun h => .cons ?_
  exact field_lt (by have := b.second_lt; omega) h (fraction_lt b.nanos_lt)

theorem toRfc3339_lt (h : a.Before b) : a.toRfc3339 < b.toRfc3339 := by
  rw [String.lt_iff_toList_lt, toRfc3339, toRfc3339, String.toList_ofList,
    String.toList_ofList]
  exact chars_lt ha hb h

/-- **The order of the texts is the order of the times** in the years 0 to 9999. -/
theorem toRfc3339_le_iff :
    a.toRfc3339 ≤ b.toRfc3339 ↔ a.NotAfter b := by
  constructor
  · intro hle hbefore
    exact absurd hle (not_le.2 (toRfc3339_lt hb ha hbefore))
  · intro hnot
    by_cases hab : a.Before b
    · exact le_of_lt (toRfc3339_lt ha hb hab)
    · rw [eq_of_not_before hab hnot]

theorem toRfc3339_lt_iff :
    a.toRfc3339 < b.toRfc3339 ↔ a.Before b := by
  rw [← not_le, toRfc3339_le_iff hb ha, NotAfter, not_not]

theorem toRfc3339_inj (h : a.toRfc3339 = b.toRfc3339) : a = b :=
  eq_of_not_before (fun hab => (toRfc3339_lt ha hb hab).ne h)
    (fun hba => (toRfc3339_lt hb ha hba).ne h.symm)

end DateTime

end EmbraOS.Verified.Timestamps
