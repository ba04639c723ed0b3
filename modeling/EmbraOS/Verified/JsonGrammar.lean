import EmbraOS.Verified.Braces
import EmbraOS.Verified.Serde

/-!
# The texts of a JSON value

`Writes v text`: the grammar derives `text` for the value `v`, with any white space and any of
the ways to write a character of a string.

`Writes.nested`: in such a text the strings are closed and the braces match.
-/

namespace EmbraOS.Verified.JsonGrammar

open Verified.Braces
open Verified.Serde

/-! ## The grammar -/

def White (w : List Char) : Prop := ∀ c ∈ w, c = ' ' ∨ c = '\n' ∨ c = '\r' ∨ c = '\t'

/-- The characters of numbers. -/
def NumberChar (c : Char) : Prop :=
  ('0' ≤ c ∧ c ≤ '9') ∨ c = '+' ∨ c = '-' ∨ c = '.' ∨ c = 'e' ∨ c = 'E'

def Digits (ds : List Char) : Prop := ∀ c ∈ ds, '0' ≤ c ∧ c ≤ '9'

/-- The whole part of a number: no zero in front of other digits. -/
inductive IntText : List Char → Prop where
  | zero : IntText ['0']
  | digits {d : Char} {ds : List Char} (hd : '1' ≤ d ∧ d ≤ '9') (hds : Digits ds) :
      IntText (d :: ds)

inductive FracText : List Char → Prop where
  | none : FracText []
  | point {ds : List Char} (hne : ds ≠ []) (hds : Digits ds) : FracText ('.' :: ds)

inductive ExpText : List Char → Prop where
  | none : ExpText []
  | exp {e : Char} {sign ds : List Char} (he : e = 'e' ∨ e = 'E')
      (hsign : sign = [] ∨ sign = ['+'] ∨ sign = ['-']) (hne : ds ≠ []) (hds : Digits ds) :
      ExpText (e :: (sign ++ ds))

/-- The texts of numbers. -/
def NumberText (t : List Char) : Prop :=
  ∃ sign int frac exp, t = sign ++ (int ++ (frac ++ exp)) ∧ (sign = [] ∨ sign = ['-']) ∧
    IntText int ∧ FracText frac ∧ ExpText exp

/-- The character a backslash and a letter stand for. -/
def escapeOf : Char → Option Char
  | '"' => some '"'
  | '\\' => some '\\'
  | '/' => some '/'
  | 'b' => some (Char.ofNat 8)
  | 'f' => some (Char.ofNat 12)
  | 'n' => some '\n'
  | 'r' => some '\r'
  | 't' => some '\t'
  | _ => none

def hexValue (c : Char) : Option Nat :=
  if '0' ≤ c ∧ c ≤ '9' then some (c.toNat - 48)
  else if 'a' ≤ c ∧ c ≤ 'f' then some (c.toNat - 87)
  else if 'A' ≤ c ∧ c ≤ 'F' then some (c.toNat - 55)
  else none

/-- Four hexadecimal digits. -/
def Hex4 (n : Nat) (digits : List Char) : Prop :=
  ∃ a b c d x y z w, digits = [a, b, c, d] ∧ hexValue a = some x ∧ hexValue b = some y ∧
    hexValue c = some z ∧ hexValue d = some w ∧ n = ((x * 16 + y) * 16 + z) * 16 + w

/-- The inside of a string literal. -/
inductive WritesChars : List Char → List Char → Prop where
  | nil : WritesChars [] []
  | plain {c : Char} {cs t : List Char} (hquote : c ≠ '"') (hslash : c ≠ '\\')
      (hcontrol : 0x20 ≤ c.toNat) (h : WritesChars cs t) : WritesChars (c :: cs) (c :: t)
  | escape {c e : Char} {cs t : List Char} (he : escapeOf e = some c) (h : WritesChars cs t) :
      WritesChars (c :: cs) ('\\' :: e :: t)
  | unicode {c : Char} {cs t hex : List Char} (hhex : Hex4 c.toNat hex) (h : WritesChars cs t) :
      WritesChars (c :: cs) ('\\' :: 'u' :: hex ++ t)
  /-- Outside the first plane: two escapes. -/
  | surrogates {c : Char} {cs t high low : List Char} {m n : Nat} (hhigh : Hex4 (0xD800 + m) high)
      (hlow : Hex4 (0xDC00 + n) low) (hn : n < 1024) (hc : c.toNat = 0x10000 + m * 1024 + n)
      (h : WritesChars cs t) :
      WritesChars (c :: cs) ('\\' :: 'u' :: high ++ '\\' :: 'u' :: low ++ t)

/-- A string literal. -/
def WritesString (s : String) (text : List Char) : Prop :=
  ∃ body, WritesChars s.toList body ∧ text = '"' :: body ++ ['"']

mutual

inductive Writes : Json → List Char → Prop where
  | null : Writes .null ['n', 'u', 'l', 'l']
  | yes : Writes (.bool true) ['t', 'r', 'u', 'e']
  | no : Writes (.bool false) ['f', 'a', 'l', 's', 'e']
  /-- Which number a text of digits is does not matter here. -/
  | num {n : Number} {t : List Char} (ht : ∀ c ∈ t, NumberChar c) : Writes (.num n) t
  | str {s : String} {t : List Char} (ht : WritesString s t) : Writes (.str s) t
  | arr {items : List Json} {t : List Char} (ht : WritesItems items t) :
      Writes (.arr items) ('[' :: t ++ [']'])
  | obj {members : List (String × Json)} {t : List Char} (ht : WritesMembers members t) :
      Writes (.obj members) ('\x7b' :: t ++ ['\x7d'])

inductive WritesItems : List Json → List Char → Prop where
  | none {w : List Char} (hw : White w) : WritesItems [] w
  | last {v : Json} {w t w' : List Char} (hw : White w) (ht : Writes v t) (hw' : White w') :
      WritesItems [v] (w ++ t ++ w')
  | comma {v v' : Json} {vs : List Json} {w t w' ts : List Char} (hw : White w) (ht : Writes v t)
      (hw' : White w') (hts : WritesItems (v' :: vs) ts) :
      WritesItems (v :: v' :: vs) (w ++ t ++ w' ++ ',' :: ts)

inductive WritesMembers : List (String × Json) → List Char → Prop where
  | none {w : List Char} (hw : White w) : WritesMembers [] w
  | last {k : String} {v : Json} {w key w₁ w₂ t w' : List Char} (hw : White w)
      (hkey : WritesString k key) (hw₁ : White w₁) (hw₂ : White w₂) (ht : Writes v t)
      (hw' : White w') : WritesMembers [(k, v)] (w ++ key ++ w₁ ++ ':' :: (w₂ ++ t ++ w'))
  | comma {k : String} {v : Json} {m : String × Json} {ms : List (String × Json)}
      {w key w₁ w₂ t w' ts : List Char} (hw : White w) (hkey : WritesString k key)
      (hw₁ : White w₁) (hw₂ : White w₂) (ht : Writes v t) (hw' : White w')
      (hts : WritesMembers (m :: ms) ts) :
      WritesMembers ((k, v) :: m :: ms) (w ++ key ++ w₁ ++ ':' :: (w₂ ++ t ++ w') ++ ',' :: ts)

end

/-! ## The characters of numbers -/

theorem digits_numberChar {ds : List Char} (h : Digits ds) : ∀ c ∈ ds, NumberChar c :=
  fun c hc => Or.inl (h c hc)

variable {t x y cs : List Char} {c : Char} {n : Nat}

theorem IntText.digits_of (h : IntText t) : Digits t := by
  cases h with
  | zero => simp [Digits]
  | digits hd hds =>
    rintro c (_ | ⟨_, hc⟩)
    · exact ⟨le_trans (by decide) hd.1, hd.2⟩
    · exact hds c hc

theorem FracText.numberChar (h : FracText t) : ∀ c ∈ t, NumberChar c := by
  cases h with
  | none => simp
  | point hne hds =>
    rintro c (_ | ⟨_, hc⟩)
    · exact Or.inr (Or.inr (Or.inr (Or.inl rfl)))
    · exact digits_numberChar hds c hc

theorem ExpText.numberChar (h : ExpText t) : ∀ c ∈ t, NumberChar c := by
  cases h with
  | none => simp
  | @exp e sign ds he hsign hne hds =>
    intro c hc
    rcases List.mem_cons.1 hc with rfl | hc
    · rcases he with rfl | rfl
      · exact Or.inr (Or.inr (Or.inr (Or.inr (Or.inl rfl))))
      · exact Or.inr (Or.inr (Or.inr (Or.inr (Or.inr rfl))))
    rcases List.mem_append.1 hc with hc | hc
    · rcases hsign with rfl | rfl | rfl
      · cases hc
      · exact Or.inr (Or.inl (List.mem_singleton.1 hc))
      · exact Or.inr (Or.inr (Or.inl (List.mem_singleton.1 hc)))
    · exact digits_numberChar hds c hc

theorem NumberText.numberChar (h : NumberText t) : ∀ c ∈ t, NumberChar c := by
  obtain ⟨sign, int, frac, exp, rfl, hsign, hint, hfrac, hexp⟩ := h
  intro c hc
  rcases List.mem_append.1 hc with hc | hc
  · rcases hsign with rfl | rfl
    · cases hc
    · exact Or.inr (Or.inr (Or.inl (List.mem_singleton.1 hc)))
  rcases List.mem_append.1 hc with hc | hc
  · exact digits_numberChar hint.digits_of c hc
  rcases List.mem_append.1 hc with hc | hc
  · exact hfrac.numberChar c hc
  · exact hexp.numberChar c hc

/-- A number begins with a digit or a minus sign. -/
theorem NumberText.head (h : NumberText t) :
    ∃ c cs, t = c :: cs ∧ (c = '-' ∨ ('0' ≤ c ∧ c ≤ '9')) := by
  obtain ⟨sign, int, frac, exp, rfl, hsign, hint, -, -⟩ := h
  rcases hsign with rfl | rfl
  · have hall := hint.digits_of
    cases hint with
    | zero => exact ⟨'0', _, rfl, Or.inr (by decide)⟩
    | digits hd hds => exact ⟨_, _, rfl, Or.inr (hall _ List.mem_cons_self)⟩
  · exact ⟨'-', _, rfl, Or.inl rfl⟩

/-! ## Strings are closed and braces match -/

theorem nested_append (hx : Nested x) (hy : Nested y) : Nested (x ++ y) := by
  induction hx with
  | nil => exact hy
  | plain hquote hopen hclose _ ih => exact .plain hquote hopen hclose ih
  | string hbody _ ih => simpa using Nested.string hbody ih
  | braces hbody _ _ ih => simpa using Nested.braces hbody ih

/-- A text without quotes and braces. -/
theorem nested_of_forall (h : ∀ c ∈ t, c ≠ '"' ∧ c ≠ '\x7b' ∧ c ≠ '\x7d') :
    Nested t := by
  induction t with
  | nil => exact .nil
  | cons c cs ih =>
    obtain ⟨hquote, hopen, hclose⟩ := h c List.mem_cons_self
    exact .plain hquote hopen hclose (ih fun d hd => h d (List.mem_cons_of_mem _ hd))

theorem White.nested {w : List Char} (hw : White w) : Nested w := by
  refine nested_of_forall fun c hc => ?_
  rcases hw c hc with rfl | rfl | rfl | rfl <;> decide

theorem nested_number (ht : ∀ c ∈ t, NumberChar c) : Nested t := by
  refine nested_of_forall fun c hc => ⟨?_, ?_, ?_⟩ <;>
    · rintro rfl
      have := ht _ hc
      revert this
      unfold NumberChar
      decide

theorem stringBody_of_forall (hx : ∀ c ∈ x, c ≠ '"' ∧ c ≠ '\\')
    (hy : StringBody y) : StringBody (x ++ y) := by
  induction x with
  | nil => exact hy
  | cons c cs ih =>
    obtain ⟨hquote, hslash⟩ := hx c List.mem_cons_self
    exact .plain hquote hslash (ih fun d hd => hx d (List.mem_cons_of_mem _ hd))

theorem hexValue_plain (h : hexValue c = some n) : c ≠ '"' ∧ c ≠ '\\' := by
  constructor <;>
    · rintro rfl
      revert h
      simp +decide [hexValue]

theorem Hex4.plain {digits : List Char} (h : Hex4 n digits) :
    ∀ c ∈ digits, c ≠ '"' ∧ c ≠ '\\' := by
  obtain ⟨a, b, c, d, x, y, z, w, rfl, ha, hb, hc, hd, -⟩ := h
  simp only [List.mem_cons, List.not_mem_nil, or_false, forall_eq_or_imp, forall_eq]
  exact ⟨hexValue_plain ha, hexValue_plain hb, hexValue_plain hc, hexValue_plain hd⟩

theorem WritesChars.stringBody (h : WritesChars cs t) : StringBody t := by
  induction h with
  | nil => exact .nil
  | plain hquote hslash _ _ ih => exact .plain hquote hslash ih
  | escape _ _ ih => exact .escape ih
  | unicode hhex _ ih => exact .escape (stringBody_of_forall hhex.plain ih)
  | surrogates hhigh hlow _ _ _ ih =>
    rw [List.append_assoc, List.cons_append]
    exact .escape (stringBody_of_forall hhigh.plain
      (.escape (stringBody_of_forall hlow.plain ih)))

theorem WritesString.nested {s : String} (h : WritesString s t) : Nested t := by
  obtain ⟨body, hbody, rfl⟩ := h
  exact .string hbody.stringBody .nil

/-- A separator, or a bracket of an array. -/
theorem nested_cons (hc : c ≠ '"' ∧ c ≠ '\x7b' ∧ c ≠ '\x7d')
    (ht : Nested t) : Nested (c :: t) := .plain hc.1 hc.2.1 hc.2.2 ht

mutual

theorem Writes.nested {v : Json} {t : List Char} : Writes v t → Nested t
  | .null => nested_of_forall (by simp)
  | .yes => nested_of_forall (by simp)
  | .no => nested_of_forall (by simp)
  | .num ht => nested_number ht
  | .str ht => ht.nested
  | .arr ht => nested_cons (by decide) (nested_append ht.nested (nested_of_forall (by simp)))
  | .obj ht => .braces ht.nested .nil

theorem WritesItems.nested {vs : List Json} {t : List Char} : WritesItems vs t → Nested t
  | .none hw => hw.nested
  | .last hw ht hw' => nested_append (nested_append hw.nested ht.nested) hw'.nested
  | .comma hw ht hw' hts =>
    nested_append (nested_append (nested_append hw.nested ht.nested) hw'.nested)
      (nested_cons (by decide) hts.nested)

theorem WritesMembers.nested {ms : List (String × Json)} {t : List Char} :
    WritesMembers ms t → Nested t
  | .none hw => hw.nested
  | .last hw hkey hw₁ hw₂ ht hw' =>
    nested_append (nested_append (nested_append hw.nested hkey.nested) hw₁.nested)
      (nested_cons (by decide)
        (nested_append (nested_append hw₂.nested ht.nested) hw'.nested))
  | .comma hw hkey hw₁ hw₂ ht hw' hts =>
    nested_append
      (nested_append (nested_append (nested_append hw.nested hkey.nested) hw₁.nested)
        (nested_cons (by decide)
          (nested_append (nested_append hw₂.nested ht.nested) hw'.nested)))
      (nested_cons (by decide) hts.nested)

end

/-! ## Plain strings -/

/-- Characters that are written as they are. -/
theorem writesChars_plain
    (h : ∀ c ∈ cs, c ≠ '"' ∧ c ≠ '\\' ∧ 0x20 ≤ c.toNat) : WritesChars cs cs := by
  induction cs with
  | nil => exact .nil
  | cons c cs ih =>
    obtain ⟨hquote, hslash, hcontrol⟩ := h c List.mem_cons_self
    exact .plain hquote hslash hcontrol (ih fun d hd => h d (List.mem_cons_of_mem _ hd))

end EmbraOS.Verified.JsonGrammar
