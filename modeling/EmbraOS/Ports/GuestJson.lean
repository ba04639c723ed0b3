import EmbraOS.Verified.JsonGrammar
import EmbraOS.Verified.Utf8
import EmbraOS.Verified.Text

/-!
# The guest's JSON value type

`embra-guardian/src/guest/json.rs`: the JSON reader and writer that are copied
into every generated guest tool.  The reader is a recursive descent over bytes
with a cursor; the writer prints a value without any white space.

A guest is built in release mode, so its `u32` arithmetic wraps.  The `f64`
type is a parameter (`F64`): its `Display` and its `FromStr`, with the facts
about them that the reader relies on.

`unicodeEscape_utf16_iff` says when an escape is decoded as UTF-16.
-/

namespace EmbraOS.Ports.GuestJson

open Verified
open Verified.Utf8
open Verified.Text
open Verified.JsonGrammar (NumberText)

/-- The number type of the language core. -/
structure F64 where
  Num : Type
  /-- `f64::is_finite`. -/
  isFinite : Num → Bool
  /-- The text `Display` writes. -/
  display : Num → String
  /-- `str::parse::<f64>`. -/
  parse : String → Option Num
  /-- The number a decimal text stands for, to the nearest. -/
  read : String → Num
  parse_number : ∀ t, NumberText t → parse (String.ofList t) = some (read (String.ofList t))
  display_chars : ∀ n, isFinite n = true → ∀ c ∈ (display n).toList,
    isAsciiDigit c = true ∨ c = '.' ∨ c = '-'
  display_head : ∀ n, isFinite n = true → ∃ c cs, (display n).toList = c :: cs ∧
    (isAsciiDigit c = true ∨ c = '-')
  parse_display : ∀ n, isFinite n = true → parse (display n) = some n

inductive Json (Num : Type) where
  | null
  | bool (b : Bool)
  | num (n : Num)
  | str (s : String)
  | arr (items : List (Json Num))
  | obj (pairs : List (String × Json Num))

/-! ## The cursor -/

/-- The reader: the bytes from the cursor on, and the cursor. -/
structure P where
  rest : List UInt8
  i : Nat
  deriving DecidableEq, Repr

/-- Why a read has no value.  The source only has the first reason. -/
inductive Failure where
  | error (message : String)
  | outOfFuel
  deriving DecidableEq, Repr

def fail {α : Type} (message : String) : Except Failure (α × P) :=
  .error (.error message)

def failAt {α : Type} (message : String) (p : P) : Except Failure (α × P) :=
  fail (message ++ " at byte " ++ toString p.i)

def openBrace : UInt8 := 0x7B
def closeBrace : UInt8 := 0x7D
def openBracket : UInt8 := 0x5B
def closeBracket : UInt8 := 0x5D
def quote : UInt8 := 0x22
def backslash : UInt8 := 0x5C
def comma : UInt8 := 0x2C
def colon : UInt8 := 0x3A
def minus : UInt8 := 0x2D
def plus : UInt8 := 0x2B
def letterU : UInt8 := 0x75

namespace P

/-- `self.i += n`. -/
def advance (p : P) (n : Nat) : P := ⟨p.rest.drop n, p.i + n⟩

/-- The loop that moves the cursor over the bytes of a class. -/
def skipWhile (test : UInt8 → Bool) (p : P) : P :=
  p.advance (p.rest.takeWhile test).length

end P

/-- Space, tab, line feed, carriage return. -/
def isWs (c : UInt8) : Bool := c = 0x20 || c = 0x09 || c = 0x0A || c = 0x0D

def P.ws (p : P) : P := p.skipWhile isWs

def isDigitByte (c : UInt8) : Bool := 0x30 ≤ c && c ≤ 0x39

/-- A digit, `.`, `e`, `E`, `+` or `-`. -/
def isNumberByte (c : UInt8) : Bool :=
  isDigitByte c || c = 0x2E || c = 0x65 || c = 0x45 || c = plus || c = minus

variable {Num : Type}

def lit (word : String) (v : Json Num) (p : P) : Except Failure (Json Num × P) :=
  let bytes := encode word.toList
  if bytes.isPrefixOf p.rest then .ok (v, p.advance bytes.length)
  else failAt "invalid literal" p

def number (f : F64) (p : P) : Except Failure (Json f.Num × P) :=
  let afterSign := if p.rest.head? = some minus then p.advance 1 else p
  let stop := afterSign.skipWhile isNumberByte
  match fromUtf8? (p.rest.take (stop.i - p.i)) with
  | none => fail "bad number"
  | some raw =>
    match f.parse (String.ofList raw) with
    | some n => .ok (.num n, stop)
    | none => fail ("invalid number `" ++ String.ofList raw ++ "`")

/-! ## Strings -/

/-- `(c as char).to_digit(16)`. -/
def hexDigit (c : UInt8) : Option Nat := JsonGrammar.hexValue (Char.ofNat c.toNat)

def hexDigits : Nat → List UInt8 → Option Nat
  | acc, [] => some acc
  | acc, c :: cs => (hexDigit c).bind fun d => hexDigits (acc * 16 + d) cs

/-- `u32::from_str_radix(s, 16)` on at most four bytes.  A sign `+` in front of
a digit is accepted. -/
def fromStrRadix16 : List UInt8 → Option Nat
  | [] => none
  | c :: cs => if c = plus ∧ cs ≠ [] then hexDigits 0 cs else hexDigits 0 (c :: cs)

def hex4 (p : P) : Except Failure (UInt32 × P) :=
  if p.rest.length < 4 then fail "short \\u"
  else
    match fromUtf8? (p.rest.take 4) with
    | none => fail "bad \\u"
    | some _ =>
      match fromStrRadix16 (p.rest.take 4) with
      | none => fail "bad \\u hex"
      | some n => .ok (n.toUInt32, p.advance 4)

/-- `char::from_u32`. -/
def charFromU32 (n : UInt32) : Option Char :=
  if n.toNat.isValidChar then some (Char.ofNat n.toNat) else none

/-- What follows a backslash and a `u`. -/
def unicodeEscape (p : P) : Except Failure (Char × P) := do
  let (cp, p) ← hex4 p
  if 0xD800 ≤ cp ∧ cp ≤ 0xDBFF then
    -- a high surrogate; its low half is to follow
    if p.rest.head? = some backslash ∧ (p.rest.drop 1).head? = some letterU then
      let (lo, p) ← hex4 (p.advance 2)
      let high : UInt32 := (cp - 0xD800) <<< 10
      match charFromU32 (0x10000 + high + (lo - 0xDC00)) with
      | some c => .ok (c, p)
      | none => fail "bad surrogate pair"
    else fail "lone high surrogate"
  else
    match charFromU32 cp with
    | some c => .ok (c, p)
    | none => fail "bad \\u escape"

/-- The escape whose letter is `e`; the cursor stands behind the letter. -/
def escape (e : UInt8) (p : P) : Except Failure (Char × P) :=
  if e = quote then .ok ('"', p)
  else if e = backslash then .ok ('\\', p)
  else if e = 0x2F then .ok ('/', p)
  else if e = 0x62 then .ok (Char.ofNat 0x08, p)
  else if e = 0x66 then .ok (Char.ofNat 0x0C, p)
  else if e = 0x6E then .ok ('\n', p)
  else if e = 0x72 then .ok ('\r', p)
  else if e = 0x74 then .ok ('\t', p)
  else if e = letterU then unicodeEscape p
  else fail "invalid escape"

/-- A byte that goes on the run of plain bytes. -/
def isPlainByte (n : UInt8) : Bool := n ≠ quote && n ≠ backslash

/-- The loop of `string`, behind the opening quote. -/
def stringLoop : Nat → List Char → P → Except Failure (List Char × P)
  | 0, _, _ => .error .outOfFuel
  | fuel + 1, out, p =>
    match p.rest with
    | [] => fail "unterminated string"
    | c :: rest =>
      if c = quote then .ok (out, p.advance 1)
      else if c = backslash then
        match rest with
        | [] => fail "bad escape"
        | e :: _ => do
          let (ch, p) ← escape e (p.advance 2)
          stringLoop fuel (out ++ [ch]) p
      else
        let run := rest.takeWhile isPlainByte
        match fromUtf8? (c :: run) with
        | none => fail "invalid utf-8 in string"
        | some text =>
          stringLoop fuel (out ++ text) (p.advance (1 + run.length))

def string (p : P) : Except Failure (String × P) := do
  let p := p.advance 1
  let (out, p) ← stringLoop (p.rest.length + 1) [] p
  .ok (String.ofList out, p)

/-- The bytes from the cursor to the closing quote, escapes skipped; all of them
when there is none.  The reader reserves as many. -/
def rawStringLen : List UInt8 → Nat
  | [] => 0
  | c :: rest =>
    if c = quote then 0
    else if c = backslash then
      match rest with
      | [] => 1
      | _ :: rest => 2 + rawStringLen rest
    else 1 + rawStringLen rest

/-! ## Values -/

/-- `"key" :` of a member; the cursor then stands at its value. -/
def memberKey (p : P) : Except Failure (String × P) := do
  let p := p.ws
  if p.rest.head? ≠ some quote then failAt "expected string key" p
  else
    let (k, p) ← string p
    let p := p.ws
    if p.rest.head? ≠ some colon then failAt "expected ':'" p
    else .ok (k, (p.advance 1).ws)

mutual

def value (f : F64) : Nat → P → Except Failure (Json f.Num × P)
  | 0, _ => .error .outOfFuel
  | fuel + 1, p =>
    match p.rest with
    | [] => failAt "unexpected token" p
    | c :: _ =>
      if c = openBrace then object f fuel p
      else if c = openBracket then array f fuel p
      else if c = quote then do
        let (s, p) ← string p
        .ok (.str s, p)
      else if c = 0x74 then lit "true" (.bool true) p
      else if c = 0x66 then lit "false" (.bool false) p
      else if c = 0x6E then lit "null" .null p
      else if c = minus ∨ isDigitByte c then number f p
      else failAt "unexpected token" p

def array (f : F64) : Nat → P → Except Failure (Json f.Num × P)
  | 0, _ => .error .outOfFuel
  | fuel + 1, p =>
    let p := (p.advance 1).ws
    if p.rest.head? = some closeBracket then .ok (.arr [], p.advance 1)
    else arrayLoop f fuel [] p

def arrayLoop (f : F64) : Nat → List (Json f.Num) → P →
    Except Failure (Json f.Num × P)
  | 0, _, _ => .error .outOfFuel
  | fuel + 1, out, p => do
    let (v, p) ← value f fuel p.ws
    let out := out ++ [v]
    let p := p.ws
    if p.rest.head? = some comma then arrayLoop f fuel out (p.advance 1)
    else if p.rest.head? = some closeBracket then .ok (.arr out, p.advance 1)
    else failAt "expected ',' or ']'" p

def object (f : F64) : Nat → P → Except Failure (Json f.Num × P)
  | 0, _ => .error .outOfFuel
  | fuel + 1, p =>
    let p := (p.advance 1).ws
    if p.rest.head? = some closeBrace then .ok (.obj [], p.advance 1)
    else objectLoop f fuel [] p

def objectLoop (f : F64) : Nat → List (String × Json f.Num) → P →
    Except Failure (Json f.Num × P)
  | 0, _, _ => .error .outOfFuel
  | fuel + 1, out, p => do
    let (k, p) ← memberKey p
    let (v, p) ← value f fuel p
    let out := out ++ [(k, v)]
    let p := p.ws
    if p.rest.head? = some comma then objectLoop f fuel out (p.advance 1)
    else if p.rest.head? = some closeBrace then .ok (.obj out, p.advance 1)
    else failAt "expected ',' or '\x7d'" p

end

/-- Fuel for a text of `n` bytes: three calls for each byte at most. -/
def fuelFor (n : Nat) : Nat := 3 * n + 3

def parse (f : F64) (input : String) : Except Failure (Json f.Num) := do
  let p : P := ⟨encode input.toList, 0⟩
  let p := p.ws
  let (v, p) ← value f (fuelFor p.rest.length) p
  let p := p.ws
  if p.rest ≠ [] then
    .error (.error ("trailing data at byte " ++ toString p.i))
  else .ok v

/-! ## The writer -/

/-- `format!("{:04x}", n)`. -/
def fmt04x (n : Nat) : List Char :=
  let digits := Nat.toDigits 16 n
  List.replicate (4 - digits.length) '0' ++ digits

def escapeChar (c : Char) : List Char :=
  if c = '"' then ['\\', '"']
  else if c = '\\' then ['\\', '\\']
  else if c = '\n' then ['\\', 'n']
  else if c = '\r' then ['\\', 'r']
  else if c = '\t' then ['\\', 't']
  else if c = Char.ofNat 0x08 then ['\\', 'b']
  else if c = Char.ofNat 0x0C then ['\\', 'f']
  else if c.toNat < 0x20 then '\\' :: 'u' :: fmt04x c.toNat
  else [c]

def writeStr (s : String) : List Char :=
  '"' :: (s.toList.flatMap escapeChar ++ ['"'])

mutual

/-- The text `write` appends for a value. -/
def write (f : F64) : Json f.Num → List Char
  | .null => "null".toList
  | .bool true => "true".toList
  | .bool false => "false".toList
  | .num n => if f.isFinite n then (f.display n).toList else "null".toList
  | .str s => writeStr s
  | .arr items => '[' :: (writeItems f true items ++ [']'])
  | .obj pairs => '\x7b' :: (writePairs f true pairs ++ ['\x7d'])

/-- The loop over an array; `first` is `i == 0`. -/
def writeItems (f : F64) : Bool → List (Json f.Num) → List Char
  | _, [] => []
  | first, v :: items =>
    (if first then [] else [',']) ++ (write f v ++ writeItems f false items)

def writePairs (f : F64) : Bool → List (String × Json f.Num) → List Char
  | _, [] => []
  | first, (k, v) :: pairs =>
    (if first then [] else [',']) ++
      (writeStr k ++ ':' :: (write f v ++ writePairs f false pairs))

end

def stringify (f : F64) (v : Json f.Num) : String := String.ofList (write f v)

/-- A number's share of the size estimate. -/
def numSizeHint : Nat := 24

def charSize (c : Char) : Nat :=
  if c ∈ ['"', '\\', '\n', '\r', '\t', Char.ofNat 0x08, Char.ofNat 0x0C] then 2
  else if c.toNat < 0x20 then 6
  else c.utf8Size

def strSize (s : String) : Nat := 2 + (s.toList.map charSize).sum

mutual

/-- What the writer reserves for a value. -/
def size : Json Num → Nat
  | .null => 4
  | .bool true => 4
  | .bool false => 5
  | .num _ => numSizeHint
  | .str s => strSize s
  | .arr items => 2 + (items.length - 1) + sizeItems items
  | .obj pairs => 2 + (pairs.length - 1) + sizePairs pairs

def sizeItems : List (Json Num) → Nat
  | [] => 0
  | v :: items => size v + sizeItems items

def sizePairs : List (String × Json Num) → Nat
  | [] => 0
  | (k, v) :: pairs => strSize k + 1 + size v + sizePairs pairs

end

/-! ## Escapes as UTF-16 -/

/-- The number four bytes stand for, as `hex4` reads them. -/
def readUnit (bytes : List UInt8) : Option Nat :=
  if bytes.length < 4 then none else fromStrRadix16 (bytes.take 4)

/-- The number of four hexadecimal digits. -/
def unit? (bytes : List UInt8) : Option Nat :=
  if bytes.length < 4 then none else hexDigits 0 (bytes.take 4)

def isHigh (n : Nat) : Bool := 0xD800 ≤ n && n ≤ 0xDBFF

def isLow (n : Nat) : Bool := 0xDC00 ≤ n && n ≤ 0xDFFF

/-- Another escape comes next. -/
def escapeNext (bytes : List UInt8) : Bool :=
  bytes.head? = some backslash && (bytes.drop 1).head? = some letterU

/-- What the bytes behind a backslash and a `u` stand for in UTF-16, and what
is left: a unit that is no surrogate, or two that are a pair. -/
def utf16? (bytes : List UInt8) : Option (Char × List UInt8) :=
  (unit? bytes).bind fun unit =>
    if isHigh unit then
      if escapeNext (bytes.drop 4) then
        (unit? (bytes.drop 6)).bind fun low =>
          if isLow low then
            some (Char.ofNat (0x10000 + (unit - 0xD800) * 1024 + (low - 0xDC00)), bytes.drop 10)
          else none
      else none
    else if isLow unit then none
    else some (Char.ofNat unit, bytes.drop 4)

/-- The two units of which the reader makes one character. -/
def pairUnits (bytes : List UInt8) : Option (Nat × Nat) :=
  (readUnit bytes).bind fun unit =>
    if isHigh unit && escapeNext (bytes.drop 4) then
      (readUnit (bytes.drop 6)).map fun low => (unit, low)
    else none

theorem hexDigit_bounds {c : UInt8} {d : Nat} (h : hexDigit c = some d) :
    d < 16 ∧ (c.toNat < 128 ∧ isPlainByte c = true) ∧ c ≠ plus := by
  have hall : ∀ n < 256, ∀ d ∈ JsonGrammar.hexValue (Char.ofNat n), d < 16 ∧
      (n < 128 ∧ isPlainByte (UInt8.ofNat n) = true) ∧ n ≠ 43 := by decide +kernel
  obtain ⟨hd, hascii, hplus⟩ := hall c.toNat c.toNat_lt d h
  rw [UInt8.ofNat_toNat] at hascii
  exact ⟨hd, hascii, fun hc => hplus (by rw [hc]; rfl)⟩

theorem hexDigits_bounds {ds : List UInt8} :
    ∀ {acc n : Nat}, hexDigits acc ds = some n →
      (∀ c ∈ ds, (c.toNat < 128 ∧ isPlainByte c = true) ∧ c ≠ plus) ∧
        n < (acc + 1) * 16 ^ ds.length := by
  induction ds with
  | nil =>
    intro acc n h
    cases h
    simp
  | cons c ds ih =>
    intro acc n h
    obtain ⟨d, hd, hrest⟩ := Option.bind_eq_some_iff.1 h
    obtain ⟨hlt, hascii, hplus⟩ := hexDigit_bounds hd
    obtain ⟨hall, hn⟩ := ih hrest
    refine ⟨?_, ?_⟩
    · rintro x (_ | ⟨_, hx⟩)
      · exact ⟨hascii, hplus⟩
      · exact hall x hx
    · calc n < (acc * 16 + d + 1) * 16 ^ ds.length := hn
        _ ≤ (acc + 1) * 16 * 16 ^ ds.length := Nat.mul_le_mul_right _ (by omega)
        _ = (acc + 1) * 16 ^ (c :: ds).length := by
            rw [List.length_cons, Nat.pow_succ', Nat.mul_assoc]

/-- A unit that is read is the number of four digits, or of three behind a
sign. -/
theorem readUnit_cases {bytes : List UInt8} {n : Nat} (h : readUnit bytes = some n) :
    4 ≤ bytes.length ∧ (∀ c ∈ bytes.take 4, c.toNat < 128 ∧ isPlainByte c = true) ∧
      ((bytes.head? ≠ some plus ∧ unit? bytes = some n ∧ n < 65536) ∨
        (bytes.head? = some plus ∧ unit? bytes = none ∧ n < 4096)) := by
  by_cases hlen : bytes.length < 4
  · simp [readUnit, hlen] at h
  obtain ⟨a, b, c, d, rest, rfl⟩ : ∃ a b c d rest, bytes = a :: b :: c :: d :: rest := by
    match bytes, hlen with
    | a :: b :: c :: d :: rest, _ => exact ⟨a, b, c, d, rest, rfl⟩
    | [], hlen | [_], hlen | [_, _], hlen | [_, _, _], hlen => simp at hlen
  simp only [readUnit, unit?, if_neg hlen, List.take_succ_cons, List.take_zero, fromStrRadix16,
    List.head?_cons, ne_eq, Option.some.injEq] at h ⊢
  refine ⟨Nat.not_lt.1 hlen, ?_⟩
  by_cases ha : a = plus
  · rw [if_pos ⟨ha, by simp⟩] at h
    obtain ⟨hall, hn⟩ := hexDigits_bounds h
    have hnone : hexDigits 0 [a, b, c, d] = none := by
      by_contra hsome
      obtain ⟨m, hm⟩ := Option.ne_none_iff_exists'.1 hsome
      exact ((hexDigits_bounds hm).1 a List.mem_cons_self).2 ha
    refine ⟨?_, Or.inr ⟨ha, hnone, by simpa using hn⟩⟩
    rintro x (_ | ⟨_, hx⟩)
    · rw [ha]
      decide
    · exact (hall x hx).1
  · rw [if_neg fun hplus => ha hplus.1] at h
    obtain ⟨hall, hn⟩ := hexDigits_bounds h
    exact ⟨fun x hx => (hall x hx).1, Or.inl ⟨ha, h, by simpa using hn⟩⟩

/-- Four digits are read as they are. -/
theorem readUnit_of_unit? {bytes : List UInt8} {n : Nat} (h : unit? bytes = some n) :
    readUnit bytes = some n := by
  by_cases hlen : bytes.length < 4
  · simp [unit?, hlen] at h
  rw [unit?, if_neg hlen] at h
  rw [readUnit, if_neg hlen]
  cases hb : bytes.take 4 with
  | nil =>
    rw [List.take_eq_nil_iff] at hb
    rcases hb with hb | hb
    · cases hb
    · simp [hb] at hlen
  | cons c cs =>
    rw [hb] at h
    have hplus := ((hexDigits_bounds h).1 c List.mem_cons_self).2
    rw [fromStrRadix16, if_neg fun hc => hplus hc.1]
    exact h

theorem hex4_toOption (p : P) :
    (hex4 p).toOption = (readUnit p.rest).map fun n => (n.toUInt32, p.advance 4) := by
  cases hread : readUnit p.rest with
  | none =>
    unfold readUnit at hread
    unfold hex4
    split
    · rfl
    · rename_i hlen
      rw [if_neg hlen] at hread
      rw [hread]
      split <;> rfl
  | some n =>
    obtain ⟨hlen, hascii, -⟩ := readUnit_cases hread
    have hutf : fromUtf8? (p.rest.take 4)
        = some ((p.rest.take 4).map fun b => Char.ofNat b.toNat) := by
      rw [← fromUtf8?_encode, encode_ascii fun b hb => (hascii b hb).1]
    rw [readUnit, if_neg (Nat.not_lt.2 hlen)] at hread
    rw [hex4, if_neg (Nat.not_lt.2 hlen), hutf, hread]
    rfl

theorem toUInt32_toNat {n : Nat} (h : n < 65536) : n.toUInt32.toNat = n := by
  simp only [Nat.toUInt32, UInt32.toNat_ofNat']
  omega

theorem isHigh_iff {n : Nat} (h : n < 65536) :
    ((0xD800 : UInt32) ≤ n.toUInt32 ∧ n.toUInt32 ≤ 0xDBFF) ↔ isHigh n = true := by
  rw [UInt32.le_iff_toNat_le, UInt32.le_iff_toNat_le, toUInt32_toNat h]
  simp [isHigh]

/-- The character the reader makes of two units. -/
def pairChar (unit low : Nat) : Option Char :=
  let high : UInt32 := (unit.toUInt32 - 0xD800) <<< 10
  charFromU32 (0x10000 + high + (low.toUInt32 - 0xDC00))

/-- What the reader takes an escape for, by the units it reads. -/
theorem unicodeEscape_units (p : P) :
    (unicodeEscape p).toOption.map (fun r => (r.1, r.2.rest)) =
      (readUnit p.rest).bind fun unit =>
        if isHigh unit then
          if escapeNext (p.rest.drop 4) then
            (readUnit (p.rest.drop 6)).bind fun low =>
              (pairChar unit low).map fun c => (c, p.rest.drop 10)
          else none
        else (charFromU32 unit.toUInt32).map fun c => (c, p.rest.drop 4) := by
  have hhex := hex4_toOption p
  cases hread : readUnit p.rest with
  | none =>
    rw [hread] at hhex
    cases hp : hex4 p with
    | error e => simp [unicodeEscape, hp, bind, Except.bind, Except.toOption]
    | ok r => simp [hp, Except.toOption] at hhex
  | some unit =>
    rw [hread] at hhex
    have hlt : unit < 65536 := by
      rcases (readUnit_cases hread).2.2 with ⟨-, -, h⟩ | ⟨-, -, h⟩ <;> omega
    cases hp : hex4 p with
    | error e => simp [hp, Except.toOption] at hhex
    | ok r =>
      simp only [hp, Except.toOption, Option.map_some, Option.some.injEq] at hhex
      subst hhex
      simp only [unicodeEscape, hp, bind, Except.bind, isHigh_iff hlt, Option.bind_some]
      split
      · split
        · rename_i hnext
          rw [if_pos (by simpa [escapeNext, P.advance] using hnext)]
          have hlow := hex4_toOption (P.advance (P.advance p 4) 2)
          have hrest : (P.advance (P.advance p 4) 2).rest = p.rest.drop 6 := by
            simp [P.advance]
          rw [hrest] at hlow
          cases hread' : readUnit (p.rest.drop 6) with
          | none =>
            rw [hread'] at hlow
            cases hq : hex4 (P.advance (P.advance p 4) 2) with
            | error e => rfl
            | ok r => simp [hq, Except.toOption] at hlow
          | some low =>
            rw [hread'] at hlow
            cases hq : hex4 (P.advance (P.advance p 4) 2) with
            | error e => simp [hq, Except.toOption] at hlow
            | ok r =>
              simp only [hq, Except.toOption, Option.map_some, Option.some.injEq] at hlow
              subst hlow
              simp only [Option.bind_some, pairChar]
              split
              · rename_i c hc
                simp [hc, P.advance, Except.toOption]
              · rename_i hc
                simp [hc, fail, Except.toOption]
        · rename_i hnext
          rw [if_neg (by simpa [escapeNext, P.advance] using hnext)]
          rfl
      · cases charFromU32 unit.toUInt32 <;> rfl

theorem charFromU32_unit {n : Nat} (h : n < 65536) :
    charFromU32 n.toUInt32
      = if isHigh n || isLow n then none else some (Char.ofNat n) := by
  rw [charFromU32, toUInt32_toNat h]
  by_cases hsur : n.isValidChar
  · rw [if_pos hsur, if_neg]
    simp only [isHigh, isLow, Bool.or_eq_true, Bool.and_eq_true, decide_eq_true_eq]
    rcases hsur with hlt | ⟨hgt, -⟩ <;> omega
  · rw [if_neg hsur, if_pos]
    simp only [Nat.isValidChar, not_or, not_and] at hsur
    simp only [isHigh, isLow, Bool.or_eq_true, Bool.and_eq_true, decide_eq_true_eq]
    omega

/-- The number of the character that two units make. -/
def pairValue (unit low : Nat) : Nat := 0x10000 + (unit - 0xD800) * 1024 + (low - 0xDC00)

theorem toNat_sub_unit {u d : UInt32} {n : Nat} (hu : u.toNat = n) (hle : d.toNat ≤ n) :
    (u - d).toNat = n - d.toNat := by
  rw [UInt32.toNat_sub_of_le _ _ (UInt32.le_iff_toNat_le.2 (by rw [hu]; exact hle)), hu]

/-- Without a wrap the reader computes the number of the pair. -/
theorem toNat_pair {u l high : UInt32} {unit low : Nat} (hu : u.toNat = unit)
    (hl : l.toNat = low) (hhigh : high = (u - 0xD800) <<< 10) (hunit : 0xD800 ≤ unit)
    (hunit' : unit ≤ 0xDBFF) (hlow : 0xDC00 ≤ low) (hlow' : low < 65536) :
    (0x10000 + high + (l - 0xDC00)).toNat = pairValue unit low := by
  have h1 : (u - 0xD800).toNat = unit - 0xD800 := toNat_sub_unit hu hunit
  have h2 : (l - 0xDC00).toNat = low - 0xDC00 := toNat_sub_unit hl hlow
  have h3 : high.toNat = (unit - 0xD800) * 1024 := by
    rw [hhigh, UInt32.toNat_shiftLeft, h1, Nat.shiftLeft_eq]
    simp only [UInt32.reduceToNat, Nat.reduceMod, Nat.reducePow]
    omega
  generalize l - 0xDC00 = below at h2 ⊢
  show _ = 0x10000 + (unit - 0xD800) * 1024 + (low - 0xDC00)
  simp only [UInt32.toNat_add, h2, h3, UInt32.reduceToNat, Nat.reducePow]
  omega

theorem pairChar_eq {unit low : Nat} (hunit : isHigh unit = true) (hlo : 0xDC00 ≤ low)
    (hhi : low < 65536) :
    pairChar unit low
      = if pairValue unit low < 0x110000 then some (Char.ofNat (pairValue unit low)) else none := by
  simp only [isHigh, Bool.and_eq_true, decide_eq_true_eq] at hunit
  have hval := toNat_pair (toUInt32_toNat (show unit < 65536 by omega)) (toUInt32_toNat hhi) rfl
    hunit.1 hunit.2 hlo hhi
  simp only [pairChar, charFromU32, hval]
  by_cases hlt : pairValue unit low < 0x110000
  · rw [if_pos hlt, if_pos (Or.inr ⟨by unfold pairValue; omega, hlt⟩)]
  · rw [if_neg hlt, if_neg]
    rintro (h | ⟨-, h⟩)
    · unfold pairValue at hlt h
      omega
    · exact hlt h

/-- An escape is decoded as UTF-16, and no unit goes below zero on the way. -/
def DecodesUtf16 (p : P) : Prop :=
  (unicodeEscape p).toOption.map (fun r => (r.1, r.2.rest)) = utf16? p.rest ∧
    ∀ unit low, pairUnits p.rest = some (unit, low) → 0xD800 ≤ unit ∧ 0xDC00 ≤ low

/-- The escapes the reader has right: no sign stands for a digit, and a second
unit that is read is a low surrogate, or so far above that no character is
made. -/
def WellPaired (bytes : List UInt8) : Prop :=
  (readUnit bytes ≠ none → bytes.head? ≠ some plus) ∧
    ∀ unit low, pairUnits bytes = some (unit, low) →
      0xDC00 ≤ low ∧ (low ≤ 0xDFFF ∨ 0x110000 ≤ pairValue unit low)

/-- Behind a high surrogate and another escape. -/
theorem pair_utf16_iff {bytes : List UInt8} {unit : Nat} (hread : readUnit bytes = some unit)
    (hhigh : isHigh unit = true) (hnext : escapeNext (bytes.drop 4) = true)
    (hplus : bytes.head? ≠ some plus) :
    (((readUnit (bytes.drop 6)).bind fun low =>
          (pairChar unit low).map fun c => (c, bytes.drop 10)) =
        ((unit? (bytes.drop 6)).bind fun low =>
          if isLow low then some (Char.ofNat (pairValue unit low), bytes.drop 10) else none) ∧
      ∀ unit low, pairUnits bytes = some (unit, low) → 0xD800 ≤ unit ∧ 0xDC00 ≤ low) ↔
    WellPaired bytes := by
  have hpair : pairUnits bytes = (readUnit (bytes.drop 6)).map fun low => (unit, low) := by
    simp [pairUnits, hread, hhigh, hnext]
  have hunit : 0xD800 ≤ unit := by
    simp only [isHigh, Bool.and_eq_true, decide_eq_true_eq] at hhigh
    exact hhigh.1
  cases hlow : readUnit (bytes.drop 6) with
  | none =>
    have hnone : unit? (bytes.drop 6) = none := by
      by_contra hsome
      obtain ⟨n, hn⟩ := Option.ne_none_iff_exists'.1 hsome
      rw [readUnit_of_unit? hn] at hlow
      cases hlow
    rw [hlow, Option.map_none] at hpair
    rw [hnone]
    exact iff_of_true ⟨rfl, by simp [hpair]⟩ ⟨fun _ => hplus, by simp [hpair]⟩
  | some low =>
    rw [hlow, Option.map_some] at hpair
    by_cases hlo : 0xDC00 ≤ low
    · -- no sign, since the number is too large for three digits
      obtain ⟨-, -, ⟨-, hread', hlt⟩ | ⟨-, -, hlt⟩⟩ := readUnit_cases hlow
      · have hbelow : ∀ u l, pairUnits bytes = some (u, l) → 0xD800 ≤ u ∧ 0xDC00 ≤ l := by
          intro u l h
          rw [hpair] at h
          cases h
          exact ⟨hunit, hlo⟩
        rw [hread', Option.bind_some, Option.bind_some, pairChar_eq hhigh hlo hlt,
          and_iff_left hbelow]
        have hwell : WellPaired bytes ↔ low ≤ 0xDFFF ∨ 0x110000 ≤ pairValue unit low := by
          simp [WellPaired, hpair, hplus, hlo]
        rw [hwell]
        by_cases hle : low ≤ 0xDFFF
        · have hval : pairValue unit low < 0x110000 := by
            simp only [isHigh, Bool.and_eq_true, decide_eq_true_eq] at hhigh
            unfold pairValue
            omega
          refine iff_of_true ?_ (Or.inl hle)
          rw [if_pos hval, if_pos (by simp [isLow, hlo, hle])]
          rfl
        · have hnot : isLow low = false := by simp [isLow, hle]
          by_cases hval : pairValue unit low < 0x110000
          · refine iff_of_false ?_ (by omega)
            simp [hval, hnot]
          · refine iff_of_true ?_ (Or.inr (by omega))
            simp [hval, hnot]
      · omega
    · refine iff_of_false (fun h => hlo (h.2 unit low hpair).2) fun h => ?_
      exact hlo (h.2 unit low hpair).1

/-- **When `\\u` is UTF-16.**  At every cursor: what the reader makes of the
escape is what UTF-16 says, and nothing goes below zero, exactly when the
units are well paired. -/
theorem unicodeEscape_utf16_iff (p : P) : DecodesUtf16 p ↔ WellPaired p.rest := by
  have hunits := unicodeEscape_units p
  cases hread : readUnit p.rest with
  | none =>
    have hunit : unit? p.rest = none := by
      by_contra hsome
      obtain ⟨n, hn⟩ := Option.ne_none_iff_exists'.1 hsome
      rw [readUnit_of_unit? hn] at hread
      cases hread
    have hpair : pairUnits p.rest = none := by simp [pairUnits, hread]
    refine iff_of_true ⟨?_, by simp [hpair]⟩ ⟨by simp [hread], by simp [hpair]⟩
    rw [hunits, hread, utf16?, hunit]
    rfl
  | some unit =>
    obtain ⟨-, -, ⟨hplus, hunit, hlt⟩ | ⟨hplus, hunit, hlt⟩⟩ := readUnit_cases hread
    · rw [DecodesUtf16, hunits, hread, utf16?, hunit, Option.bind_some, Option.bind_some]
      cases hhigh : isHigh unit with
      | false =>
        have hpair : pairUnits p.rest = none := by simp [pairUnits, hread, hhigh]
        refine iff_of_true ⟨?_, by simp [hpair]⟩ ⟨fun _ => hplus, by simp [hpair]⟩
        rw [charFromU32_unit hlt, hhigh]
        cases isLow unit <;> rfl
      | true =>
        cases hnext : escapeNext (p.rest.drop 4) with
        | false =>
          have hpair : pairUnits p.rest = none := by simp [pairUnits, hread, hnext]
          exact iff_of_true ⟨rfl, by simp [hpair]⟩ ⟨fun _ => hplus, by simp [hpair]⟩
        | true =>
          simp only [if_true]
          exact pair_utf16_iff hread hhigh hnext hplus
    · -- a sign in front: three digits make a character, and UTF-16 knows none
      refine iff_of_false ?_ fun h => h.1 (by simp [hread]) hplus
      rintro ⟨heq, -⟩
      have hhigh : isHigh unit = false := by
        simp only [isHigh, Bool.and_eq_false_iff, decide_eq_false_iff_not]
        omega
      have hlow : isLow unit = false := by
        simp only [isLow, Bool.and_eq_false_iff, decide_eq_false_iff_not]
        omega
      rw [hunits, hread, utf16?, hunit, Option.bind_some, hhigh,
        charFromU32_unit (by omega), hhigh, hlow] at heq
      cases heq

/-- A high surrogate takes the escape of a letter for its other half, by a
difference that wraps; and a sign passes for a digit. -/
theorem unicodeEscape_unpaired :
    (string ⟨encode "\"\\uD801\\u0041\"".toList, 0⟩).toOption.map Prod.fst
        = some "\u2841" ∧
      ¬DecodesUtf16 ⟨encode "D801\\u0041".toList, 0⟩ ∧
      (string ⟨encode "\"\\u+041\"".toList, 0⟩).toOption.map Prod.fst = some "A" ∧
      ¬DecodesUtf16 ⟨encode "+041".toList, 0⟩ := by
  have hpair : (unicodeEscape ⟨encode "D801\\u0041".toList, 0⟩).toOption.map
      (fun r => (r.1, r.2.rest)) ≠ utf16? (encode "D801\\u0041".toList) := by decide +kernel
  have hsign : (unicodeEscape ⟨encode "+041".toList, 0⟩).toOption.map
      (fun r => (r.1, r.2.rest)) ≠ utf16? (encode "+041".toList) := by decide +kernel
  exact ⟨by decide +kernel, fun h => hpair h.1, by decide +kernel, fun h => hsign h.1⟩

end EmbraOS.Ports.GuestJson
