import Mathlib.Data.List.TakeWhile

/-!
# Text operations of the host language

The `str` methods the ports call, as functions on character lists lifted to
`String`.  They are written by recursion on the characters, so that they
evaluate in the kernel and simplify by their equations.
-/

namespace EmbraOS.Verified.Text

/-- The Unicode `White_Space` property, which `str::trim` uses. -/
def isWhitespace (c : Char) : Bool :=
  let n := c.toNat
  (0x9 ≤ n && n ≤ 0xD) || n == 0x20 || n == 0x85 || n == 0xA0 ||
    n == 0x1680 || (0x2000 ≤ n && n ≤ 0x200A) || n == 0x2028 ||
    n == 0x2029 || n == 0x202F || n == 0x205F || n == 0x3000

def trimStart (s : String) : String :=
  String.ofList (s.toList.dropWhile isWhitespace)

def trimEnd (s : String) : String :=
  String.ofList ((s.toList.reverse.dropWhile isWhitespace).reverse)

/-- `str::trim`. -/
def trim (s : String) : String := trimEnd (trimStart s)

theorem dropWhile_of_head {l : List Char} (h : ∀ c ∈ l.head?, isWhitespace c = false) :
    l.dropWhile isWhitespace = l := by
  cases l with
  | nil => rfl
  | cons c cs =>
    apply List.dropWhile_cons_of_neg
    rw [h c rfl]
    exact Bool.false_ne_true

/-- A text with no white space at its ends has nothing to trim. -/
theorem trim_of_ends {s : String} (hhead : ∀ c ∈ s.toList.head?, isWhitespace c = false)
    (hlast : ∀ c ∈ s.toList.getLast?, isWhitespace c = false) : trim s = s := by
  rw [trim, trimEnd, trimStart, dropWhile_of_head hhead, String.toList_ofList, dropWhile_of_head,
    List.reverse_reverse, String.ofList_toList]
  rwa [List.head?_reverse]

theorem trim_eq_self {s : String} (h : ∀ c ∈ s.toList, isWhitespace c = false) :
    trim s = s :=
  trim_of_ends (fun c hc => h c (List.mem_of_mem_head? hc))
    (fun c hc => h c (List.mem_of_mem_getLast? hc))

/-- Nothing is left of a text exactly when all of it is white space. -/
theorem trim_eq_empty {s : String} :
    trim s = "" ↔ ∀ c ∈ s.toList, isWhitespace c = true := by
  have hdrop : ∀ l : List Char, l.dropWhile isWhitespace = [] ↔
      ∀ c ∈ l, isWhitespace c = true := fun _ => List.dropWhile_eq_nil_iff
  have hlist : trim s = String.ofList (((s.toList.dropWhile isWhitespace).reverse.dropWhile
      isWhitespace).reverse) := by
    rw [trim, trimEnd, trimStart, String.toList_ofList]
  rw [hlist, ← String.ofList_nil, String.ofList_inj, List.reverse_eq_nil_iff, hdrop]
  constructor
  · intro h c hc
    have hsplit : s.toList.takeWhile isWhitespace ++ s.toList.dropWhile isWhitespace = s.toList :=
      List.takeWhile_append_dropWhile
    rw [← hsplit] at hc
    rcases List.mem_append.1 hc with hc | hc
    · exact List.mem_takeWhile_imp hc
    · exact h c (List.mem_reverse.2 hc)
  · intro h c hc
    exact h c ((List.dropWhile_sublist _).subset (List.mem_reverse.1 hc))
/-- `str::starts_with` for a text pattern. -/
def startsWith (s pre : String) : Bool := pre.toList.isPrefixOf s.toList

/-- `str::ends_with` for a text pattern. -/
def endsWith (s suf : String) : Bool := suf.toList.isSuffixOf s.toList

/-- `str::strip_prefix`. -/
def stripPrefix? (s pre : String) : Option String :=
  if startsWith s pre then some (String.ofList (s.toList.drop pre.length))
  else none

/-- The longest prefix of at most `n` bytes that ends between characters. -/
def takeBytes : Nat → List Char → List Char
  | _, [] => []
  | n, c :: cs =>
    if c.utf8Size ≤ n then c :: takeBytes (n - c.utf8Size) cs else []

/-- Cut a text at a byte count, on a character boundary. -/
def truncateStr (s : String) (maxBytes : Nat) : String :=
  String.ofList (takeBytes maxBytes s.toList)

/-- ASCII lower case of one character; the others are left alone. -/
def asciiLower (c : Char) : Char :=
  if 'A' ≤ c ∧ c ≤ 'Z' then Char.ofNat (c.toNat + 32) else c

/-- `str::to_ascii_lowercase`. -/
def toAsciiLowercase (s : String) : String :=
  String.ofList (s.toList.map asciiLower)

def asciiUpper (c : Char) : Char :=
  if 'a' ≤ c ∧ c ≤ 'z' then Char.ofNat (c.toNat - 32) else c

/-- `str::to_ascii_uppercase`. -/
def toAsciiUppercase (s : String) : String :=
  String.ofList (s.toList.map asciiUpper)

private theorem asciiLower_of_upper : ∀ n < 26,
    asciiLower (Char.ofNat (65 + n + 32)) = Char.ofNat (65 + n + 32) := by
  decide

@[simp] theorem asciiLower_asciiLower (c : Char) :
    asciiLower (asciiLower c) = asciiLower c := by
  by_cases h : 'A' ≤ c ∧ c ≤ 'Z'
  · have hlow : 65 ≤ c.toNat := h.1
    have hhigh : c.toNat ≤ 90 := h.2
    have hnth := asciiLower_of_upper (c.toNat - 65) (by omega)
    have hsum : 65 + (c.toNat - 65) + 32 = c.toNat + 32 := by omega
    rw [hsum] at hnth
    rw [show asciiLower c = Char.ofNat (c.toNat + 32) from if_pos h, hnth]
  · have hself : asciiLower c = c := if_neg h
    rw [hself, hself]

@[simp] theorem toAsciiLowercase_toAsciiLowercase (s : String) :
    toAsciiLowercase (toAsciiLowercase s) = toAsciiLowercase s := by
  simp [toAsciiLowercase, Function.comp_def]

def isAsciiLowercase (c : Char) : Bool := 'a' ≤ c && c ≤ 'z'

def isAsciiDigit (c : Char) : Bool := '0' ≤ c && c ≤ '9'

def isAsciiAlphanumeric (c : Char) : Bool :=
  isAsciiDigit c || isAsciiLowercase c || ('A' ≤ c && c ≤ 'Z')

/-- `str::contains` for a text pattern. -/
def containsList (pat : List Char) : List Char → Bool
  | [] => pat == []
  | c :: cs => pat.isPrefixOf (c :: cs) || containsList pat cs

def contains (s pat : String) : Bool := containsList pat.toList s.toList

theorem containsList_append (pre pat post : List Char) :
    containsList pat (pre ++ (pat ++ post)) = true := by
  induction pre with
  | nil =>
    cases h : pat ++ post with
    | nil =>
      rw [(List.append_eq_nil_iff.1 h).1]
      rfl
    | cons c cs =>
      have hprefix : pat.isPrefixOf (c :: cs) = true := by
        rw [← h, List.isPrefixOf_iff_prefix]
        exact List.prefix_append pat post
      rw [List.nil_append, containsList, hprefix, Bool.true_or]
  | cons c pre ih =>
    rw [List.cons_append, containsList, ih, Bool.or_true]

/-- `str::replace`, left to right; `skip` characters belong to a match that
has been replaced already. -/
def replaceList (pat rep : List Char) : Nat → List Char → List Char
  | _, [] => []
  | skip + 1, _ :: cs => replaceList pat rep skip cs
  | 0, c :: cs =>
    if pat.isPrefixOf (c :: cs) then
      rep ++ replaceList pat rep (pat.length - 1) cs
    else c :: replaceList pat rep 0 cs

/-- `str::replace` for a non-empty pattern. -/
def replace (s pat rep : String) : String :=
  String.ofList (replaceList pat.toList rep.toList 0 s.toList)

/-- `{:>n}` of a text. -/
def padLeft (n : Nat) (s : String) : String :=
  String.ofList (List.replicate (n - s.length) ' ') ++ s

/-- `Vec<String>::join`. -/
def join (sep : String) : List String → String
  | [] => ""
  | [s] => s
  | s :: t :: rest => s ++ sep ++ join sep (t :: rest)

/-! ## Concatenation -/

/-- The texts of a list joined in order. -/
def concat (texts : List String) : String := texts.foldr (· ++ ·) ""

@[simp] theorem concat_nil : concat [] = "" := rfl

@[simp] theorem concat_cons (s : String) (texts : List String) :
    concat (s :: texts) = s ++ concat texts := rfl

@[simp] theorem concat_append (xs ys : List String) :
    concat (xs ++ ys) = concat xs ++ concat ys := by
  induction xs with
  | nil => simp
  | cons s xs ih => simp [ih, String.append_assoc]

end EmbraOS.Verified.Text
