import Mathlib

/-!
# Braces and strings

A walk over a text that counts braces and steps over strings: a brace inside a string
does not count, and a backslash hides the next character of a string.

`walks_nested`: over a text whose strings are closed and whose braces match, the walk
comes back to the depth it started from and never goes below it.
-/

namespace EmbraOS.Verified.Braces

/-- Where the walk stands with respect to a string. -/
inductive Place where
  | outside
  | inString
  /-- Behind a backslash of a string. -/
  | escaped
  deriving DecidableEq, Repr

structure State where
  place : Place
  depth : Nat
  deriving DecidableEq, Repr

/-- One character; at depth 0 a quote opens no string and a closing brace closes nothing. -/
def step (s : State) (c : Char) : State :=
  match s.place with
  | .outside =>
    if c = '"' ∧ 0 < s.depth then ⟨.inString, s.depth⟩
    else if c = '\x7b' then ⟨.outside, s.depth + 1⟩
    else if c = '\x7d' ∧ 0 < s.depth then ⟨.outside, s.depth - 1⟩
    else s
  | .inString =>
    if c = '"' then ⟨.outside, s.depth⟩
    else if c = '\\' then ⟨.escaped, s.depth⟩
    else s
  | .escaped => ⟨.inString, s.depth⟩

def run (s : State) (text : List Char) : State := text.foldl step s

@[simp] theorem run_nil (s : State) : run s [] = s := rfl

@[simp] theorem run_cons (s : State) (c : Char) (cs : List Char) :
    run s (c :: cs) = run (step s c) cs := rfl

theorem run_append (s : State) (xs ys : List Char) : run s (xs ++ ys) = run (run s xs) ys :=
  List.foldl_append

/-! ## Texts -/

/-- The inside of a string: no bare quote, no backslash without a character behind it. -/
inductive StringBody : List Char → Prop where
  | nil : StringBody []
  | plain {c : Char} {cs : List Char} (hquote : c ≠ '"') (hslash : c ≠ '\\')
      (h : StringBody cs) : StringBody (c :: cs)
  | escape {c : Char} {cs : List Char} (h : StringBody cs) : StringBody ('\\' :: c :: cs)

/-- Strings are closed and braces match. -/
inductive Nested : List Char → Prop where
  | nil : Nested []
  | plain {c : Char} {cs : List Char} (hquote : c ≠ '"') (hopen : c ≠ '\x7b')
      (hclose : c ≠ '\x7d') (h : Nested cs) : Nested (c :: cs)
  | string {body cs : List Char} (hbody : StringBody body) (h : Nested cs) :
      Nested ('"' :: body ++ '"' :: cs)
  | braces {body cs : List Char} (hbody : Nested body) (h : Nested cs) :
      Nested ('\x7b' :: body ++ '\x7d' :: cs)

/-! ## The walk -/

/-- The walk goes over the text at depth `d` or more, and ends in `s'`. -/
structure Walks (d : Nat) (s : State) (text : List Char) (s' : State) : Prop where
  above : ∀ p, p <+: text → d ≤ (run s p).depth
  ends : run s text = s'

theorem Walks.nil {d : Nat} {s : State} (h : d ≤ s.depth) : Walks d s [] s where
  above p hp := by
    obtain rfl := List.prefix_nil.1 hp
    exact h
  ends := rfl

theorem Walks.cons {d : Nat} {s s' : State} {c : Char} {cs : List Char} (hd : d ≤ s.depth)
    (h : Walks d (step s c) cs s') : Walks d s (c :: cs) s' where
  above p hp := by
    rcases List.prefix_cons_iff.1 hp with rfl | ⟨p', rfl, hp'⟩
    · exact hd
    · exact h.above p' hp'
  ends := h.ends

theorem Walks.append {d : Nat} {s s' s'' : State} {xs ys : List Char} (hx : Walks d s xs s')
    (hy : Walks d s' ys s'') : Walks d s (xs ++ ys) s'' where
  above p hp := by
    rcases List.prefix_or_prefix_of_prefix hp (List.prefix_append xs ys) with h | ⟨q, rfl⟩
    · exact hx.above p h
    · rw [run_append, hx.ends]
      exact hy.above q ((List.prefix_append_right_inj xs).1 hp)
  ends := by rw [run_append, hx.ends, hy.ends]

theorem Walks.mono {d d' : Nat} {s s' : State} {text : List Char} (hd : d' ≤ d)
    (h : Walks d s text s') : Walks d' s text s' where
  above p hp := hd.trans (h.above p hp)
  ends := h.ends

theorem walks_stringBody {body : List Char} (h : StringBody body) (d : Nat) :
    Walks d ⟨.inString, d⟩ body ⟨.inString, d⟩ := by
  induction h with
  | nil => exact Walks.nil le_rfl
  | plain hquote hslash _ ih =>
    refine Walks.cons le_rfl ?_
    simpa [step, hquote, hslash] using ih
  | escape _ ih => exact Walks.cons le_rfl (Walks.cons le_rfl ih)

theorem walks_nested {text : List Char} (h : Nested text) :
    ∀ d, Walks (d + 1) ⟨.outside, d + 1⟩ text ⟨.outside, d + 1⟩ := by
  induction h with
  | nil => exact fun d => Walks.nil le_rfl
  | plain hquote hopen hclose _ ih =>
    intro d
    refine Walks.cons le_rfl ?_
    simpa [step, hquote, hopen, hclose] using ih d
  | string hbody _ ih =>
    intro d
    refine Walks.cons le_rfl ?_
    refine (walks_stringBody hbody (d + 1)).append ?_
    exact Walks.cons le_rfl (ih d)
  | braces hbody _ ihbody ih =>
    intro d
    refine Walks.cons le_rfl ?_
    refine ((ihbody (d + 1)).mono (Nat.le_succ _)).append ?_
    exact Walks.cons (Nat.le_succ _) (ih d)

end EmbraOS.Verified.Braces
