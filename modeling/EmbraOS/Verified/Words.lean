import Mathlib

/-!
# Words and marks of a sequence

The words of a sequence are its maximal runs of word elements.  `spansFrom` is
the scan of a tokenizer: it walks the sequence once, opens a span at the first
element of a word and closes it at the first element after, and it may take a
separator of several elements whole.  `spans_spans` says that the spans follow
one another with a gap between them and hold word elements only.

A mark stands clear of another sequence when no placement makes them agree on a
common part.  Then a sequence that has the mark, and the other one somewhere in
it, has the mark on one of the two sides (`infix_append_clear`).
-/

namespace EmbraOS.Verified.Words

variable {α : Type}

/-! ## Words -/

section Words

variable (p : α → Bool)

/-- The run that ends here, if there is one. -/
def close (cur : List α) : List (List α) := if cur.isEmpty then [] else [cur]

/-- The words, after the run `cur` has been read. -/
def wordsFrom : List α → List α → List (List α)
  | cur, [] => close cur
  | cur, c :: cs =>
    if p c then wordsFrom (cur ++ [c]) cs else close cur ++ wordsFrom [] cs

def words (xs : List α) : List (List α) := wordsFrom p [] xs

/-! ## Spans -/

/-- The scan, at position `i`.  `skip` elements still belong to a separator,
and `start` is where the word that is being read began; `gap` is the length of
the separator at the head of a sequence. -/
def spansFrom (gap : List α → Nat) : Nat → Option Nat → Nat → List α → List (Nat × Nat)
  | _, none, _, [] => []
  | _, some a, i, [] => [(a, i)]
  | skip + 1, _, i, _ :: cs => spansFrom gap skip none (i + 1) cs
  | 0, none, i, c :: cs =>
    if p c then spansFrom gap 0 (some i) (i + 1) cs
    else spansFrom gap (gap (c :: cs) - 1) none (i + 1) cs
  | 0, some a, i, c :: cs =>
    if p c then spansFrom gap 0 (some a) (i + 1) cs
    else (a, i) :: spansFrom gap (gap (c :: cs) - 1) none (i + 1) cs

/-- What a span holds. -/
def slice (xs : List α) (span : Nat × Nat) : List α := (xs.take span.2).drop span.1

/-- Spans of word elements one after the other, from a position on. -/
inductive Spans (xs : List α) : Nat → List (Nat × Nat) → Prop where
  | nil {lo : Nat} : Spans xs lo []
  | cons {lo a z : Nat} {spans : List (Nat × Nat)} (hlo : lo ≤ a) (haz : a < z)
      (hz : z ≤ xs.length) (hword : ∀ c ∈ slice xs (a, z), p c = true)
      (hrest : Spans xs (z + 1) spans) : Spans xs lo ((a, z) :: spans)

variable {p}

theorem Spans.mono {xs : List α} {lo lo' : Nat} {spans : List (Nat × Nat)}
    (h : Spans p xs lo spans) (hle : lo' ≤ lo) : Spans p xs lo' spans := by
  cases h with
  | nil => exact Spans.nil
  | cons hlo haz hz hword hrest => exact Spans.cons (hle.trans hlo) haz hz hword hrest

theorem Spans.mem {xs : List α} {lo : Nat} {spans : List (Nat × Nat)}
    (h : Spans p xs lo spans) : ∀ span ∈ spans,
      lo ≤ span.1 ∧ span.1 < span.2 ∧ span.2 ≤ xs.length ∧
        ∀ c ∈ slice xs span, p c = true := by
  induction h with
  | nil => simp
  | cons hlo haz hz hword hrest ih =>
    intro span hspan
    rcases List.mem_cons.1 hspan with rfl | hspan
    · exact ⟨hlo, haz, hz, hword⟩
    · obtain ⟨h1, h2⟩ := ih span hspan
      exact ⟨by omega, h2⟩

/-- A span that ends where a part of the sequence ends. -/
private theorem slice_left (pre rest : List α) (a : Nat) :
    slice (pre ++ rest) (a, pre.length) = pre.drop a := by
  rw [slice, List.take_left]

theorem spansFrom_spans (gap : List α → Nat) (rest : List α) : ∀ pre : List α,
    (∀ skip, Spans p (pre ++ rest) pre.length (spansFrom p gap skip none pre.length rest)) ∧
      ∀ a, a < pre.length → (∀ c ∈ pre.drop a, p c = true) →
        Spans p (pre ++ rest) a (spansFrom p gap 0 (some a) pre.length rest) := by
  induction rest with
  | nil =>
    intro pre
    refine ⟨fun skip => ?_, fun a ha hword => ?_⟩
    · rw [spansFrom]
      exact Spans.nil
    · rw [spansFrom]
      apply Spans.cons (le_refl a) ha (by simp) _ Spans.nil
      rwa [slice_left]
  | cons c cs ih =>
    intro pre
    have hsplit : pre ++ c :: cs = (pre ++ [c]) ++ cs := by simp
    have hlen : pre.length + 1 = (pre ++ [c]).length := by simp
    obtain ⟨hnone, hsome⟩ := ih (pre ++ [c])
    rw [← hlen, ← hsplit] at hnone hsome
    refine ⟨fun skip => ?_, fun a ha hword => ?_⟩
    · cases skip with
      | succ skip =>
        rw [spansFrom]
        exact (hnone skip).mono (by omega)
      | zero =>
        rw [spansFrom]
        split
        · rename_i hc
          apply hsome pre.length (by omega)
          simpa using hc
        · exact (hnone _).mono (by omega)
    · rw [spansFrom]
      split
      · rename_i hc
        apply hsome a (by omega)
        rw [List.drop_append_of_le_length (by omega)]
        intro x hx
        rcases List.mem_append.1 hx with hx | hx
        · exact hword x hx
        · rwa [List.mem_singleton.1 hx]
      · apply Spans.cons (le_refl a) ha (by simp) _ (hnone _)
        rwa [slice_left]

/-- The spans of a whole sequence. -/
def spans (p : α → Bool) (gap : List α → Nat) (xs : List α) : List (Nat × Nat) :=
  spansFrom p gap 0 none 0 xs

theorem spans_spans (gap : List α → Nat) (xs : List α) :
    Spans p xs 0 (spans p gap xs) :=
  (spansFrom_spans gap xs []).1 0

end Words

/-! ## Marks -/

/-- The sequences agree as far as both go. -/
def Meets (x y : List α) : Prop := x <+: y ∨ y <+: x

/-- In no placement does the mark agree with a part of the other sequence. -/
def Clear (m other : List α) : Prop :=
  (∀ d < other.length, ¬Meets m (other.drop d)) ∧ ∀ d < m.length, ¬Meets (m.drop d) other

instance [DecidableEq α] (x y : List α) : Decidable (Meets x y) :=
  inferInstanceAs (Decidable (_ ∨ _))

instance [DecidableEq α] (m other : List α) : Decidable (Clear m other) :=
  inferInstanceAs (Decidable (_ ∧ _))

theorem meets_of_append_eq {x y s t : List α} (h : x ++ s = y ++ t) : Meets x y :=
  List.prefix_or_prefix_of_prefix (List.prefix_append x s) (h ▸ List.prefix_append y t)

/-- A mark that stands clear of the middle is on one of the sides. -/
theorem infix_append_clear {m before other after : List α} (hclear : Clear m other)
    (h : m <:+: before ++ (other ++ after)) :
    m <:+: before ∨ m <:+: after := by
  obtain ⟨s, t, hst⟩ := h
  rw [List.append_assoc] at hst
  rcases List.append_eq_append_iff.1 hst with ⟨gap, hbefore, hm'⟩ | ⟨gap, hs, hrest⟩
  · -- The mark begins before the middle.
    rcases List.append_eq_append_iff.1 hm' with ⟨rest, hgap, -⟩ | ⟨rest, hgap, hother⟩
    · exact Or.inl ⟨s, rest, by rw [hbefore, hgap, List.append_assoc]⟩
    by_cases hrest : rest = []
    · rw [hrest, List.append_nil] at hgap
      exact Or.inl ⟨s, [], by rw [hbefore, hgap, List.append_nil]⟩
    · have hlen : gap.length < m.length := by
        rw [hgap, List.length_append]
        have := List.length_pos_iff.2 hrest
        omega
      refine absurd ?_ (hclear.2 gap.length hlen)
      rw [hgap, List.drop_left]
      exact meets_of_append_eq hother.symm
  · rcases List.append_eq_append_iff.1 hrest with ⟨rest, hgap, hafter⟩ | ⟨rest, hother, hm'⟩
    · exact Or.inr ⟨rest, t, by rw [hafter, List.append_assoc]⟩
    by_cases hrest : rest = []
    · rw [hrest, List.nil_append] at hm'
      exact Or.inr ⟨[], t, by rw [← hm', List.nil_append]⟩
    · have hlen : gap.length < other.length := by
        rw [hother, List.length_append]
        have := List.length_pos_iff.2 hrest
        omega
      refine absurd ?_ (hclear.1 gap.length hlen)
      rw [hother, List.drop_left]
      exact meets_of_append_eq hm'

end EmbraOS.Verified.Words
