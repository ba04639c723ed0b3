import EmbraOS.Verified.Text
import EmbraOS.Verified.Words

/-!
# Edit scripts

A text that is rewritten step by step, with the origin of everything in it: a
cell is an element that was kept, one that was cut out, or one that was put in.
`old` reads the text before the edits off a script, `new` the text after them,
and `shown` the text after them with the origins.

`Replaced` is one edit: a stretch of the new text, whatever its origin, is cut
out and another is put in its place.  Edits never lose an element of the old
text (`Replaced.old_eq`) and never bring a pattern back that no stretch of kept
elements spells (`Replaced.absent`).  `exists_replaceAll` says what replacing
every occurrence of a pattern is as a sequence of edits, and
`replaceList_eq_weave` that `str::replace` is such a replacement.
-/

namespace EmbraOS.Verified.EditScript

open Verified.Text
open Relation

variable {α : Type}

inductive Cell (α : Type) where
  | keep (a : α)
  | cut (a : α)
  | put (a : α)
  deriving DecidableEq, Repr

namespace Cell

def old? : Cell α → Option α
  | keep a => some a
  | cut a => some a
  | put _ => none

def new? : Cell α → Option α
  | keep a => some a
  | cut _ => none
  | put a => some a

def isShown : Cell α → Bool
  | cut _ => false
  | _ => true

end Cell

abbrev Script (α : Type) := List (Cell α)

def old (s : Script α) : List α := s.filterMap Cell.old?

def new (s : Script α) : List α := s.filterMap Cell.new?

/-- The new text with the origin of every element. -/
def shown (s : Script α) : Script α := s.filter Cell.isShown

/-- The script of a text that has not been edited. -/
def untouched (xs : List α) : Script α := xs.map .keep

/-! ## Reading a script -/

@[simp] theorem old_append (s t : Script α) : old (s ++ t) = old s ++ old t :=
  List.filterMap_append

@[simp] theorem new_append (s t : Script α) : new (s ++ t) = new s ++ new t :=
  List.filterMap_append

@[simp] theorem shown_append (s t : Script α) : shown (s ++ t) = shown s ++ shown t :=
  List.filter_append s t

section

variable (xs : List α)

@[simp] theorem old_untouched : old (untouched xs) = xs := by
  simp [old, untouched, List.filterMap_map, Function.comp_def, Cell.old?]

@[simp] theorem new_untouched : new (untouched xs) = xs := by
  simp [new, untouched, List.filterMap_map, Function.comp_def, Cell.new?]

@[simp] theorem old_cut : old (xs.map Cell.cut) = xs := by
  simp [old, List.filterMap_map, Function.comp_def, Cell.old?]

@[simp] theorem new_cut : new (xs.map Cell.cut) = [] := by
  simp [new, List.filterMap_map, Function.comp_def, Cell.new?]

@[simp] theorem shown_cut : shown (xs.map Cell.cut) = [] := by
  simp [shown, List.filter_map, Function.comp_def, Cell.isShown]

@[simp] theorem old_put : old (xs.map Cell.put) = [] := by
  simp [old, List.filterMap_map, Function.comp_def, Cell.old?]

@[simp] theorem new_put : new (xs.map Cell.put) = xs := by
  simp [new, List.filterMap_map, Function.comp_def, Cell.new?]

@[simp] theorem shown_put : shown (xs.map Cell.put) = xs.map Cell.put := by
  simp [shown, List.filter_map, Function.comp_def, Cell.isShown]

end

theorem new_shown (s : Script α) : new (shown s) = new s := by
  induction s with
  | nil => rfl
  | cons c s ih =>
    cases c with
    | keep a => exact congrArg (a :: ·) ih
    | cut a => exact ih
    | put a => exact congrArg (a :: ·) ih

/-- A split of the new text is a split of the script. -/
theorem exists_split {s : Script α} {u v : List α} (h : new s = u ++ v) :
    ∃ s₁ s₂, s = s₁ ++ s₂ ∧ new s₁ = u ∧ new s₂ = v :=
  List.filterMap_eq_append_iff.1 h

/-! ## One edit -/

/-- A stretch of the new text is replaced as the rule has it. -/
inductive Replaced (rule : List α → List α → Prop) : Script α → Script α → Prop where
  | span (before mid after : Script α) (rep : List α) (h : rule (new mid) rep) :
      Replaced rule (before ++ (mid ++ after))
        (before ++ ((old mid).map Cell.cut ++ (rep.map Cell.put ++ after)))

variable {rule : List α → List α → Prop} {s s' : Script α}

theorem Replaced.old_eq (h : Replaced rule s s') : old s' = old s := by
  cases h with
  | span before mid after rep h => simp

theorem Replaced.append_left (pre : Script α) (h : Replaced rule s s') :
    Replaced rule (pre ++ s) (pre ++ s') := by
  cases h with
  | span before mid after rep h =>
    rw [← List.append_assoc, ← List.append_assoc pre]
    exact .span (pre ++ before) mid after rep h

/-- No stretch of kept elements of the new text spells the pattern. -/
def Absent (pat : List α) (s : Script α) : Prop := ¬ pat.map Cell.keep <:+: shown s

theorem absent_of_new {pat : List α} (h : ¬ pat <:+: new s) : Absent pat s := by
  intro hin
  apply h
  have hnew := hin.filterMap Cell.new?
  have hpat : new (pat.map Cell.keep) = pat := new_untouched pat
  rw [← hpat, ← new_shown s]
  exact hnew

/-- What is put in stands clear of every stretch of kept elements. -/
theorem clear_put {pat rep : List α} (hpat : pat ≠ []) (hrep : rep ≠ []) :
    Words.Clear (pat.map Cell.keep) (rep.map Cell.put) := by
  have hhead : ∀ (p r : List α), p ≠ [] → r ≠ [] →
      ¬ Words.Meets (p.map Cell.keep) (r.map Cell.put) := by
    intro p r hp hr
    cases p with
    | nil => exact absurd rfl hp
    | cons a p =>
      cases r with
      | nil => exact absurd rfl hr
      | cons b r => simp [Words.Meets, List.cons_prefix_cons]
  constructor
  · intro d hd
    rw [← List.map_drop]
    apply hhead pat _ hpat
    rw [List.length_map] at hd
    rw [ne_eq, List.drop_eq_nil_iff]
    omega
  · intro d hd
    rw [← List.map_drop]
    apply hhead _ rep _ hrep
    rw [List.length_map] at hd
    rw [ne_eq, List.drop_eq_nil_iff]
    omega

theorem absent_around_put {pat rep : List α} (hpat : pat ≠ []) (hrep : rep ≠ [])
    {before mid after : Script α} (hbefore : Absent pat before) (hafter : Absent pat after) :
    Absent pat (before ++ ((old mid).map Cell.cut ++ (rep.map Cell.put ++ after))) := by
  intro hin
  simp only [shown_append, shown_cut, shown_put, List.nil_append] at hin
  rcases Words.infix_append_clear (clear_put hpat hrep) hin with h | h
  · exact hbefore h
  · exact hafter h

theorem Replaced.absent (hrule : ∀ p r, rule p r → r ≠ []) {pat : List α} (hpat : pat ≠ [])
    (h : Replaced rule s s') (habsent : Absent pat s) : Absent pat s' := by
  cases h with
  | span before mid after rep h =>
    apply absent_around_put hpat (hrule _ _ h)
    · intro hin
      apply habsent
      rw [shown_append]
      exact hin.trans (List.infix_append' [] _ _)
    · intro hin
      apply habsent
      simp only [shown_append, ← List.append_assoc]
      exact hin.trans (List.suffix_append _ _).isInfix

/-! ## Sequences of edits -/

abbrev Edited (rule : List α → List α → Prop) : Script α → Script α → Prop :=
  ReflTransGen (Replaced rule)

theorem Edited.old_eq (h : Edited rule s s') : old s' = old s := by
  induction h with
  | refl => rfl
  | tail _ hstep ih => rw [hstep.old_eq, ih]

theorem Edited.append_left (pre : Script α) (h : Edited rule s s') :
    Edited rule (pre ++ s) (pre ++ s') := by
  induction h with
  | refl => exact .refl
  | tail _ hstep ih => exact ih.tail (hstep.append_left pre)

theorem Edited.absent (hrule : ∀ p r, rule p r → r ≠ []) {pat : List α} (hpat : pat ≠ [])
    (h : Edited rule s s') (habsent : Absent pat s) : Absent pat s' := by
  induction h with
  | refl => exact habsent
  | tail _ hstep ih => exact hstep.absent hrule hpat ih

/-! ## Replacing every occurrence -/

/-- Pieces with a separator between them. -/
def weave (sep : List α) : List α → List (List α) → List α
  | p, [] => p
  | p, q :: qs => p ++ (sep ++ weave sep q qs)

/-- To replace the pattern between pieces that do not have it is a sequence of
edits, and leaves no stretch of kept elements that spells it. -/
theorem exists_replaceAll {pat rep : List α} (hrule : rule pat rep) (hpat : pat ≠ [])
    (hrep : rep ≠ []) :
    ∀ (ps : List (List α)) (p : List α) (s : Script α), new s = weave pat p ps →
      (∀ q ∈ p :: ps, ¬ pat <:+: q) →
      ∃ s', Edited rule s s' ∧ new s' = weave rep p ps ∧ Absent pat s' := by
  intro ps
  induction ps with
  | nil =>
    intro p s hnew hfree
    refine ⟨s, .refl, hnew, absent_of_new ?_⟩
    rw [hnew]
    exact hfree p List.mem_cons_self
  | cons q qs ih =>
    intro p s hnew hfree
    obtain ⟨before, rest, rfl, hbefore, hrest⟩ := exists_split hnew
    obtain ⟨mid, after, rfl, hmid, hafter⟩ := exists_split hrest
    obtain ⟨after', hedit, hnew', habsent⟩ :=
      ih q after hafter (fun r hr => hfree r (List.mem_cons_of_mem p hr))
    -- The first occurrence is replaced, then those after it.
    have hfirst : Replaced rule (before ++ (mid ++ after))
        (before ++ ((old mid).map Cell.cut ++ (rep.map Cell.put ++ after))) :=
      .span before mid after rep (hmid.symm ▸ hrule)
    have hlater := ((hedit.append_left (rep.map Cell.put)).append_left
      ((old mid).map Cell.cut)).append_left before
    refine ⟨_, ReflTransGen.head hfirst hlater, ?_, ?_⟩
    · simp only [new_append, new_cut, new_put, hbefore, hnew', List.nil_append, weave]
    · apply absent_around_put hpat hrep _ habsent
      apply absent_of_new
      rw [hbefore]
      exact hfree p List.mem_cons_self

/-! ## `str::contains` and `str::replace` -/

theorem containsList_iff {pat cs : List Char} : containsList pat cs = true ↔ pat <:+: cs := by
  induction cs with
  | nil => simp [containsList]
  | cons c cs ih =>
    rw [containsList, Bool.or_eq_true, ih, List.isPrefixOf_iff_prefix, List.infix_cons_iff]

theorem replaceList_skip (pat rep : List Char) :
    ∀ (skip : Nat) (cs : List Char),
      replaceList pat rep skip cs = replaceList pat rep 0 (cs.drop skip) := by
  intro skip
  induction skip with
  | zero => intro cs; rfl
  | succ skip ih =>
    intro cs
    cases cs with
    | nil => rfl
    | cons c cs => exact ih cs

/-- `str::replace` puts the replacement between the pieces that the pattern
stood between, and no piece has the pattern. -/
theorem replaceList_eq_weave {pat : List Char} (rep : List Char) (hpat : pat ≠ []) :
    ∀ (n : Nat) (cs : List Char), cs.length ≤ n →
      ∃ p ps, cs = weave pat p ps ∧ replaceList pat rep 0 cs = weave rep p ps ∧
        ∀ q ∈ p :: ps, ¬ pat <:+: q := by
  have hnil : ¬ pat <:+: [] := by rwa [List.infix_nil]
  intro n
  induction n with
  | zero =>
    intro cs hlen
    have hcs : cs = [] := List.length_eq_zero_iff.1 (Nat.le_zero.1 hlen)
    exact ⟨[], [], hcs, by rw [hcs]; rfl, by simpa using hnil⟩
  | succ n ih =>
    intro cs hlen
    cases cs with
    | nil => exact ⟨[], [], rfl, rfl, by simpa using hnil⟩
    | cons c cs =>
      rw [List.length_cons] at hlen
      by_cases hpre : pat <+: c :: cs
      · -- A match: the piece before it is empty.
        obtain ⟨rest, hrest⟩ := hpre
        have hdrop : cs.drop (pat.length - 1) = rest := by
          cases pat with
          | nil => exact absurd rfl hpat
          | cons a pat =>
            rw [List.cons_append, List.cons.injEq] at hrest
            rw [← hrest.2]
            simp
        have hshort : rest.length ≤ n := by
          rw [← hdrop, List.length_drop]
          omega
        obtain ⟨p, ps, hcs, hrep, hfree⟩ := ih rest hshort
        refine ⟨[], p :: ps, ?_, ?_, ?_⟩
        · rw [← hrest, hcs]
          rfl
        · have hif : pat.isPrefixOf (c :: cs) = true := by
            rw [List.isPrefixOf_iff_prefix]
            exact ⟨rest, hrest⟩
          rw [replaceList, if_pos hif, replaceList_skip, hdrop, hrep]
          rfl
        · exact List.forall_mem_cons.2 ⟨hnil, hfree⟩
      · -- No match here: the character joins the next piece.
        obtain ⟨p, ps, hcs, hrep, hfree⟩ := ih cs (by omega)
        have hcons : ∀ (sep : List Char), c :: weave sep p ps = weave sep (c :: p) ps := by
          intro sep
          cases ps <;> rfl
        refine ⟨c :: p, ps, ?_, ?_, ?_⟩
        · rw [← hcons, ← hcs]
        · have hif : ¬ pat.isPrefixOf (c :: cs) = true := by
            rwa [List.isPrefixOf_iff_prefix]
          rw [replaceList, if_neg hif, hrep, hcons]
        · rw [List.forall_mem_cons] at hfree ⊢
          refine ⟨?_, hfree.2⟩
          rw [List.infix_cons_iff, not_or]
          refine ⟨fun hp => hpre (hp.trans ?_), hfree.1⟩
          rw [hcs, hcons]
          cases ps with
          | nil => exact List.prefix_rfl
          | cons q qs => exact List.prefix_append _ _

end EmbraOS.Verified.EditScript
