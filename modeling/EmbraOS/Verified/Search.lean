import Mathlib

/-!
# Searching a text for a pattern

`before?` is the text in front of the first occurrence of a pattern, `afterEach` the
rests behind its occurrences, each search starting where the last match ended.  A
pattern that does not overlap with itself (`Borderless`) is found at every place where
it occurs, whatever stands in front (`afterEach_append`).

`splitOnce` and `rsplitOnce` cut a text at the first and at the last place where one
character stands.
-/

namespace EmbraOS.Verified.Search

variable {α : Type} [DecidableEq α]

/-- The text before the first occurrence. -/
def before? (pat : List α) : List α → Option (List α)
  | [] => if pat = [] then some [] else none
  | c :: cs => if pat.isPrefixOf (c :: cs) then some [] else (before? pat cs).map (c :: ·)

/-- The rest of the text after each occurrence; `skip` characters belong to a match that
has been found already. -/
def afterEach (pat : List α) : Nat → List α → List (List α)
  | _, [] => []
  | skip + 1, _ :: cs => afterEach pat skip cs
  | 0, c :: cs =>
    if pat.isPrefixOf (c :: cs) then
      (c :: cs).drop pat.length :: afterEach pat (pat.length - 1) cs
    else afterEach pat 0 cs

/-! ## The first occurrence -/

variable {pat rest x y : List α} {a : α}

variable {text front : List α}

theorem before?_eq_none (h : ¬ pat <:+: text) : before? pat text = none := by
  induction text with
  | nil =>
    rw [before?, if_neg]
    rintro rfl
    exact h (List.nil_infix)
  | cons c cs ih =>
    rw [before?, if_neg, ih, Option.map_none]
    · exact fun hin => h (List.infix_cons hin)
    · exact fun hpre => h (List.isPrefixOf_iff_prefix.1 hpre).isInfix

/-- No occurrence starts before the end of `front`. -/
def FirstAfter (pat front text : List α) : Prop :=
  ∀ z r, text = z ++ pat ++ r → front.length ≤ z.length

theorem before?_append (hfirst : FirstAfter pat front (front ++ pat ++ rest)) :
    before? pat (front ++ pat ++ rest) = some front := by
  induction front with
  | nil =>
    rw [List.nil_append]
    cases h : pat ++ rest with
    | nil => rw [before?, if_pos (List.append_eq_nil_iff.1 h).1]
    | cons c cs =>
      rw [before?, if_pos]
      rw [← h, List.isPrefixOf_iff_prefix]
      exact List.prefix_append pat rest
  | cons c front ih =>
    rw [List.cons_append, List.cons_append, before?, if_neg, ih, Option.map_some]
    · intro z r heq
      have hlen := hfirst (c :: z) r (by simpa using heq)
      simpa using hlen
    · intro hpre
      obtain ⟨r, hr⟩ := List.isPrefixOf_iff_prefix.1 hpre
      have hlen := hfirst [] r (by simpa using hr.symm)
      simp at hlen

theorem before?_spec (h : before? pat text = some front) :
    (∃ r, text = front ++ pat ++ r) ∧ FirstAfter pat front text := by
  induction text generalizing front with
  | nil =>
    rw [before?] at h
    split at h
    · rename_i hpat
      obtain rfl := Option.some.inj h
      exact ⟨⟨[], by simp [hpat]⟩, fun z r _ => Nat.zero_le _⟩
    · cases h
  | cons c cs ih =>
    rw [before?] at h
    split at h
    · rename_i hpre
      obtain rfl := Option.some.inj h
      obtain ⟨r, hr⟩ := List.isPrefixOf_iff_prefix.1 hpre
      exact ⟨⟨r, by simpa using hr.symm⟩, fun z r _ => Nat.zero_le _⟩
    · rename_i hpre
      obtain ⟨front', hfront', rfl⟩ := Option.map_eq_some_iff.1 h
      obtain ⟨⟨r, hr⟩, hfirst⟩ := ih hfront'
      refine ⟨⟨r, by simp [hr]⟩, ?_⟩
      intro z r' heq
      cases z with
      | nil =>
        refine absurd (List.isPrefixOf_iff_prefix.2 ⟨r', ?_⟩) hpre
        simpa using heq.symm
      | cons z₀ z =>
        have hcs : cs = z ++ pat ++ r' := by
          simpa using (List.cons.inj (by simpa using heq)).2
        simpa using hfirst z r' hcs

theorem before?_isSome_iff :
    (before? pat text).isSome = true ↔ pat <:+: text := by
  constructor
  · intro h
    obtain ⟨front, hfront⟩ := Option.isSome_iff_exists.1 h
    obtain ⟨⟨rest, hrest⟩, -⟩ := before?_spec hfront
    exact ⟨front, rest, hrest.symm⟩
  · intro h
    induction text with
    | nil => rw [List.infix_nil.1 h, before?, if_pos rfl, Option.isSome_some]
    | cons c cs ih =>
      rw [before?]
      split
      · rfl
      rename_i hpre
      rw [Option.isSome_map]
      cases List.infix_cons_iff.1 h with
      | inl hprefix => exact absurd (List.isPrefixOf_iff_prefix.2 hprefix) hpre
      | inr hinfix => exact ih hinfix

omit [DecidableEq α] in
/-- A pattern that occurs between the ends of the middle of a text occurs in the middle. -/
theorem infix_middle {m u v : List α} (heq : x ++ m ++ y = u ++ pat ++ v)
    (hlow : x.length ≤ u.length) (hhigh : (u ++ pat).length ≤ (x ++ m).length) : pat <:+: m := by
  have hmiddle : x ++ m <+: x ++ m ++ y := List.prefix_append _ _
  have hpat : u ++ pat <+: x ++ m ++ y := ⟨v, heq.symm⟩
  have hx : x <+: x ++ m ++ y := (List.prefix_append x m).trans hmiddle
  have hu : u <+: x ++ m ++ y := (List.prefix_append u pat).trans hpat
  obtain ⟨u', rfl⟩ := List.prefix_of_prefix_length_le hx hu hlow
  obtain ⟨v', hv'⟩ := List.prefix_of_prefix_length_le hpat hmiddle hhigh
  refine ⟨u', v', ?_⟩
  rw [List.append_assoc, List.append_assoc] at hv'
  rw [List.append_assoc]
  exact List.append_cancel_left hv'

/-! ## One separator -/

/-- The text before and after the first `a`. -/
def splitOnce (a : α) : List α → Option (List α × List α)
  | [] => none
  | c :: cs => if c = a then some ([], cs) else (splitOnce a cs).map fun p => (c :: p.1, p.2)

/-- The text before and after the last `a`. -/
def rsplitOnce (a : α) : List α → Option (List α × List α)
  | [] => none
  | c :: cs =>
    match rsplitOnce a cs with
    | some (front, rest) => some (c :: front, rest)
    | none => if c = a then some ([], cs) else none

theorem splitOnce_append (h : a ∉ front) (rest : List α) :
    splitOnce a (front ++ a :: rest) = some (front, rest) := by
  induction front with
  | nil => rw [List.nil_append, splitOnce, if_pos rfl]
  | cons c front ih =>
    have hc : c ≠ a := fun hca => h (hca ▸ List.mem_cons_self)
    have hfront : a ∉ front := fun hmem => h (List.mem_cons_of_mem c hmem)
    rw [List.cons_append, splitOnce, if_neg hc, ih hfront, Option.map_some]

theorem splitOnce_eq_none (h : a ∉ text) : splitOnce a text = none := by
  induction text with
  | nil => rfl
  | cons c cs ih =>
    have hc : c ≠ a := fun hca => h (hca ▸ List.mem_cons_self)
    rw [splitOnce, if_neg hc, ih (fun hmem => h (List.mem_cons_of_mem c hmem)), Option.map_none]

theorem splitOnce_spec
    (h : splitOnce a text = some (front, rest)) : text = front ++ a :: rest ∧ a ∉ front := by
  have hmem : a ∈ text := by
    by_contra hnot
    rw [splitOnce_eq_none hnot] at h
    cases h
  obtain ⟨z, r, rfl, hz⟩ := List.eq_append_cons_of_mem hmem
  rw [splitOnce_append hz] at h
  cases h
  exact ⟨rfl, hz⟩

theorem rsplitOnce_eq_none (h : a ∉ text) :
    rsplitOnce a text = none := by
  induction text with
  | nil => rfl
  | cons c cs ih =>
    have hc : c ≠ a := fun hca => h (hca ▸ List.mem_cons_self)
    rw [rsplitOnce, ih (fun hmem => h (List.mem_cons_of_mem c hmem))]
    exact if_neg hc

theorem rsplitOnce_append (front : List α) (h : a ∉ rest) :
    rsplitOnce a (front ++ a :: rest) = some (front, rest) := by
  induction front with
  | nil =>
    rw [List.nil_append, rsplitOnce, rsplitOnce_eq_none h]
    exact if_pos rfl
  | cons c front ih => rw [List.cons_append, rsplitOnce, ih]

/-- A text is cut at its first `a` in one way. -/
theorem append_cons_inj {x' y' : List α} (hx : a ∉ x) (hx' : a ∉ x')
    (h : x ++ a :: y = x' ++ a :: y') : x = x' ∧ y = y' := by
  have hcut := splitOnce_append hx y
  rw [h, splitOnce_append hx' y'] at hcut
  cases hcut
  exact ⟨rfl, rfl⟩

omit [DecidableEq α] in
/-- A pattern is not met inside a text without its first character. -/
theorem firstAfter_of_not_mem (h : a ∉ front) :
    FirstAfter (a :: pat) front (front ++ rest) := by
  intro z r heq
  by_contra hlen
  have hz : z ++ [a] <+: front ++ rest := ⟨pat ++ r, by rw [heq]; simp⟩
  have hpre : z ++ [a] <+: front := by
    apply List.prefix_of_prefix_length_le hz (List.prefix_append front rest)
    rw [List.length_append, List.length_singleton]
    omega
  exact h (hpre.subset (by simp))

/-! ## Every occurrence -/

theorem afterEach_eq_nil (h : ¬ pat <:+: text) (skip : Nat) :
    afterEach pat skip text = [] := by
  induction text generalizing skip with
  | nil => cases skip <;> rfl
  | cons c cs ih =>
    have hcs : ¬ pat <:+: cs := fun hin => h (List.infix_cons hin)
    cases skip with
    | succ skip => exact ih hcs skip
    | zero =>
      rw [afterEach, if_neg (fun hpre => h (List.isPrefixOf_iff_prefix.1 hpre).isInfix)]
      exact ih hcs 0

theorem mem_afterEach {skip : Nat} (h : rest ∈ afterEach pat skip text) :
    ∃ z, text = z ++ pat ++ rest := by
  induction text generalizing skip with
  | nil => cases skip <;> cases h
  | cons c cs ih =>
    cases skip with
    | succ skip =>
      obtain ⟨z, hz⟩ := ih h
      exact ⟨c :: z, by simp [hz]⟩
    | zero =>
      rw [afterEach] at h
      split at h
      · rename_i hpre
        rcases List.mem_cons.1 h with rfl | h
        · refine ⟨[], ?_⟩
          rw [List.nil_append]
          exact (List.prefix_iff_eq_append.1 (List.isPrefixOf_iff_prefix.1 hpre)).symm
        · obtain ⟨z, hz⟩ := ih h
          exact ⟨c :: z, by simp [hz]⟩
      · obtain ⟨z, hz⟩ := ih h
        exact ⟨c :: z, by simp [hz]⟩

/-- No proper end of the pattern is also its start. -/
def Borderless (pat : List α) : Prop :=
  pat ≠ [] ∧ ∀ k < pat.length, 0 < k → (pat.drop k).isPrefixOf pat = false

theorem afterEach_skip (pat l text : List α) :
    afterEach pat l.length (l ++ text) = afterEach pat 0 text := by
  induction l with
  | nil => rfl
  | cons c l ih => exact ih

/-- Two occurrences of a borderless pattern do not overlap. -/
theorem Borderless.length_le (h : Borderless pat) (hfront : front ≠ [])
    (hpre : pat <+: front ++ pat ++ rest) : pat.length ≤ front.length := by
  by_contra hlt
  have hlt : front.length < pat.length := Nat.lt_of_not_le hlt
  have hfalse := h.2 front.length hlt (List.length_pos_iff.2 hfront)
  rw [← Bool.not_eq_true, List.isPrefixOf_iff_prefix] at hfalse
  apply hfalse
  -- the pattern at the start, past `front`, lies over the second occurrence
  obtain ⟨r, hr⟩ := hpre
  have hdrop : pat.drop front.length ++ r = pat ++ rest := by
    have heq := congrArg (List.drop front.length) hr
    rw [List.append_assoc, List.drop_left, List.drop_append_of_le_length (le_of_lt hlt)] at heq
    exact heq
  apply List.prefix_of_prefix_length_le ⟨r, hdrop⟩ (List.prefix_append pat rest)
  rw [List.length_drop]
  exact Nat.sub_le _ _

theorem afterEach_append_skip (h : Borderless pat) (rest : List α) (front : List α) :
    ∀ skip ≤ front.length, ∃ found,
      afterEach pat skip (front ++ pat ++ rest) = found ++ rest :: afterEach pat 0 rest := by
  induction front with
  | nil =>
    intro skip hskip
    obtain rfl := Nat.le_zero.1 hskip
    obtain ⟨c, cs, hpat⟩ := List.exists_cons_of_ne_nil h.1
    refine ⟨[], ?_⟩
    have hpre : pat.isPrefixOf (c :: (cs ++ rest)) = true := by
      rw [List.isPrefixOf_iff_prefix, hpat]
      exact ⟨rest, rfl⟩
    have htext : [] ++ pat ++ rest = c :: (cs ++ rest) := by rw [hpat]; rfl
    have hdrop : (c :: (cs ++ rest)).drop pat.length = rest := by
      rw [hpat]
      show (c :: cs ++ rest).drop (c :: cs).length = rest
      exact List.drop_left
    have hlen : pat.length - 1 = cs.length := by rw [hpat]; rfl
    rw [htext, afterEach, if_pos hpre, hdrop, hlen, afterEach_skip]
    rfl
  | cons c front ih =>
    intro skip hskip
    cases skip with
    | succ skip => exact ih skip (Nat.le_of_succ_le_succ hskip)
    | zero =>
      rw [List.cons_append, List.cons_append, afterEach]
      split
      · rename_i hpre
        have hpre' : pat <+: c :: front ++ pat ++ rest := List.isPrefixOf_iff_prefix.1 hpre
        have hlen := h.length_le (by simp) hpre'
        obtain ⟨found, hfound⟩ := ih (pat.length - 1) (by
          rw [List.length_cons] at hlen
          exact Nat.sub_le_of_le_add hlen)
        rw [hfound]
        exact ⟨_ :: found, rfl⟩
      · exact ih 0 (Nat.zero_le _)

/-- An occurrence is found, whatever stands in front of it. -/
theorem afterEach_append (h : Borderless pat) (front rest : List α) :
    ∃ found, afterEach pat 0 (front ++ pat ++ rest) = found ++ rest :: afterEach pat 0 rest :=
  afterEach_append_skip h rest front 0 (Nat.zero_le _)

end EmbraOS.Verified.Search
