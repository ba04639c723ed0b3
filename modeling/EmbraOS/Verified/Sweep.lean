import EmbraOS.Verified.Words

/-!
# Replacing marks in one sweep or in several

`sweep` goes through a sequence once and puts `r` in place of each mark it meets, the elements
being compared after `f`.  Replacing one mark after the other is a sweep for each of them, over what
the sweeps before have left.

`sweep_eq_foldl`: when the marks stand clear of each other and of what replaces them, one sweep for
all of them leaves the same.
-/

namespace EmbraOS.Verified.Sweep

open Verified.Words

variable {α : Type} [DecidableEq α] (f : α → α) (r : List α)

/-- The mark that a sequence begins with. -/
def markAt? (marks : List (List α)) (xs : List α) : Option (List α) :=
  marks.find? (fun m => m.isPrefixOf (xs.map f))

/-- The sweep; `skip` elements belong to a mark that has been replaced. -/
def sweepFrom (marks : List (List α)) : Nat → List α → List α
  | _, [] => []
  | skip + 1, _ :: xs => sweepFrom marks skip xs
  | 0, x :: xs =>
    match markAt? f marks (x :: xs) with
    | some m => r ++ sweepFrom marks (m.length - 1) xs
    | none => x :: sweepFrom marks 0 xs

def sweep (marks : List (List α)) (xs : List α) : List α := sweepFrom f r marks 0 xs

variable {f r}

@[simp] theorem sweep_nil (marks : List (List α)) : sweep f r marks [] = [] := rfl

theorem sweepFrom_eq (marks : List (List α)) (skip : Nat) (xs : List α) :
    sweepFrom f r marks skip xs = sweep f r marks (xs.drop skip) := by
  induction xs generalizing skip with
  | nil => cases skip <;> rfl
  | cons x xs ih =>
    cases skip with
    | zero => rfl
    | succ skip => rw [sweepFrom, ih, List.drop_succ_cons]

variable {marks : List (List α)} {xs m w : List α}

theorem sweep_cons {x : α} (h : markAt? f marks (x :: xs) = none) :
    sweep f r marks (x :: xs) = x :: sweep f r marks xs := by
  rw [sweep, sweepFrom, h]
  rfl

theorem sweep_mark (hne : m ≠ []) (h : markAt? f marks xs = some m) :
    sweep f r marks xs = r ++ sweep f r marks (xs.drop m.length) := by
  have hpos := List.length_pos_iff.2 hne
  cases xs with
  | nil =>
    have hyes : m.isPrefixOf ([] : List α) = true := by simpa using List.find?_some h
    exact absurd (List.prefix_nil.1 (List.isPrefixOf_iff_prefix.1 hyes)) hne
  | cons x xs =>
    obtain ⟨n, hn⟩ : ∃ n, m.length = n + 1 := ⟨m.length - 1, by omega⟩
    rw [sweep, sweepFrom, h]
    dsimp only
    rw [sweepFrom_eq, hn, Nat.add_sub_cancel, List.drop_succ_cons]

theorem markAt?_eq_none :
    markAt? f marks xs = none ↔ ∀ m ∈ marks, ¬ m <+: xs.map f := by
  simp [markAt?, List.find?_eq_none]

theorem markAt?_singleton (h : m <+: xs.map f) : markAt? f [m] xs = some m := by
  rw [markAt?, List.find?_cons, List.isPrefixOf_iff_prefix.2 h]

@[simp] theorem sweep_nil_marks (xs : List α) : sweep f r [] xs = xs := by
  induction xs with
  | nil => rfl
  | cons x xs ih => rw [sweep_cons rfl, ih]

/-- A part in which no mark begins is left as it is. -/
theorem sweep_append (rest : List α)
    (h : ∀ m ∈ marks, ∀ d < w.length, ¬Meets m ((w.map f).drop d)) :
    sweep f r marks (w ++ rest) = w ++ sweep f r marks rest := by
  induction w with
  | nil => rfl
  | cons x w ih =>
    rw [List.cons_append, sweep_cons, ih, List.cons_append]
    · exact fun m hm d hd => h m hm (d + 1) (Nat.succ_lt_succ hd)
    · rw [markAt?_eq_none]
      rintro m hm ⟨t, ht⟩
      apply h m hm 0 (Nat.succ_pos _)
      rw [← List.cons_append, List.map_append] at ht
      exact meets_of_append_eq ht

/-- A sequence found after a sweep, clear of what was put in, was there before. -/
theorem prefix_of_sweep {q : List α} (hne : m ≠ [])
    (hclear : ∀ d < q.length, ¬Meets (q.drop d) (r.map f))
    (h : q <+: (sweep f r [m] xs).map f) : q <+: xs.map f := by
  induction xs generalizing q with
  | nil => exact h
  | cons x xs ih =>
    cases hq : q with
    | nil => exact List.nil_prefix
    | cons y q' =>
      have hpos : 0 < q.length := by rw [hq]; exact Nat.succ_pos _
      by_cases hm : m <+: (x :: xs).map f
      · rw [sweep_mark hne (markAt?_singleton hm), List.map_append] at h
        obtain ⟨t, ht⟩ := h
        exact absurd (meets_of_append_eq ht) (hclear 0 hpos)
      · rw [sweep_cons (markAt?_eq_none.2 (by simpa using hm)), hq, List.map_cons,
          List.cons_prefix_cons] at h
        rw [List.map_cons, List.cons_prefix_cons]
        refine ⟨h.1, ih (fun d hd => ?_) h.2⟩
        have := hclear (d + 1) (by rw [hq]; exact Nat.succ_lt_succ hd)
        rwa [hq, List.drop_succ_cons] at this

/-- Marks that keep apart from each other and from what replaces them. -/
structure Apart (f : α → α) (r : List α) (marks : List (List α)) : Prop where
  ne : ∀ m ∈ marks, m ≠ []
  replaced : ∀ m ∈ marks, Clear m (r.map f)
  others : ∀ m ∈ marks, ∀ m' ∈ marks, m ≠ m' → Clear m m'

omit [DecidableEq α] in
theorem Apart.tail (h : Apart f r (m :: marks)) :
    Apart f r marks where
  ne := fun m' hm' => h.ne m' (List.mem_cons_of_mem _ hm')
  replaced := fun m' hm' => h.replaced m' (List.mem_cons_of_mem _ hm')
  others := fun m' hm' m'' hm'' =>
    h.others m' (List.mem_cons_of_mem _ hm') m'' (List.mem_cons_of_mem _ hm'')

/-- Where a mark stands it is found, whatever follows. -/
theorem Apart.markAt?_append (h : Apart f r marks)
    (hm : m ∈ marks) (hw : w.map f = m) (rest : List α) :
    markAt? f marks (w ++ rest) = some m := by
  have hyes : m <+: (w ++ rest).map f := by
    rw [List.map_append, hw]
    exact List.prefix_append m _
  cases hfind : markAt? f marks (w ++ rest) with
  | none => exact absurd hyes (markAt?_eq_none.1 hfind m hm)
  | some m' =>
    have hm' : m' ∈ marks := List.mem_of_find?_eq_some hfind
    have hyes' : m'.isPrefixOf ((w ++ rest).map f) = true := by simpa using List.find?_some hfind
    by_contra hne
    have hne' : m' ≠ m := fun heq => hne (by rw [heq])
    apply (h.others m' hm' m hm hne').1 0 (List.length_pos_iff.2 (h.ne m hm))
    exact List.prefix_or_prefix_of_prefix (List.isPrefixOf_iff_prefix.1 hyes') hyes

/-- One sweep for a mark and the others is a sweep for the mark and one for the others. -/
theorem Apart.sweep_cons_marks (h : Apart f r (m :: marks))
    (n : Nat) : ∀ xs : List α, xs.length ≤ n →
      sweep f r (m :: marks) xs = sweep f r marks (sweep f r [m] xs) := by
  have hne := h.ne m List.mem_cons_self
  have hkeep : ∀ m' ∈ marks, ∀ d < r.length, ¬Meets m' ((r.map f).drop d) := by
    intro m' hm' d hd
    exact (h.replaced m' (List.mem_cons_of_mem _ hm')).1 d (by simpa using hd)
  induction n with
  | zero =>
    intro xs hlen
    rw [List.length_eq_zero_iff.1 (Nat.le_zero.1 hlen)]
    rfl
  | succ n ih =>
    intro xs hlen
    cases xs with
    | nil => rfl
    | cons x xs =>
      by_cases hm : m <+: (x :: xs).map f
      · -- The mark itself is replaced by both.
        have hfound : markAt? f (m :: marks) (x :: xs) = some m := by
          rw [markAt?, List.find?_cons, List.isPrefixOf_iff_prefix.2 hm]
        have hshort : ((x :: xs).drop m.length).length ≤ n := by
          have := List.length_pos_iff.2 hne
          rw [List.length_drop]
          omega
        rw [sweep_mark hne hfound, sweep_mark hne (markAt?_singleton hm),
          sweep_append _ hkeep, ih _ hshort]
      · have hrest : markAt? f (m :: marks) (x :: xs) = markAt? f marks (x :: xs) := by
          rw [markAt?, List.find?_cons, Bool.eq_false_iff.2
            (fun hyes => hm (List.isPrefixOf_iff_prefix.1 hyes))]
          rfl
        have hsingle : markAt? f [m] (x :: xs) = none :=
          markAt?_eq_none.2 (by simpa using hm)
        cases hfind : markAt? f marks (x :: xs) with
        | none =>
          rw [sweep_cons (hrest.trans hfind), ih xs (by simpa using hlen)]
          have hafter : markAt? f marks (sweep f r [m] (x :: xs)) = none := by
            rw [markAt?_eq_none]
            intro m' hm' hpre
            exact markAt?_eq_none.1 hfind m' hm' (prefix_of_sweep hne
              (h.replaced m' (List.mem_cons_of_mem _ hm')).2 hpre)
          rw [sweep_cons hsingle] at hafter ⊢
          rw [sweep_cons hafter]
        | some m' =>
          -- Another mark: the sweep for `m` leaves it alone.
          have hm' : m' ∈ marks := List.mem_of_find?_eq_some hfind
          have hne' := h.ne m' (List.mem_cons_of_mem _ hm')
          have hyes : m'.isPrefixOf ((x :: xs).map f) = true := by
            simpa using List.find?_some hfind
          have hpre := List.isPrefixOf_iff_prefix.1 hyes
          have hw : ((x :: xs).take m'.length).map f = m' := by
            rw [List.map_take]
            exact (List.prefix_iff_eq_take.1 hpre).symm
          have hother : m ≠ m' := fun heq => hm (heq ▸ hpre)
          have hclear := (h.others m List.mem_cons_self m'
            (List.mem_cons_of_mem _ hm') hother).1
          have hshort : ((x :: xs).drop m'.length).length ≤ n := by
            have := List.length_pos_iff.2 hne'
            rw [List.length_drop]
            omega
          have hlenw : ((x :: xs).take m'.length).length = m'.length := by
            rw [← List.length_map f, hw]
          have hleft : sweep f r [m] (x :: xs) = (x :: xs).take m'.length ++
              sweep f r [m] ((x :: xs).drop m'.length) := by
            rw [← sweep_append, List.take_append_drop]
            intro m'' hm'' d hd
            rw [List.mem_singleton.1 hm'', hw]
            exact hclear d (by omega)
          rw [sweep_mark hne' (hrest.trans hfind), ih _ hshort, hleft,
            sweep_mark hne' (h.tail.markAt?_append hm' hw _),
            List.drop_left' hlenw]

/-- One sweep for all marks is a sweep for each of them in turn. -/
theorem sweep_eq_foldl (h : Apart f r marks) (xs : List α) :
    sweep f r marks xs = marks.foldl (fun ys m => sweep f r [m] ys) xs := by
  induction marks generalizing xs with
  | nil => simp
  | cons m marks ih =>
    rw [h.sweep_cons_marks xs.length xs (le_refl _), List.foldl_cons, ih h.tail]

/-- Marks that are nowhere in a sequence make no difference. -/
theorem sweepFrom_filter {p : List α → Bool} (skip : Nat)
    (h : ∀ m ∈ marks, m <:+: xs.map f → p m = true) :
    sweepFrom f r (marks.filter p) skip xs = sweepFrom f r marks skip xs := by
  induction xs generalizing skip with
  | nil => cases skip <;> rfl
  | cons x xs ih =>
    have htail := fun skip => ih skip fun m hm hin => h m hm (List.infix_cons hin)
    cases skip with
    | succ skip => exact htail skip
    | zero =>
      have hmark : markAt? f (marks.filter p) (x :: xs) = markAt? f marks (x :: xs) := by
        rw [markAt?, markAt?, List.find?_filter]
        apply List.find?_congr
        intro m hm
        cases hpre : m.isPrefixOf ((x :: xs).map f) with
        | false => simp
        | true => simp [h m hm (List.isPrefixOf_iff_prefix.1 hpre).isInfix]
      rw [sweepFrom, sweepFrom, hmark]
      simp only [htail]

end EmbraOS.Verified.Sweep
