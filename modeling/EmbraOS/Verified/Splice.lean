import Mathlib.Data.List.Perm.Basic

/-!
# Simultaneous replacement of spans

A span is a stretch of a buffer with the text that is to stand in its place.
`substitute` replaces all spans of a list at once: it is given position by
position, so neither an order of the spans nor an intermediate buffer is
involved.  `sweep` is the one-pass algorithm over spans in order of position.

`sweep_eq_substitute` says that the pass computes the simultaneous
replacement, and `substitute_perm` that disjoint spans may come in any order.
-/

namespace EmbraOS.Verified.Splice

variable {α : Type}

structure Span (α : Type) where
  start : Nat
  stop : Nat
  new : List α

namespace Span

/-- The two spans share no position. -/
def Disjoint (a b : Span α) : Prop := a.stop ≤ b.start ∨ b.stop ≤ a.start

instance (a b : Span α) : Decidable (Disjoint a b) :=
  inferInstanceAs (Decidable (_ ∨ _))

theorem Disjoint.symm {a b : Span α} (h : Disjoint a b) : Disjoint b a :=
  Or.symm h

/-- A non-empty span inside a buffer of length `n`. -/
structure Fits (n : Nat) (sp : Span α) : Prop where
  lt : sp.start < sp.stop
  le : sp.stop ≤ n

def covers (sp : Span α) (i : Nat) : Bool := sp.start ≤ i && i < sp.stop

end Span

/-- What stands for position `i`: the replacement of a span that starts
there, and the element itself unless a span covers it. -/
def emit (buffer : List α) (spans : List (Span α)) (i : Nat) : List α :=
  (spans.filter (fun sp => sp.start = i)).flatMap Span.new ++
  if spans.any (fun sp => sp.covers i) then [] else buffer[i]?.toList

/-- The buffer with every span replaced at once. -/
def substitute (buffer : List α) (spans : List (Span α)) : List α :=
  (List.range buffer.length).flatMap (emit buffer spans)

/-- One pass: copy up to the next span, write its replacement, go on behind
it. -/
def sweep (buffer : List α) : Nat → List (Span α) → List α
  | cursor, [] => buffer.drop cursor
  | cursor, sp :: spans =>
    (buffer.drop cursor).take (sp.start - cursor) ++
      (sp.new ++ sweep buffer sp.stop spans)

/-! ## Positions -/

variable {buffer : List α} {i n : Nat} {sp : Span α}

variable {spans spans' : List (Span α)}

theorem emit_of_not_covered (hfits : ∀ sp ∈ spans, sp.Fits n)
    (h : ∀ sp ∈ spans, sp.covers i = false) :
    emit buffer spans i = buffer[i]?.toList := by
  have hstart : spans.filter (fun sp => sp.start = i) = [] := by
    rw [List.filter_eq_nil_iff]
    intro sp hsp heq
    have hcov := h sp hsp
    have hlt := (hfits sp hsp).lt
    simp only [Span.covers, Bool.and_eq_false_iff, decide_eq_false_iff_not,
      decide_eq_true_eq] at hcov heq
    omega
  have hany : spans.any (fun sp => sp.covers i) = false := by
    rw [List.any_eq_false]
    intro sp hsp
    rw [h sp hsp]
    exact Bool.false_ne_true
  simp [emit, hstart, hany]

/-- Behind a span it no longer matters. -/
theorem emit_cons_of_stop_le (hlt : sp.start < sp.stop)
    (h : sp.stop ≤ i) : emit buffer (sp :: spans) i = emit buffer spans i := by
  have hne : ¬sp.start = i := by omega
  have hcov : sp.covers i = false := by
    simp only [Span.covers, Bool.and_eq_false_iff, decide_eq_false_iff_not]
    omega
  simp [emit, hne, hcov]

/-- Inside a span with the others behind it, only its start gives anything. -/
theorem emit_cons_of_covers (h : sp.covers i = true) (hrest : ∀ s ∈ spans, sp.stop ≤ s.start) :
    emit buffer (sp :: spans) i = if sp.start = i then sp.new else [] := by
  have hbounds := h
  simp only [Span.covers, Bool.and_eq_true, decide_eq_true_eq] at hbounds
  have hnone : spans.filter (fun s => s.start = i) = [] := by
    rw [List.filter_eq_nil_iff]
    intro s hs heq
    have := hrest s hs
    simp only [decide_eq_true_eq] at heq
    omega
  by_cases hstart : sp.start = i <;> simp [emit, h, hnone, hstart]

private theorem flatMap_getElem? (buffer : List α) (k : Nat) :
    ∀ cursor, cursor + k ≤ buffer.length →
      (List.range' cursor k).flatMap (fun i => buffer[i]?.toList) =
        (buffer.drop cursor).take k := by
  induction k with
  | zero => intro cursor _; simp
  | succ k ih =>
    intro cursor hle
    have hlt : cursor < buffer.length := by omega
    rw [List.range'_succ, List.flatMap_cons, ih (cursor + 1) (by omega),
      List.drop_eq_getElem_cons hlt, List.getElem?_eq_getElem hlt]
    rfl

/-- A stretch no span covers is copied. -/
theorem flatMap_emit_gap {cursor k : Nat} (hfits : ∀ sp ∈ spans, sp.Fits n)
    (hle : cursor + k ≤ buffer.length)
    (h : ∀ sp ∈ spans, ∀ i, cursor ≤ i → i < cursor + k → sp.covers i = false) :
    (List.range' cursor k).flatMap (emit buffer spans) =
      (buffer.drop cursor).take k := by
  rw [← flatMap_getElem? buffer k cursor hle]
  apply List.flatMap_congr
  intro i hi
  rw [List.mem_range'_1] at hi
  exact emit_of_not_covered hfits (fun sp hsp => h sp hsp i hi.1 hi.2)

/-- A span's own stretch gives its replacement. -/
theorem flatMap_emit_span (hlt : sp.start < sp.stop) (hrest : ∀ s ∈ spans, sp.stop ≤ s.start) :
    (List.range' sp.start (sp.stop - sp.start)).flatMap
      (emit buffer (sp :: spans)) = sp.new := by
  obtain ⟨k, hk⟩ : ∃ k, sp.stop - sp.start = k + 1 :=
    ⟨sp.stop - sp.start - 1, by omega⟩
  have htail : (List.range' (sp.start + 1) k).flatMap
      (emit buffer (sp :: spans)) = [] := by
    rw [List.flatMap_eq_nil_iff]
    intro i hi
    rw [List.mem_range'_1] at hi
    have hcov : sp.covers i = true := by
      simp only [Span.covers, Bool.and_eq_true, decide_eq_true_eq]
      omega
    rw [emit_cons_of_covers hcov hrest, if_neg (by omega)]
  have hcov : sp.covers sp.start = true := by
    simp only [Span.covers, Bool.and_eq_true, decide_eq_true_eq]
    omega
  rw [hk, List.range'_succ, List.flatMap_cons, htail, List.append_nil,
    emit_cons_of_covers hcov hrest, if_pos rfl]

/-! ## The pass computes the replacement -/

theorem sweep_eq_flatMap (spans : List (Span α)) :
    ∀ cursor, cursor ≤ buffer.length →
      (∀ sp ∈ spans, sp.Fits buffer.length) →
      (∀ sp ∈ spans, cursor ≤ sp.start) →
      spans.Pairwise (fun a b => a.stop ≤ b.start) →
      sweep buffer cursor spans =
        (List.range' cursor (buffer.length - cursor)).flatMap
          (emit buffer spans) := by
  induction spans with
  | nil =>
    intro cursor hcursor hfits _ _
    rw [sweep, flatMap_emit_gap hfits (by omega) (by simp),
      List.take_of_length_le (by simp)]
  | cons sp spans ih =>
    intro cursor hcursor hfits hge hsorted
    obtain ⟨hhead, htail⟩ := List.pairwise_cons.1 hsorted
    have hsp := hfits sp (by simp)
    have hstart := hge sp (by simp)
    -- up to the span, the span, and behind it
    have hsplit : List.range' cursor (buffer.length - cursor) =
        List.range' cursor (sp.start - cursor) ++
          (List.range' sp.start (sp.stop - sp.start) ++
            List.range' sp.stop (buffer.length - sp.stop)) := by
      have h1 := List.range'_append_1 (s := sp.start)
        (m := sp.stop - sp.start) (n := buffer.length - sp.stop)
      have h2 := List.range'_append_1 (s := cursor)
        (m := sp.start - cursor) (n := buffer.length - sp.start)
      have hlt := hsp.lt
      have hle := hsp.le
      rw [show sp.start + (sp.stop - sp.start) = sp.stop by omega,
        show sp.stop - sp.start + (buffer.length - sp.stop) =
          buffer.length - sp.start by omega] at h1
      rw [show cursor + (sp.start - cursor) = sp.start by omega,
        show sp.start - cursor + (buffer.length - sp.start) =
          buffer.length - cursor by omega] at h2
      rw [h1, h2]
    have hgap : (List.range' cursor (sp.start - cursor)).flatMap
        (emit buffer (sp :: spans)) =
        (buffer.drop cursor).take (sp.start - cursor) := by
      have hlt := hsp.lt
      have hle := hsp.le
      apply flatMap_emit_gap hfits (by omega)
      intro s hs i hi hlt'
      simp only [Span.covers, Bool.and_eq_false_iff, decide_eq_false_iff_not]
      rcases List.mem_cons.1 hs with rfl | hs
      · omega
      · have := hhead s hs
        omega
    have hbehind : (List.range' sp.stop (buffer.length - sp.stop)).flatMap
        (emit buffer (sp :: spans)) = sweep buffer sp.stop spans := by
      rw [ih sp.stop hsp.le (fun s hs => hfits s (by simp [hs])) hhead htail]
      apply List.flatMap_congr
      intro i hi
      rw [List.mem_range'_1] at hi
      exact emit_cons_of_stop_le hsp.lt hi.1
    rw [hsplit, List.flatMap_append, List.flatMap_append, hgap,
      flatMap_emit_span hsp.lt hhead, hbehind, sweep]

/-- The pass over spans in order is the simultaneous replacement. -/
theorem sweep_eq_substitute (hfits : ∀ sp ∈ spans, sp.Fits buffer.length)
    (hsorted : spans.Pairwise (fun a b => a.stop ≤ b.start)) :
    sweep buffer 0 spans = substitute buffer spans := by
  rw [sweep_eq_flatMap spans 0 (Nat.zero_le _) hfits (by simp) hsorted,
    substitute, List.range_eq_range', Nat.sub_zero]

/-! ## The order of the spans -/

/-- At most one of several disjoint spans starts at a position. -/
private theorem length_filter_start_le
    (hfits : ∀ sp ∈ spans, sp.Fits n) (hdisj : spans.Pairwise Span.Disjoint)
    (i : Nat) : (spans.filter (fun sp => sp.start = i)).length ≤ 1 := by
  have hpair := hdisj.filter (fun sp => decide (sp.start = i))
  have hmem : ∀ sp ∈ spans.filter (fun sp => sp.start = i),
      sp.start = i ∧ sp.Fits n := by
    intro sp hsp
    rw [List.mem_filter, decide_eq_true_eq] at hsp
    exact ⟨hsp.2, hfits sp hsp.1⟩
  generalize spans.filter (fun sp => sp.start = i) = l at hpair hmem
  rcases l with _ | ⟨a, _ | ⟨b, rest⟩⟩
  · simp
  · simp
  · exfalso
    have hab := (List.pairwise_cons.1 hpair).1 b (by simp)
    obtain ⟨ha, hfa⟩ := hmem a (by simp)
    obtain ⟨hb, hfb⟩ := hmem b (by simp)
    have h1 := hfa.lt
    have h2 := hfb.lt
    rcases hab with h | h <;> omega

private theorem eq_of_perm_of_length_le_one {l l' : List α} (h : l.Perm l')
    (hlen : l.length ≤ 1) : l = l' := by
  match l with
  | [] => exact (h.nil_eq).symm ▸ rfl
  | [a] => exact (List.perm_singleton.1 h.symm).symm
  | _ :: _ :: _ => simp at hlen

theorem emit_perm (hperm : spans.Perm spans') (hfits : ∀ sp ∈ spans, sp.Fits n)
    (hdisj : spans.Pairwise Span.Disjoint) (i : Nat) :
    emit buffer spans i = emit buffer spans' i := by
  have hstart := eq_of_perm_of_length_le_one
    (hperm.filter (fun sp => decide (sp.start = i)))
    (length_filter_start_le hfits hdisj i)
  have hany : spans.any (fun sp => sp.covers i) =
      spans'.any (fun sp => sp.covers i) := by
    rw [Bool.eq_iff_iff, List.any_eq_true, List.any_eq_true]
    simp only [hperm.mem_iff]
  rw [emit, emit, hstart, hany]

/-- Disjoint spans may be replaced in any order. -/
theorem substitute_perm (hperm : spans.Perm spans') (hfits : ∀ sp ∈ spans, sp.Fits buffer.length)
    (hdisj : spans.Pairwise Span.Disjoint) :
    substitute buffer spans = substitute buffer spans' := by
  unfold substitute
  apply List.flatMap_congr
  intro i _
  exact emit_perm hperm hfits hdisj i

end EmbraOS.Verified.Splice
