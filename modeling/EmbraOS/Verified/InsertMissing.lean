import Mathlib

/-!
# Inserting what is missing

A pass over expected items adds a document for each item that no document covers
yet.  Documents are only ever added (`Grown`), at most one for an item, and an
item is covered afterwards exactly when it was before or may be inserted
(`any_insertMissing_iff`).
-/

namespace EmbraOS.Verified.InsertMissing

variable {α δ : Type}

/-- A document made for an item covers it, and whatever it covers is covered alike. -/
structure Makes (covers : α → δ → Bool) (mk : α → δ) : Prop where
  covers_mk : ∀ x, covers x (mk x) = true
  covers_eq : ∀ x y, covers x (mk y) = true → covers x = covers y

/-! ## Growth -/

/-- Documents are kept, and those added cover an item once at most. -/
structure Grown (covers : α → δ → Bool) (ds ds' : List δ) : Prop where
  kept : ds <+: ds'
  once : ∀ x, ds'.countP (covers x) ≤ max 1 (ds.countP (covers x))

variable {covers : α → δ → Bool} {mk : α → δ} {ok : α → Bool} {ds ds' ds'' : List δ}

theorem Grown.refl (ds : List δ) : Grown covers ds ds :=
  ⟨List.prefix_rfl, fun _ => le_max_right _ _⟩

theorem Grown.trans (h : Grown covers ds ds') (h' : Grown covers ds' ds'') :
    Grown covers ds ds'' := by
  refine ⟨h.kept.trans h'.kept, fun x => ?_⟩
  have h₁ := h.once x
  have h₂ := h'.once x
  omega

theorem countP_eq_zero_of_any {p : δ → Bool} (h : ds.any p = false) : ds.countP p = 0 := by
  rw [List.countP_eq_zero]
  exact fun d hd => by simpa using List.any_eq_false.1 h d hd

theorem Grown.insert (hmk : Makes covers mk) {y : α} (hnew : ds.any (covers y) = false) :
    Grown covers ds (ds ++ [mk y]) := by
  refine ⟨List.prefix_append _ _, fun x => ?_⟩
  rw [List.countP_append]
  by_cases hx : covers x (mk y) = true
  · -- the new document covers `x`, so no earlier one does
    rw [hmk.covers_eq x y hx, countP_eq_zero_of_any hnew]
    have hone := List.countP_le_length (p := covers y) (l := [mk y])
    simpa using hone
  · rw [List.countP_singleton, if_neg hx]
    exact le_max_right _ _

theorem Grown.any (h : Grown covers ds ds') {p : δ → Bool} (hp : ds.any p = true) :
    ds'.any p = true := by
  obtain ⟨d, hd, hpd⟩ := List.any_eq_true.1 hp
  exact List.any_eq_true.2 ⟨d, h.kept.subset hd, hpd⟩

/-! ## The pass -/

/-- The document of one item, when it may be inserted and is missing. -/
def addMissing (covers : α → δ → Bool) (ok : α → Bool) (mk : α → δ) (x : α) (ds : List δ) :
    List δ :=
  if ok x && !ds.any (covers x) then ds ++ [mk x] else ds

def insertMissing (covers : α → δ → Bool) (ok : α → Bool) (mk : α → δ) :
    List α → List δ → List δ
  | [], ds => ds
  | x :: xs, ds => insertMissing covers ok mk xs (addMissing covers ok mk x ds)

theorem addMissing_of_any {x : α} (h : ds.any (covers x) = true) :
    addMissing covers ok mk x ds = ds := by
  simp [addMissing, h]

theorem addMissing_of_missing {x : α} (hok : ok x = true) (h : ds.any (covers x) = false) :
    addMissing covers ok mk x ds = ds ++ [mk x] := by
  simp [addMissing, hok, h]

variable (hmk : Makes covers mk)
include hmk

theorem grown_addMissing (x : α) (ds : List δ) :
    Grown covers ds (addMissing covers ok mk x ds) := by
  rw [addMissing]
  split
  · rename_i h
    apply Grown.insert hmk
    simpa using (Bool.and_eq_true_iff.1 h).2
  · exact Grown.refl ds

theorem grown_insertMissing (xs : List α) :
    ∀ ds, Grown covers ds (insertMissing covers ok mk xs ds) := by
  induction xs with
  | nil => exact Grown.refl
  | cons x xs ih => exact fun ds => (grown_addMissing hmk x ds).trans (ih _)

/-- Where a document comes from. -/
theorem mem_insertMissing (xs : List α) :
    ∀ ds, ∀ d ∈ insertMissing covers ok mk xs ds,
      d ∈ ds ∨ ∃ y ∈ xs, d = mk y ∧ ok y = true ∧ ds.any (covers y) = false := by
  induction xs with
  | nil => exact fun ds d hd => Or.inl hd
  | cons x xs ih =>
    intro ds d hd
    rcases ih _ d hd with hin | ⟨y, hy, heq, hok, hnew⟩
    · rw [addMissing] at hin
      split at hin
      · rename_i h
        obtain ⟨hok, hnew⟩ := Bool.and_eq_true_iff.1 h
        rcases List.mem_append.1 hin with hin | hin
        · exact Or.inl hin
        · exact Or.inr ⟨x, List.mem_cons_self, List.mem_singleton.1 hin, hok,
            by simpa using hnew⟩
      · exact Or.inl hin
    · refine Or.inr ⟨y, List.mem_cons_of_mem x hy, heq, hok, ?_⟩
      by_contra hany
      have hgrown : Grown covers ds (addMissing covers ok mk x ds) :=
        grown_addMissing hmk x ds
      rw [hgrown.any (by simpa using hany)] at hnew
      cases hnew

theorem any_insertMissing_of_ok {x : α} (hok : ok x = true) (xs : List α) :
    ∀ ds, x ∈ xs → (insertMissing covers ok mk xs ds).any (covers x) = true := by
  induction xs with
  | nil => exact fun ds hx => absurd hx List.not_mem_nil
  | cons y xs ih =>
    intro ds hx
    rcases List.mem_cons.1 hx with rfl | hx
    · apply (grown_insertMissing hmk xs _).any
      cases hany : ds.any (covers x) with
      | true =>
        rw [addMissing_of_any hany]
        exact hany
      | false =>
        rw [addMissing_of_missing hok hany, List.any_append]
        simp [hmk.covers_mk]
    · exact ih _ hx

/-- **What a pass covers**: what was covered, and what may be inserted. -/
theorem any_insertMissing_iff
    (hok : ∀ x y, covers x = covers y → ok x = ok y) {x : α} {xs : List α} (hx : x ∈ xs) :
    (insertMissing covers ok mk xs ds).any (covers x) = true ↔
      ds.any (covers x) = true ∨ ok x = true := by
  constructor
  · intro h
    obtain ⟨d, hd, hcov⟩ := List.any_eq_true.1 h
    rcases mem_insertMissing hmk xs ds d hd with hin | ⟨y, -, rfl, hoky, -⟩
    · exact Or.inl (List.any_eq_true.2 ⟨d, hin, hcov⟩)
    · exact Or.inr ((hok x y (hmk.covers_eq x y hcov)).trans hoky)
  · rintro (h | h)
    · exact (grown_insertMissing hmk xs ds).any h
    · exact any_insertMissing_of_ok hmk h xs ds hx

end EmbraOS.Verified.InsertMissing
