import Mathlib

/-!
# Lists sorted by a key

Sorting by a key is a normal form of lists up to order when no two elements share
a key: `sortBy_eq_of_perm` and `perm_of_sortBy_eq`.
-/

namespace EmbraOS.Verified.SortedForm

variable {α κ : Type} [LinearOrder κ] (key : α → κ)

instance totalKey : Std.Total (fun a b => key a ≤ key b) := ⟨fun a b => le_total (key a) (key b)⟩

instance transKey : IsTrans α (fun a b => key a ≤ key b) := ⟨fun _ _ _ => le_trans⟩

/-- The elements in the order of their keys; those of one key stay as they were. -/
def sortBy (xs : List α) : List α := xs.insertionSort (fun a b => key a ≤ key b)

theorem sortBy_perm (xs : List α) : (sortBy key xs).Perm xs := List.perm_insertionSort _ xs

theorem sortBy_sorted (xs : List α) :
    (sortBy key xs).Pairwise (fun a b => key a ≤ key b) := List.pairwise_insertionSort _ xs

variable {key} {xs ys : List α}

theorem sortBy_strict (hnodup : (xs.map key).Nodup) :
    (sortBy key xs).Pairwise (fun a b => key a < key b) := by
  have hkeys : ((sortBy key xs).map key).Nodup :=
    ((sortBy_perm key xs).map key).nodup_iff.2 hnodup
  have hne : (sortBy key xs).Pairwise (fun a b => key a ≠ key b) := List.pairwise_map.1 hkeys
  exact (sortBy_sorted key xs).imp₂ (fun _ _ hle hne => lt_of_le_of_ne hle hne) hne

/-- **One order for each set of elements with distinct keys.** -/
theorem sortBy_eq_of_perm (hnodup : (xs.map key).Nodup) (h : ys.Perm xs) :
    sortBy key ys = sortBy key xs := by
  apply List.Perm.eq_of_pairwise _ (sortBy_sorted key ys) (sortBy_sorted key xs)
  · exact (sortBy_perm key ys).trans (h.trans (sortBy_perm key xs).symm)
  · intro a b ha hb hab hba
    have hax : a ∈ xs := h.subset ((sortBy_perm key ys).subset ha)
    have hbx : b ∈ xs := (sortBy_perm key xs).subset hb
    exact List.inj_on_of_nodup_map hnodup hax hbx (le_antisymm hab hba)

theorem perm_of_sortBy_eq (h : sortBy key xs = sortBy key ys) : xs.Perm ys :=
  (sortBy_perm key xs).symm.trans (h ▸ sortBy_perm key ys)

end EmbraOS.Verified.SortedForm
