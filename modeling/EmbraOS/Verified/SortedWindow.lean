import EmbraOS.Verified.SortedForm

/-!
# The first elements of a sorted list

A query that sorts and takes at most `n` answers with a window on what matches.
An element is in the window exactly by how many come before it:
`mem_window_of_count` says that it stays in the window as long as no more
elements come before it than did.
-/

namespace EmbraOS.Verified.SortedWindow

variable {α κ : Type} [LinearOrder κ] (key : α → κ)

/-- The first `n` elements in the order of their keys. -/
def window (n : Nat) (xs : List α) : List α :=
  (xs.insertionSort (fun a b => key a ≤ key b)).take n

/-- How many elements come before `x`. -/
def before (x : α) (xs : List α) : Nat := xs.countP (fun y => key y < key x)

theorem subperm_window (n : Nat) (xs : List α) : (window key n xs).Subperm xs :=
  (List.take_sublist _ _).subperm.trans (List.perm_insertionSort _ xs).subperm

variable {key} {n : Nat} {x : α} {xs ys : List α}

theorem mem_of_mem_window (h : x ∈ window key n xs) : x ∈ xs :=
  (subperm_window key n xs).subset h

theorem before_lt_of_mem_window (h : x ∈ window key n xs) : before key x xs < n := by
  obtain ⟨i, hi, hx⟩ := List.getElem_of_mem h
  have hin : i < n := by
    rw [window, List.length_take] at hi
    omega
  have hlen : i < (xs.insertionSort (fun a b => key a ≤ key b)).length := by
    rw [window, List.length_take] at hi
    omega
  have hget : (xs.insertionSort (fun a b => key a ≤ key b))[i] = x := by
    rw [← hx]
    simp [window]
  -- Nothing from `x` on comes before it.
  have hsorted := List.pairwise_insertionSort (fun a b => key a ≤ key b) xs
  rw [before, ← (List.perm_insertionSort (fun a b => key a ≤ key b) xs).countP_eq,
    ← List.take_append_drop i (xs.insertionSort (fun a b => key a ≤ key b)),
    List.countP_append]
  have hrest : ((xs.insertionSort (fun a b => key a ≤ key b)).drop i).countP
      (fun y => key y < key x) = 0 := by
    rw [List.countP_eq_zero]
    intro y hy
    rw [List.drop_eq_getElem_cons hlen, hget] at hy
    rcases List.mem_cons.1 hy with rfl | hy
    · simp
    · have hle := List.rel_of_pairwise_cons
        (hget ▸ List.drop_eq_getElem_cons hlen ▸ hsorted.drop (i := i)) hy
      simpa using hle
  have hfirst := List.countP_le_length (p := fun y => decide (key y < key x))
    (l := (xs.insertionSort (fun a b => key a ≤ key b)).take i)
  rw [List.length_take] at hfirst
  omega

theorem mem_window_of_before_lt (hkeys : (xs.map key).Nodup) (hx : x ∈ xs)
    (h : before key x xs < n) : x ∈ window key n xs := by
  have hperm := List.perm_insertionSort (fun a b => key a ≤ key b) xs
  obtain ⟨first, rest, hsplit⟩ := List.append_of_mem (hperm.mem_iff.2 hx)
  have hsorted := List.pairwise_insertionSort (fun a b => key a ≤ key b) xs
  have hnodup : ((xs.insertionSort (fun a b => key a ≤ key b)).map key).Nodup :=
    (hperm.map key).nodup_iff.2 hkeys
  rw [hsplit] at hsorted hnodup
  -- Everything in front of `x` comes before it.
  have hall : first.countP (fun y => key y < key x) = first.length := by
    rw [List.countP_eq_length]
    intro y hy
    have hle : key y ≤ key x :=
      (List.pairwise_append.1 hsorted).2.2 y hy x List.mem_cons_self
    have hne : key y ≠ key x := by
      rw [List.map_append, List.nodup_append] at hnodup
      exact hnodup.2.2 (key y) (List.mem_map_of_mem hy) (key x) (by simp)
    simpa using lt_of_le_of_ne hle hne
  have hcount : first.length ≤ before key x xs := by
    rw [before, ← hperm.countP_eq, hsplit, List.countP_append, hall]
    exact Nat.le_add_right _ _
  rw [window, hsplit, List.take_append]
  apply List.mem_append_right
  rw [List.take_cons (by omega)]
  exact List.mem_cons_self

/-- A window that is wide enough leaves nothing out. -/
theorem window_perm (h : xs.length ≤ n) : (window key n xs).Perm xs := by
  have hperm := List.perm_insertionSort (fun a b => key a ≤ key b) xs
  rw [window, List.take_of_length_le (by rwa [hperm.length_eq])]
  exact hperm

/-- An element of a window stays in it when no more elements come before it. -/
theorem mem_window_of_count (hx : x ∈ window key n xs) (hkeys : (ys.map key).Nodup)
    (hmem : x ∈ ys) (hcount : before key x ys ≤ before key x xs) : x ∈ window key n ys :=
  mem_window_of_before_lt hkeys hmem (lt_of_le_of_lt hcount (before_lt_of_mem_window hx))

end EmbraOS.Verified.SortedWindow
