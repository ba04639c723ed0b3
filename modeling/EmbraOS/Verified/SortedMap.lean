import Mathlib

/-!
# Ordered maps as sorted association lists

A `BTreeMap` seen through its iteration order: a list of entries with
strictly increasing keys.  `modifyEntry` is the `entry(k).or_default()`
access, and the two reading lemmas say that it updates one key and frames the
others.
-/

namespace EmbraOS.Verified.SortedMap

variable {κ ν : Type} [LinearOrder κ]

/-- The keys increase strictly along the list. -/
def Sorted (m : List (κ × ν)) : Prop :=
  m.Pairwise (fun a b => a.1 < b.1)

def get? (k : κ) : List (κ × ν) → Option ν
  | [] => none
  | (k', v) :: rest => if k' = k then some v else get? k rest

/-- Apply `f` to the value under `k`, which is `dflt` when there is none. -/
def modifyEntry (k : κ) (dflt : ν) (f : ν → ν) :
    List (κ × ν) → List (κ × ν)
  | [] => [(k, f dflt)]
  | (k', v) :: rest =>
    if k < k' then (k, f dflt) :: (k', v) :: rest
    else if k' < k then (k', v) :: modifyEntry k dflt f rest
    else (k', f v) :: rest

theorem sorted_nil : Sorted ([] : List (κ × ν)) :=
  List.Pairwise.nil

variable {k k' : κ} {m : List (κ × ν)} {dflt v : ν} {f : ν → ν}

/-- A key below every key of the list is absent. -/
theorem get?_eq_none_of_lt (h : ∀ e ∈ m, k < e.1) : get? k m = none := by
  induction m with
  | nil => rfl
  | cons e m ih =>
    have hne : e.1 ≠ k := (ne_of_lt (h e (by simp))).symm
    rw [get?, if_neg hne]
    exact ih (fun e he => h e (by simp [he]))

/-- The keys of a modified map: the old ones and the modified one. -/
theorem mem_keys_modifyEntry :
    k' ∈ (modifyEntry k dflt f m).map Prod.fst ↔
      k' = k ∨ k' ∈ m.map Prod.fst := by
  induction m with
  | nil => simp [modifyEntry]
  | cons e m ih =>
    obtain ⟨a, v⟩ := e
    by_cases h1 : k < a
    · simp [modifyEntry, h1]
    · by_cases h2 : a < k
      · simp only [modifyEntry, if_neg h1, if_pos h2, List.map_cons,
          List.mem_cons, ih]
        exact or_left_comm
      · have ha : a = k := le_antisymm (not_lt.1 h1) (not_lt.1 h2)
        subst ha
        simp [modifyEntry]

theorem sorted_modifyEntry (h : Sorted m) : Sorted (modifyEntry k dflt f m) := by
  induction m with
  | nil => exact List.pairwise_singleton _ _
  | cons e m ih =>
    obtain ⟨a, v⟩ := e
    obtain ⟨hhead, htail⟩ := List.pairwise_cons.1 h
    by_cases h1 : k < a
    · rw [modifyEntry, if_pos h1]
      refine List.pairwise_cons.2 ⟨?_, h⟩
      intro e he
      rcases List.mem_cons.1 he with rfl | he
      · exact h1
      · exact lt_trans h1 (hhead e he)
    · by_cases h2 : a < k
      · rw [modifyEntry, if_neg h1, if_pos h2]
        refine List.pairwise_cons.2 ⟨?_, ih htail⟩
        intro e he
        have hkey : e.1 ∈ (modifyEntry k dflt f m).map Prod.fst :=
          List.mem_map_of_mem he
        rcases mem_keys_modifyEntry.1 hkey with hk | hk
        · rw [hk]
          exact h2
        · obtain ⟨e', he', heq⟩ := List.mem_map.1 hk
          rw [← heq]
          exact hhead e' he'
      · rw [modifyEntry, if_neg h1, if_neg h2]
        exact List.pairwise_cons.2 ⟨hhead, htail⟩

theorem get?_modifyEntry_self (h : Sorted m) :
    get? k (modifyEntry k dflt f m) = some (f ((get? k m).getD dflt)) := by
  induction m with
  | nil => simp [modifyEntry, get?]
  | cons e m ih =>
    obtain ⟨a, v⟩ := e
    obtain ⟨hhead, htail⟩ := List.pairwise_cons.1 h
    by_cases h1 : k < a
    · have habsent : get? k ((a, v) :: m) = none := by
        apply get?_eq_none_of_lt
        intro e he
        rcases List.mem_cons.1 he with rfl | he
        · exact h1
        · exact lt_trans h1 (hhead e he)
      rw [modifyEntry, if_pos h1, habsent]
      simp [get?]
    · by_cases h2 : a < k
      · rw [modifyEntry, if_neg h1, if_pos h2, get?, get?,
          if_neg (ne_of_lt h2), if_neg (ne_of_lt h2), ih htail]
      · have ha : a = k := le_antisymm (not_lt.1 h1) (not_lt.1 h2)
        subst ha
        simp [modifyEntry, get?]

theorem get?_modifyEntry_ne (hne : k' ≠ k) :
    get? k' (modifyEntry k dflt f m) = get? k' m := by
  induction m with
  | nil => simp [modifyEntry, get?, hne.symm]
  | cons e m ih =>
    obtain ⟨a, v⟩ := e
    by_cases h1 : k < a
    · rw [modifyEntry, if_pos h1, get?, if_neg hne.symm]
    · by_cases h2 : a < k
      · rw [modifyEntry, if_neg h1, if_pos h2, get?, get?, ih]
      · have ha : a = k := le_antisymm (not_lt.1 h1) (not_lt.1 h2)
        subst ha
        rw [modifyEntry, if_neg h1, if_neg h2, get?, get?,
          if_neg hne.symm, if_neg hne.symm]

/-- In a sorted map an entry is what its key reads. -/
theorem get?_of_mem (h : Sorted m) (hm : (k, v) ∈ m) : get? k m = some v := by
  induction m with
  | nil => simp at hm
  | cons e m ih =>
    obtain ⟨hhead, htail⟩ := List.pairwise_cons.1 h
    rcases List.mem_cons.1 hm with rfl | hm
    · simp [get?]
    · have hne : e.1 ≠ k := ne_of_lt (hhead (k, v) hm)
      rw [get?, if_neg hne]
      exact ih htail hm

theorem mem_of_get? (h : get? k m = some v) : (k, v) ∈ m := by
  induction m with
  | nil => cases h
  | cons e m ih =>
    rw [get?] at h
    split at h
    · rename_i heq
      cases h
      exact heq ▸ List.mem_cons_self
    · exact List.mem_cons_of_mem _ (ih h)

theorem mem_keys_of_get? (h : get? k m = some v) :
    k ∈ m.map Prod.fst := List.mem_map_of_mem (mem_of_get? h)

/-- An update of an entry to a value that reads the same leaves what is read of the values. -/
theorem map_modifyEntry {α : Type} {g : ν → α} (h : Sorted m) (hget : get? k m = some v)
    (hsame : g (f v) = g v) :
    (modifyEntry k dflt f m).map (fun e => g e.2) = m.map (fun e => g e.2) := by
  induction m with
  | nil => cases hget
  | cons e m ih =>
    obtain ⟨a, w⟩ := e
    obtain ⟨hhead, htail⟩ := List.pairwise_cons.1 h
    by_cases ha : a = k
    · subst ha
      rw [get?, if_pos rfl] at hget
      cases hget
      simp [modifyEntry, hsame]
    · rw [get?, if_neg ha] at hget
      have hlt : a < k := by
        by_contra hle
        have habsent : get? k m = none := get?_eq_none_of_lt fun e he =>
          lt_of_le_of_lt (not_lt.1 hle) (hhead e he)
        rw [habsent] at hget
        cases hget
      rw [modifyEntry, if_neg (lt_asymm hlt), if_pos hlt, List.map_cons, List.map_cons,
        ih htail hget]

end EmbraOS.Verified.SortedMap
