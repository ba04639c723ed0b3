import Mathlib

/-!
# Groups around a first element

One pass over a list: an element that no group has yet takes every later one that joins it and
that no group has.  The elements carry an index, and the pass keeps the indices that are used.

`nodup_groupsFrom`: an index is in one group at most.  `share_groupsFrom`: two elements that
nothing tells apart are in one group together.
-/

namespace EmbraOS.Verified.Grouping

variable {ι α : Type} [DecidableEq ι] (eligible : α → Bool) (joins : α → α → Bool)

/-- The elements that join `x`. -/
def members (used : List ι) (x : ι × α) (rest : List (ι × α)) : List (ι × α) :=
  rest.filter fun y => decide (y.1 ∉ used) && eligible y.2 && joins x.2 y.2

/-- The groups, each as its first element and those that join it. -/
def groupsFrom (used : List ι) : List (ι × α) → List ((ι × α) × List (ι × α))
  | [] => []
  | x :: rest =>
    if x.1 ∈ used ∨ eligible x.2 = false then groupsFrom used rest
    else
      let group := members eligible joins used x rest
      if group.isEmpty then groupsFrom used rest
      else (x, group) :: groupsFrom (used ++ x.1 :: group.map Prod.fst) rest

variable {eligible joins} {used : List ι} {x y : ι × α} {rest xs : List (ι × α)}
  {g : (ι × α) × List (ι × α)}

theorem mem_members : y ∈ members eligible joins used x rest ↔
    y ∈ rest ∧ y.1 ∉ used ∧ eligible y.2 = true ∧ joins x.2 y.2 = true := by
  unfold members
  rw [List.mem_filter, Bool.and_eq_true, Bool.and_eq_true, decide_eq_true_iff, and_assoc]

/-- What is in a group: elements of the list that no group had. -/
theorem mem_of_mem_groupsFrom (h : g ∈ groupsFrom eligible joins used xs) :
    ∀ y ∈ g.1 :: g.2, y ∈ xs ∧ y.1 ∉ used := by
  induction xs generalizing used with
  | nil => cases h
  | cons x rest ih =>
    rw [groupsFrom] at h
    split at h
    · intro y hy
      obtain ⟨hin, hout⟩ := ih h y hy
      exact ⟨List.mem_cons_of_mem x hin, hout⟩
    · rename_i hfree
      dsimp only at h
      split at h
      · intro y hy
        obtain ⟨hin, hout⟩ := ih h y hy
        exact ⟨List.mem_cons_of_mem x hin, hout⟩
      · intro y hy
        rcases List.mem_cons.1 h with rfl | h
        · rcases List.mem_cons.1 hy with rfl | hy
          · exact ⟨List.mem_cons_self, fun hused => hfree (Or.inl hused)⟩
          · obtain ⟨hin, hout, -⟩ := mem_members.1 hy
            exact ⟨List.mem_cons_of_mem x hin, hout⟩
        · obtain ⟨hin, hout⟩ := ih h y hy
          exact ⟨List.mem_cons_of_mem x hin, fun hused => hout (List.mem_append_left _ hused)⟩

/-- Every element of a group but the first joins the first. -/
theorem joins_of_mem_groupsFrom (h : g ∈ groupsFrom eligible joins used xs) :
    ∀ y ∈ g.2, joins g.1.2 y.2 = true := by
  induction xs generalizing used with
  | nil => cases h
  | cons x rest ih =>
    rw [groupsFrom] at h
    split at h
    · exact ih h
    · dsimp only at h
      split at h
      · exact ih h
      · rcases List.mem_cons.1 h with rfl | h
        · exact fun y hy => (mem_members.1 hy).2.2.2
        · exact ih h

/-- The indices of a group. -/
def indices (g : (ι × α) × List (ι × α)) : List ι := (g.1 :: g.2).map Prod.fst

theorem nodup_groupsFrom (hnodup : (xs.map Prod.fst).Nodup) :
    ((groupsFrom eligible joins used xs).flatMap indices).Nodup := by
  induction xs generalizing used with
  | nil => exact List.nodup_nil
  | cons x rest ih =>
    rw [List.map_cons, List.nodup_cons] at hnodup
    obtain ⟨hx, hrest⟩ := hnodup
    rw [groupsFrom]
    split
    · exact ih hrest
    dsimp only
    split
    · exact ih hrest
    rw [List.flatMap_cons]
    have hmembers : ((members eligible joins used x rest).map Prod.fst).Sublist
        (rest.map Prod.fst) := List.filter_sublist.map Prod.fst
    refine List.nodup_append'.2 ⟨?_, ih hrest, ?_⟩
    · exact List.nodup_cons.2 ⟨fun hin => hx (hmembers.subset hin), hrest.sublist hmembers⟩
    · -- what the group took is used in the rest of the pass
      intro i hi hlater
      obtain ⟨g, hg, hig⟩ := List.mem_flatMap.1 hlater
      obtain ⟨y, hy, rfl⟩ := List.mem_map.1 hig
      exact (mem_of_mem_groupsFrom hg y hy).2 (List.mem_append_right _ hi)

/-- Two elements that are eligible and that every element takes or leaves together. -/
structure Alike (eligible : α → Bool) (joins : α → α → Bool) (a b : α) : Prop where
  left : eligible a = true
  right : eligible b = true
  joined : joins a b = true ∧ joins b a = true
  together : ∀ c, joins c a = joins c b

/-- An element that a group leaves is not used after it. -/
theorem notMem_used (hnodup : ((y :: rest).map Prod.fst).Nodup) (hx : x ∈ rest)
    (hused : x.1 ∉ used) (hleft : joins y.2 x.2 = false) :
    x.1 ∉ used ++ y.1 :: (members eligible joins used y rest).map Prod.fst := by
  rw [List.map_cons, List.nodup_cons] at hnodup
  obtain ⟨hy, hrest⟩ := hnodup
  intro hin
  rcases List.mem_append.1 hin with hin | hin
  · exact hused hin
  · rcases List.mem_cons.1 hin with heq | hin
    · exact hy (heq ▸ List.mem_map_of_mem hx)
    · obtain ⟨z, hz, heq⟩ := List.mem_map.1 hin
      obtain ⟨hzrest, -, -, hjoins⟩ := mem_members.1 hz
      obtain rfl := List.inj_on_of_nodup_map hrest hzrest hx heq
      rw [hleft] at hjoins
      cases hjoins

theorem share_groupsFrom (hnodup : (xs.map Prod.fst).Nodup) (h : Alike eligible joins x.2 y.2)
    (hx : x ∈ xs) (hy : y ∈ xs) (hne : x.1 ≠ y.1) (hxused : x.1 ∉ used) (hyused : y.1 ∉ used) :
    ∃ g ∈ groupsFrom eligible joins used xs, x ∈ g.1 :: g.2 ∧ y ∈ g.1 :: g.2 := by
  induction xs generalizing used with
  | nil => cases hx
  | cons z rest ih =>
    have hrest : (rest.map Prod.fst).Nodup := (List.nodup_cons.1 hnodup).2
    rw [groupsFrom]
    split
    · rename_i hskip
      have hxrest : x ∈ rest := by
        rcases List.mem_cons.1 hx with rfl | hin
        · rw [h.left] at hskip
          exact absurd hskip (by simp [hxused])
        · exact hin
      have hyrest : y ∈ rest := by
        rcases List.mem_cons.1 hy with rfl | hin
        · rw [h.right] at hskip
          exact absurd hskip (by simp [hyused])
        · exact hin
      exact ih hrest hxrest hyrest hxused hyused
    · dsimp only
      rcases List.mem_cons.1 hx with rfl | hxrest
      · -- the first of the two takes the other
        have hyrest : y ∈ rest := (List.mem_cons.1 hy).resolve_left (fun heq => hne (heq ▸ rfl))
        have hin : y ∈ members eligible joins used x rest :=
          mem_members.2 ⟨hyrest, hyused, h.right, h.joined.1⟩
        rw [if_neg (by rw [List.isEmpty_iff]; exact List.ne_nil_of_mem hin)]
        exact ⟨_, List.mem_cons_self, List.mem_cons_self, List.mem_cons_of_mem _ hin⟩
      · rcases List.mem_cons.1 hy with rfl | hyrest
        · have hin : x ∈ members eligible joins used y rest :=
            mem_members.2 ⟨hxrest, hxused, h.left, h.joined.2⟩
          rw [if_neg (by rw [List.isEmpty_iff]; exact List.ne_nil_of_mem hin)]
          exact ⟨_, List.mem_cons_self, List.mem_cons_of_mem _ hin, List.mem_cons_self⟩
        · split
          · exact ih hrest hxrest hyrest hxused hyused
          by_cases hz : joins z.2 x.2 = true
          · refine ⟨_, List.mem_cons_self, List.mem_cons_of_mem _ (mem_members.2 ?_),
              List.mem_cons_of_mem _ (mem_members.2 ?_)⟩
            · exact ⟨hxrest, hxused, h.left, hz⟩
            · exact ⟨hyrest, hyused, h.right, h.together z.2 ▸ hz⟩
          · have hleft : joins z.2 x.2 = false := Bool.eq_false_iff.2 hz
            have hleft' : joins z.2 y.2 = false := h.together z.2 ▸ hleft
            obtain ⟨g, hg, hshared⟩ := ih hrest hxrest hyrest
              (notMem_used hnodup hxrest hxused hleft) (notMem_used hnodup hyrest hyused hleft')
            exact ⟨g, List.mem_cons_of_mem _ hg, hshared⟩

end EmbraOS.Verified.Grouping
