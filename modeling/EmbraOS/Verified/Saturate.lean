import Mathlib

/-!
# Passes until nothing is added

A loop that goes over a list of rules, adds the conclusion of each rule that is ready,
and starts again until a pass adds nothing.  What it returns is closed under the rules
(`closed_of_saturate`), has only what the rules give (`saturate_sound`), and it returns
after at most as many passes as there are rules, and one (`isSome_saturate`).

`exists_cycle_above` is about relations: where every element of a finite set has a
predecessor in the set, a cycle is above every element.
-/

namespace EmbraOS.Verified.Saturate

open Relation

variable {α β : Type} [DecidableEq α]

/-- One pass: what was gathered, and whether it grew. -/
def pass (ready : List α → β → Bool) (out : β → α) : List β → List α → List α × Bool
  | [], acc => (acc, false)
  | r :: rules, acc =>
    if ready acc r && !acc.contains (out r) then
      ((pass ready out rules (out r :: acc)).1, true)
    else pass ready out rules acc

/-- Passes until one adds nothing; nothing when there are not enough of them. -/
def saturate (ready : List α → β → Bool) (out : β → α) (rules : List β) :
    Nat → List α → Option (List α)
  | 0, _ => none
  | n + 1, acc =>
    if (pass ready out rules acc).2 then saturate ready out rules n (pass ready out rules acc).1
    else some (pass ready out rules acc).1

variable {ready : List α → β → Bool} {out : β → α}

/-! ## One pass -/

/-- What a pass adds has every property that the rules carry on. -/
theorem pass_sound {P : α → Prop} {all : List β}
    (hrule : ∀ acc r, r ∈ all → (∀ a ∈ acc, P a) → ready acc r = true → P (out r))
    (rules : List β) : rules ⊆ all → ∀ acc, (∀ a ∈ acc, P a) →
      ∀ a ∈ (pass ready out rules acc).1, P a := by
  induction rules with
  | nil => exact fun _ acc h => h
  | cons r rules ih =>
    intro hsub acc h
    have hrest := (List.cons_subset.1 hsub).2
    unfold pass
    split
    · rename_i hr
      refine ih hrest _ (List.forall_mem_cons.2 ⟨?_, h⟩)
      exact hrule acc r (hsub List.mem_cons_self) h (Bool.and_eq_true_iff.1 hr).1
    · exact ih hrest acc h

theorem pass_nodup (rules : List β) : ∀ acc : List α, acc.Nodup →
    (pass ready out rules acc).1.Nodup := by
  induction rules with
  | nil => exact fun acc h => h
  | cons r rules ih =>
    intro acc h
    unfold pass
    split
    · rename_i hr
      apply ih
      rw [Bool.and_eq_true_iff] at hr
      exact List.nodup_cons.2 ⟨by simpa using hr.2, h⟩
    · exact ih acc h

/-- A pass that adds nothing leaves all as it was, and has no rule left to apply. -/
theorem pass_idle (rules : List β) : ∀ acc, (pass ready out rules acc).2 = false →
    (pass ready out rules acc).1 = acc ∧
      ∀ r ∈ rules, ready acc r = true → out r ∈ acc := by
  induction rules with
  | nil => exact fun acc _ => ⟨rfl, by simp⟩
  | cons r rules ih =>
    intro acc h
    unfold pass at h ⊢
    split at h
    · cases h
    rename_i hr
    rw [if_neg hr]
    obtain ⟨hsame, hrest⟩ := ih acc h
    refine ⟨hsame, List.forall_mem_cons.2 ⟨?_, hrest⟩⟩
    intro hready
    by_contra hout
    exact hr (by simp [hready, hout])

/-- A pass that grew added something. -/
theorem length_lt_pass (rules : List β) : ∀ acc, (pass ready out rules acc).2 = true →
    acc.length < (pass ready out rules acc).1.length := by
  have hle : ∀ (rules : List β) (acc : List α),
      acc.length ≤ (pass ready out rules acc).1.length := by
    intro rules
    induction rules with
    | nil => exact fun acc => le_rfl
    | cons r rules ih =>
      intro acc
      unfold pass
      split
      · exact Nat.le_of_succ_le (ih (out r :: acc))
      · exact ih acc
  induction rules with
  | nil =>
    exact nofun
  | cons r rules ih =>
    intro acc h
    unfold pass at h ⊢
    split
    · exact hle rules (out r :: acc)
    · rename_i hr
      rw [if_neg hr] at h
      exact ih acc h

/-! ## All passes -/

variable {rules : List β}

theorem saturate_sound {P : α → Prop}
    (hrule : ∀ acc r, r ∈ rules → (∀ a ∈ acc, P a) → ready acc r = true → P (out r))
    (n : Nat) : ∀ acc res, saturate ready out rules n acc = some res → (∀ a ∈ acc, P a) →
      ∀ a ∈ res, P a := by
  induction n with
  | zero =>
    exact nofun
  | succ n ih =>
    intro acc res h hacc
    have hpass := pass_sound hrule rules (List.Subset.refl _) acc hacc
    unfold saturate at h
    split at h
    · exact ih _ res h hpass
    · rw [← Option.some.inj h]
      exact hpass

theorem nodup_of_saturate (n : Nat) : ∀ acc res, saturate ready out rules n acc = some res →
    acc.Nodup → res.Nodup := by
  induction n with
  | zero =>
    exact nofun
  | succ n ih =>
    intro acc res h hacc
    unfold saturate at h
    split at h
    · exact ih _ res h (pass_nodup rules acc hacc)
    · rw [← Option.some.inj h]
      exact pass_nodup rules acc hacc

theorem closed_of_saturate (n : Nat) : ∀ acc res, saturate ready out rules n acc = some res →
    ∀ r ∈ rules, ready res r = true → out r ∈ res := by
  induction n with
  | zero =>
    exact nofun
  | succ n ih =>
    intro acc res h
    unfold saturate at h
    split at h
    · exact ih _ res h
    · rename_i hidle
      obtain ⟨hsame, hclosed⟩ := pass_idle rules acc (Bool.eq_false_iff.2 hidle)
      rw [← Option.some.inj h, hsame]
      exact hclosed

/-- What is gathered from conclusions is never longer than the list of rules, so the
passes end. -/
theorem isSome_saturate (n : Nat) : ∀ acc : List α, acc.Nodup → acc ⊆ rules.map out →
    rules.length < acc.length + n → (saturate ready out rules n acc).isSome = true := by
  induction n with
  | zero =>
    intro acc hnodup hsub hlen
    have hle := (List.subperm_of_subset hnodup hsub).length_le
    rw [List.length_map] at hle
    omega
  | succ n ih =>
    intro acc hnodup hsub hlen
    unfold saturate
    split
    · rename_i hgrew
      apply ih _ (pass_nodup rules acc hnodup)
      · intro a ha
        refine pass_sound (P := fun a => a ∈ rules.map out) ?_ rules (List.Subset.refl _) acc
          hsub a ha
        exact fun _ r hr _ _ => List.mem_map_of_mem hr
      · have hlt := length_lt_pass rules acc hgrew
        omega
    · rfl

/-- More passes than are needed change nothing. -/
theorem saturate_of_le {n : Nat} : ∀ {m : Nat} {acc res : List α}, n ≤ m →
    saturate ready out rules n acc = some res → saturate ready out rules m acc = some res := by
  induction n with
  | zero =>
    exact nofun
  | succ n ih =>
    intro m acc res hle h
    obtain ⟨m, rfl⟩ : ∃ k, m = k + 1 := ⟨m - 1, by omega⟩
    unfold saturate at h ⊢
    split
    · rename_i hgrew
      rw [if_pos hgrew] at h
      exact ih (by omega) h
    · rename_i hidle
      rw [if_neg hidle] at h
      exact h

/-! ## Cycles -/

/-- Where every element of a finite set has a predecessor in the set, every element has a
cycle above it. -/
theorem exists_cycle_above {R : α → α → Prop} {S : List α} (h : ∀ x ∈ S, ∃ y ∈ S, R y x)
    {x : α} (hx : x ∈ S) : ∃ y, TransGen R y y ∧ ReflTransGen R y x := by
  choose! above hmem hrel using h
  -- going up again and again comes back to an element, since the set is finite
  have hin : ∀ n, above^[n] x ∈ S := by
    intro n
    induction n with
    | zero => exact hx
    | succ n ih =>
      rw [Function.iterate_succ_apply']
      exact hmem _ ih
  have hchain : ∀ n k, ReflTransGen R (above^[n + k] x) (above^[n] x) := by
    intro n k
    induction k with
    | zero => exact .refl
    | succ k ih =>
      rw [← Nat.add_assoc, Function.iterate_succ_apply']
      exact .head (hrel _ (hin _)) ih
  obtain ⟨i, j, hne, heq⟩ : ∃ i j, i ≠ j ∧ above^[i] x = above^[j] x := by
    have := Finite.exists_ne_map_eq_of_infinite (fun n => (⟨above^[n] x, hin n⟩ : {a // a ∈ S}))
    obtain ⟨i, j, hne, heq⟩ := this
    exact ⟨i, j, hne, congrArg Subtype.val heq⟩
  wlog hlt : i < j generalizing i j
  · exact this j i hne.symm heq.symm (by omega)
  refine ⟨above^[i] x, ?_, ?_⟩
  · obtain ⟨k, rfl⟩ : ∃ k, j = i + 1 + k := ⟨j - (i + 1), by omega⟩
    have hfirst : R (above^[i + 1] x) (above^[i] x) := by
      rw [Function.iterate_succ_apply']
      exact hrel _ (hin i)
    have hloop := TransGen.tail' (hchain (i + 1) k) hfirst
    rwa [← heq] at hloop
  · have hup := hchain 0 i
    rwa [Nat.zero_add] at hup

end EmbraOS.Verified.Saturate
