import EmbraOS.Verified.Saturate

/-!
# Superseded nodes

The part of the audit (`embra-brain/src/knowledge/audit.rs`) that finds the nodes which
are history: `history_of` goes over the supersessions that the edges declare, until a
pass adds nothing.

The main result is that the loop ends and finds exactly the nodes below a node that
nothing supersedes, and that what it leaves over lies on a cycle or below one.
-/

namespace EmbraOS.Ports.Supersession

open Relation
open Verified.Saturate

/-- How the graph addresses a node: `(collection, id)`. -/
abbrev NodeKey := String × String

/-- The newer node and the older one. -/
abbrev Declaration := NodeKey × NodeKey

/-! ## History -/

/-- The order of the keys. -/
def keyLe (a b : NodeKey) : Bool := decide (a.1 < b.1) || (a.1 == b.1 && decide (a.2 ≤ b.2))

def supersededOf (declarations : List Declaration) : List NodeKey :=
  (declarations.map Prod.snd).dedup

def newerStands (superseded history : List NodeKey) (d : Declaration) : Bool :=
  !superseded.contains d.1 || history.contains d.1

/-- `history_of`, with a bound on the passes of its loop. -/
def historyOf (fuel : Nat) (declarations : List Declaration) :
    Option (List NodeKey × List NodeKey) :=
  let superseded := supersededOf declarations
  (saturate (newerStands superseded) Prod.snd declarations fuel []).map (fun history =>
    (history, (superseded.filter (fun k => !history.contains k)).insertionSort
      (fun a b => keyLe a b = true)))

/-! ## What it finds -/

variable (declarations : List Declaration)

/-- The first node supersedes the second. -/
def Supersedes (a b : NodeKey) : Prop := (a, b) ∈ declarations

/-- Nothing supersedes the node. -/
def Current (a : NodeKey) : Prop := ∀ b, ¬Supersedes declarations b a

/-- The node is below a current one. -/
def IsHistory (x : NodeKey) : Prop :=
  ∃ a, Current declarations a ∧ TransGen (Supersedes declarations) a x

variable {declarations}

theorem mem_supersededOf {x : NodeKey} :
    x ∈ supersededOf declarations ↔ ∃ a, Supersedes declarations a x := by
  rw [supersededOf, List.mem_dedup, List.mem_map]
  constructor
  · rintro ⟨d, hd, rfl⟩
    exact ⟨d.1, hd⟩
  · rintro ⟨a, ha⟩
    exact ⟨(a, x), ha, rfl⟩

theorem newerStands_iff {history : List NodeKey} {d : Declaration} :
    newerStands (supersededOf declarations) history d = true ↔
      Current declarations d.1 ∨ d.1 ∈ history := by
  rw [newerStands, Bool.or_eq_true, Bool.not_eq_true', List.contains_iff_mem,
    List.contains_eq_mem, decide_eq_false_iff_not, mem_supersededOf, not_exists]
  rfl

section Result

variable {fuel : Nat} {history : List NodeKey}
  (h : saturate (newerStands (supersededOf declarations)) Prod.snd declarations fuel [] =
    some history)
include h

/-- An older node is history with the newer one. -/
theorem mem_history_of_supersedes {a x : NodeKey} (hax : Supersedes declarations a x)
    (ha : Current declarations a ∨ a ∈ history) : x ∈ history :=
  closed_of_saturate fuel [] history h (a, x) hax (newerStands_iff.2 ha)

theorem mem_history_iff (x : NodeKey) : x ∈ history ↔ IsHistory declarations x := by
  constructor
  · refine saturate_sound (P := IsHistory declarations) ?_ fuel [] history h (by simp) x
    intro acc d hd hacc hready
    rcases newerStands_iff.1 hready with hcurrent | hmem
    · exact ⟨d.1, hcurrent, .single hd⟩
    · obtain ⟨a, ha, hchain⟩ := hacc d.1 hmem
      exact ⟨a, ha, hchain.tail hd⟩
  · rintro ⟨a, ha, hchain⟩
    induction hchain with
    | single hstep => exact mem_history_of_supersedes h hstep (Or.inl ha)
    | tail _ hstep ih => exact mem_history_of_supersedes h hstep (Or.inr ih)

/-- What is superseded and not history has only such nodes above it, and so a cycle. -/
theorem cycle_above {x z : NodeKey} (hx : x ∈ supersededOf declarations) (hout : x ∉ history)
    (hchain : ReflTransGen (Supersedes declarations) z x) :
    ∃ y, TransGen (Supersedes declarations) y y ∧
      ReflTransGen (Supersedes declarations) y z := by
  have hup : ∀ a b, Supersedes declarations a b → b ∉ history →
      a ∈ supersededOf declarations ∧ a ∉ history := by
    intro a b hab hb
    constructor
    · by_contra hcurrent
      refine hb (mem_history_of_supersedes h hab (Or.inl ?_))
      exact fun c hc => hcurrent (mem_supersededOf.2 ⟨c, hc⟩)
    · exact fun ha => hb (mem_history_of_supersedes h hab (Or.inr ha))
  have hz : z ∈ supersededOf declarations ∧ z ∉ history := by
    induction hchain using ReflTransGen.head_induction_on with
    | refl => exact ⟨hx, hout⟩
    | head hstep _ ih => exact hup _ _ hstep ih.2
  have hmem : ∀ a, a ∈ (supersededOf declarations).filter (fun k => k ∉ history) ↔
      a ∈ supersededOf declarations ∧ a ∉ history := by
    intro a
    simp
  refine exists_cycle_above (S := (supersededOf declarations).filter (fun k => k ∉ history)) ?_
    ((hmem z).2 hz)
  intro a ha
  obtain ⟨ha, hout⟩ := (hmem a).1 ha
  obtain ⟨b, hb⟩ := mem_supersededOf.1 ha
  exact ⟨b, (hmem b).2 (hup b a hb hout), hb⟩

end Result

/-- **`history_of` is reachability.**  The loop ends; its first value is the nodes below
a current one, its second the other superseded nodes, each below no node but such as lie
on a cycle or below one. -/
theorem historyOf_spec (declarations : List Declaration) :
    ∃ history cycles,
      (∀ fuel, declarations.length < fuel →
        historyOf fuel declarations = some (history, cycles)) ∧
      history.Nodup ∧ cycles.Nodup ∧
      (∀ x, x ∈ history ↔ IsHistory declarations x) ∧
      (∀ x, x ∈ cycles ↔
        (∃ a, Supersedes declarations a x) ∧ ¬IsHistory declarations x) ∧
      ∀ x ∈ cycles, ∀ z, ReflTransGen (Supersedes declarations) z x →
        ∃ y, TransGen (Supersedes declarations) y y ∧
          ReflTransGen (Supersedes declarations) y z := by
  have hsome : (saturate (newerStands (supersededOf declarations)) Prod.snd declarations
      (declarations.length + 1) []).isSome = true :=
    isSome_saturate _ [] List.nodup_nil (List.nil_subset _) (by simp)
  obtain ⟨history, h⟩ := Option.isSome_iff_exists.1 hsome
  have hcycles : ∀ x, x ∈ ((supersededOf declarations).filter
      (fun k => !history.contains k)).insertionSort (fun a b => keyLe a b = true) ↔
      x ∈ supersededOf declarations ∧ x ∉ history := by
    intro x
    rw [List.mem_insertionSort, List.mem_filter, Bool.not_eq_true', List.contains_eq_mem,
      decide_eq_false_iff_not]
  refine ⟨history, ((supersededOf declarations).filter
    (fun k => !history.contains k)).insertionSort (fun a b => keyLe a b = true),
    ?_, ?_, ?_, mem_history_iff h, ?_, ?_⟩
  · intro fuel hfuel
    unfold historyOf
    dsimp only
    rw [saturate_of_le hfuel h]
    rfl
  · exact nodup_of_saturate _ [] history h List.nodup_nil
  · exact (List.perm_insertionSort _ _).nodup_iff.2
      ((List.nodup_dedup _).sublist List.filter_sublist)
  · intro x
    rw [hcycles, mem_supersededOf, mem_history_iff h]
  · intro x hx z hz
    obtain ⟨hsup, hout⟩ := (hcycles x).1 hx
    exact cycle_above h hsup hout hz

/-- A chain that ends in a current node, and a cycle with a node below it. -/
example :
    historyOf 8 [(("s", "b"), ("s", "a")), (("s", "c"), ("s", "b")), (("s", "x"), ("s", "y")),
      (("s", "y"), ("s", "x")), (("s", "y"), ("s", "w"))] =
      some ([("s", "a"), ("s", "b")], [("s", "w"), ("s", "x"), ("s", "y")]) := by
  decide +kernel

end EmbraOS.Ports.Supersession
