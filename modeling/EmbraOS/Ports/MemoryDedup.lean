import EmbraOS.Verified.Grouping
import EmbraOS.Verified.Words
import EmbraOS.Ports.Dump

/-!
# The plan of `memory_dedup`

Port of `normalize_content`, `is_subset_match`, `duplicate_groups`, `keep_index` and the plan of
`memory_dedup` (`embra-brain/src/tools/sessions.rs`): entries whose texts contain one another are
put into groups around the first of them, and each group keeps one entry, by its node and its age.

`dedup_plan` says what the groups are and which entry is kept; `kept_text_shorter` is a group
that keeps the shorter of two texts.
-/

namespace EmbraOS.Ports.MemoryDedup

open Verified.Serde
open Verified.Text
open Verified.Grouping
open Verified.Words (words)
open Ports.Dump (semanticCollection proceduralCollection)

/-- `promoted_pointer`: the node an entry was promoted to. -/
def promotedPointer (entry : Json) : Option (String × String) :=
  ((entry.get? "promoted_to").filter (fun v => !v.isNull)).bind (fun pointer =>
    (strField pointer "collection").bind (fun collection =>
      if collection = semanticCollection ∨ collection = proceduralCollection then
        (strField pointer "id").map (fun id => (collection, id))
      else none))

/-! ## Entries -/

/-- `str::to_lowercase`. -/
structure Env where
  toLowercase : String → String

def splitWhitespace (text : String) : List String :=
  (words (fun c => !isWhitespace c) text.toList).map String.ofList

def normalizeContent (env : Env) (text : String) : String :=
  join " " (splitWhitespace (env.toLowercase text))

/-- Whether one text contains the other; `len` counts bytes. -/
def isSubsetMatch (a b : String) : Bool :=
  let (shorter, longer) := if a.utf8ByteSize ≤ b.utf8ByteSize then (a, b) else (b, a)
  !shorter.isEmpty && contains longer shorter

structure NormalizedEntry where
  id : String
  content : String
  normalized : String
  tags : String
  createdAt : String
  node : Option (String × String)

/-- `_id`, or else `id`. -/
def idOf (doc : Json) : Option String :=
  ((doc.get? "_id").orElse fun _ => doc.get? "id").bind Json.asStr?

def tagsOf (doc : Json) : String :=
  match doc.get? "tags" with
  | some (.arr items) => join ", " (items.filterMap Json.asStr?)
  | some (.str text) => text
  | _ => ""

def normalizeEntry (env : Env) (doc : Json) : NormalizedEntry :=
  let content := (strField doc "content").getD ""
  { id := (idOf doc).getD "?"
    content
    normalized := normalizeContent env content
    tags := tagsOf doc
    createdAt := (strField doc "created_at").getD ""
    node := promotedPointer doc }

/-! ## Groups -/

/-- An entry with its place in the list. -/
abbrev Member := Nat × NormalizedEntry

inductive Strategy where
  | identical
  | subset
  | nearDuplicate
  deriving DecidableEq, Repr

def Strategy.text : Strategy → String
  | .identical => "Identical"
  | .subset => "Subset"
  | .nearDuplicate => "Near-duplicate"

structure Group where
  strategy : Strategy
  first : Member
  others : List Member

def Group.all (g : Group) : List Member := g.first :: g.others

/-- The two texts are equal, or one is in the other. -/
def joins (a b : NormalizedEntry) : Bool :=
  a.normalized == b.normalized || isSubsetMatch a.normalized b.normalized

/-- What the last entry that joined has said. -/
def strategyOf (first : NormalizedEntry) (others : List Member) : Strategy :=
  match others.getLast? with
  | none => .nearDuplicate
  | some last => if first.normalized = last.2.normalized then .identical else .subset

def eligible (e : NormalizedEntry) : Bool := !e.normalized.isEmpty

def numbered (entries : List NormalizedEntry) : List Member := entries.zipIdx.map Prod.swap

def duplicateGroups (entries : List NormalizedEntry) : List Group :=
  (groupsFrom eligible joins [] (numbered entries)).map fun g =>
    ⟨strategyOf g.1.2 g.2, g.1, g.2⟩

/-- The order of `keep_index`: an entry with a node after one without, and then by age. -/
def keyLe (a b : NormalizedEntry) : Bool :=
  if a.node.isSome = b.node.isSome then decide (a.createdAt.toList ≤ b.createdAt.toList)
  else b.node.isSome

/-- The entry that a group keeps: the last of the greatest. -/
def Group.kept (g : Group) : Member :=
  g.others.foldl (fun best m => if keyLe best.2 m.2 then m else best) g.first

/-- The entries that the plan says to delete. -/
def Group.deleted (g : Group) : List Member := g.all.filter fun m => m.1 ≠ g.kept.1

/-- The documents that the call is about, all of them or those it names. -/
def selected (param : String) (docs : List Json) : List Json :=
  if param.isEmpty then docs
  else
    let ids := (param.toList.splitOn ',').map fun id => trim (String.ofList id)
    docs.filter fun doc => ids.contains ((idOf doc).getD "")

/-- The plan of `memory_dedup` for the entries of the window. -/
def plan (env : Env) (param : String) (docs : List Json) : List Group :=
  let entries := selected param docs
  if entries.length < 2 then [] else duplicateGroups (entries.map (normalizeEntry env))

/-! ## What is kept -/

theorem keyLe_refl (a : NormalizedEntry) : keyLe a a = true := by
  unfold keyLe
  rw [if_pos rfl]
  exact decide_eq_true le_rfl

variable {a b : NormalizedEntry} {entries : List NormalizedEntry} {i : Nat}

theorem keyLe_total (h : keyLe a b = false) : keyLe b a = true := by
  unfold keyLe at h ⊢
  split at h
  · rename_i hsame
    rw [if_pos hsame.symm]
    exact decide_eq_true (le_of_not_ge (of_decide_eq_false h))
  · rename_i hdiffer
    rw [if_neg (fun hsame => hdiffer hsame.symm)]
    rw [h] at hdiffer
    exact Bool.not_eq_false _ ▸ hdiffer

theorem keyLe_trans {c : NormalizedEntry} (hab : keyLe a b = true) (hbc : keyLe b c = true) :
    keyLe a c = true := by
  unfold keyLe at hab hbc ⊢
  cases ha : a.node.isSome with
  | false =>
    cases hc : c.node.isSome with
    | true => exact if_neg (by decide)
    | false =>
      cases hb : b.node.isSome with
      | true =>
        rw [hb, hc] at hbc
        cases hbc
      | false =>
        rw [ha, hb, if_pos rfl] at hab
        rw [hb, hc, if_pos rfl] at hbc
        rw [if_pos rfl]
        exact decide_eq_true ((of_decide_eq_true hab).trans (of_decide_eq_true hbc))
  | true =>
    cases hb : b.node.isSome with
    | false =>
      rw [ha, hb] at hab
      cases hab
    | true =>
      cases hc : c.node.isSome with
      | false =>
        rw [hb, hc] at hbc
        cases hbc
      | true =>
        rw [ha, hb, if_pos rfl] at hab
        rw [hb, hc, if_pos rfl] at hbc
        rw [if_pos rfl]
        exact decide_eq_true ((of_decide_eq_true hab).trans (of_decide_eq_true hbc))

/-- The entry kept is one of the group, and none of the group comes after it. -/
theorem kept_spec (others : List Member) : ∀ first : Member,
    let kept := others.foldl (fun best m => if keyLe best.2 m.2 then m else best) first
    kept ∈ first :: others ∧ ∀ m ∈ first :: others, keyLe m.2 kept.2 = true := by
  induction others with
  | nil =>
    intro first
    refine ⟨List.mem_cons_self, fun m hm => ?_⟩
    rw [List.mem_singleton.1 hm]
    exact keyLe_refl first.2
  | cons next others ih =>
    intro first
    rw [List.foldl_cons]
    cases hle : keyLe first.2 next.2 with
    | true =>
      rw [if_pos rfl]
      obtain ⟨hin, hall⟩ := ih next
      refine ⟨List.mem_cons_of_mem first hin, fun m hm => ?_⟩
      rcases List.mem_cons.1 hm with rfl | hm
      · exact keyLe_trans hle (hall next List.mem_cons_self)
      · exact hall m hm
    | false =>
      rw [if_neg Bool.false_ne_true]
      obtain ⟨hin, hall⟩ := ih first
      refine ⟨?_, fun m hm => ?_⟩
      · rcases List.mem_cons.1 hin with hfirst | hlater
        · rw [hfirst]
          exact List.mem_cons_self
        · exact List.mem_cons_of_mem first (List.mem_cons_of_mem next hlater)
      · rcases List.mem_cons.1 hm with rfl | hm
        · exact hall m List.mem_cons_self
        · rcases List.mem_cons.1 hm with rfl | hm
          · exact keyLe_trans (keyLe_total hle) (hall first List.mem_cons_self)
          · exact hall m (List.mem_cons_of_mem first hm)

/-! ## What is in a group -/

/-- One of the texts contains the other. -/
def Overlap (a b : String) : Prop := contains a b = true ∨ contains b a = true

theorem contains_self (a : String) : contains a a = true := by
  have hself := containsList_append [] a.toList []
  rw [List.append_nil, List.nil_append] at hself
  exact hself

theorem overlap_of_joins (h : joins a b = true) :
    Overlap a.normalized b.normalized := by
  unfold joins at h
  rcases Bool.or_eq_true_iff.1 h with heq | hmatch
  · rw [eq_of_beq heq]
    exact Or.inl (contains_self _)
  unfold isSubsetMatch at hmatch
  split at hmatch
  rename_i shorter longer hpair
  split at hpair
  · cases hpair
    exact Or.inr (Bool.and_eq_true_iff.1 hmatch).2
  · cases hpair
    exact Or.inl (Bool.and_eq_true_iff.1 hmatch).2

theorem alike_of_eq (h : a.normalized = b.normalized)
    (hne : a.normalized ≠ "") : Alike eligible joins a b := by
  have hnonempty : ∀ e : NormalizedEntry, e.normalized ≠ "" → eligible e = true := by
    intro e he
    unfold eligible
    rw [Bool.not_eq_true', ← Bool.not_eq_true, String.isEmpty_iff]
    exact he
  refine ⟨hnonempty a hne, hnonempty b (h ▸ hne), ⟨?_, ?_⟩, fun c => ?_⟩
  · exact Bool.or_eq_true_iff.2 (Or.inl (beq_iff_eq.2 h))
  · exact Bool.or_eq_true_iff.2 (Or.inl (beq_iff_eq.2 h.symm))
  · unfold joins
    rw [h]

theorem nodup_numbered (entries : List NormalizedEntry) :
    ((numbered entries).map Prod.fst).Nodup := by
  unfold numbered
  rw [List.map_map]
  have hindex : (Prod.fst ∘ Prod.swap : NormalizedEntry × Nat → Nat) = Prod.snd := rfl
  rw [hindex, List.zipIdx_map_snd]
  exact List.nodup_range'

theorem mem_numbered {e : NormalizedEntry}
    (h : entries[i]? = some e) : (i, e) ∈ numbered entries := by
  have hin : (e, i) ∈ entries.zipIdx := List.mem_zipIdx_iff_getElem?.2 h
  exact List.mem_map.2 ⟨(e, i), hin, rfl⟩

theorem groups_nodup (entries : List NormalizedEntry) :
    ((duplicateGroups entries).flatMap fun g => g.all.map Prod.fst).Nodup := by
  unfold duplicateGroups
  rw [List.flatMap_map]
  exact nodup_groupsFrom (nodup_numbered entries)

theorem groups_overlap {g : Group} (hg : g ∈ duplicateGroups entries) :
    ∀ m ∈ g.all, Overlap g.first.2.normalized m.2.normalized := by
  obtain ⟨found, hfound, rfl⟩ := List.mem_map.1 hg
  intro m hm
  rcases List.mem_cons.1 hm with rfl | hm
  · exact Or.inl (contains_self _)
  · exact overlap_of_joins (joins_of_mem_groupsFrom hfound m hm)

theorem groups_share {j : Nat} (hi : entries[i]? = some a) (hj : entries[j]? = some b) (hne : i ≠ j)
    (heq : a.normalized = b.normalized) (htext : a.normalized ≠ "") :
    ∃ g ∈ duplicateGroups entries, (i, a) ∈ g.all ∧ (j, b) ∈ g.all := by
  have hunused : ∀ k : Nat, k ∉ ([] : List Nat) := fun _ => List.not_mem_nil
  obtain ⟨found, hfound, hshared⟩ := share_groupsFrom (nodup_numbered entries)
    (x := (i, a)) (y := (j, b)) (alike_of_eq heq htext) (mem_numbered hi) (mem_numbered hj) hne
    (hunused i) (hunused j)
  exact ⟨_, List.mem_map_of_mem hfound, hshared⟩

/-! ## The plan -/

/-- The entries that the plan is about. -/
def planned (env : Env) (param : String) (docs : List Json) : List NormalizedEntry :=
  (selected param docs).map (normalizeEntry env)

theorem plan_eq (env : Env) (param : String) (docs : List Json) :
    plan env param docs = duplicateGroups (planned env param docs) ∨
      plan env param docs = [] ∧ (planned env param docs).length < 2 := by
  unfold plan planned
  dsimp only
  split
  · rename_i hfew
    rw [List.length_map]
    exact Or.inr ⟨rfl, hfew⟩
  · exact Or.inl rfl

/-- In every group of the plan each text overlaps with that of the first entry, and the entry
that is kept is one of the group: with a node if any has one, and the newest of those.  An entry
is in one group at most, and entries of one text that is not empty are in one group. -/
theorem dedup_plan (env : Env) (param : String) (docs : List Json) :
    (∀ g ∈ plan env param docs,
      (∀ m ∈ g.all, Overlap g.first.2.normalized m.2.normalized) ∧
      g.kept ∈ g.all ∧
      ∀ m ∈ g.deleted, (m.2.node.isSome = true → g.kept.2.node.isSome = true) ∧
        (m.2.node.isSome = g.kept.2.node.isSome →
          m.2.createdAt.toList ≤ g.kept.2.createdAt.toList)) ∧
    ((plan env param docs).flatMap fun g => g.all.map Prod.fst).Nodup ∧
    ∀ i j a b, i ≠ j → (planned env param docs)[i]? = some a →
      (planned env param docs)[j]? = some b → a.normalized = b.normalized → a.normalized ≠ "" →
      ∃ g ∈ plan env param docs, (i, a) ∈ g.all ∧ (j, b) ∈ g.all := by
  have hkept : ∀ g : Group, g.kept ∈ g.all ∧ ∀ m ∈ g.deleted,
      (m.2.node.isSome = true → g.kept.2.node.isSome = true) ∧
      (m.2.node.isSome = g.kept.2.node.isSome →
        m.2.createdAt.toList ≤ g.kept.2.createdAt.toList) := by
    intro g
    obtain ⟨hin, hall⟩ := kept_spec g.others g.first
    refine ⟨hin, fun m hm => ?_⟩
    have hle : keyLe m.2 g.kept.2 = true := hall m (List.mem_filter.1 hm).1
    unfold keyLe at hle
    split at hle
    · rename_i hsame
      exact ⟨fun hnode => hsame ▸ hnode, fun _ => of_decide_eq_true hle⟩
    · rename_i hdiffer
      exact ⟨fun _ => hle, fun hsame => absurd hsame hdiffer⟩
  rcases plan_eq env param docs with hplan | ⟨hplan, hfew⟩
  · rw [hplan]
    refine ⟨fun g hg => ⟨groups_overlap hg, hkept g⟩, groups_nodup _, ?_⟩
    intro i j a b hne hi hj heq htext
    exact groups_share hi hj hne heq htext
  · rw [hplan]
    refine ⟨nofun, List.nodup_nil, ?_⟩
    intro i j a b hne hi hj _ _
    have hi := (List.getElem?_eq_some_iff.1 hi).1
    have hj := (List.getElem?_eq_some_iff.1 hj).1
    omega

/-! ## The newer, shorter text -/

def memory (id content created : String) : Json :=
  .obj [("_id", .str id), ("content", .str content), ("created_at", .str created)]

/-- Of two memories the newer one is kept, and the text of the older one is not in it. -/
theorem kept_text_shorter :
    ((plan ⟨toAsciiLowercase⟩ "" [memory "e2" "rotate the cert" "2026-10-02",
        memory "e1" "rotate the cert after the restart" "2026-10-01"]).any fun g =>
      g.kept.2.id = "e2" && g.deleted.any fun m =>
        m.2.id = "e1" && !contains g.kept.2.normalized m.2.normalized) = true := by
  decide +kernel

end EmbraOS.Ports.MemoryDedup
