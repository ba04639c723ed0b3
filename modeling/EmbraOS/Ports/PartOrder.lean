import EmbraOS.Verified.Decimal
import EmbraOS.Verified.Timestamps
import EmbraOS.Ports.Dump

/-!
# The parts of a dump, read back by their stem

`PartWriter` (`embra-brain/src/knowledge/removal.rs`) numbers the parts of a set with four digits
or more; `resolve_dump_set` (`knowledge/tools.rs`) lists the directory and sorts what it finds by
name.  The resolver is modelled from the directory listing on.

`parts_read_back_iff` is the main result: the records come back in the order written exactly when
they take no more than 9,999 parts.
-/

namespace EmbraOS.Ports.PartOrder

open Verified
open Verified.Serde
open Verified.Text
open Verified.Timestamps
open Ports.Dump
open Ports.Dump.PartWriter

/-! ## The resolver -/

/-- `found.starts_with(&prefix) && found.ends_with(".jsonl")` -/
def partLike (stem found : String) : Bool :=
  startsWith found (stem ++ "-part") && endsWith found ".jsonl"

/-- The files of a name: the file itself, the one with the extension, or the parts, sorted. -/
def resolveDumpSet (dir : List File) (name : String) : Option (List File) :=
  match dir.find? (fun f => f.name = name) with
  | some f => some [f]
  | none =>
    match dir.find? (fun f => f.name = name ++ ".jsonl") with
    | some f => some [f]
    | none =>
      let parts := sortFiles (dir.filter (fun f => partLike name f.name))
      if parts.isEmpty then none else some parts

/-- The file bears no name that the set of the stem is looked for under. -/
def Apart (stem : String) (f : File) : Prop :=
  f.name ≠ stem ∧ f.name ≠ stem ++ ".jsonl" ∧ partLike stem f.name = false

/-! ## How many parts -/

/-- The parts that lines of these sizes take: one is closed before it grows past the cap, unless
it holds nothing yet.  `head` is the size of the header of each part. -/
def partCount (head : Nat → Nat) (cap : Nat) : (index bytes : Nat) → (holds : Bool) →
    List Nat → Nat
  | index, _, _, [] => index
  | index, bytes, holds, size :: sizes =>
    if 0 < cap ∧ holds = true ∧ cap < bytes + size then
      partCount head cap (index + 1) (head (index + 1) + size) true sizes
    else partCount head cap index (bytes + size) true sizes

section Writer

variable {lineBytes : Json → Nat}

/-- The header of a part. -/
def headerOf (stem : String) (header : Json) (index : Nat) : Json :=
  (header.set "stem" (.str stem)).set "part" (.num (.posInt index))

/-- The parts records take. -/
def partsNeeded (lineBytes : Json → Nat) (stem : String) (header : Json) (cap : Nat)
    (records : List Json) : Nat :=
  partCount (fun i => lineBytes (headerOf stem header i)) cap 1
    (lineBytes (headerOf stem header 1)) false (records.map lineBytes)

/-- What a writer keeps of its parts: their names and headers, and the cap. -/
structure Kept (lineBytes : Json → Nat) (stem : String) (header : Json) (cap : Nat)
    (w : PartWriter) : Prop where
  stem_eq : w.stem = stem
  header_eq : w.header = header
  cap_eq : w.partBytes = cap
  parts : ∀ (i : Nat) (p : Part), w.finish[i]? = some p →
    p.name = partName stem cap (i + 1) ∧ p.header = headerOf stem header (i + 1)
  bytes : ∀ p ∈ w.finish, p.bytes = lineBytes p.header + (p.records.map lineBytes).sum
  small : ∀ p ∈ w.finish, 1 < p.records.length → cap ≠ 0 → p.bytes ≤ cap

variable {stem : String} {header : Json} {cap : Nat} {w : PartWriter}

theorem kept_start : Kept lineBytes stem header cap (start lineBytes stem header cap) where
  stem_eq := rfl
  header_eq := rfl
  cap_eq := rfl
  parts i p hp := by
    cases i with
    | zero =>
      cases hp
      exact ⟨rfl, rfl⟩
    | succ i => cases hp
  bytes p hp := by
    rw [List.mem_singleton.1 hp]
    rfl
  small p hp hmany := by
    rw [List.mem_singleton.1 hp] at hmany
    cases hmany

section

variable (h : Kept lineBytes stem header cap w)
include h

/-- The next part of a writer, with nothing in it. -/
theorem Kept.roll :
    Kept lineBytes stem header cap (roll lineBytes w) where
  stem_eq := h.stem_eq
  header_eq := h.header_eq
  cap_eq := h.cap_eq
  parts i p hp := by
    have hfinish : (PartWriter.roll lineBytes w).finish = w.finish ++
        [nextPart lineBytes w.stem w.partBytes w.header (w.parts.length + 1)] := rfl
    rw [hfinish, List.getElem?_append] at hp
    split at hp
    · exact h.parts i p hp
    have hlen : w.finish.length = w.parts.length + 1 := by simp [finish]
    obtain ⟨hi, hp⟩ := List.getElem?_eq_some_iff.1 hp
    simp only [List.length_singleton] at hi
    have hi' : i = w.parts.length + 1 := by omega
    rw [List.getElem_singleton] at hp
    subst hp hi'
    rw [h.stem_eq, h.header_eq, h.cap_eq]
    exact ⟨rfl, rfl⟩
  bytes p hp := by
    rcases List.mem_append.1 hp with hp | hp
    · exact h.bytes p hp
    · rw [List.mem_singleton.1 hp]
      rfl
  small p hp hmany := by
    rcases List.mem_append.1 hp with hp | hp
    · exact h.small p hp hmany
    · rw [List.mem_singleton.1 hp] at hmany
      cases hmany

/-- A record that fits, or the first of its part. -/
theorem Kept.push {v : Json}
    (hfits : w.current.records = [] ∨ cap = 0 ∨ w.current.bytes + lineBytes v ≤ cap) :
    Kept lineBytes stem header cap (push lineBytes w v) where
  stem_eq := h.stem_eq
  header_eq := h.header_eq
  cap_eq := h.cap_eq
  parts i p hp := by
    have hlast := h.parts w.parts.length w.current (by simp [finish])
    have hfinish : (PartWriter.push lineBytes w v).finish =
        w.parts ++ [(PartWriter.push lineBytes w v).current] := rfl
    rw [hfinish, List.getElem?_append] at hp
    split at hp
    · refine h.parts i p ?_
      rw [finish, List.getElem?_append_left (by assumption), hp]
    · obtain ⟨hi, hp⟩ := List.getElem?_eq_some_iff.1 hp
      simp only [List.length_singleton] at hi
      have hi' : i = w.parts.length := by omega
      rw [List.getElem_singleton] at hp
      subst hp hi'
      exact hlast
  bytes p hp := by
    rcases List.mem_append.1 hp with hp | hp
    · exact h.bytes p (List.mem_append_left _ hp)
    · have hcurrent := h.bytes w.current (List.mem_append_right _ List.mem_cons_self)
      rw [List.mem_singleton.1 hp]
      simp only [PartWriter.push, List.map_append, List.sum_append, hcurrent]
      simp [Nat.add_assoc]
  small p hp hmany hcap := by
    rcases List.mem_append.1 hp with hp | hp
    · exact h.small p (List.mem_append_left _ hp) hmany hcap
    · rw [List.mem_singleton.1 hp] at hmany ⊢
      rcases hfits with hfirst | hzero | hfits
      · simp [PartWriter.push, hfirst] at hmany
      · exact absurd hzero hcap
      · exact hfits

theorem Kept.record (v : Json) :
    Kept lineBytes stem header cap (record lineBytes w v) := by
  unfold PartWriter.record
  split
  · exact h.roll.push (.inl rfl)
  rename_i hroom
  refine h.push ?_
  rw [h.cap_eq] at hroom
  by_cases hfirst : w.current.records = []
  · exact .inl hfirst
  · have hsome : 0 < w.current.records.length := List.length_pos_iff.2 hfirst
    right
    by_cases hzero : cap = 0
    · exact .inl hzero
    · right
      by_contra hover
      exact hroom ⟨Nat.pos_of_ne_zero hzero, hsome, Nat.lt_of_not_le hover⟩

end

theorem kept_foldl (records : List Json) : ∀ w : PartWriter,
    Kept lineBytes stem header cap w →
    Kept lineBytes stem header cap (records.foldl (PartWriter.record lineBytes) w) := by
  induction records with
  | nil => exact fun w h => h
  | cons v records ih => exact fun w h => ih _ (h.record v)

/-- The writer makes the parts the sizes call for. -/
theorem length_foldl (records : List Json) : ∀ w : PartWriter,
    Kept lineBytes stem header cap w →
    (records.foldl (PartWriter.record lineBytes) w).finish.length =
      partCount (fun i => lineBytes (headerOf stem header i)) cap (w.parts.length + 1)
        w.current.bytes (decide (0 < w.current.records.length)) (records.map lineBytes) := by
  induction records with
  | nil =>
    intro w _
    simp [finish, partCount]
  | cons v records ih =>
    intro w h
    rw [List.foldl_cons, ih _ (h.record v), List.map_cons, partCount]
    unfold PartWriter.record
    rw [h.cap_eq]
    by_cases hfull : 0 < cap ∧ 0 < w.current.records.length ∧
        cap < w.current.bytes + lineBytes v
    · rw [if_pos hfull, if_pos ⟨hfull.1, decide_eq_true hfull.2.1, hfull.2.2⟩]
      simp [PartWriter.push, PartWriter.roll, nextPart, headerOf, h.stem_eq, h.header_eq]
    · rw [if_neg hfull, if_neg (by simpa using hfull)]
      simp [PartWriter.push]

end Writer

/-! ## The order of the names -/

theorem digits_zero (w : Nat) : digits w 0 = List.replicate w '0' := by
  induction w with
  | zero => rfl
  | succ w ih =>
    rw [digits, Nat.zero_div, ih, List.replicate_succ']
    rfl

/-- A number padded with zeros to its width. -/
theorem pad_eq_digits (w : Nat) : ∀ n, n < 10 ^ (w + 1) →
    List.replicate (w + 1 - (Nat.toDigits 10 n).length) '0' ++ Nat.toDigits 10 n =
      digits (w + 1) n := by
  induction w with
  | zero =>
    intro n hn
    rw [Nat.toDigits_of_lt_base (by simpa using hn)]
    simp [digits, Nat.mod_eq_of_lt (show n < 10 by simpa using hn)]
  | succ w ih =>
    intro n hn
    by_cases hsmall : n < 10
    · rw [Nat.toDigits_of_lt_base hsmall, digits, Nat.div_eq_of_lt hsmall, digits_zero,
        Nat.mod_eq_of_lt hsmall]
      rfl
    · have hlow : n / 10 < 10 ^ (w + 1) := by
        rw [Nat.div_lt_iff_lt_mul (by decide)]
        simpa [Nat.pow_succ] using hn
      rw [Nat.toDigits_of_base_le (by decide) (Nat.le_of_not_lt hsmall), digits, ← ih _ hlow,
        List.length_append, List.append_assoc]
      simp

theorem toList_fourDigits (n : Nat) : (fourDigits n).toList =
    List.replicate (4 - (Nat.toDigits 10 n).length) '0' ++ Nat.toDigits 10 n := by
  have hrepr : (toString n).toList = Nat.toDigits 10 n := Decimal.toList_repr n
  rw [fourDigits, String.toList_append, String.toList_ofList, ← String.length_toList, hrepr]

theorem toList_fourDigits_of_lt {n : Nat} (h : n < 10000) : (fourDigits n).toList = digits 4 n := by
  rw [toList_fourDigits]
  exact pad_eq_digits 3 n h

/-- Up to four digits, the names come in the order of the numbers. -/
theorem partName_lt (stem : String) {cap i j : Nat} (hcap : cap ≠ 0) (hij : i < j)
    (hj : j < 10000) : partName stem cap i < partName stem cap j := by
  rw [String.lt_iff_toList_lt]
  simp only [partName, if_neg hcap, String.toList_append, List.append_assoc]
  rw [toList_fourDigits_of_lt (by omega), toList_fourDigits_of_lt hj]
  refine append_lt_append _ (append_lt_append _ ?_)
  exact lt_append_of_lt (by simp) (digits_lt (by simpa using hj) hij) _ _

/-- The ten-thousandth part comes before the thousand-and-first. -/
theorem partName_ten_thousand (stem : String) {cap : Nat} (hcap : cap ≠ 0) :
    partName stem cap 10000 < partName stem cap 1001 := by
  rw [String.lt_iff_toList_lt]
  simp only [partName, if_neg hcap, String.toList_append, List.append_assoc, toList_fourDigits]
  refine append_lt_append _ (append_lt_append _ ?_)
  decide +kernel

/-! ## Reading a set back -/

/-- The lines of a file that are records. -/
def block (f : File) : List Json := f.lines.filterMap Line.value?

theorem block_file (p : Part) : block p.file = p.header :: p.records := by
  have hrecords : p.records.filterMap (Line.value? ∘ Line.record) = p.records :=
    List.filterMap_some
  simp [block, Part.file, Line.value?, hrecords]

/-- Blocks that are told apart by their first elements. -/
theorem eq_of_flatMap_eq {α β : Type} {block : α → List β} {S : α → Prop}
    (hhead : ∀ a b, S a → S b → (block a).head? = (block b).head? → a = b)
    (hne : ∀ a, S a → block a ≠ []) : ∀ xs ys : List α, (∀ x ∈ xs, S x) → (∀ y ∈ ys, S y) →
    xs.flatMap block = ys.flatMap block → xs = ys := by
  intro xs
  induction xs with
  | nil =>
    intro ys _ hys h
    cases ys with
    | nil => rfl
    | cons y ys =>
      rw [List.flatMap_nil, List.flatMap_cons] at h
      exact absurd (List.append_eq_nil_iff.1 h.symm).1 (hne y (hys y List.mem_cons_self))
  | cons x xs ih =>
    intro ys hxs hys h
    have hx := hne x (hxs x List.mem_cons_self)
    cases ys with
    | nil =>
      rw [List.flatMap_nil, List.flatMap_cons] at h
      exact absurd (List.append_eq_nil_iff.1 h).1 hx
    | cons y ys =>
      have hy := hne y (hys y List.mem_cons_self)
      rw [List.flatMap_cons, List.flatMap_cons] at h
      have hfirst : (block x).head? = (block y).head? := by
        have := congrArg List.head? h
        rwa [List.head?_append_of_ne_nil _ hx, List.head?_append_of_ne_nil _ hy] at this
      obtain rfl := hhead x y (hxs x List.mem_cons_self) (hys y List.mem_cons_self) hfirst
      rw [ih ys (fun z hz => hxs z (List.mem_cons_of_mem _ hz))
        (fun z hz => hys z (List.mem_cons_of_mem _ hz)) (List.append_cancel_left h)]

section Sets

variable {lineBytes : Json → Nat} {stem : String} {members : List (String × Json)} {cap : Nat}
  {records : List Json}

theorem kept_writeParts (i : Nat) (p : Part)
    (hp : (writeParts lineBytes stem (.obj members) cap records)[i]? = some p) :
    p.name = partName stem cap (i + 1) ∧ p.header = headerOf stem (.obj members) (i + 1) :=
  (kept_foldl records _ kept_start).parts i p hp

theorem length_writeParts : (writeParts lineBytes stem (.obj members) cap records).length =
    partsNeeded lineBytes stem (.obj members) cap records :=
  length_foldl records _ kept_start

/-- A header tells its part. -/
theorem headerOf_injective {i j : Nat}
    (h : headerOf stem (.obj members) i = headerOf stem (.obj members) j) : i = j := by
  have hget : ∀ k, (headerOf stem (.obj members) k).get? "part" = some (.num (.posInt k)) := by
    intro k
    obtain ⟨ms, hms⟩ : ∃ ms, (Json.obj members).set "stem" (.str stem) = .obj ms := ⟨_, rfl⟩
    rw [headerOf, hms, Json.get?_set, if_pos rfl]
  have hboth := (hget i).symm.trans (h ▸ hget j)
  simpa using hboth

/-- The lines of two lists of the set's files are the same only if the files are. -/
theorem files_eq_of_blocks {fs gs : List File}
    (hfs : ∀ f ∈ fs, f ∈ (writeParts lineBytes stem (.obj members) cap records).map Part.file)
    (hgs : ∀ f ∈ gs, f ∈ (writeParts lineBytes stem (.obj members) cap records).map Part.file)
    (h : fs.flatMap block = gs.flatMap block) : fs = gs := by
  refine eq_of_flatMap_eq
    (S := (· ∈ (writeParts lineBytes stem (.obj members) cap records).map Part.file)) ?_ ?_ fs gs
    hfs hgs h
  · intro f g hf hg hhead
    obtain ⟨p, hp, rfl⟩ := List.mem_map.1 hf
    obtain ⟨q, hq, rfl⟩ := List.mem_map.1 hg
    obtain ⟨i, hi⟩ := List.mem_iff_getElem?.1 hp
    obtain ⟨j, hj⟩ := List.mem_iff_getElem?.1 hq
    rw [block_file, block_file, List.head?_cons, List.head?_cons, Option.some.injEq,
      (kept_writeParts i p hi).2, (kept_writeParts j q hj).2] at hhead
    have hij : i = j := by
      have := headerOf_injective hhead
      omega
    subst hij
    rw [hi] at hj
    cases hj
    rfl
  · intro f hf
    obtain ⟨p, -, rfl⟩ := List.mem_map.1 hf
    rw [block_file]
    exact List.cons_ne_nil _ _

/-- Sorting leaves the parts in order exactly when their numbers have four digits. -/
theorem sortFiles_parts_iff (hcap : cap ≠ 0) :
    sortFiles ((writeParts lineBytes stem (.obj members) cap records).map Part.file) =
        (writeParts lineBytes stem (.obj members) cap records).map Part.file ↔
      partsNeeded lineBytes stem (.obj members) cap records < 10000 := by
  rw [← length_writeParts]
  have hname : ∀ i (hi : i < (writeParts lineBytes stem (.obj members) cap records).length),
      ((writeParts lineBytes stem (.obj members) cap records)[i]).file.name =
        partName stem cap (i + 1) :=
    fun i hi => (kept_writeParts i _ (List.getElem?_eq_getElem hi)).1
  constructor
  · intro hsorted
    by_contra hmany
    have hpairs : (sortFiles ((writeParts lineBytes stem (.obj members) cap records).map
        Part.file)).Pairwise (fun a b => decide (a.name ≤ b.name) = true) :=
      List.pairwise_mergeSort (by simpa using fun a b c => le_trans)
        (by simpa using fun a b => le_total _ _) _
    rw [hsorted, List.pairwise_map, List.pairwise_iff_getElem] at hpairs
    have hle := hpairs 1000 9999 (by omega) (by omega) (by decide)
    rw [hname, hname, decide_eq_true_eq] at hle
    exact absurd (partName_ten_thousand stem hcap) (String.not_lt.2 hle)
  · intro hfew
    refine List.mergeSort_of_pairwise ?_
    rw [List.pairwise_map, List.pairwise_iff_getElem]
    intro i j hi hj hij
    rw [hname, hname, decide_eq_true_eq]
    exact le_of_lt (partName_lt stem hcap (by omega) (by omega))

theorem partCount_zero (head : Nat → Nat) (sizes : List Nat) : ∀ index bytes holds,
    partCount head 0 index bytes holds sizes = index := by
  induction sizes with
  | nil => exact fun _ _ _ => rfl
  | cons size sizes ih =>
    intro index bytes holds
    rw [partCount, if_neg (by simp)]
    exact ih _ _ _

/-- No part is named like the whole set. -/
theorem partName_names (stem : String) (i : Nat) :
    partName stem cap i ≠ stem ∧
      (cap ≠ 0 → partName stem cap i ≠ stem ++ ".jsonl" ∧
        partLike stem (partName stem cap i) = true) := by
  have hne : ∀ x : String, 0 < x.toList.length → stem ++ x ≠ stem := by
    intro x hx h
    have := congrArg (fun t : String => t.toList.length) h
    simp only [String.toList_append, List.length_append] at this
    omega
  constructor
  · unfold partName
    split
    · exact hne ".jsonl" (by decide)
    · rw [String.append_assoc, String.append_assoc]
      refine hne _ ?_
      rw [String.toList_append, List.length_append]
      exact Nat.add_pos_left (by decide) _
  · intro hcap
    rw [partName, if_neg hcap]
    constructor
    · intro h
      have hlist := congrArg String.toList h
      simp only [String.toList_append, List.append_assoc, List.append_cancel_left_eq] at hlist
      exact absurd hlist (by simp)
    · have hend : ".jsonl".toList <:+ (stem ++ "-part" ++ fourDigits i ++ ".jsonl").toList :=
        ⟨(stem ++ "-part" ++ fourDigits i).toList, by simp⟩
      have hbegin : (stem ++ "-part").toList <+:
          (stem ++ "-part" ++ fourDigits i ++ ".jsonl").toList :=
        ⟨(fourDigits i ++ ".jsonl").toList, by simp⟩
      rw [partLike, startsWith, endsWith, List.isPrefixOf_iff_prefix.2 hbegin,
        List.isSuffixOf_iff_suffix.2 hend]
      rfl

/-- What the stem of a set resolves to, among files of other names. -/
theorem resolveDumpSet_parts {others : List File} (hothers : ∀ f ∈ others, Apart stem f) :
    resolveDumpSet
        (others ++ (writeParts lineBytes stem (.obj members) cap records).map Part.file) stem =
      some (if cap = 0 then (writeParts lineBytes stem (.obj members) cap records).map Part.file
        else sortFiles ((writeParts lineBytes stem (.obj members) cap records).map Part.file)) := by
  generalize hparts : writeParts lineBytes stem (.obj members) cap records = parts
  have hlength : parts.length = partsNeeded lineBytes stem (.obj members) cap records := by
    rw [← hparts, length_writeParts]
  have hname : ∀ f ∈ parts.map Part.file, ∃ i, f.name = partName stem cap i := by
    intro f hf
    obtain ⟨p, hp, rfl⟩ := List.mem_map.1 hf
    obtain ⟨i, hi⟩ := List.mem_iff_getElem?.1 hp
    rw [← hparts] at hi
    exact ⟨_, (kept_writeParts i p hi).1⟩
  have hnone : (others ++ parts.map Part.file).find? (fun f => f.name = stem) = none := by
    rw [List.find?_eq_none]
    intro f hf
    rw [decide_eq_true_eq]
    rcases List.mem_append.1 hf with hf | hf
    · exact (hothers f hf).1
    · obtain ⟨i, hi⟩ := hname f hf
      rw [hi]
      exact (partName_names stem i).1
  have hothers' : others.find? (fun f => f.name = stem ++ ".jsonl") = none := by
    rw [List.find?_eq_none]
    intro f hf
    simpa using (hothers f hf).2.1
  rw [resolveDumpSet, hnone]
  simp only [List.find?_append, hothers', Option.none_or]
  by_cases hcap : cap = 0
  · -- one file, named like the set
    rw [if_pos hcap]
    have hone : parts.length = 1 := by
      rw [hlength, partsNeeded, hcap, partCount_zero]
    obtain ⟨p, rfl⟩ := List.length_eq_one_iff.1 hone
    obtain ⟨i, hi⟩ := hname p.file (by simp)
    have hfile : p.file.name = stem ++ ".jsonl" := by rw [hi, partName, if_pos hcap]
    simp [hfile]
  · rw [if_neg hcap]
    have hfind : (parts.map Part.file).find? (fun f => f.name = stem ++ ".jsonl") = none := by
      rw [List.find?_eq_none]
      intro f hf
      obtain ⟨i, hi⟩ := hname f hf
      rw [hi, decide_eq_true_eq]
      exact ((partName_names stem i).2 hcap).1
    have hfilter : (others ++ parts.map Part.file).filter (fun f => partLike stem f.name) =
        parts.map Part.file := by
      rw [List.filter_append, List.filter_eq_nil_iff.2, List.nil_append, List.filter_eq_self]
      · intro f hf
        obtain ⟨i, hi⟩ := hname f hf
        rw [hi]
        exact ((partName_names stem i).2 hcap).2
      · intro f hf
        simp [(hothers f hf).2.2]
    have hsome : 0 < (sortFiles (parts.map Part.file)).length := by
      rw [sortFiles, List.length_mergeSort, List.length_map, ← hparts]
      exact List.length_pos_iff.2 (List.append_ne_nil_of_right_ne_nil _ (List.cons_ne_nil _ _))
    rw [hfind, hfilter]
    simp only
    rw [if_neg]
    simpa using List.length_pos_iff.1 hsome

/-- The set of a stem is read in the order it was written exactly when its parts have numbers of
four digits, or there is one file. -/
theorem read_back_iff {others : List File} (hothers : ∀ f ∈ others, Apart stem f) :
    (∃ files, resolveDumpSet
        (others ++ (writeParts lineBytes stem (.obj members) cap records).map Part.file) stem =
          some files ∧
      values (Dump.records files) =
        (writeParts lineBytes stem (.obj members) cap records).flatMap
          (fun p => p.header :: p.records)) ↔
      cap = 0 ∨ partsNeeded lineBytes stem (.obj members) cap records < 10000 := by
  have hblocks : (writeParts lineBytes stem (.obj members) cap records).flatMap
      (fun p => p.header :: p.records) =
        ((writeParts lineBytes stem (.obj members) cap records).map Part.file).flatMap block := by
    rw [List.flatMap_map]
    congr 1
    funext p
    exact (block_file p).symm
  rw [resolveDumpSet_parts hothers, hblocks]
  simp only [Option.some.injEq, exists_eq_left', values_records]
  by_cases hcap : cap = 0
  · rw [if_pos hcap]
    exact iff_of_true rfl (.inl hcap)
  · rw [if_neg hcap, or_iff_right hcap, ← sortFiles_parts_iff hcap]
    constructor
    · intro h
      exact files_eq_of_blocks (fun f hf => List.mem_mergeSort.1 hf) (fun f hf => hf) h
    · intro h
      rw [h]
      rfl

/-- For every sequence of records and every part size, next to files of other names: the parts read
back by their stem are the records in the order written, each once and in one part, and a part
with more than one record is within the size, exactly when the records take at most 9,999 parts
or are written as one file. -/
theorem parts_read_back_iff (lineBytes : Json → Nat) (stem : String)
    (members : List (String × Json)) (cap : Nat) (records : List Json) (others : List File)
    (hothers : ∀ f ∈ others, Apart stem f) :
    (∃ files, resolveDumpSet
        (others ++ (writeParts lineBytes stem (.obj members) cap records).map Part.file) stem =
          some files ∧
      values (Dump.records files) =
        (writeParts lineBytes stem (.obj members) cap records).flatMap
          (fun p => p.header :: p.records)) ∧
    (writeParts lineBytes stem (.obj members) cap records).flatMap Part.records = records ∧
    (∀ p ∈ writeParts lineBytes stem (.obj members) cap records, 1 < p.records.length → cap ≠ 0 →
      lineBytes p.header + (p.records.map lineBytes).sum ≤ cap) ↔
    cap = 0 ∨ partsNeeded lineBytes stem (.obj members) cap records < 10000 := by
  rw [read_back_iff hothers, and_iff_left]
  refine ⟨payload_writeParts stem (.obj members) cap records, ?_⟩
  intro p hp hmany hcap
  have hstart : Kept lineBytes stem (.obj members) cap (start lineBytes stem (.obj members) cap) :=
    kept_start
  have hkept := kept_foldl records _ hstart
  rw [← hkept.bytes p hp]
  exact hkept.small p hp hmany hcap

/-- The lines of these sets: `{}`, and the headers of the stem `s`. -/
def demoLine : Json → Nat
  | .obj [("stem", .str "s"), ("part", .num (.posInt i))] => 21 + (Nat.toDigits 10 i).length
  | _ => 3

/-- Two records in parts of one byte. -/
theorem parts_read_back_iff_two :
    ∃ files, resolveDumpSet
        ([] ++ (writeParts demoLine "s" (.obj []) 1 [.obj [], .obj []]).map Part.file) "s" =
          some files ∧
      values (Dump.records files) =
        (writeParts demoLine "s" (.obj []) 1 [.obj [], .obj []]).flatMap
          (fun p => p.header :: p.records) :=
  ((parts_read_back_iff demoLine "s" [] 1 [.obj [], .obj []] []
    (fun _ h => absurd h List.not_mem_nil)).2 (.inr (by decide +kernel))).1

/-- Every record but the first takes a part of its own. -/
theorem partCount_threes (head : Nat → Nat) (n : Nat) : ∀ index bytes,
    partCount head 1 index bytes true (List.replicate n 3) = index + n := by
  induction n with
  | zero => exact fun _ _ => rfl
  | succ n ih =>
    intro index bytes
    rw [List.replicate_succ, partCount, if_pos ⟨by decide, rfl, by omega⟩, ih]
    omega

/-- Ten thousand records in parts of one byte. -/
theorem ten_thousand_parts :
    ¬∃ files, resolveDumpSet
        ([] ++ (writeParts demoLine "s" (.obj []) 1 (List.replicate 10000 (.obj []))).map
          Part.file) "s" = some files ∧
      values (Dump.records files) =
        (writeParts demoLine "s" (.obj []) 1 (List.replicate 10000 (.obj []))).flatMap
          (fun p => p.header :: p.records) := by
  rw [read_back_iff (fun _ h => absurd h List.not_mem_nil), partsNeeded, List.map_replicate,
    List.replicate_succ, partCount, if_neg (by simp), show demoLine (.obj []) = 3 from rfl,
    partCount_threes]
  decide

end Sets

end EmbraOS.Ports.PartOrder
