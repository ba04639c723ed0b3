import Mathlib
import EmbraOS.Verified.FileCalls

/-!
# Walks and the links on them

`lexFrom` reads a path by its names alone: a `..` takes off the name before it.  The system goes up
from where a link has led instead.  `firstLink` is the first link on a path; without one the walk
leads where the names say (`resolve_lexFrom`), and with one the walk is that of the link's target
and what is left (`resolve_firstLink`).

A walk that leads somewhere leads there still when the tree has grown, when more links may be
followed and when trivial segments are left out (`resolve_mono`).
-/

namespace EmbraOS.Verified.FileTree

open Verified.UnixPath

/-- One name of a path, by the text. -/
def lexStep (cur : Loc) (seg : String) : Loc := if seg = ".." then cur.dropLast else cur ++ [seg]

/-- Where a path leads from a location, by the text. -/
def lexFrom (cur : Loc) (s : Path) : Loc := (components s).foldl lexStep cur

theorem lexFrom_append (cur : Loc) (s t : Path) :
    lexFrom cur (s ++ t) = lexFrom (lexFrom cur s) t := by
  rw [lexFrom, components_append, List.foldl_append]
  rfl

/-- Names that do not go up are appended. -/
theorem lexFrom_names {s : Path} (h : ".." ∉ s) (cur : Loc) :
    lexFrom cur s = cur ++ components s := by
  induction s generalizing cur with
  | nil => simp [lexFrom]
  | cons seg rest ih =>
    have hseg : seg ≠ ".." := fun heq => h (heq ▸ List.mem_cons_self)
    have hrest := ih (fun hmem => h (List.mem_cons_of_mem _ hmem))
    rw [lexFrom, components_cons]
    split
    · exact hrest cur
    · rw [List.foldl_cons, lexStep, if_neg hseg]
      exact (hrest _).trans (by simp)

/-- The places that a path names, by the text, each with what is left of the path behind it. -/
def visits : Loc → Path → List (Loc × Path)
  | _, [] => []
  | cur, seg :: rest =>
    if isTrivial seg then visits cur rest
    else if seg = ".." then visits cur.dropLast rest
    else (cur ++ [seg], rest) :: visits (cur ++ [seg]) rest

/-- Where the walk of a link's target begins. -/
def linkStart (loc : Loc) (target : String) : Loc :=
  if "/".toList.isPrefixOf target.toList then [] else loc.dropLast

namespace Tree

variable (fs : Tree)

/-- The first link on a path: where it is, its target and what is left of the path. -/
def firstLink : Loc → Path → Option (Loc × String × Path)
  | _, [] => none
  | cur, seg :: rest =>
    if fs.entry cur ≠ some .dir then none
    else if isTrivial seg then firstLink cur rest
    else if seg = ".." then firstLink cur.dropLast rest
    else
      match fs.entry (cur ++ [seg]) with
      | none => none
      | some (.link target) => some (cur ++ [seg], target, rest)
      | some _ => firstLink (cur ++ [seg]) rest

variable {fs}

variable {onLink : Loc → Path → Except Errno Loc} {cur d loc : Loc} {rest s : Path}
  {target : String} {links : Nat}

/-- What one name does to a walk that follows every link. -/
private theorem step_cons_ok {seg : String} :
    step fs true onLink cur (seg :: rest) = .ok d ↔ fs.entry cur = some .dir ∧
      (isTrivial seg = true ∧ step fs true onLink cur rest = .ok d ∨
        isTrivial seg = false ∧ seg = ".." ∧ step fs true onLink cur.dropLast rest = .ok d ∨
        isTrivial seg = false ∧ seg ≠ ".." ∧
          ((∃ e, fs.entry (cur ++ [seg]) = some e ∧ (∀ target, e ≠ .link target) ∧
              step fs true onLink (cur ++ [seg]) rest = .ok d) ∨
            ∃ target, fs.entry (cur ++ [seg]) = some (.link target) ∧ target ≠ "" ∧
              onLink (linkStart (cur ++ [seg]) target) (segments target ++ rest) = .ok d)) := by
  rw [step]
  simp only [linkStart, List.dropLast_concat]
  by_cases hdir : fs.entry cur = some .dir
  · cases hseg : isTrivial seg with
    | true => simp [hdir]
    | false =>
      by_cases hup : seg = ".."
      · simp [hdir, hup]
      · cases he : fs.entry (cur ++ [seg]) with
        | none => simp [hdir, hup]
        | some e =>
          cases e with
          | link target => by_cases htarget : target = "" <;> simp [hdir, hup, htarget]
          | file | dir => simp [hdir, hup]
  · simp [hdir]

private theorem step_lexFrom (s : Path) :
    ∀ cur, fs.firstLink cur s = none → step fs true onLink cur s = .ok d →
      d = lexFrom cur s := by
  induction s with
  | nil =>
    intro cur _ h
    exact (Except.ok.inj h).symm
  | cons seg rest ih =>
    intro cur hnone h
    obtain ⟨hdir, hcases⟩ := step_cons_ok.1 h
    rw [firstLink, if_neg (not_not.2 hdir)] at hnone
    rw [lexFrom, components_cons]
    rcases hcases with ⟨hseg, hrest⟩ | ⟨hseg, hup, hrest⟩ | ⟨hseg, hup, hname⟩
    · rw [if_pos hseg] at hnone ⊢
      exact ih cur hnone hrest
    · rw [hseg, if_neg Bool.false_ne_true, if_pos hup] at hnone
      rw [hseg, if_neg Bool.false_ne_true, List.foldl_cons, lexStep, if_pos hup]
      exact ih _ hnone hrest
    · rw [hseg, if_neg Bool.false_ne_true, if_neg hup] at hnone
      rw [hseg, if_neg Bool.false_ne_true, List.foldl_cons, lexStep, if_neg hup]
      rcases hname with ⟨e, he, hlink, hrest⟩ | ⟨target, htarget, -⟩
      · rw [he] at hnone
        cases e with
        | link target => exact absurd rfl (hlink target)
        | file | dir => exact ih _ hnone hrest
      · rw [htarget] at hnone
        cases hnone

/-- Up to its first link a path is what it says, and so is the walk of it. -/
private theorem step_firstLink (onLink : Loc → Path → Except Errno Loc) (s : Path) : ∀ cur,
    fs.firstLink cur s = some (loc, target, rest) →
      fs.entry loc = some (.link target) ∧ lexFrom cur s = lexFrom loc rest ∧
        step fs true onLink cur s =
          if target = "" then .error .enoent
          else onLink (linkStart loc target) (segments target ++ rest) := by
  induction s with
  | nil =>
    exact nofun
  | cons seg tail ih =>
    intro cur h
    rw [firstLink] at h
    rw [step, lexFrom, components_cons]
    split at h
    · cases h
    rename_i hdir
    rw [if_neg hdir]
    split at h
    · rename_i htriv
      rw [if_pos htriv, if_pos htriv]
      exact ih cur h
    · rename_i htriv
      rw [if_neg htriv, if_neg htriv, List.foldl_cons, lexStep]
      split at h
      · rename_i hup
        rw [if_pos hup, if_pos hup]
        exact ih _ h
      · rename_i hup
        rw [if_neg hup, if_neg hup]
        cases he : fs.entry (cur ++ [seg]) with
        | none =>
          rw [he] at h
          cases h
        | some e =>
          rw [he] at h
          cases e with
          | link target' =>
            obtain ⟨rfl, rfl, rfl⟩ :
                cur ++ [seg] = loc ∧ target' = target ∧ tail = rest := by
              simpa using h
            refine ⟨he, rfl, ?_⟩
            rw [linkStart, List.dropLast_concat]
            simp
          | file | dir => exact ih _ h

theorem mem_visits_of_firstLink (s : Path) : ∀ cur,
    fs.firstLink cur s = some (loc, target, rest) → (loc, rest) ∈ visits cur s := by
  induction s with
  | nil => exact nofun
  | cons seg tail ih =>
    intro cur h
    rw [firstLink] at h
    rw [visits]
    split at h
    · cases h
    split at h
    · rename_i htriv
      rw [if_pos htriv]
      exact ih cur h
    rename_i htriv
    rw [if_neg htriv]
    split at h
    · rename_i hup
      rw [if_pos hup]
      exact ih _ h
    rename_i hup
    rw [if_neg hup]
    split at h
    · cases h
    · obtain ⟨rfl, -, rfl⟩ : cur ++ [seg] = loc ∧ _ = target ∧ tail = rest := by simpa using h
      exact List.mem_cons_self
    · exact List.mem_cons_of_mem _ (ih _ h)

theorem lexFrom_firstLink (h : fs.firstLink cur s = some (loc, target, rest)) :
    lexFrom cur s = lexFrom loc rest :=
  (step_firstLink (fun _ _ => .error .eloop) s cur h).2.1

/-- Without a link on it a path leads where its names say. -/
theorem resolve_lexFrom (hnone : fs.firstLink cur s = none)
    (h : resolve fs true links cur s = .ok d) : d = lexFrom cur s := by
  cases links with
  | zero => exact step_lexFrom s cur hnone h
  | succ links => exact step_lexFrom s cur hnone h

/-- From the first link on, the walk is that of its target. -/
theorem resolve_firstLink (hfirst : fs.firstLink cur s = some (loc, target, rest))
    (h : resolve fs true links cur s = .ok d) :
    fs.entry loc = some (.link target) ∧ target ≠ "" ∧ ∃ left, left < links ∧
      resolve fs true left (linkStart loc target) (segments target ++ rest) = .ok d := by
  cases links with
  | zero =>
    obtain ⟨-, -, hstep⟩ := step_firstLink (fun _ _ => .error .eloop) s cur hfirst
    rw [resolve, hstep] at h
    split at h <;> cases h
  | succ links =>
    obtain ⟨hentry, -, hstep⟩ := step_firstLink (resolve fs true links) s cur hfirst
    rw [resolve, hstep] at h
    split at h
    · cases h
    · rename_i htarget
      exact ⟨hentry, htarget, links, Nat.lt_succ_self links, h⟩

/-! ## What does not change a walk -/

/-- A path, and the path without some of its trivial segments. -/
inductive Thin : Path → Path → Prop
  | nil : Thin [] []
  | keep (seg : String) {s t : Path} (h : Thin s t) : Thin (seg :: s) (seg :: t)
  | drop {seg : String} (hseg : isTrivial seg = true) {s t : Path} (h : Thin s t) :
      Thin (seg :: s) t

theorem Thin.refl (s : Path) : Thin s s := by
  induction s with
  | nil => exact .nil
  | cons seg s ih => exact .keep seg ih

theorem Thin.append_left {t : Path} (h : Thin s t) (r : Path) : Thin (r ++ s) (r ++ t) := by
  induction r with
  | nil => exact h
  | cons seg r ih => exact .keep seg ih

theorem thin_components (s : Path) : Thin s (components s) := by
  induction s with
  | nil => exact .nil
  | cons seg s ih =>
    rw [components_cons]
    split
    · rename_i hseg
      exact .drop hseg ih
    · exact .keep seg ih

/-- What is in the one tree is in the other. -/
def Extends (fs fs' : Tree) : Prop := ∀ q e, fs.entry q = some e → fs'.entry q = some e

theorem Extends.refl (fs : Tree) : Extends fs fs := fun _ _ h => h

private theorem step_mono {fs fs' : Tree} (hext : Extends fs fs')
    {onLink' : Loc → Path → Except Errno Loc}
    (hon : ∀ cur s t, Thin s t → onLink cur s = .ok d → onLink' cur t = .ok d) {t : Path}
    (hthin : Thin s t) : ∀ cur, step fs true onLink cur s = .ok d →
      step fs' true onLink' cur t = .ok d := by
  induction hthin with
  | nil => exact fun cur h => h
  | @drop seg hseg s t _ ih =>
    intro cur h
    obtain ⟨-, hcases⟩ := step_cons_ok.1 h
    rcases hcases with ⟨-, hrest⟩ | ⟨hno, -⟩ | ⟨hno, -⟩
    · exact ih cur hrest
    · rw [hseg] at hno
      cases hno
    · rw [hseg] at hno
      cases hno
  | @keep seg s t hst ih =>
    intro cur h
    obtain ⟨hdir, hcases⟩ := step_cons_ok.1 h
    refine step_cons_ok.2 ⟨hext _ _ hdir, ?_⟩
    rcases hcases with ⟨hseg, hrest⟩ | ⟨hseg, hup, hrest⟩ | ⟨hseg, hup, hname⟩
    · exact Or.inl ⟨hseg, ih cur hrest⟩
    · exact Or.inr (Or.inl ⟨hseg, hup, ih _ hrest⟩)
    · refine Or.inr (Or.inr ⟨hseg, hup, ?_⟩)
      rcases hname with ⟨e, he, hlink, hrest⟩ | ⟨target, htarget, hne, hon'⟩
      · exact Or.inl ⟨e, hext _ _ he, hlink, ih _ hrest⟩
      · exact Or.inr ⟨target, hext _ _ htarget, hne, hon _ _ _ (hst.append_left _) hon'⟩

theorem resolve_mono {fs fs' : Tree} (hext : Extends fs fs') {more : Nat}
    (hle : links ≤ more) : ∀ {cur : Loc} {s t : Path}, Thin s t →
      resolve fs true links cur s = .ok d → resolve fs' true more cur t = .ok d := by
  induction links generalizing more with
  | zero =>
    intro cur s t hthin h
    cases more with
    | zero => exact step_mono hext (by simp) hthin cur h
    | succ more => exact step_mono hext (by simp) hthin cur h
  | succ links ih =>
    intro cur s t hthin h
    obtain ⟨more, rfl⟩ : ∃ n, more = n + 1 := ⟨more - 1, by omega⟩
    have hon : ∀ cur s t, Thin s t → resolve fs true links cur s = .ok d →
        resolve fs' true more cur t = .ok d := fun _ _ _ => ih (by omega)
    exact step_mono hext hon hthin cur h

/-! ## The walk to a link -/

theorem canonical_of_dir (h : fs.entry loc = some .dir) : Canonical fs loc := by
  rintro q ⟨rest, rfl⟩
  refine ⟨.dir, ?_, nofun⟩
  by_cases hrest : rest = []
  · rwa [hrest, List.append_nil] at h
  · exact dir_of_append hrest (by rw [h]; simp)

/-- A name in a directory. -/
theorem plain_of_dir {p : Path} {name : String} (hdots : ".." ∉ p)
    (h : fs.entry (components p) = some .dir) (hname : ValidName name) :
    Plain fs (p ++ [name]) := by
  have hcomps : components (p ++ [name]) = components p ++ [name] := by
    rw [components_append, components_eq_self (p := [name]) (by simpa using hname.not_trivial)]
  refine ⟨by simpa [hdots] using Ne.symm hname.2.2.1, ?_⟩
  rw [hcomps]
  rintro q hq hne ⟨target, htarget⟩
  rcases List.prefix_concat_iff.1 hq with heq | hq
  · exact hne heq
  · obtain ⟨e, he, hlink⟩ := canonical_of_dir h q hq
    exact hlink target (Option.some.inj (he.symm.trans htarget))

/-- A path to a link leads where its target leads. -/
theorem resolve_link {p : Path} {name : String}
    (hentry : fs.entry (components p ++ [name]) = some (.link target)) (htarget : target ≠ "") :
    resolve fs true (links + 1) [] (p ++ name :: rest) =
      resolve fs true links (linkStart (components p ++ [name]) target)
        (segments target ++ rest) := by
  have hsome : fs.entry (components p ++ [name]) ≠ none := by rw [hentry]; simp
  have hdir := dir_of_entry hsome
  have hvalid := validName_of_entry hsome
  rw [resolve_names p [] (by simpa using hdir), List.nil_append, resolve, step,
    if_neg (by simp [hdir]), if_neg (by simp [hvalid.not_trivial]), if_neg hvalid.2.2.1, hentry,
    linkStart, List.dropLast_concat]
  simp [htarget]

end Tree

end EmbraOS.Verified.FileTree
