import Mathlib.Data.List.DropRight
import EmbraOS.Verified.Text

/-!
# Absolute paths

An absolute path as the segments of its text between the slashes, the empty
ones and the dots among them: what a system call is given.  The components
are what a path library reads off it, and a path that ends in an empty segment
or a dot names the same components as the one without it, but to the system it
is a directory's.

`parent?_eq_some` splits a path at its last component.
-/

namespace EmbraOS.Verified.UnixPath

open Verified.Text

abbrev Path := List String

/-- Split at every slash. -/
def splitSlash : List Char → List (List Char)
  | [] => [[]]
  | c :: cs =>
    if c = '/' then [] :: splitSlash cs
    else
      match splitSlash cs with
      | [] => [[c]]
      | s :: ss => (c :: s) :: ss

def segments (text : String) : List String :=
  (splitSlash text.toList).map String.ofList

/-- The path of a text that starts with a slash. -/
def ofText (text : String) : Path := (segments text).tail

def text (p : Path) : String := "/" ++ join "/" p

/-- A segment that names nothing. -/
def isTrivial (s : String) : Bool := s = "" ∨ s = "."

def components (p : Path) : List String := p.filter (fun s => !isTrivial s)

def dropTrailing (p : Path) : Path := p.rdropWhile isTrivial

/-- `Path::parent`. -/
def parent? (p : Path) : Option Path :=
  if components p = [] then none else some (dropTrailing (dropTrailing p).dropLast)

/-- `Path::file_name`. -/
def fileName? (p : Path) : Option String :=
  (components p).getLast?.filter (fun name => name ≠ "..")

/-- `Path::starts_with`. -/
def startsWith (p q : Path) : Bool := (components q).isPrefixOf (components p)

/-- What follows the first `n` components. -/
def dropComponents : Nat → Path → Path
  | 0, p => p
  | _, [] => []
  | n + 1, s :: p =>
    if isTrivial s then dropComponents (n + 1) p else dropComponents n p

/-- `Path::strip_prefix`; what is left has no trivial segment at either end. -/
def stripPrefix? (p q : Path) : Option Path :=
  if startsWith p q then
    some (dropTrailing ((dropComponents (components q).length p).dropWhile isTrivial))
  else none

/-! ## Components -/

@[simp] theorem components_nil : components [] = [] := rfl

@[simp] theorem components_append (p q : Path) :
    components (p ++ q) = components p ++ components q :=
  List.filter_append p q

theorem components_eq_nil {p : Path} (h : ∀ s ∈ p, isTrivial s = true) :
    components p = [] := by
  simpa [components, List.filter_eq_nil_iff] using h

theorem components_eq_self {p : Path} (h : ∀ s ∈ p, isTrivial s = false) :
    components p = p := by
  simpa [components, List.filter_eq_self] using h

theorem components_cons (s : String) (p : Path) :
    components (s :: p) = if isTrivial s then components p else s :: components p := by
  cases h : isTrivial s <;> simp [components, h]

/-- A path is its trimmed form and trivial segments. -/
theorem exists_dropTrailing (p : Path) :
    ∃ tail, p = dropTrailing p ++ tail ∧ ∀ s ∈ tail, isTrivial s = true := by
  refine ⟨p.rtakeWhile isTrivial, ?_, fun s hs => List.mem_rtakeWhile_imp hs⟩
  exact (List.rdropWhile_append_rtakeWhile).symm

@[simp] theorem components_dropTrailing (p : Path) :
    components (dropTrailing p) = components p := by
  obtain ⟨tail, hp, htail⟩ := exists_dropTrailing p
  conv_rhs => rw [hp]
  rw [components_append, components_eq_nil htail, List.append_nil]

/-- A path with a component: its parent, the component, and trivial segments. -/
theorem parent?_eq_some {p q : Path} (h : parent? p = some q) :
    ∃ triv name tail, p = q ++ triv ++ [name] ++ tail ∧
      dropTrailing p = q ++ triv ++ [name] ∧ isTrivial name = false ∧
      (∀ s ∈ triv, isTrivial s = true) ∧ ∀ s ∈ tail, isTrivial s = true := by
  unfold parent? at h
  split at h
  · cases h
  rename_i hsome
  obtain rfl := Option.some.inj h
  have hne : dropTrailing p ≠ [] := by
    intro hnil
    rw [← components_dropTrailing, hnil] at hsome
    exact hsome rfl
  obtain ⟨tail, hp, htail⟩ := exists_dropTrailing p
  obtain ⟨triv, hq, htriv⟩ := exists_dropTrailing (dropTrailing p).dropLast
  have htrim : dropTrailing p =
      dropTrailing (dropTrailing p).dropLast ++ triv ++ [(dropTrailing p).getLast hne] := by
    rw [← hq]
    exact (List.dropLast_append_getLast hne).symm
  refine ⟨triv, (dropTrailing p).getLast hne, tail, ?_, htrim, ?_, htriv, htail⟩
  · rw [← htrim]
    exact hp
  · rw [← Bool.not_eq_true]
    exact List.rdropWhile_last_not isTrivial p hne

/-- A parent has no trivial end. -/
theorem dropTrailing_parent {p q : Path} (h : parent? p = some q) :
    dropTrailing q = q := by
  unfold parent? at h
  split at h
  · cases h
  · obtain rfl := Option.some.inj h
    exact List.rdropWhile_idempotent isTrivial _

theorem components_parent {p q : Path} (h : parent? p = some q) :
    ∃ name, components p = components q ++ [name] := by
  obtain ⟨triv, name, tail, rfl, -, hname, htriv, htail⟩ := parent?_eq_some h
  refine ⟨name, ?_⟩
  simp only [components_append, components_eq_nil htriv, components_eq_nil htail,
    List.append_nil]
  rw [components_cons, hname]
  rfl

theorem components_dropComponents (p : Path) :
    ∀ n, components (dropComponents n p) = (components p).drop n := by
  induction p with
  | nil => intro n; cases n <;> rfl
  | cons s p ih =>
    intro n
    cases n with
    | zero => rfl
    | succ n =>
      rw [dropComponents, components_cons]
      split
      · exact ih (n + 1)
      · exact ih n

theorem components_dropWhile (p : Path) :
    components (p.dropWhile isTrivial) = components p := by
  induction p with
  | nil => rfl
  | cons s p ih =>
    rw [List.dropWhile_cons, components_cons]
    split
    · exact ih
    · rw [components_cons, if_neg (by assumption)]

theorem components_stripPrefix {p q r : Path} (h : stripPrefix? p q = some r) :
    components p = components q ++ components r := by
  unfold stripPrefix? at h
  split at h
  · rename_i hstarts
    obtain rfl := Option.some.inj h
    obtain ⟨rest, hrest⟩ := List.isPrefixOf_iff_prefix.1 hstarts
    rw [components_dropTrailing, components_dropWhile, components_dropComponents, ← hrest,
      List.drop_left]
  · cases h

private theorem mem_dropComponents {s : String} (p : Path) :
    ∀ n, s ∈ dropComponents n p → s ∈ p := by
  induction p with
  | nil => intro n h; cases n <;> cases h
  | cons seg p ih =>
    intro n h
    cases n with
    | zero => exact h
    | succ n =>
      rw [dropComponents] at h
      split at h
      · exact List.mem_cons_of_mem _ (ih _ h)
      · exact List.mem_cons_of_mem _ (ih _ h)

theorem mem_stripPrefix {p q r : Path} (h : stripPrefix? p q = some r) {s : String}
    (hs : s ∈ r) : s ∈ p := by
  unfold stripPrefix? at h
  split at h
  · obtain rfl := Option.some.inj h
    have hs := (List.rdropWhile_prefix isTrivial _).subset hs
    exact mem_dropComponents p _ ((List.dropWhile_suffix isTrivial).subset hs)
  · cases h

end EmbraOS.Verified.UnixPath
