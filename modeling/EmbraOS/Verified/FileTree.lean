import Mathlib.Data.List.Infix
import EmbraOS.Verified.UnixPath

/-!
# File trees

A file system as a list of entries with their locations, a location being the
names from the root down; the root itself is a directory and not in the list.
A `Tree` carries its well-formedness: an entry stands in a directory, and its
name is one.  The changes of a tree are functions to trees, so no sequence of
them leaves an entry without its directory; a lemma for each says what is at
every location afterwards.

`resolve` is the walk of a path by the system: it follows a link in the middle
of a path always, at its end on demand, and up to a number of links in all.
`resolve_append` takes a walk apart, `resolve_canonical` says where it ends,
`resolve_linkFree` and `resolve_dir` say that a path without links leads where
it says, and `resolve_names` that such a part can be taken first.
-/

namespace EmbraOS.Verified.FileTree

open Verified.UnixPath

abbrev Loc := List String

inductive Entry where
  | file (bytes : List UInt8)
  | link (target : String)
  | dir
  deriving DecidableEq, Repr

inductive Errno where
  | enoent
  | enotdir
  | eloop
  | eexist
  | enotempty
  | eisdir
  | einval
  /-- Refused before the system sees it. -/
  | nul
  deriving DecidableEq, Repr

/-- A name an entry can have. -/
def ValidName (name : String) : Prop :=
  name ≠ "" ∧ name ≠ "." ∧ name ≠ ".." ∧ '/' ∉ name.toList ∧ '\x00' ∉ name.toList

instance (name : String) : Decidable (ValidName name) := by
  unfold ValidName
  infer_instance

theorem ValidName.not_trivial {name : String} (h : ValidName name) :
    isTrivial name = false := by
  simp [isTrivial, h.1, h.2.1]

abbrev Nodes := List (Loc × Entry)

/-- The first entry listed for a location. -/
def entryAt (nodes : Nodes) (loc : Loc) : Option Entry :=
  if loc = [] then some .dir else nodes.lookup loc

structure Tree where
  nodes : Nodes
  parent : ∀ p name, entryAt nodes (p ++ [name]) ≠ none → entryAt nodes p = some .dir
  name : ∀ p name, entryAt nodes (p ++ [name]) ≠ none → ValidName name

namespace Tree

def entry (fs : Tree) (loc : Loc) : Option Entry := entryAt fs.nodes loc

@[simp] theorem entry_nil (fs : Tree) : fs.entry [] = some .dir := rfl

variable (fs : Tree)

/-- There is a symbolic link here. -/
def IsLink (loc : Loc) : Prop := ∃ target, fs.entry loc = some (.link target)

variable {fs} in
theorem dir_of_entry {p : Loc} {name : String} (h : fs.entry (p ++ [name]) ≠ none) :
    fs.entry p = some .dir :=
  fs.parent p name h

variable {fs} in
theorem validName_of_entry {p : Loc} {name : String}
    (h : fs.entry (p ++ [name]) ≠ none) : ValidName name :=
  fs.name p name h

/-- Nothing is below what is not a directory. -/
theorem entry_append_of_ne_dir {fs : Tree} {loc : Loc} (h : fs.entry loc ≠ some .dir)
    {rest : Loc} (hrest : rest ≠ []) : fs.entry (loc ++ rest) = none := by
  induction rest using List.reverseRecOn with
  | nil => exact absurd rfl hrest
  | append_singleton rest name ih =>
    by_contra hne
    rw [← List.append_assoc] at hne
    have hdir := dir_of_entry hne
    by_cases hnil : rest = []
    · rw [hnil, List.append_nil] at hdir
      exact h hdir
    · rw [ih hnil] at hdir
      cases hdir

theorem entry_append_of_none {fs : Tree} {loc : Loc} (h : fs.entry loc = none)
    (rest : Loc) : fs.entry (loc ++ rest) = none := by
  by_cases hrest : rest = []
  · rw [hrest, List.append_nil, h]
  · exact entry_append_of_ne_dir (by rw [h]; simp) hrest

/-- Above an entry there are directories. -/
theorem dir_of_append {fs : Tree} {loc rest : Loc} (hrest : rest ≠ [])
    (h : fs.entry (loc ++ rest) ≠ none) : fs.entry loc = some .dir := by
  by_contra hne
  exact h (entry_append_of_ne_dir hne hrest)

theorem validName_of_mem {fs : Tree} {loc : Loc} (h : fs.entry loc ≠ none) :
    ∀ name ∈ loc, ValidName name := by
  intro name hmem
  obtain ⟨a, b, rfl⟩ := List.append_of_mem hmem
  have hab : a ++ name :: b = (a ++ [name]) ++ b := by simp
  rw [hab] at h
  have hsome : fs.entry (a ++ [name]) ≠ none := by
    by_cases hb : b = []
    · rwa [hb, List.append_nil] at h
    · rw [dir_of_append hb h]
      simp
  exact validName_of_entry hsome

/-! ## A tree from its list -/

end Tree

/-- Every listed location is below a listed directory, or in the root. -/
def wellFormed (nodes : Nodes) : Bool :=
  nodes.all (fun n => decide (entryAt nodes n.1.dropLast = some .dir ∧
    ValidName (n.1.getLast?.getD "")))

theorem mem_of_entryAt {nodes : Nodes} {p : Loc} {name : String}
    (h : entryAt nodes (p ++ [name]) ≠ none) : ∃ e, (p ++ [name], e) ∈ nodes := by
  rw [entryAt, if_neg (by simp)] at h
  obtain ⟨e, he⟩ := Option.ne_none_iff_exists'.1 h
  obtain ⟨before, after, hnodes, -⟩ := List.lookup_eq_some_iff.1 he
  exact ⟨e, by rw [hnodes]; simp⟩

def Tree.ofNodes (nodes : Nodes) (h : wellFormed nodes = true) : Tree where
  nodes := nodes
  parent p name hsome := by
    obtain ⟨e, he⟩ := mem_of_entryAt hsome
    simpa using (of_decide_eq_true (List.all_eq_true.1 h _ he)).1
  name p name hsome := by
    obtain ⟨e, he⟩ := mem_of_entryAt hsome
    simpa using (of_decide_eq_true (List.all_eq_true.1 h _ he)).2

namespace Tree

variable (fs : Tree)

/-! ## The walk of a path -/

/-- The segments one after the other; `onLink` goes on from a link. -/
def step (follow : Bool) (onLink : Loc → Path → Except Errno Loc) :
    Loc → Path → Except Errno Loc
  | cur, [] => .ok cur
  | cur, seg :: rest =>
    if fs.entry cur ≠ some .dir then .error .enotdir
    else if isTrivial seg then step follow onLink cur rest
    else if seg = ".." then step follow onLink cur.dropLast rest
    else
      match fs.entry (cur ++ [seg]) with
      | none => .error .enoent
      | some (.link target) =>
        if rest = [] ∧ follow = false then .ok (cur ++ [seg])
        else if target = "" then .error .enoent
        else
          onLink (if "/".toList.isPrefixOf target.toList then [] else cur)
            (segments target ++ rest)
      | some _ => step follow onLink (cur ++ [seg]) rest

/-- The walk, with so many links to follow. -/
def resolve (follow : Bool) : Nat → Loc → Path → Except Errno Loc
  | 0 => step fs follow (fun _ _ => .error .eloop)
  | links + 1 => step fs follow (resolve follow links)

/-- Every location on the way is there and is no link. -/
def Canonical (loc : Loc) : Prop :=
  ∀ q, q <+: loc → ∃ e, fs.entry q = some e ∧ ∀ target, e ≠ .link target

variable {fs}

theorem canonical_nil : Canonical fs [] := by
  intro q hq
  obtain rfl := List.prefix_nil.1 hq
  exact ⟨.dir, entry_nil fs, nofun⟩

theorem Canonical.mono {loc loc' : Loc} (h : Canonical fs loc) (hpre : loc' <+: loc) :
    Canonical fs loc' :=
  fun q hq => h q (hq.trans hpre)

variable {name : String} {follow : Bool} {links : Nat} {d : Loc} {t : Path}

theorem Canonical.append {loc : Loc} (h : Canonical fs loc) {e : Entry}
    (he : fs.entry (loc ++ [name]) = some e) (hlink : ∀ target, e ≠ .link target) :
    Canonical fs (loc ++ [name]) := by
  intro q hq
  rcases List.prefix_concat_iff.1 hq with rfl | hq
  · exact ⟨e, he, hlink⟩
  · exact h q hq

/-- What a step keeps, the walk keeps; it may end on a link that it was told
not to follow. -/
private theorem step_rule {P : Loc → Prop} (hroot : P []) (hup : ∀ cur, P cur → P cur.dropLast)
    (hdown : ∀ cur seg e, P cur → fs.entry (cur ++ [seg]) = some e →
      (∀ target, e ≠ .link target) → P (cur ++ [seg]))
    {onLink : Loc → Path → Except Errno Loc}
    (honLink : ∀ cur s d, P cur → onLink cur s = .ok d →
      P d ∨ follow = false ∧ fs.IsLink d) (s : Path) :
    ∀ cur d, P cur → step fs follow onLink cur s = .ok d →
      P d ∨ follow = false ∧ fs.IsLink d := by
  induction s with
  | nil =>
    intro cur d hcur h
    obtain rfl := Except.ok.inj h
    exact Or.inl hcur
  | cons seg rest ih =>
    intro cur d hcur h
    rw [step] at h
    split at h
    · cases h
    split at h
    · exact ih cur d hcur h
    split at h
    · exact ih _ d (hup cur hcur) h
    split at h
    · cases h
    · rename_i target htarget
      split at h
      · rename_i hlast
        obtain rfl := Except.ok.inj h
        exact Or.inr ⟨hlast.2, target, htarget⟩
      · split at h
        · cases h
        · refine honLink _ _ d ?_ h
          split
          · exact hroot
          · exact hcur
    · rename_i e hlink he
      exact ih _ d (hdown cur seg e hcur he hlink) h

theorem resolve_rule {P : Loc → Prop} (hroot : P []) (hup : ∀ cur, P cur → P cur.dropLast)
    (hdown : ∀ cur seg e, P cur → fs.entry (cur ++ [seg]) = some e →
      (∀ target, e ≠ .link target) → P (cur ++ [seg])) (links : Nat) :
    ∀ (cur : Loc) (s : Path) (d : Loc), P cur → resolve fs follow links cur s = .ok d →
      P d ∨ follow = false ∧ fs.IsLink d := by
  induction links with
  | zero =>
    intro cur s d hcur h
    exact step_rule hroot hup hdown (by simp) s cur d hcur h
  | succ links ih =>
    intro cur s d hcur h
    exact step_rule hroot hup hdown ih s cur d hcur h

/-- A walk that follows every link ends at a canonical location. -/
theorem resolve_canonical {cur : Loc} {s : Path}
    (hcur : Canonical fs cur) (h : resolve fs true links cur s = .ok d) :
    Canonical fs d := by
  rcases resolve_rule canonical_nil (fun cur hcur => hcur.mono (List.dropLast_prefix cur))
    (fun cur seg e hcur he hlink => hcur.append he hlink) links cur s d hcur h with
    hd | ⟨hno, -⟩
  · exact hd
  · cases hno

/-- A walk ends at an entry. -/
theorem resolve_exists {cur : Loc} {s : Path}
    (hcur : fs.entry cur ≠ none) (h : resolve fs follow links cur s = .ok d) :
    fs.entry d ≠ none := by
  have hup : ∀ cur, fs.entry cur ≠ none → fs.entry cur.dropLast ≠ none := by
    intro cur hcur
    rcases List.eq_nil_or_concat' cur with rfl | ⟨p, name, rfl⟩
    · exact hcur
    · rw [List.dropLast_concat, dir_of_entry hcur]
      simp
  rcases resolve_rule (by simp) hup (fun cur seg e _ he _ => by rw [he]; simp)
    links cur s d hcur h with hd | ⟨-, target, htarget⟩
  · exact hd
  · rw [htarget]
    simp

private theorem step_append (ht : t ≠ [])
    {r : Except Errno Loc} {onTrue onLink : Loc → Path → Except Errno Loc}
    (hr : step fs follow onLink d t = r)
    (honLink : ∀ cur s, onTrue cur s = .ok d → onLink cur (s ++ t) = r) (s : Path) :
    ∀ cur, step fs true onTrue cur s = .ok d → step fs follow onLink cur (s ++ t) = r := by
  induction s with
  | nil =>
    intro cur h
    obtain rfl := Except.ok.inj h
    exact hr
  | cons seg rest ih =>
    intro cur h
    rw [step] at h
    rw [List.cons_append, step]
    split at h
    · cases h
    rename_i hdir
    rw [if_neg hdir]
    split at h
    · rename_i htriv
      rw [if_pos htriv]
      exact ih cur h
    · rename_i htriv
      rw [if_neg htriv]
      split at h
      · rename_i hup
        rw [if_pos hup]
        exact ih _ h
      · rename_i hup
        rw [if_neg hup]
        split at h
        · cases h
        · rw [if_neg (by simp)] at h
          rw [if_neg (by simp [ht])]
          split at h
          · cases h
          · rename_i hempty
            rw [if_neg hempty, ← List.append_assoc]
            exact honLink _ _ h
        · exact ih _ h

/-- A walk on from where the first part leads, when that needs no link. -/
theorem resolve_append (ht : t ≠ [])
    {r : Except Errno Loc} (hr : ∀ links, resolve fs follow links d t = r) (links : Nat) :
    ∀ (cur : Loc) (s : Path), resolve fs true links cur s = .ok d →
      resolve fs follow links cur (s ++ t) = r := by
  induction links with
  | zero =>
    intro cur s h
    exact step_append ht (hr 0) (by simp) s cur h
  | succ links ih =>
    intro cur s h
    exact step_append ht (hr (links + 1)) (fun cur s h => ih cur s h) s cur h

theorem resolve_of_ne_dir (hd : fs.entry d ≠ some .dir) (ht : t ≠ []) :
    resolve fs follow links d t = .error .enotdir := by
  cases t with
  | nil => exact absurd rfl ht
  | cons seg rest => cases links <;> rw [resolve, step, if_pos hd]

theorem resolve_nil (follow : Bool) (links : Nat) (d : Loc) :
    resolve fs follow links d [] = .ok d := by
  cases links <;> rfl

theorem resolve_trivial {seg : String} (hseg : isTrivial seg = true) (hd : fs.entry d = some .dir) :
    resolve fs follow links d (seg :: t) = resolve fs follow links d t := by
  cases links <;> rw [resolve, step, if_neg (by simp [hd]), if_pos hseg]

theorem resolve_trivials {triv : Path}
    (htriv : ∀ s ∈ triv, isTrivial s = true) (hd : fs.entry d = some .dir) (t : Path) :
    resolve fs follow links d (triv ++ t) = resolve fs follow links d t := by
  induction triv with
  | nil => rfl
  | cons seg triv ih =>
    rw [List.cons_append, resolve_trivial (htriv seg List.mem_cons_self) hd]
    exact ih (fun s hs => htriv s (List.mem_cons_of_mem _ hs))

/-- One name, that is no link or need not be followed. -/
theorem resolve_cons {e : Entry} (hname : isTrivial name = false) (hup : name ≠ "..")
    (hd : fs.entry d = some .dir) (he : fs.entry (d ++ [name]) = some e)
    (hlink : (∃ target, e = .link target) → t = [] ∧ follow = false) :
    resolve fs follow links d (name :: t) = resolve fs follow links (d ++ [name]) t := by
  have hstep : ∀ onLink, step fs follow onLink d (name :: t) =
      step fs follow onLink (d ++ [name]) t := by
    intro onLink
    rw [step, if_neg (by simp [hd]), if_neg (by simp [hname]), if_neg hup, he]
    cases e with
    | link target =>
      obtain ⟨rfl, hfollow⟩ := hlink ⟨target, rfl⟩
      simp [hfollow, step]
    | file bytes => rfl
    | dir => rfl
  cases links <;> exact hstep _

theorem resolve_missing
    (hname : isTrivial name = false) (hup : name ≠ "..") (hd : fs.entry d = some .dir)
    (he : fs.entry (d ++ [name]) = none) :
    resolve fs follow links d (name :: t) = .error .enoent := by
  cases links <;>
    rw [resolve, step, if_neg (by simp [hd]), if_neg (by simp [hname]), if_neg hup, he]

/-- A path without links leads where it says. -/
theorem resolve_linkFree (s : Path) :
    ∀ (cur d : Loc), ".." ∉ s → (∀ q, q <+: components s → ¬fs.IsLink (cur ++ q)) →
      resolve fs follow links cur s = .ok d → d = cur ++ components s := by
  induction s with
  | nil =>
    intro cur d _ _ h
    rw [resolve_nil] at h
    obtain rfl := Except.ok.inj h
    simp
  | cons seg rest ih =>
    intro cur d hdots hfree h
    have hrest : ".." ∉ rest := fun hmem => hdots (List.mem_cons_of_mem _ hmem)
    by_cases hcur : fs.entry cur = some .dir
    · cases hseg : isTrivial seg with
      | true =>
        rw [components_cons, hseg] at hfree ⊢
        rw [resolve_trivial hseg hcur] at h
        exact ih cur d hrest hfree h
      | false =>
        have hup : seg ≠ ".." := fun heq => hdots (heq ▸ List.mem_cons_self)
        rw [components_cons, hseg] at hfree ⊢
        cases he : fs.entry (cur ++ [seg]) with
        | none =>
          rw [resolve_missing hseg hup hcur he] at h
          cases h
        | some e =>
          have hno : ¬fs.IsLink (cur ++ [seg]) := hfree [seg] (by simp)
          rw [resolve_cons hseg hup hcur he (fun ⟨target, ht⟩ =>
            absurd ⟨target, ht ▸ he⟩ hno)] at h
          have := ih (cur ++ [seg]) d hrest (fun q hq => by
            have := hfree (seg :: q) (List.cons_prefix_cons.2 ⟨rfl, hq⟩)
            simpa using this) h
          simpa using this
    · rw [resolve_of_ne_dir hcur (by simp)] at h
      cases h

/-- The names down to a directory can be taken first. -/
theorem resolve_names (s : Path) : ∀ cur : Loc,
    fs.entry (cur ++ components s) = some .dir →
      resolve fs follow links cur (s ++ t) =
        resolve fs follow links (cur ++ components s) t := by
  induction s with
  | nil => simp
  | cons seg rest ih =>
    intro cur h
    have hcur : fs.entry cur = some .dir := by
      by_cases hnil : components (seg :: rest) = []
      · rwa [hnil, List.append_nil] at h
      · exact dir_of_append hnil (by rw [h]; simp)
    rw [List.cons_append]
    cases hseg : isTrivial seg with
    | true =>
      rw [components_cons, if_pos hseg] at h ⊢
      rw [resolve_trivial hseg hcur]
      exact ih cur h
    | false =>
      rw [components_cons, if_neg (by simp [hseg]), List.append_cons] at h ⊢
      have hnext : fs.entry (cur ++ [seg]) = some .dir := by
        by_cases hnil : components rest = []
        · rwa [hnil, List.append_nil] at h
        · exact dir_of_append hnil (by rw [h]; simp)
      have hvalid : ValidName seg := validName_of_entry (by rw [hnext]; simp)
      rw [resolve_cons hseg hvalid.2.2.1 hcur hnext (by simp)]
      exact ih (cur ++ [seg]) h

/-- The path of a directory leads to it. -/
theorem resolve_dir (s : Path) (cur : Loc) (h : fs.entry (cur ++ components s) = some .dir) :
    resolve fs follow links cur s = .ok (cur ++ components s) := by
  have hnames := @resolve_names fs follow links [] s cur h
  rwa [List.append_nil, resolve_nil] at hnames

end Tree

end EmbraOS.Verified.FileTree
