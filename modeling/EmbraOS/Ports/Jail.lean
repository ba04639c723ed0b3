import EmbraOS.Verified.FileCalls

/-!
# The workspace jail

Port of `embra-brain/src/tools/jail.rs`: the lexical check of a path, the
canonical check of what exists of it, the fence around the directories other
programs own, and the two entry points of the writers and the removers.

`jail_spec` says what the paths are that come out.  A remover's path is a name
in a link-free directory of the workspace.  A writer's path lies in the
workspace, outside the fence, and no directory above its last component is a
link; the last component is a link exactly when the path was written with a
slash or a dot at its end and names a link that leads to no directory
(`Slips`): the walk to the nearest existing ancestor then misses the link.
-/

namespace EmbraOS.Ports.Jail

open Verified
open Verified.UnixPath
open Verified.FileTree

/-- The root of a jail, an absolute path. -/
structure Root where
  text : String
  absolute : Text.startsWith text "/" = true

def Root.path (root : Root) : Path := ofText root.text

def workspaceRoot : Root := ⟨"/embra/workspace", by decide⟩

/-! ## The checks -/

/-- Leave out every `./` in front. -/
def stripDots : List Char → List Char
  | '.' :: '/' :: cs => stripDots cs
  | cs => cs

def lexical (root : Root) (path : String) : Except String String :=
  let trimmed := Text.trim path
  let resolved :=
    if trimmed = "" then root.text
    else if Text.startsWith trimmed "/" then trimmed
    else root.text ++ "/" ++ String.ofList (stripDots trimmed.toList)
  if ".." ∈ segments resolved then
    .error ("Denied: path '" ++ resolved ++ "' contains a '..' component")
  else if startsWith (ofText resolved) root.path = false then
    .error ("Denied: path '" ++ resolved ++ "' resolves outside " ++ root.text)
  else .ok resolved

/-- Up from a path to one that exists, in so many steps. -/
def nearestFrom (fs : Tree) : Nat → Path → Path
  | 0, _ => []
  | n + 1, cur =>
    match fs.lstat cur with
    | .ok _ => cur
    | .error _ =>
      match parent? cur with
      | some parent => nearestFrom fs n parent
      | none => []

/-- A path has one ancestor more than components. -/
def nearestExistingAncestor (fs : Tree) (p : Path) : Path :=
  nearestFrom fs ((components p).length + 1) p

structure Real where
  root : Loc
  ancestor : Loc
  path : Path

def within (canonical root : Loc) : Bool := root.isPrefixOf canonical

/-- The canonical check of a path that is written or created. -/
def real (fs : Tree) (root : Root) (lexical : Path) : Except String Real :=
  match fs.canonicalize root.path with
  | .error e => .error ("Error: failed to resolve " ++ root.text ++ ": " ++ e.text)
  | .ok rootCanon =>
    let anc := nearestExistingAncestor fs lexical
    match fs.canonicalize anc with
    | .error .enoent =>
      .error ("Denied: path '" ++ text lexical ++
        "' is a dangling symbolic link at " ++ text anc ++ "; file_delete it first")
    | .error e => .error ("Error: failed to resolve " ++ text anc ++ ": " ++ e.text)
    | .ok ancestor =>
      if within ancestor rootCanon = false then
        .error ("Denied: path '" ++ text lexical ++ "' resolves outside " ++
          root.text ++ " (real path " ++ text ancestor ++ ")")
      else
        .ok { root := rootCanon, ancestor,
              path := ancestor ++ (stripPrefix? lexical anc).getD [] }

/-- The canonical check of a path that is removed or moved away: the parent,
and the last component as named. -/
def realParent (fs : Tree) (root : Root) (lexical : Path) : Except String (Loc × Path) :=
  match parent? lexical, fileName? lexical with
  | some parent, some name =>
    if startsWith parent root.path = false then
      .error ("Denied: path '" ++ text lexical ++ "' is the root " ++ root.text ++
        " itself; nothing is removed or moved")
    else
      match real fs root parent with
      | .error e => .error e
      | .ok parent => .ok (parent.root, parent.path ++ [name])
  | _, _ =>
    .error ("Denied: path '" ++ text lexical ++ "' names no entry under " ++ root.text)

/-! ## The fence -/

def gitDir : String := ".git"

def sshDir : Path := [".ssh"]

def gitConfigDir : Path := [".config", "git"]

def guardianDir : Path := [".guardian"]

def fenceGitDir (path : Path) : Except String Unit :=
  if gitDir ∈ components path then
    .error ("Denied: path '" ++ text path ++ "' is inside a .git directory, which the " ++
      "git tools own; nothing is written there")
  else .ok ()

def fenceOwnedDirs (root path : Path) : Except String Unit :=
  match fenceGitDir path with
  | .error e => .error e
  | .ok () =>
    if startsWith path (root ++ sshDir) then
      .error ("Denied: path '" ++ text path ++ "' is inside the workspace SSH " ++
        "directory, which /ssh-keygen and ssh own; nothing is written there")
    else if startsWith path (root ++ gitConfigDir) then
      .error ("Denied: path '" ++ text path ++ "' is inside the workspace git " ++
        "configuration directory (~/.config/git), which every git the OS runs reads; " ++
        "nothing is written there")
    else if startsWith path (root ++ guardianDir) then
      .error ("Denied: path '" ++ text path ++ "' is inside the Guardian build tree " ++
        "(.guardian), which the Guardian owns; nothing is written there")
    else .ok ()

def jailedWritePath (fs : Tree) (root : Root) (raw : String) : Except String Path :=
  match lexical root raw with
  | .error e => .error e
  | .ok lex =>
    match fenceOwnedDirs root.path (ofText lex) with
    | .error e => .error e
    | .ok () =>
      match real fs root (ofText lex) with
      | .error e => .error e
      | .ok r =>
        match fenceOwnedDirs r.root r.path with
        | .error e => .error e
        | .ok () => .ok r.path

def jailedRemovePath (fs : Tree) (root : Root) (raw : String) : Except String Path :=
  match lexical root raw with
  | .error e => .error e
  | .ok lex =>
    match fenceOwnedDirs root.path (ofText lex) with
    | .error e => .error e
    | .ok () =>
      match realParent fs root (ofText lex) with
      | .error e => .error e
      | .ok (rootCanon, path) =>
        match fenceOwnedDirs rootCanon path with
        | .error e => .error e
        | .ok () => .ok path

/-! ## The nearest existing ancestor -/

section Nearest

variable {fs : Tree}

/-- An ancestor that is there, and below it, unless it is the path itself, a
name that is not: the path with its trivial end, or one further up. -/
structure Nearest (fs : Tree) (p anc : Path) : Prop where
  found : ∃ e, fs.lstat anc = .ok e
  below : anc = p ∨ ∃ triv name raw tail,
    dropTrailing p = anc ++ triv ++ [name] ++ raw ∧
    (∀ e, fs.lstat (anc ++ triv ++ [name] ++ tail) ≠ .ok e) ∧
    isTrivial name = false ∧ (∀ s ∈ triv, isTrivial s = true) ∧
    (tail = [] ∨ raw = [] ∧ p = anc ++ triv ++ [name] ++ tail ∧
      ∀ s ∈ tail, isTrivial s = true)

theorem lstat_root {p : Path} (h : components p = []) : fs.lstat p = .ok .dir := by
  have htriv : ∀ s ∈ p, isTrivial s = true := by
    simpa [components, List.filter_eq_nil_iff] using h
  refine Tree.lstat_ok.2 ⟨[], ?_, by simp⟩
  rw [Tree.walk, hasNul_trivials htriv]
  have hdir := @Tree.resolve_dir fs false maxLinks p [] (by rw [h]; simp)
  rwa [h] at hdir

theorem nearestFrom_spec (n : Nat) : ∀ p : Path, (components p).length < n →
    Nearest fs p (nearestFrom fs n p) := by
  induction n with
  | zero => intro p h; omega
  | succ n ih =>
    intro p h
    rw [nearestFrom]
    split
    · rename_i e he
      exact ⟨⟨e, he⟩, Or.inl rfl⟩
    rename_i e he
    have hfail : ∀ e', fs.lstat p ≠ .ok e' := by
      intro e' h'
      rw [he] at h'
      cases h'
    split
    · rename_i q hq
      obtain ⟨triv, name, tail, hp, htrim, hname, htriv, htail⟩ := parent?_eq_some hq
      obtain ⟨last, hlast⟩ := components_parent hq
      have hshort : (components q).length < n := by
        rw [hlast, List.length_append, List.length_singleton] at h
        omega
      have hq' := ih q hshort
      generalize nearestFrom fs n q = anc at hq'
      obtain ⟨hfound, hbelow⟩ := hq'
      refine ⟨hfound, Or.inr ?_⟩
      rcases hbelow with hanc | ⟨triv', name', raw', tail', htrim', hfail', hname',
        htriv', htail'⟩
      · rw [hanc]
        refine ⟨triv, name, [], tail, by simpa using htrim, ?_, hname, htriv,
          Or.inr ⟨rfl, hp, htail⟩⟩
        rw [← hp]
        exact hfail
      · have hself : dropTrailing q = q := dropTrailing_parent hq
        refine ⟨triv', name', raw' ++ triv ++ [name], [], ?_, ?_, hname', htriv',
          Or.inl rfl⟩
        · rw [htrim, ← hself, htrim']
          simp
        · rcases htail' with rfl | ⟨rfl, hq', -⟩
          · exact hfail'
          · have hnil : tail' = [] := by
              rw [hself, hq'] at htrim'
              simpa using htrim'
            rwa [hnil] at hfail'
    · rename_i hnone
      refine absurd (lstat_root ?_) (hfail .dir)
      unfold parent? at hnone
      split at hnone
      · assumption
      · cases hnone

end Nearest

/-! ## The canonical check -/

section Real

variable {fs : Tree} {root : Root}

/-- The path fails as it is written, and without its trivial end it is a
link. -/
def Slips (fs : Tree) (p : Path) : Prop :=
  (∀ e, fs.lstat p ≠ .ok e) ∧ ∃ target, fs.lstat (dropTrailing p) = .ok (.link target)

structure RealOk (fs : Tree) (root : Root) (lex : Path) (r : Real) : Prop where
  root : fs.canonicalize root.path = .ok r.root
  within : r.root <+: components r.path
  /-- No directory above the last component is a link. -/
  proper : ∀ q, q <+: components r.path → q ≠ components r.path → ¬fs.IsLink q
  final : fs.IsLink (components r.path) ↔ Slips fs lex
  dots : ".." ∉ r.path

private theorem not_isLink_of_canonical {loc q : Loc} (h : Tree.Canonical fs loc)
    (hq : q <+: loc) : ¬fs.IsLink q := by
  rintro ⟨target, htarget⟩
  obtain ⟨e, he, hno⟩ := h q hq
  exact hno target (Option.some.inj (he.symm.trans htarget))

private theorem not_isLink_of_none {loc q : Loc} (h : fs.entry loc = none)
    (hq : loc <+: q) : ¬fs.IsLink q := by
  rintro ⟨target, htarget⟩
  obtain ⟨rest, rfl⟩ := hq
  rw [Tree.entry_append_of_none h] at htarget
  cases htarget

/-- The prefixes of a location and more names. -/
private theorem prefix_append_cases {d q : Loc} {name : String} {rest : Loc}
    (h : q <+: d ++ name :: rest) : q <+: d ∨ d ++ [name] <+: q := by
  have hname : d ++ [name] <+: d ++ name :: rest := ⟨rest, by simp⟩
  rcases List.prefix_or_prefix_of_prefix h hname with hq | hq
  · rcases List.prefix_concat_iff.1 hq with rfl | hq
    · exact Or.inr (List.prefix_refl _)
    · exact Or.inl hq
  · exact Or.inr hq

/-- Where the path goes below its nearest existing ancestor. -/
private theorem Nearest.links {lex anc : Path} {d : Loc} (hnear : Nearest fs lex anc)
    (hdots : ".." ∉ lex) (hd : fs.canonicalize anc = .ok d) :
    ∃ rest, components lex = components anc ++ rest ∧
      (∀ q, q <+: d ++ rest → q ≠ d ++ rest → ¬fs.IsLink q) ∧
      (fs.IsLink (d ++ rest) ↔ Slips fs lex) := by
  have hcanon := Tree.canonicalize_canonical hd
  obtain ⟨⟨e, hfound⟩, rfl | ⟨triv, name, raw, tail, htrim, hfail, hname, htriv, htail⟩⟩ :=
    hnear
  · refine ⟨[], by simp, ?_, ?_⟩
    · rw [List.append_nil]
      exact fun q hq _ => not_isLink_of_canonical hcanon hq
    · rw [List.append_nil]
      exact iff_of_false (not_isLink_of_canonical hcanon (List.prefix_refl d))
        (fun h => h.1 e hfound)
  · have hcomps : components lex = components anc ++ name :: components raw := by
      rw [← components_dropTrailing, htrim]
      simp only [components_append, components_eq_nil htriv, components_cons, hname]
      simp
    have hup : name ≠ ".." := by
      rintro rfl
      refine hdots (List.mem_of_mem_filter (p := fun s => !isTrivial s) ?_)
      change ".." ∈ components lex
      rw [hcomps]
      simp
    refine ⟨name :: components raw, hcomps, ?_⟩
    rcases htail with rfl | ⟨rfl, hlex, htail⟩
    · -- The name is missing, and with it all that is below.
      have hnone : fs.entry (d ++ [name]) = none := by
        rw [List.append_nil] at hfail
        rw [Option.eq_none_iff_forall_ne_some]
        exact fun e he => hfail e ((Tree.lstat_child hd htriv hname hup).2 he)
      have hfree : ∀ q, q <+: d ++ name :: components raw → ¬fs.IsLink q := by
        intro q hq
        rcases prefix_append_cases hq with hq | hq
        · exact not_isLink_of_canonical hcanon hq
        · exact not_isLink_of_none hnone hq
      refine ⟨fun q hq _ => hfree q hq, iff_of_false (hfree _ (List.prefix_refl _)) ?_⟩
      rintro ⟨-, target, htarget⟩
      rw [htrim] at htarget
      exact Tree.lstat_missing hd htriv hname hup hnone _ htarget
    · -- The name may be there, but not as a directory.
      rw [← hlex] at hfail
      rw [List.append_nil] at htrim
      refine ⟨fun q hq hne => ?_, ?_⟩
      · rcases List.prefix_concat_iff.1 hq with rfl | hq
        · exact absurd rfl hne
        · exact not_isLink_of_canonical hcanon hq
      · rw [Slips, htrim]
        simp only [Tree.lstat_child hd htriv hname hup]
        exact ⟨fun h => ⟨hfail, h⟩, fun h => h.2⟩

theorem real_ok {lex : Path} {r : Real} (hdots : ".." ∉ lex)
    (h : real fs root lex = .ok r) : RealOk fs root lex r := by
  unfold real at h
  split at h
  · cases h
  rename_i rootCanon hroot
  have hnear : Nearest fs lex (nearestExistingAncestor fs lex) :=
    nearestFrom_spec _ lex (Nat.lt_succ_self _)
  generalize nearestExistingAncestor fs lex = anc at h hnear
  dsimp only at h
  split at h
  · cases h
  · cases h
  rename_i d hd
  split at h
  · cases h
  rename_i hwithin
  obtain rfl := Except.ok.inj h
  obtain ⟨rest, hcomps, hproper, hfinal⟩ := hnear.links hdots hd
  have hvalid := Tree.validName_of_mem (Tree.canonicalize_exists hd)
  have hstarts : startsWith lex anc = true :=
    List.isPrefixOf_iff_prefix.2 ⟨rest, hcomps.symm⟩
  obtain ⟨strip, hstrip⟩ : ∃ strip, stripPrefix? lex anc = some strip := by
    rw [stripPrefix?, if_pos hstarts]
    exact ⟨_, rfl⟩
  have hrest : components strip = rest :=
    List.append_cancel_left ((components_stripPrefix hstrip).symm.trans hcomps)
  have hpath : components (d ++ (stripPrefix? lex anc).getD []) = d ++ rest := by
    rw [hstrip, Option.getD_some, components_append, hrest,
      components_eq_self (fun s hs => (hvalid s hs).not_trivial)]
  have hpre : rootCanon <+: d :=
    List.isPrefixOf_iff_prefix.1 (by simpa [Jail.within] using hwithin)
  refine ⟨hroot, ?_, ?_, ?_, ?_⟩
  · rw [hpath]
    exact hpre.trans (List.prefix_append d rest)
  · rw [hpath]
    exact hproper
  · rw [hpath]
    exact hfinal
  · rw [hstrip, Option.getD_some, List.mem_append]
    rintro (hmem | hmem)
    · exact (hvalid _ hmem).2.2.1 rfl
    · exact hdots (mem_stripPrefix hstrip hmem)

end Real

/-! ## What comes out of the jail -/

/-- In a directory that another program owns. -/
def Fenced (root loc : Loc) : Prop :=
  root ++ sshDir <+: loc ∨ root ++ gitConfigDir <+: loc ∨ root ++ guardianDir <+: loc

section Paths

variable {fs : Tree} {root : Root} {raw : String} {p : Path}

theorem fenceOwnedDirs_ok {root path : Path} (h : fenceOwnedDirs root path = .ok ()) :
    gitDir ∉ components path ∧ ¬Fenced (components root) (components path) := by
  unfold fenceOwnedDirs fenceGitDir at h
  split at h
  · cases h
  rename_i hgit
  split at hgit
  · cases hgit
  rename_i hnot
  refine ⟨hnot, ?_⟩
  have hdir : ∀ dir : Path, components dir = dir → startsWith path (root ++ dir) = false →
      ¬components root ++ dir <+: components path := by
    intro dir hself hfalse hpre
    rw [startsWith, components_append, hself,
      List.isPrefixOf_iff_prefix.2 hpre] at hfalse
    cases hfalse
  split at h
  · cases h
  rename_i hssh
  split at h
  · cases h
  rename_i hconfig
  split at h
  · cases h
  rename_i hguardian
  rw [Bool.not_eq_true] at hssh hconfig hguardian
  rintro (hpre | hpre | hpre)
  · exact hdir sshDir (by decide) hssh hpre
  · exact hdir gitConfigDir (by decide) hconfig hpre
  · exact hdir guardianDir (by decide) hguardian hpre

theorem lexical_dots {lex : String} (h : lexical root raw = .ok lex) :
    ".." ∉ ofText lex := by
  unfold lexical at h
  extract_lets trimmed resolved at h
  split at h
  · cases h
  rename_i hdots
  split at h
  · cases h
  · obtain rfl := Except.ok.inj h
    exact fun hmem => hdots (List.mem_of_mem_tail hmem)

theorem components_canonical {d : Loc} {q : Path} (h : fs.canonicalize q = .ok d) :
    components d = d :=
  components_eq_self (fun s hs =>
    (Tree.validName_of_mem (Tree.canonicalize_exists h) s hs).not_trivial)

/-- The path of a writer. -/
structure WritePath (fs : Tree) (root : Root) (lex : String) (rootCanon : Loc)
    (p : Path) : Prop where
  root : fs.canonicalize root.path = .ok rootCanon
  within : rootCanon <+: components p
  git : gitDir ∉ components p
  fence : ¬Fenced rootCanon (components p)
  proper : ∀ q, q <+: components p → q ≠ components p → ¬fs.IsLink q
  final : fs.IsLink (components p) ↔ Slips fs (ofText lex)
  dots : ".." ∉ p

/-- The path of a remover: a name in a directory. -/
structure RemovePath (fs : Tree) (root : Root) (lex : String) (rootCanon parent : Loc)
    (name : String) (p : Path) : Prop where
  root : fs.canonicalize root.path = .ok rootCanon
  split : components p = parent ++ [name]
  within : rootCanon <+: parent
  git : gitDir ∉ components p
  fence : ¬Fenced rootCanon (components p)
  linkFree : ∀ q, q <+: parent → ¬fs.IsLink q
  named : fileName? (ofText lex) = some name
  dots : ".." ∉ p

theorem jailedWritePath_ok (h : jailedWritePath fs root raw = .ok p) :
    ∃ lex rootCanon, lexical root raw = .ok lex ∧ WritePath fs root lex rootCanon p := by
  unfold jailedWritePath at h
  split at h
  · cases h
  rename_i lex hlex
  split at h
  · cases h
  split at h
  · cases h
  rename_i r hreal
  split at h
  · cases h
  rename_i hfence
  obtain rfl := Except.ok.inj h
  have hr := real_ok (lexical_dots hlex) hreal
  obtain ⟨hgit, hfence⟩ := fenceOwnedDirs_ok hfence
  rw [components_canonical hr.root] at hfence
  exact ⟨lex, r.root, hlex, hr.root, hr.within, hgit, hfence, hr.proper, hr.final,
    hr.dots⟩

theorem realParent_ok {lex : Path} {rootCanon : Loc} (hdots : ".." ∉ lex)
    (h : realParent fs root lex = .ok (rootCanon, p)) :
    ∃ (r : Real) (name : String), fileName? lex = some name ∧ isTrivial name = false ∧ name ≠ ".." ∧
      p = r.path ++ [name] ∧ fs.canonicalize root.path = .ok rootCanon ∧
      rootCanon <+: components r.path ∧ ".." ∉ r.path ∧
      ∀ q, q <+: components r.path → ¬fs.IsLink q := by
  unfold realParent at h
  split at h
  · rename_i parent name hparent hname
    split at h
    · cases h
    split at h
    · cases h
    rename_i r hreal
    obtain ⟨rfl, rfl⟩ := Prod.mk.inj (Except.ok.inj h)
    obtain ⟨triv, last, tail, hsplit, -⟩ := parent?_eq_some hparent
    have hr := real_ok (fun hmem => hdots (by rw [hsplit]; simp [hmem])) hreal
    have hnot : ¬Slips fs parent := by
      rintro ⟨hfail, target, htarget⟩
      rw [dropTrailing_parent hparent] at htarget
      exact hfail _ htarget
    obtain ⟨hlast, hup⟩ := Option.filter_eq_some_iff.1 hname
    have hmem : name ∈ components lex := List.mem_of_getLast? hlast
    refine ⟨r, name, hname, ?_, by simpa using hup, rfl, hr.root, hr.within, hr.dots,
      fun q hq => ?_⟩
    · simpa using (List.mem_filter.1 hmem).2
    · by_cases heq : q = components r.path
      · rw [heq, hr.final]
        exact hnot
      · exact hr.proper q hq heq
  · cases h

theorem jailedRemovePath_ok (h : jailedRemovePath fs root raw = .ok p) :
    ∃ lex rootCanon parent name, lexical root raw = .ok lex ∧
      RemovePath fs root lex rootCanon parent name p := by
  unfold jailedRemovePath at h
  split at h
  · cases h
  rename_i lex hlex
  split at h
  · cases h
  split at h
  · cases h
  rename_i rootCanon path hreal
  split at h
  · cases h
  rename_i hfence
  obtain rfl := Except.ok.inj h
  obtain ⟨r, name, hname, htriv, hup, rfl, hroot, hwithin, hdots, hfree⟩ :=
    realParent_ok (lexical_dots hlex) hreal
  obtain ⟨hgit, hfence⟩ := fenceOwnedDirs_ok hfence
  rw [components_canonical hroot] at hfence
  have hsplit : components (r.path ++ [name]) = components r.path ++ [name] := by
    rw [components_append, components_cons, htriv]
    rfl
  exact ⟨lex, rootCanon, components r.path, name, hlex, hroot, hsplit, hwithin, hgit,
    hfence, hfree, hname, by simpa [hdots] using Ne.symm hup⟩

end Paths

theorem dots_components {p : Path} (h : ".." ∉ p) : ".." ∉ components p :=
  fun hmem => h (List.mem_filter.1 hmem).1

/-- **What the jail lets through.**  A writer's path goes down from the canonical
root, without `..`, has no `.git` component and is in none of the fenced
directories; it is free of links, up to its last component and that included,
exactly when the path as written does not slip past a link at its end.  A
remover's path is a name, as written, in a link-free location at or below the
canonical root, without `..`, and so never the root. -/
theorem jail_spec (fs : Tree) (root : Root) (raw : String) :
    (∀ p, jailedWritePath fs root raw = .ok p →
      ∃ lex rootCanon, lexical root raw = .ok lex ∧
        fs.canonicalize root.path = .ok rootCanon ∧ rootCanon <+: components p ∧
        ".." ∉ components p ∧ gitDir ∉ components p ∧ ¬Fenced rootCanon (components p) ∧
        ((∀ q, q <+: components p → ¬fs.IsLink q) ↔ ¬Slips fs (ofText lex))) ∧
    ∀ p, jailedRemovePath fs root raw = .ok p →
      ∃ lex rootCanon parent name, lexical root raw = .ok lex ∧
        fs.canonicalize root.path = .ok rootCanon ∧ components p = parent ++ [name] ∧
        rootCanon <+: parent ∧ ".." ∉ components p ∧ (∀ q, q <+: parent → ¬fs.IsLink q) ∧
        components p ≠ rootCanon ∧ fileName? (ofText lex) = some name := by
  refine ⟨fun p h => ?_, fun p h => ?_⟩
  · obtain ⟨lex, rootCanon, hlex, hp⟩ := jailedWritePath_ok h
    refine ⟨lex, rootCanon, hlex, hp.root, hp.within, dots_components hp.dots, hp.git, hp.fence, ?_⟩
    rw [← hp.final]
    refine ⟨fun hfree => hfree _ (List.prefix_refl _), fun hlast q hq => ?_⟩
    by_cases heq : q = components p
    · rwa [heq]
    · exact hp.proper q hq heq
  · obtain ⟨lex, rootCanon, parent, name, hlex, hp⟩ := jailedRemovePath_ok h
    refine ⟨lex, rootCanon, parent, name, hlex, hp.root, hp.split, hp.within,
      dots_components hp.dots, hp.linkFree, ?_, hp.named⟩
    intro heq
    have hlen := hp.within.length_le
    rw [← heq, hp.split, List.length_append, List.length_singleton] at hlen
    omega

/-! ## A link that is missed -/

/-- A workspace with a link to a file outside of it. -/
private def leakyTree : Tree :=
  Tree.ofNodes
    [(["embra"], .dir), (["embra", "workspace"], .dir),
      (["embra", "workspace", "l"], .link "/etc/passwd"), (["etc"], .dir),
      (["etc", "passwd"], .file [])]
    (by decide +kernel)

/-- The link is refused by its name, and handed out as a path to write with a
slash after it. -/
theorem jailedWritePath_slips :
    (jailedWritePath leakyTree workspaceRoot "l").toOption = none ∧
    (jailedWritePath leakyTree workspaceRoot "l/").toOption =
      some ["embra", "workspace", "l"] ∧
    leakyTree.entry ["embra", "workspace", "l"] = some (.link "/etc/passwd") := by
  refine ⟨?_, ?_, ?_⟩ <;> decide +kernel

end EmbraOS.Ports.Jail
