import EmbraOS.Ports.Files

/-!
# The fenced directories over a run of the file tools

The file tools look at the path they are given, not at what lies below it.  So
a call can reach into a fenced directory in two ways: `.config` is outside the
fence, and with it goes or comes `.config/git`; and the atomic writer opens its
temporary name, which can be foreseen, through a link that stands there.

`run_keeps_fenced` says that these are the only ones: over every run whose
calls are careful in these two respects, nothing in the fenced directories
changes.  `run_breaks_fence` has a run for each of the ways in.  The writer
itself is atomic: `applyAtomic_entry`.
-/

namespace EmbraOS.Ports.Fence

open Verified
open Verified.UnixPath
open Verified.FileTree
open Ports.Jail
open Ports.Files

/-! ## Careful calls -/

/-- The directory that the one of git stands in. -/
def configDir (root : Loc) : Loc := root ++ [".config"]

/-- What is taken away takes no git configuration along. -/
def takesNone (root : Loc) (fs : Tree) (loc : Loc) : Bool :=
  loc = configDir root → fs.entry (root ++ gitConfigDir) = none

/-- What is moved here brings no git configuration. -/
def bringsNone (root : Loc) (fs : Tree) (src dst : Loc) : Bool :=
  dst = configDir root → fs.entry (src ++ ["git"]) = none

/-- There is no link where the temporary file is made. -/
def stagesInPlace (fs : Tree) (pid seq : Nat) (target : Path) : Bool :=
  match tempPathFor pid seq target with
  | .error _ => true
  | .ok tmp =>
    match fs.entry (components tmp) with
    | some (.link _) => false
    | _ => true

def carefulWrite (root : Root) (pid : Nat) (s : Sys) (path : String) : Bool :=
  match jailedWritePath s.tree root path with
  | .error _ => true
  | .ok target => stagesInPlace s.tree pid s.seq target

def carefulMove (root : Root) (fs : Tree) (src dst : String) : Bool :=
  match jailedRemovePath fs root src with
  | .error _ => true
  | .ok src =>
    match jailedWritePath fs root dst with
    | .error _ => true
    | .ok dst =>
      takesNone (components root.path) fs (components src) &&
        bringsNone (components root.path) fs (components src) (components dst)

def carefulDirDelete (root : Root) (fs : Tree) (path : String) (force : Bool) : Bool :=
  match jailedRemovePath fs root path with
  | .error _ => true
  | .ok path => !force || takesNone (components root.path) fs (components path)

/-- A call that keeps off the two ways into the fenced directories. -/
def careful (root : Root) (pid : Nat) (s : Sys) : Op → Bool
  | .write path _ => carefulWrite root pid s path
  | .mkdir _ => true
  | .symlink _ _ => true
  | .delete _ => true
  | .move src dst => carefulMove root s.tree src dst
  | .dirDelete path force => carefulDirDelete root s.tree path force

def carefulRun (root : Root) (pid : Nat) : Sys → List Op → Bool
  | _, [] => true
  | s, op :: ops =>
    careful root pid s op && carefulRun root pid (op.call root pid s).1 ops

/-! ## Locations and the fence -/

section Locations

variable {R loc q : Loc}

theorem Fenced.mono (h : Fenced R loc) (hpre : loc <+: q) : Fenced R q := by
  rcases h with h | h | h
  · exact Or.inl (h.trans hpre)
  · exact Or.inr (Or.inl (h.trans hpre))
  · exact Or.inr (Or.inr (h.trans hpre))

theorem Fenced.below_root (h : Fenced R q) : R <+: q := by
  rcases h with h | h | h
  · exact (List.prefix_append R sshDir).trans h
  · exact (List.prefix_append R gitConfigDir).trans h
  · exact (List.prefix_append R guardianDir).trans h

/-- A location of the workspace outside the fence. -/
structure Open (R loc : Loc) : Prop where
  within : R <+: loc
  fence : ¬Fenced R loc

/-- The one way down into a fenced directory from outside. -/
theorem Open.above (h : Open R loc) (hne : loc ≠ R) (hpre : loc <+: q)
    (hq : Fenced R q) : loc = configDir R ∧ R ++ gitConfigDir <+: q := by
  obtain ⟨rest, rfl⟩ := h.within
  have hrest : rest ≠ [] := by
    intro hnil
    exact hne (by rw [hnil, List.append_nil])
  have hshort : ∀ dir : Loc, R ++ dir <+: q → ¬Fenced R (R ++ rest) →
      (R ++ dir <+: R ++ rest → Fenced R (R ++ rest)) → rest <+: dir := by
    intro dir hdir hnot himp
    rcases List.prefix_or_prefix_of_prefix hdir hpre with hle | hle
    · exact absurd (himp hle) hnot
    · exact (List.prefix_append_right_inj R).1 hle
  rcases hq with hq | hq | hq
  · have hle := hshort sshDir hq h.fence Or.inl
    rcases List.prefix_cons_iff.1 hle with hnil | ⟨t, rfl, ht⟩
    · exact absurd hnil hrest
    · obtain rfl := List.prefix_nil.1 ht
      exact absurd (Or.inl (List.prefix_refl _)) h.fence
  · have hle := hshort gitConfigDir hq h.fence (fun h => Or.inr (Or.inl h))
    rcases List.prefix_cons_iff.1 hle with hnil | ⟨t, rfl, ht⟩
    · exact absurd hnil hrest
    · rcases List.prefix_cons_iff.1 ht with rfl | ⟨t', rfl, ht'⟩
      · exact ⟨rfl, hq⟩
      · obtain rfl := List.prefix_nil.1 ht'
        exact absurd (Or.inr (Or.inl (List.prefix_refl _))) h.fence
  · have hle := hshort guardianDir hq h.fence (fun h => Or.inr (Or.inr h))
    rcases List.prefix_cons_iff.1 hle with hnil | ⟨t, rfl, ht⟩
    · exact absurd hnil hrest
    · obtain rfl := List.prefix_nil.1 ht
      exact absurd (Or.inr (Or.inr (List.prefix_refl _))) h.fence

theorem Open.not_above_root (h : Open R loc) (hne : loc ≠ R) : ¬loc <+: R := by
  intro hpre
  exact hne (hpre.eq_of_length (Nat.le_antisymm hpre.length_le h.within.length_le))

end Locations

/-! ## What a change keeps -/

/-- The root stays a directory, and the fenced locations as they are. -/
structure Keeps (R : Loc) (fs fs' : Tree) : Prop where
  root : fs'.entry R = some .dir
  fenced : ∀ q, Fenced R q → fs'.entry q = fs.entry q

section Changes

variable {R loc : Loc} {fs fs' fs'' : Tree}

theorem Keeps.refl (hR : fs.entry R = some .dir) : Keeps R fs fs :=
  ⟨hR, fun _ _ => rfl⟩

theorem Keeps.trans (h : Keeps R fs fs') (h' : Keeps R fs' fs'') : Keeps R fs fs'' := by
  refine ⟨h'.root, ?_⟩
  intro q hq
  rw [h'.fenced q hq, h.fenced q hq]

section

variable (hR : fs.entry R = some .dir)
include hR

/-- One entry is made or replaced. -/
theorem keeps_put (hfence : ¬Fenced R loc) (hne : R ≠ loc)
    {e : Entry} (h : ∀ q, fs'.entry q = if q = loc then some e else fs.entry q) :
    Keeps R fs fs' := by
  constructor
  · rw [h, if_neg hne, hR]
  · intro q hq
    rw [h, if_neg]
    intro heq
    exact hfence (heq ▸ hq)

/-- A location is removed with what is below it. -/
theorem keeps_remove (hroot : ¬loc <+: R) (hnone : ∀ q, Fenced R q → loc <+: q → fs.entry q = none)
    (h : ∀ q, fs'.entry q = if loc <+: q then none else fs.entry q) :
    Keeps R fs fs' := by
  constructor
  · rw [h, if_neg hroot, hR]
  · intro q hq
    rw [h]
    split
    · exact (hnone q hq ‹_›).symm
    · rfl

/-- A location is moved with what is below it. -/
theorem keeps_move {src dst : Loc} (hsrc : ¬src <+: R) (hdst : ¬dst <+: R)
    (htake : ∀ q, Fenced R q → src <+: q → fs.entry q = none)
    (hbring : ∀ q, Fenced R q → dst <+: q →
      fs.entry (src ++ q.drop dst.length) = fs.entry q)
    (h : ∀ q, fs'.entry q =
      if dst <+: q then fs.entry (src ++ q.drop dst.length)
      else if src <+: q then none else fs.entry q) :
    Keeps R fs fs' := by
  constructor
  · rw [h, if_neg hdst, if_neg hsrc, hR]
  · intro q hq
    rw [h]
    split
    · exact hbring q hq ‹_›
    · split
      · exact (htake q hq ‹_›).symm
      · rfl

/-- Directories are made on the way to a path. -/
theorem keeps_grown {p : Path}
    (hfence : ¬Fenced R (components p)) (h : Tree.Grown fs fs' p) : Keeps R fs fs' := by
  constructor
  · rcases h R with heq | ⟨-, hnone, -⟩
    · rw [heq, hR]
    · rw [hR] at hnone
      cases hnone
  · intro q hq
    rcases h q with heq | ⟨hpre, -, -⟩
    · exact heq
    · exact absurd (Fenced.mono hq hpre) hfence

end

/-- Below `.config`, what is fenced is below `.config/git`. -/
theorem Open.none_below (h : Open R loc) (hne : loc ≠ R)
    (htake : loc = configDir R → fs.entry (R ++ gitConfigDir) = none) :
    ∀ q, Fenced R q → loc <+: q → fs.entry q = none := by
  intro q hq hpre
  obtain ⟨heq, rest, rfl⟩ := h.above hne hpre hq
  exact Tree.entry_append_of_none (htake heq) rest

/-- Nothing that is fenced stands below what is no directory. -/
theorem Open.none_below_leaf (h : Open R loc) (hne : loc ≠ R)
    (hleaf : ∀ rest, rest ≠ [] → fs.entry (loc ++ rest) = none) :
    ∀ q, Fenced R q → loc <+: q → fs.entry q = none := by
  apply h.none_below hne
  intro heq
  have hgit : R ++ gitConfigDir = loc ++ ["git"] := by
    rw [heq, configDir, List.append_assoc]
    rfl
  rw [hgit]
  exact hleaf ["git"] (by simp)

end Changes

/-! ## The paths of the calls -/

section Paths

variable {fs : Tree} {root : Root} {raw : String} {p : Path}

section

variable (hR : fs.entry (components root.path) = some .dir)
include hR

theorem canonicalize_root :
    fs.canonicalize root.path = .ok (components root.path) :=
  Tree.walk_dir hR

theorem jailedWritePath_open (h : jailedWritePath fs root raw = .ok p) :
    Open (components root.path) (components p) ∧ Tree.Plain fs p := by
  obtain ⟨lex, rootCanon, -, hp⟩ := jailedWritePath_ok h
  have hcanon := hp.root
  rw [canonicalize_root hR] at hcanon
  obtain rfl := Except.ok.inj hcanon
  exact ⟨⟨hp.within, hp.fence⟩, hp.dots, hp.proper⟩

theorem jailedRemovePath_open (h : jailedRemovePath fs root raw = .ok p) :
    Open (components root.path) (components p) ∧ components p ≠ components root.path ∧
      Tree.Plain fs p := by
  obtain ⟨lex, rootCanon, parent, name, -, hp⟩ := jailedRemovePath_ok h
  have hcanon := hp.root
  rw [canonicalize_root hR] at hcanon
  obtain rfl := Except.ok.inj hcanon
  have hlen := hp.within.length_le
  refine ⟨⟨?_, hp.fence⟩, ?_, hp.dots, ?_⟩
  · rw [hp.split]
    exact hp.within.trans (List.prefix_append _ _)
  · intro heq
    rw [← heq, hp.split, List.length_append, List.length_singleton] at hlen
    omega
  · intro q hq hne
    rw [hp.split] at hq hne
    rcases List.prefix_concat_iff.1 hq with heq | hq
    · exact absurd heq hne
    · exact hp.linkFree q hq

end

theorem ensureParentDirs_grown (hp : Tree.Plain fs p) :
    Tree.Grown fs (ensureParentDirs fs p).1 p := by
  unfold ensureParentDirs
  split
  · exact Tree.Grown.refl fs p
  rename_i parent hparent
  split
  · exact Tree.Grown.refl fs p
  have hplain : Tree.Plain fs parent := by
    obtain ⟨hdots, hfree⟩ := hp.parent hparent
    exact ⟨hdots, fun q hq _ => hfree q hq⟩
  obtain ⟨last, hlast⟩ := components_parent hparent
  have hpre : components parent <+: components p := by
    rw [hlast]
    exact List.prefix_append _ _
  have hgrown : Tree.Grown fs (fs.createDirAll parent).1 p :=
    (Tree.grown_createDirAll _ fs parent hplain).trans (Tree.Grown.refl _ p) hpre
  split <;> rename_i heq <;> rw [heq] at hgrown <;> exact hgrown

end Paths

/-! ## The temporary file -/

section Temp

variable {R : Loc} {fs fs' : Tree} {pid seq : Nat} {target tmp : Path}

theorem getLast?_tempName (fname : String) :
    (tempName pid seq fname).toList.getLast? = some 'p' := by
  have hend : (tempName pid seq fname).toList =
      ("." ++ fname ++ "." ++ tmpTag ++ "." ++ toString pid ++ "." ++
        toString seq ++ ".tm").toList ++ ['p'] := by
    simp [tempName]
  rw [hend, List.getLast?_concat]

theorem tempName_ne {fname name : String} (h : name.toList.getLast? ≠ some 'p') :
    tempName pid seq fname ≠ name := by
  intro heq
  rw [← heq, getLast?_tempName] at h
  exact h rfl

theorem tempName_ne_self (fname : String) : tempName pid seq fname ≠ fname := by
  intro heq
  have hlen := congrArg String.length heq
  have hdot : ".".length = 1 := rfl
  simp only [tempName, String.length_append, hdot] at hlen
  omega

/-- A temporary file stands beside its target, under a name of its own. -/
theorem tempPathFor_ok (h : tempPathFor pid seq target = .ok tmp) :
    ∃ dir fname, parent? target = some dir ∧ tmp = dir ++ [tempName pid seq fname] ∧
      components target = components dir ++ [fname] ∧
      components tmp = components dir ++ [tempName pid seq fname] := by
  unfold tempPathFor at h
  split at h
  · cases h
  rename_i dir hdir
  split at h
  · cases h
  rename_i fname hname
  obtain rfl := Except.ok.inj h
  refine ⟨dir, fname, hdir, rfl, ?_, ?_⟩
  · obtain ⟨last, hlast⟩ := components_parent hdir
    have hget := (Option.filter_eq_some_iff.1 hname).1
    rw [hlast, List.getLast?_concat] at hget
    rw [hlast, Option.some.inj hget]
  · have htriv : isTrivial (tempName pid seq fname) = false := by
      rw [isTrivial, decide_eq_false_iff_not, not_or]
      exact ⟨tempName_ne (by decide), tempName_ne (by decide)⟩
    rw [components_append, components_cons, htriv]
    rfl

theorem plain_temp (hp : Tree.Plain fs target) (h : tempPathFor pid seq target = .ok tmp) :
    Tree.Plain fs tmp := by
  obtain ⟨dir, fname, hdir, rfl, -, hcomps⟩ := tempPathFor_ok h
  obtain ⟨hdots, hfree⟩ := hp.parent hdir
  constructor
  · rw [List.mem_append, List.mem_singleton, not_or]
    exact ⟨hdots, (tempName_ne (by decide)).symm⟩
  · intro q hq hne
    rw [hcomps] at hq hne
    rcases List.prefix_concat_iff.1 hq with heq | hq
    · exact absurd heq hne
    · exact hfree q hq

/-- Nothing that is fenced stands at or below a temporary name. -/
theorem temp_not_above (hopen : Open R (components target))
    (h : tempPathFor pid seq target = .ok tmp) {q : Loc} (hq : Fenced R q) :
    ¬components tmp <+: q := by
  obtain ⟨dir, fname, -, -, htarget, hcomps⟩ := tempPathFor_ok h
  rw [hcomps]
  intro hpre
  have hwithin := hopen.within
  have hfence := hopen.fence
  rw [htarget] at hwithin hfence
  rcases List.prefix_concat_iff.1 hwithin with heq | hdir
  · -- The target is the root: the name beside it leads to no place in it.
    have hle := List.prefix_of_prefix_length_le hpre (Fenced.below_root hq) (by simp [heq])
    have hsame := hle.eq_of_length (by simp [heq])
    rw [heq] at hsame
    exact tempName_ne_self fname (by simpa using hsame)
  · have htmp : Open R (components dir ++ [tempName pid seq fname]) := by
      refine ⟨hdir.trans (List.prefix_append _ _), ?_⟩
      have hlast : ∀ (pre : Loc) (name : String), name.toList.getLast? ≠ some 'p' →
          R ++ (pre ++ [name]) <+: components dir ++ [tempName pid seq fname] →
          R ++ (pre ++ [name]) <+: components dir := by
        intro pre name hname hle
        rcases List.prefix_concat_iff.1 hle with heq | hle
        · rw [← List.append_assoc] at heq
          obtain ⟨-, hnames⟩ := List.append_inj' heq rfl
          exact absurd (List.singleton_inj.1 hnames).symm (tempName_ne hname)
        · exact hle
      intro hbad
      apply hfence
      apply Fenced.mono _ (List.prefix_append (components dir) [fname])
      rcases hbad with hbad | hbad | hbad
      · exact Or.inl (hlast [] ".ssh" (by decide) hbad)
      · exact Or.inr (Or.inl (hlast [".config"] "git" (by decide) hbad))
      · exact Or.inr (Or.inr (hlast [] ".guardian" (by decide) hbad))
    have hlen := hdir.length_le
    have hne : components dir ++ [tempName pid seq fname] ≠ R := by
      intro heq
      rw [← heq, List.length_append, List.length_singleton] at hlen
      omega
    have hconfig := (htmp.above hne hpre hq).1
    rw [configDir] at hconfig
    obtain ⟨-, hnames⟩ := List.append_inj' hconfig rfl
    exact tempName_ne (by decide) (List.singleton_inj.1 hnames)

theorem temp_not_above_root (hopen : Open R (components target))
    (h : tempPathFor pid seq target = .ok tmp) : ¬components tmp <+: R := by
  intro hpre
  exact temp_not_above hopen h (q := R ++ sshDir) (Or.inl (List.prefix_refl _))
    (hpre.trans (List.prefix_append R sshDir))

theorem discardTemp_keeps (hR : fs.entry R = some .dir) (hopen : Open R (components target))
    (h : tempPathFor pid seq target = .ok tmp) (hp : Tree.Plain fs tmp) :
    Keeps R fs (discardTemp fs tmp) := by
  unfold discardTemp
  split
  · rename_i fs' hunlink
    apply keeps_remove hR (temp_not_above_root hopen h) _ (Tree.unlink_ok hp hunlink).2
    intro q hq hpre
    exact absurd hpre (temp_not_above hopen h hq)
  · exact Keeps.refl hR

/-- A file in the place of no link leaves the other paths free of links. -/
theorem plain_put {p : Path} {loc : Loc} {bytes : List UInt8} (hp : Tree.Plain fs p)
    (h : ∀ q, fs'.entry q = if q = loc then some (.file bytes) else fs.entry q) :
    Tree.Plain fs' p := by
  refine ⟨hp.dots, ?_⟩
  rintro q hq hne ⟨dest, hdest⟩
  rw [h] at hdest
  split at hdest
  · cases hdest
  · exact hp.linkFree q hq hne ⟨dest, hdest⟩

theorem commitTemp_keeps {bytes : List UInt8} (hR : fs.entry R = some .dir)
    (hopen : Open R (components target)) (h : tempPathFor pid seq target = .ok tmp)
    (htmp : Tree.Plain fs tmp) (htarget : Tree.Plain fs target)
    (hfile : fs.entry (components tmp) = some (.file bytes)) :
    Keeps R fs (commitTemp fs tmp target).1 := by
  unfold commitTemp
  split
  · rename_i fs' hrename
    rcases Tree.rename_ok htmp htarget hrename with rfl | ⟨hleaf, hdir, -, hentry⟩
    · exact Keeps.refl hR
    -- The root is a directory, and no file takes its place.
    have hne : components target ≠ R := by
      intro heq
      exact hdir (by rw [hfile]; simp) (heq ▸ hR)
    have hnone := hopen.none_below_leaf hne hleaf
    refine keeps_move hR (temp_not_above_root hopen h) (hopen.not_above_root hne) ?_ ?_ hentry
    · intro q hq hpre
      exact absurd hpre (temp_not_above hopen h hq)
    intro q hq hpre
    rw [hnone q hq hpre]
    obtain ⟨rest, rfl⟩ := hpre
    rw [List.drop_left]
    apply Tree.entry_append_of_ne_dir (by rw [hfile]; simp)
    rintro rfl
    rw [List.append_nil] at hq
    exact hopen.fence hq
  · exact discardTemp_keeps hR hopen h htmp

theorem applyAtomic_keeps {bytes : List UInt8} (hR : fs.entry R = some .dir)
    (hopen : Open R (components target)) (h : tempPathFor pid seq target = .ok tmp)
    (hp : Tree.Plain fs target) (hlink : ¬fs.IsLink (components tmp)) :
    Keeps R fs (applyAtomic fs target tmp bytes).1 := by
  have htmp := plain_temp hp h
  unfold applyAtomic stage
  split
  · exact discardTemp_keeps hR hopen h htmp
  rename_i fs' hstage
  split at hstage
  · cases hstage
  split at hstage
  · cases hstage
  rename_i hcreate
  obtain rfl := Except.ok.inj hstage
  obtain ⟨-, hentry⟩ := Tree.createFile_ok htmp hlink hcreate
  have hfence : ¬Fenced R (components tmp) := by
    intro hbad
    exact temp_not_above hopen h hbad (List.prefix_refl _)
  have hne : R ≠ components tmp := by
    intro heq
    exact temp_not_above_root hopen h (heq ▸ List.prefix_refl _)
  have hput := keeps_put hR hfence hne hentry
  apply hput.trans
  apply commitTemp_keeps hput.root hopen h (plain_put htmp hentry) (plain_put hp hentry)
  rw [hentry, if_pos rfl]

theorem discardTemp_entry (hp : Tree.Plain fs tmp) {q : Loc} (hq : q ≠ components tmp) :
    (discardTemp fs tmp).entry q = fs.entry q := by
  unfold discardTemp
  split
  · rename_i fs' hunlink
    obtain ⟨hfile, hentry⟩ := Tree.unlink_ok hp hunlink
    rw [hentry]
    split
    · rename_i hpre
      obtain ⟨rest, rfl⟩ := hpre
      exact (Tree.entry_append_of_ne_dir hfile (by rintro rfl; simp at hq)).symm
    · rfl
  · rfl

/-- **A write is atomic.**  When it answers without an error the target is a file of the bytes;
nothing else changes, and with an error nothing does: but for the temporary name. -/
theorem applyAtomic_entry {bytes : List UInt8} (h : tempPathFor pid seq target = .ok tmp)
    (hp : Tree.Plain fs target) (hlink : ¬fs.IsLink (components tmp)) {q : Loc}
    (hq : q ≠ components tmp) : (applyAtomic fs target tmp bytes).1.entry q =
      if (applyAtomic fs target tmp bytes).2.isOk ∧ q = components target then
        some (.file bytes) else fs.entry q := by
  have htmp := plain_temp hp h
  generalize hr : applyAtomic fs target tmp bytes = r
  unfold applyAtomic at hr
  split at hr
  · subst hr
    exact discardTemp_entry htmp hq
  rename_i hstage
  unfold stage at hstage
  split at hstage
  · cases hstage
  split at hstage
  · cases hstage
  rename_i staged hcreate
  obtain rfl := Except.ok.inj hstage
  obtain ⟨-, hentry⟩ := Tree.createFile_ok htmp hlink hcreate
  have htmp₁ := plain_put htmp hentry
  have hp₁ := plain_put hp hentry
  have hsame := hentry q
  rw [if_neg hq] at hsame
  unfold commitTemp at hr
  split at hr
  · rename_i moved hrename
    subst hr
    rcases Tree.rename_ok htmp₁ hp₁ hrename with rfl | ⟨hleaf, -, -, hmoved⟩
    · obtain ⟨dir, fname, -, -, htarget, hname⟩ := tempPathFor_ok h
      have heq := Tree.rename_self htmp₁ hp₁ hrename
      rw [htarget, hname] at heq
      exact absurd (by simpa using heq) (tempName_ne_self fname)
    -- A file was moved, over one: there is nothing below either name.
    have hfile : ∀ rest, rest ≠ [] → _ = none := fun rest =>
      Tree.entry_append_of_ne_dir (by rw [hentry, if_pos rfl]; simp)
    simp only [Except.isOk, Except.toBool, true_and]
    rw [hmoved, ← hsame]
    by_cases htop : q = components target
    · rw [htop, if_pos rfl, if_pos (List.prefix_refl _), List.drop_length, List.append_nil,
        hentry, if_pos rfl]
    rw [if_neg htop]
    split
    · rename_i hpre
      obtain ⟨rest, rfl⟩ := hpre
      have hrest : rest ≠ [] := by simpa using htop
      rw [List.drop_left, hfile rest hrest, hleaf rest hrest]
    split
    · rename_i hpre
      obtain ⟨rest, rfl⟩ := hpre
      rw [hfile rest (by simpa using hq)]
    · rfl
  · subst hr
    exact (discardTemp_entry htmp₁ hq).trans hsame

end Temp

/-! ## The tools, one by one -/

section Tools

variable {root : Root} {fs : Tree}

variable {R : Loc} {pid : Nat} {s : Sys} {raw : String} {fs' : Tree} {dst : Path} {force : Bool}

theorem writeAtomicCreate_keeps {target : Path}
    {bytes : List UInt8} (hR : s.tree.entry R = some .dir)
    (hopen : Open R (components target)) (hplain : Tree.Plain s.tree target)
    (hcare : ∀ tmp, tempPathFor pid s.seq target = .ok tmp →
      ¬s.tree.IsLink (components tmp)) :
    Keeps R s.tree (writeAtomicCreate pid s target bytes).1.tree := by
  unfold writeAtomicCreate
  split
  · exact Keeps.refl hR
  · rename_i tmp htmp
    exact applyAtomic_keeps hR hopen htmp hplain (hcare tmp htmp)

theorem stagesInPlace_iff {seq : Nat} {target : Path} :
    stagesInPlace fs pid seq target = true ↔
      ∀ tmp, tempPathFor pid seq target = .ok tmp → ¬fs.IsLink (components tmp) := by
  unfold stagesInPlace Tree.IsLink
  split
  · rename_i htmp
    simp [htmp]
  rename_i tmp htmp
  split
  · rename_i dest hdest
    simp [htmp, hdest]
  · rename_i hno
    rw [htmp]
    refine iff_of_true rfl ?_
    rintro tmp' heq ⟨dest, hdest⟩
    obtain rfl := Except.ok.inj heq
    exact hno dest hdest

theorem fileWriteIn_keeps {content : String} (hR : s.tree.entry (components root.path) = some .dir)
    (hcare : carefulWrite root pid s raw = true) :
    Keeps (components root.path) s.tree (fileWriteIn root pid s raw content).1.tree := by
  unfold fileWriteIn
  split
  · exact Keeps.refl hR
  rename_i path hpath
  obtain ⟨hopen, hplain⟩ := jailedWritePath_open hR hpath
  have hgrown := ensureParentDirs_grown hplain
  have hkeep := keeps_grown hR hopen.fence hgrown
  unfold carefulWrite at hcare
  rw [hpath] at hcare
  unfold writeAt
  split
  · rename_i fs e hdirs
    rw [hdirs] at hkeep
    exact hkeep
  · rename_i fs hdirs
    rw [hdirs] at hkeep hgrown
    have hstage : ∀ tmp, tempPathFor pid s.seq path = .ok tmp →
        ¬fs.IsLink (components tmp) := by
      intro tmp htmp
      rw [hgrown.isLink]
      exact stagesInPlace_iff.1 hcare tmp htmp
    have hwrite := @writeAtomicCreate_keeps _ pid { s with tree := fs } path
      (Utf8.encode content.toList) hkeep.root hopen (hgrown.plain hplain) hstage
    dsimp only at hwrite ⊢
    generalize writeAtomicCreate pid { s with tree := fs } path
      (Utf8.encode content.toList) = r at hwrite ⊢
    obtain ⟨s', e | ⟨⟩⟩ := r
    · exact hkeep.trans hwrite
    · exact hkeep.trans hwrite

theorem mkdirIn_keeps (hR : fs.entry (components root.path) = some .dir) :
    Keeps (components root.path) fs (mkdirIn root fs raw).1 := by
  unfold mkdirIn
  split
  · exact Keeps.refl hR
  rename_i path hpath
  obtain ⟨hopen, hplain⟩ := jailedWritePath_open hR hpath
  split
  · exact Keeps.refl hR
  · have hgrown : Tree.Grown fs (fs.createDirAll path).1 path :=
      Tree.grown_createDirAll _ fs path hplain
    have hkeep := keeps_grown hR hopen.fence hgrown
    split <;> rename_i heq <;> rw [heq] at hkeep <;> exact hkeep

theorem fileSymlinkIn_keeps {target link : String}
    (hR : fs.entry (components root.path) = some .dir) :
    Keeps (components root.path) fs (fileSymlinkIn root fs target link).1 := by
  unfold fileSymlinkIn
  split
  · exact Keeps.refl hR
  split
  · exact Keeps.refl hR
  rename_i path hpath
  split
  · exact Keeps.refl hR
  split
  · exact Keeps.refl hR
  split
  · rename_i hlink
    obtain ⟨hopen, hplain⟩ := jailedWritePath_open hR hpath
    obtain ⟨hnone, hentry⟩ := Tree.symlink_ok hplain hlink
    apply keeps_put hR hopen.fence _ hentry
    intro heq
    rw [← heq, hR] at hnone
    cases hnone
  · exact Keeps.refl hR

/-- What is unlinked is no directory. -/
theorem unlink_keeps {path : Path} (hR : fs.entry R = some .dir)
    (hopen : Open R (components path)) (hne : components path ≠ R)
    (hplain : Tree.Plain fs path) (h : fs.unlink path = .ok fs') : Keeps R fs fs' := by
  obtain ⟨hfile, hentry⟩ := Tree.unlink_ok hplain h
  apply keeps_remove hR (hopen.not_above_root hne) _ hentry
  apply hopen.none_below_leaf hne
  intro rest hrest
  exact Tree.entry_append_of_ne_dir hfile hrest

theorem fileDeleteIn_keeps (hR : fs.entry (components root.path) = some .dir) :
    Keeps (components root.path) fs (fileDeleteIn root fs raw).1 := by
  unfold fileDeleteIn
  split
  · exact Keeps.refl hR
  rename_i path hpath
  obtain ⟨hopen, hne, hplain⟩ := jailedRemovePath_open hR hpath
  split
  · exact Keeps.refl hR
  · exact Keeps.refl hR
  · exact Keeps.refl hR
  · split
    · exact unlink_keeps hR hopen hne hplain ‹_›
    · exact Keeps.refl hR
  · split
    · exact unlink_keeps hR hopen hne hplain ‹_›
    · exact Keeps.refl hR

/-- The directories made for a move add nothing to what is moved. -/
theorem bringsNone_grown {src : Loc} (hsrc : R <+: src)
    (hne : src ≠ R) (hgrown : Tree.Grown fs fs' dst)
    (h : bringsNone R fs src (components dst) = true)
    (hdst : components dst = configDir R) : fs'.entry (src ++ ["git"]) = none := by
  have hnone : fs.entry (src ++ ["git"]) = none := of_decide_eq_true h hdst
  rcases hgrown (src ++ ["git"]) with heq | ⟨hpre, -, -⟩
  · rw [heq, hnone]
  · have hlen := hpre.length_le
    rw [hdst, configDir] at hlen
    simp only [List.length_append, List.length_singleton] at hlen
    exact absurd (hsrc.eq_of_length_le (by omega)).symm hne

theorem rename_keeps {src : Path} (hR : fs.entry R = some .dir)
    (hsrc : Open R (components src)) (hsrcne : components src ≠ R)
    (hsrcplain : Tree.Plain fs src)
    (hdst : Open R (components dst)) (hdstne : components dst ≠ R)
    (hdstplain : Tree.Plain fs dst)
    (htake : components src = configDir R → fs.entry (R ++ gitConfigDir) = none)
    (hbring : components dst = configDir R → fs.entry (components src ++ ["git"]) = none)
    (h : fs.rename src dst = .ok fs') : Keeps R fs fs' := by
  rcases Tree.rename_ok hsrcplain hdstplain h with rfl | ⟨hleaf, -, -, hentry⟩
  · exact Keeps.refl hR
  refine keeps_move hR (hsrc.not_above_root hsrcne) (hdst.not_above_root hdstne)
    (hsrc.none_below hsrcne htake) ?_ hentry
  intro q hq hpre
  rw [hdst.none_below_leaf hdstne hleaf q hq hpre]
  obtain ⟨hconfig, rest, hrest⟩ := hdst.above hdstne hpre hq
  have hdrop : q.drop (components dst).length = ["git"] ++ rest := by
    have hq' : q = components dst ++ (["git"] ++ rest) := by
      rw [← hrest, hconfig, configDir]
      simp [gitConfigDir]
    rw [hq', List.drop_left]
  rw [hdrop, ← List.append_assoc]
  exact Tree.entry_append_of_none (hbring hconfig) rest

theorem fileMoveIn_keeps {src dst : String} (hR : fs.entry (components root.path) = some .dir)
    (hcare : carefulMove root fs src dst = true) :
    Keeps (components root.path) fs (fileMoveIn root fs src dst).1 := by
  unfold fileMoveIn
  split
  · exact Keeps.refl hR
  rename_i psrc hpsrc
  split
  · exact Keeps.refl hR
  rename_i pdst hpdst
  obtain ⟨hsopen, hsne, hsplain⟩ := jailedRemovePath_open hR hpsrc
  obtain ⟨hdopen, hdplain⟩ := jailedWritePath_open hR hpdst
  unfold carefulMove at hcare
  rw [hpsrc] at hcare
  dsimp only at hcare
  rw [hpdst] at hcare
  dsimp only at hcare
  rw [Bool.and_eq_true] at hcare
  split
  · exact Keeps.refl hR
  split
  · exact Keeps.refl hR
  rename_i hmissing
  have hdne : components pdst ≠ components root.path := by
    intro heq
    rw [← heq] at hR
    rw [Tree.lstat_dir hR] at hmissing
    cases hmissing
  have hgrown := ensureParentDirs_grown hdplain
  have hkeep := keeps_grown hR hdopen.fence hgrown
  split
  · rename_i hdirs
    rw [hdirs] at hkeep
    exact hkeep
  · rename_i fs' hdirs
    rw [hdirs] at hkeep hgrown
    split
    · rename_i hrename
      apply hkeep.trans
      apply rename_keeps hkeep.root hsopen hsne (hgrown.plain hsplain) hdopen hdne
        (hgrown.plain hdplain) _ _ hrename
      · intro hconfig
        rw [hkeep.fenced _ (Or.inr (Or.inl (List.prefix_refl _)))]
        exact of_decide_eq_true hcare.1 hconfig
      · exact bringsNone_grown hsopen.within hsne hgrown hcare.2
    · exact hkeep

theorem removeDirectory_keeps {path : Path}
    (hR : fs.entry R = some .dir) (hopen : Open R (components path))
    (hne : components path ≠ R) (hplain : Tree.Plain fs path)
    (hcare : (!force || takesNone R fs (components path)) = true) :
    Keeps R fs (removeDirectory fs path force).1 := by
  have hroot := hopen.not_above_root hne
  unfold removeDirectory
  split
  · exact Keeps.refl hR
  · exact Keeps.refl hR
  · split
    · rename_i hforce
      rw [hforce] at hcare
      split
      · rename_i hremove
        apply keeps_remove hR hroot _ (Tree.removeDirAll_ok hplain hremove)
        apply hopen.none_below hne
        exact of_decide_eq_true hcare
      · exact Keeps.refl hR
    · split
      · rename_i hremove
        obtain ⟨hempty, hentry⟩ := Tree.rmdir_ok hplain hremove
        apply keeps_remove hR hroot _ hentry
        apply hopen.none_below_leaf hne
        intro rest hrest
        exact Tree.entry_of_isEmpty hempty hrest
      · exact Keeps.refl hR
      · exact Keeps.refl hR
  · exact Keeps.refl hR

theorem dirDeleteIn_keeps (hR : fs.entry (components root.path) = some .dir)
    (hcare : carefulDirDelete root fs raw force = true) :
    Keeps (components root.path) fs (dirDeleteIn root fs raw force).1 := by
  unfold dirDeleteIn
  split
  · exact Keeps.refl hR
  rename_i lex hlex
  split
  · exact Keeps.refl hR
  rename_i hfence
  split
  · exact Keeps.refl hR
  split
  · exact Keeps.refl hR
  rename_i rootCanon path hreal
  split
  · exact Keeps.refl hR
  rename_i hfence'
  have hpath : jailedRemovePath fs root raw = .ok path := by
    unfold jailedRemovePath
    rw [hlex]
    dsimp only
    rw [hfence]
    rw [hreal]
    dsimp only
    rw [hfence']
  obtain ⟨hopen, hne, hplain⟩ := jailedRemovePath_open hR hpath
  unfold carefulDirDelete at hcare
  rw [hpath] at hcare
  exact removeDirectory_keeps hR hopen hne hplain hcare

/-- **A careful call** leaves the fenced directories as they are. -/
theorem call_keeps {op : Op} (hR : s.tree.entry (components root.path) = some .dir)
    (hcare : careful root pid s op = true) :
    Keeps (components root.path) s.tree (op.call root pid s).1.tree := by
  cases op with
  | write path content =>
    rw [Op.call]
    exact fileWriteIn_keeps hR hcare
  | mkdir path =>
    rw [Op.call, Sys.lift]
    dsimp only
    exact mkdirIn_keeps hR
  | symlink target link =>
    rw [Op.call, Sys.lift]
    dsimp only
    exact fileSymlinkIn_keeps hR
  | delete path =>
    rw [Op.call, Sys.lift]
    dsimp only
    exact fileDeleteIn_keeps hR
  | move src dst =>
    rw [Op.call, Sys.lift]
    dsimp only
    exact fileMoveIn_keeps hR hcare
  | dirDelete path force =>
    rw [Op.call, Sys.lift]
    dsimp only
    exact dirDeleteIn_keeps hR hcare

theorem run_keeps (ops : List Op) : ∀ {s : Sys},
    s.tree.entry (components root.path) = some .dir →
    carefulRun root pid s ops = true →
    Keeps (components root.path) s.tree (run root pid s ops).1.tree := by
  induction ops with
  | nil =>
    intro s hR _
    exact Keeps.refl hR
  | cons op ops ih =>
    intro s hR hcare
    rw [carefulRun, Bool.and_eq_true] at hcare
    have hstep := call_keeps hR hcare.1
    exact hstep.trans (ih hstep.root hcare.2)

end Tools

/-- **The fence over a run.**  In every file tree with a directory at the root,
over every sequence of calls that are careful when they are made, the fenced
directories keep their entries and the bytes of their files. -/
theorem run_keeps_fenced (root : Root) (pid : Nat) (s : Sys) (ops : List Op)
    (hroot : s.tree.entry (components root.path) = some .dir)
    (hcare : carefulRun root pid s ops = true) :
    ∀ q, Fenced (components root.path) q →
      (run root pid s ops).1.tree.entry q = s.tree.entry q :=
  (run_keeps ops hroot hcare).fenced

/-- A workspace with a key, and a git configuration as given. -/
private def workspaceNodes (nodes : Nodes) : Nodes :=
  [(["embra"], .dir), (["embra", "workspace"], .dir),
    (["embra", "workspace", ".ssh"], .dir),
    (["embra", "workspace", ".ssh", "id"], .file [1])] ++ nodes

/-- Files come, move and go beside a key that stays. -/
theorem run_keeps_fenced_sample : (run workspaceRoot 7
      ⟨Tree.ofNodes (workspaceNodes []) (by decide +kernel), 0⟩
      [.write "d/a.txt" "x", .symlink "d" "l", .move "l/a.txt" "b", .delete "l",
        .dirDelete "d" true, .mkdir ".config/x", .dirDelete ".config" true]).1.tree.entry
      ["embra", "workspace", ".ssh", "id"] = some (.file [1]) :=
  run_keeps_fenced workspaceRoot 7
    ⟨Tree.ofNodes (workspaceNodes []) (by decide +kernel), 0⟩ _ (by decide +kernel)
    (by decide +kernel) ["embra", "workspace", ".ssh", "id"] (Or.inl (by decide))

theorem applyAtomic_entry_sample :
    (applyAtomic (Tree.ofNodes (workspaceNodes []) (by decide +kernel))
      ["embra", "workspace", "a"] ["embra", "workspace", ".a.embra-patch.7.0.tmp"] [120]).1.entry
        ["embra", "workspace", "a"] = some (.file [120]) :=
  (applyAtomic_entry (by decide +kernel : tempPathFor 7 0 _ = _) (jailedWritePath_open
    (by decide +kernel) (by decide +kernel : jailedWritePath _ workspaceRoot "a" = _)).2
    (fun ⟨_, hdest⟩ => Option.some_ne_none _ (hdest.symm.trans (by decide +kernel)))
    (by decide)).trans (by decide +kernel)

/-! ## The ways in -/

private def gitNodes : Nodes :=
  workspaceNodes
    [(["embra", "workspace", ".config"], .dir),
      (["embra", "workspace", ".config", "git"], .dir),
      (["embra", "workspace", ".config", "git", "config"], .file [2])]

private def plantedNodes : Nodes :=
  workspaceNodes
    [(["embra", "workspace", "d"], .dir), (["embra", "workspace", "d", "git"], .dir),
      (["embra", "workspace", ".a.embra-patch.7.0.tmp"],
        .link "/embra/workspace/.ssh/id")]

/-- A git configuration is removed and moved away with the directory it stands
in, and one is moved in with another; a key is written over through a link at
the temporary name of a file. -/
theorem run_breaks_fence : (run workspaceRoot 7 ⟨Tree.ofNodes gitNodes (by decide +kernel), 0⟩
      [.dirDelete ".config" true]).1.tree.entry
        ["embra", "workspace", ".config", "git", "config"] = none ∧
    (run workspaceRoot 7 ⟨Tree.ofNodes gitNodes (by decide +kernel), 0⟩
      [.move ".config" "x"]).1.tree.entry
        ["embra", "workspace", ".config", "git", "config"] = none ∧
    (run workspaceRoot 7 ⟨Tree.ofNodes plantedNodes (by decide +kernel), 0⟩
      [.move "d" ".config"]).1.tree.entry
        ["embra", "workspace", ".config", "git"] = some .dir ∧
    (run workspaceRoot 7 ⟨Tree.ofNodes plantedNodes (by decide +kernel), 0⟩
      [.write "a" "x"]).1.tree.entry
        ["embra", "workspace", ".ssh", "id"] = some (.file [120]) := by
  refine ⟨?_, ?_, ?_, ?_⟩ <;> decide +kernel

end EmbraOS.Ports.Fence
