import EmbraOS.Ports.FileCopy

/-!
# Where the links of a copied tree lead

The comment at `symlink_target_ok` calls the text of a target sound because nothing above the new
link is a link.  But a target may go through links itself, those of the copied tree among them, and
the system goes up from where they lead.  `copied_links_inside` says that this is the only way out
of the workspace: links whose targets meet no link on their way, end at another recreated link, or
were there when the copy was planned and do not go up after a link, lead inside (`Uncrossed`).

The plan is followed entry by entry (`Planned`), the copy call by call: directories and files first
(`Bare`), then the links (`Linked`).
-/

namespace EmbraOS.Ports.FileCopy

open Verified
open Verified.UnixPath
open Verified.FileTree
open Ports.Jail
open Ports.Files (Sys commitTemp)

/-! ## What the plan holds -/

/-- A path of names of entries. -/
def Proper (rel : Path) : Prop := ∀ name ∈ rel, ValidName name

theorem Proper.components {rel : Path} (h : Proper rel) : components rel = rel :=
  components_eq_self (fun name hmem => (h name hmem).not_trivial)

theorem Proper.dots {rel : Path} (h : Proper rel) : ".." ∉ rel :=
  fun hmem => (h _ hmem).2.2.1 rfl

theorem Proper.concat {rel : Path} {name : String} (h : Proper rel) (hname : ValidName name) :
    Proper (rel ++ [name]) := by
  intro n hn
  rcases List.mem_append.1 hn with hn | hn
  · exact h n hn
  · rwa [List.mem_singleton.1 hn]

theorem validName_of_namesIn {fs : Tree} {loc : Loc} {name : String}
    (h : name ∈ namesIn fs loc) : ValidName name := by
  obtain ⟨n, hn, hname⟩ := List.mem_filterMap.1 (List.mem_dedup.1 h)
  split at hname
  · obtain ⟨p, hp⟩ := List.getLast?_eq_some_iff.1 hname
    refine fs.name p name ?_
    rw [← hp, entryAt, if_neg (by rw [hp]; simp), ne_eq, List.lookup_eq_none_iff]
    exact fun hall => by simpa using hall n hn
  · cases hname

theorem validName_of_readDir {fs : Tree} {p : Path} {names : List String}
    (h : readDir fs p = .ok names) : ∀ name ∈ names, ValidName name := by
  unfold readDir at h
  split at h
  · cases h
  split at h
  · obtain rfl := Except.ok.inj h
    intro name hmem
    exact validName_of_namesIn ((List.mem_insertionSort _).1 hmem)
  · cases h

section Plan

variable (fs : Tree) (src : Path) (home : Loc) (dst jail : Path)

/-- The two looks at a target. -/
structure Vetted (link : Path × String) : Prop where
  byText : components jail <+: normalizeLexical (joined (dst ++ link.1) link.2)
  inFact : ∀ loc, fs.canonicalize (normalizeLexical (joined (dst ++ link.1) link.2)) = .ok loc →
    components jail <+: loc

/-- The paths of a plan are proper, its directories and links are those of the source, which is at
a location, and its links are in its directories and were looked at. -/
structure Planned (plan : CopyPlan) : Prop where
  root : ∃ rest, plan.dirs = [] :: rest
  dirs : ∀ rel ∈ plan.dirs, Proper rel ∧ fs.canonicalize (src ++ rel) = .ok (home ++ rel)
  files : ∀ file ∈ plan.files, Proper file.1 ∧ file.1 ≠ []
  links : ∀ link ∈ plan.symlinks, Vetted fs dst jail link ∧
    fs.entry (home ++ link.1) = some (.link link.2) ∧
    ∃ dir ∈ plan.dirs, ∃ name, ValidName name ∧ link.1 = dir ++ [name]

variable {fs src home dst jail} {plan : CopyPlan}

theorem Planned.addLink (h : Planned fs src home dst jail plan) {relDir : Path} {name raw : String}
    (hdir : relDir ∈ plan.dirs) (hname : ValidName name)
    (hentry : fs.entry (home ++ (relDir ++ [name])) = some (.link raw))
    (hvet : Vetted fs dst jail (relDir ++ [name], raw)) :
    Planned fs src home dst jail
      { plan with symlinks := plan.symlinks ++ [(relDir ++ [name], raw)] } := by
  refine ⟨h.root, h.dirs, h.files, fun link hlink => ?_⟩
  rcases List.mem_append.1 hlink with hlink | hlink
  · exact h.links link hlink
  · obtain rfl := List.mem_singleton.1 hlink
    exact ⟨hvet, hentry, relDir, hdir, name, hname, rfl⟩

theorem symlinkTargetOk_within {linkNew : Path} {raw : String}
    (h : symlinkTargetOk linkNew raw jail = .ok ()) :
    components jail <+: normalizeLexical (joined linkNew raw) := by
  unfold symlinkTargetOk at h
  dsimp only at h
  split at h
  · cases h
  · rename_i hwithin
    exact List.isPrefixOf_iff_prefix.1 (by simpa [within] using hwithin)

theorem planned_planLink (h : Planned fs src home dst jail plan) {relDir : Path}
    {name raw : String} (hdir : relDir ∈ plan.dirs) (hname : ValidName name)
    (hentry : fs.entry (home ++ (relDir ++ [name])) = some (.link raw)) :
    Planned fs src home dst jail (planLink fs dst jail plan (relDir ++ [name]) raw) := by
  rcases planLink_cases fs dst jail plan (relDir ++ [name]) raw with
    ⟨reason, hskip⟩ | ⟨hkeep, htext, hfact⟩
  · rw [hskip]
    exact ⟨h.root, h.dirs, h.files, h.links⟩
  · rw [hkeep]
    refine h.addLink hdir hname hentry ⟨symlinkTargetOk_within htext, fun loc hloc => ?_⟩
    exact List.isPrefixOf_iff_prefix.1 (hfact loc hloc)

theorem planLink_dirs (rel : Path) (raw : String) :
    (planLink fs dst jail plan rel raw).dirs = plan.dirs := by
  rcases planLink_cases fs dst jail plan rel raw with ⟨reason, hskip⟩ | ⟨hkeep, -⟩
  · rw [hskip]
    rfl
  · rw [hkeep]

variable {opts : CopyOptions}

/-- What one entry keeps: the plan, and the directories still to be read. -/
theorem planEntry_ok {relDir : Path} {acc acc' : CopyPlan × List Path} {name : String}
    (hplan : Planned fs src home dst opts.jailRoot.path acc.1) (hdir : relDir ∈ acc.1.dirs)
    (hchildren : ∀ rel ∈ acc.2, rel ∈ acc.1.dirs) (hname : ValidName name)
    (h : planEntry fs src dst opts relDir acc name = .ok acc') :
    Planned fs src home dst opts.jailRoot.path acc'.1 ∧ (∀ rel ∈ acc.1.dirs, rel ∈ acc'.1.dirs) ∧
      ∀ rel ∈ acc'.2, rel ∈ acc'.1.dirs := by
  obtain ⟨hproper, hsrc⟩ := hplan.dirs relDir hdir
  have hrel : Proper (relDir ++ [name]) := hproper.concat hname
  have hchild : ∀ {e}, fs.lstat (src ++ (relDir ++ [name])) = .ok e →
      fs.entry (home ++ relDir ++ [name]) = some e := by
    intro e he
    have hnone : ∀ s ∈ ([] : Path), isTrivial s = true := nofun
    refine (Tree.lstat_child hsrc hnone hname.not_trivial hname.2.2.1).1 ?_
    rwa [List.append_nil, List.append_assoc]
  have hcounted : Planned fs src home dst opts.jailRoot.path
      { acc.1 with entries := acc.1.entries + 1 } :=
    ⟨hplan.root, hplan.dirs, hplan.files, hplan.links⟩
  unfold planEntry at h
  dsimp only at h
  split at h
  · cases h
  split at h
  · obtain rfl := Except.ok.inj h
    exact ⟨⟨hplan.root, hplan.dirs, hplan.files, hplan.links⟩, fun _ hmem => hmem, hchildren⟩
  rename_i md hmd
  split at h
  · obtain rfl := Except.ok.inj h
    exact ⟨⟨hplan.root, hplan.dirs, hplan.files, hplan.links⟩, fun _ hmem => hmem, hchildren⟩
  split at h
  · obtain rfl := Except.ok.inj h
    refine ⟨planned_planLink hcounted hdir hname ?_, ?_, ?_⟩
    · rw [← List.append_assoc]
      exact hchild hmd
    · rw [planLink_dirs]
      exact fun _ hmem => hmem
    · rw [planLink_dirs]
      exact hchildren
  · obtain rfl := Except.ok.inj h
    refine ⟨⟨?_, fun rel hmem => ?_, hplan.files, fun link hlink => ?_⟩,
      fun rel hmem => List.mem_append_left _ hmem, fun rel hmem => ?_⟩
    · obtain ⟨rest, hrest⟩ := hplan.root
      exact ⟨rest ++ [relDir ++ [name]], by rw [hrest]; rfl⟩
    · rcases List.mem_append.1 hmem with hmem | hmem
      · exact hplan.dirs rel hmem
      · rw [List.mem_singleton.1 hmem, ← List.append_assoc, ← List.append_assoc]
        exact ⟨hrel, Tree.canonicalize_child hsrc (hchild hmd)⟩
    · obtain ⟨hvet, hentry, dir, hmem, hlast⟩ := hplan.links link hlink
      exact ⟨hvet, hentry, dir, List.mem_append_left _ hmem, hlast⟩
    · rcases List.mem_append.1 hmem with hmem | hmem
      · exact List.mem_append_left _ (hchildren rel hmem)
      · exact List.mem_append_right _ hmem
  · split at h
    · cases h
    obtain rfl := Except.ok.inj h
    refine ⟨⟨hplan.root, hplan.dirs, fun file hmem => ?_, hplan.links⟩,
      fun _ hmem => hmem, hchildren⟩
    rcases List.mem_append.1 hmem with hmem | hmem
    · exact hplan.files file hmem
    · rw [List.mem_singleton.1 hmem]
      exact ⟨hrel, by simp⟩

theorem planNames_ok {relDir : Path} (names : List String) :
    ∀ {acc acc' : CopyPlan × List Path}, Planned fs src home dst opts.jailRoot.path acc.1 →
      relDir ∈ acc.1.dirs → (∀ rel ∈ acc.2, rel ∈ acc.1.dirs) →
      (∀ name ∈ names, ValidName name) →
      planNames fs src dst opts relDir acc names = .ok acc' →
      Planned fs src home dst opts.jailRoot.path acc'.1 ∧ (∀ rel ∈ acc.1.dirs, rel ∈ acc'.1.dirs) ∧
        ∀ rel ∈ acc'.2, rel ∈ acc'.1.dirs := by
  induction names with
  | nil =>
    intro acc acc' hplan _ hchildren _ h
    obtain rfl := Except.ok.inj h
    exact ⟨hplan, fun _ hmem => hmem, hchildren⟩
  | cons name names ih =>
    intro acc acc' hplan hdir hchildren hnames h
    rw [planNames] at h
    split at h
    · cases h
    rename_i next hnext
    obtain ⟨hplan', hdirs, hchildren'⟩ :=
      planEntry_ok hplan hdir hchildren (hnames name List.mem_cons_self) hnext
    obtain ⟨hlast, hmore, hread⟩ := ih hplan' (hdirs relDir hdir) hchildren'
      (fun n hn => hnames n (List.mem_cons_of_mem _ hn)) h
    exact ⟨hlast, fun rel hmem => hmore rel (hdirs rel hmem), hread⟩

theorem planLoop_ok (turns : Nat) : ∀ {plan plan' : CopyPlan} {stack : List Path},
    Planned fs src home dst opts.jailRoot.path plan → (∀ rel ∈ stack, rel ∈ plan.dirs) →
    planLoop fs src dst opts turns plan stack = .ok plan' →
    Planned fs src home dst opts.jailRoot.path plan' := by
  induction turns with
  | zero =>
    intro plan plan' stack hplan _ h
    cases stack with
    | nil =>
      obtain rfl := Except.ok.inj h
      exact hplan
    | cons rel stack => cases h
  | succ turns ih =>
    intro plan plan' stack hplan hstack h
    cases stack with
    | nil =>
      obtain rfl := Except.ok.inj h
      exact hplan
    | cons relDir stack =>
      rw [planLoop] at h
      split at h
      · cases h
      rename_i names hread
      split at h
      · cases h
      rename_i next children hnames
      obtain ⟨hnext, hdirs, hchildren⟩ := planNames_ok names hplan
        (hstack relDir List.mem_cons_self) (by simp) (validName_of_readDir hread) hnames
      refine ih hnext (fun rel hmem => ?_) h
      rcases List.mem_append.1 hmem with hmem | hmem
      · exact hchildren rel hmem
      · exact hdirs rel (hstack rel (List.mem_cons_of_mem _ hmem))

theorem planTree_ok (hsrc : fs.canonicalize src = .ok home)
    (h : planTree fs src dst opts = .ok plan) :
    Planned fs src home dst opts.jailRoot.path plan := by
  unfold planTree at h
  split at h
  · cases h
  have hroot : Planned fs src home dst opts.jailRoot.path { CopyPlan.empty with dirs := [[]] } := by
    refine ⟨⟨[], rfl⟩, fun rel hmem => ?_, by simp [CopyPlan.empty], by simp [CopyPlan.empty]⟩
    rw [List.mem_singleton.1 hmem, List.append_nil, List.append_nil]
    exact ⟨fun _ hs => absurd hs List.not_mem_nil, hsrc⟩
  exact planLoop_ok _ hroot (fun _ hmem => hmem) h

end Plan

/-! ## What the copy makes -/

theorem prefix_join (dst rel : Path) : components dst <+: components (dst ++ rel) := by
  rw [components_append]
  exact List.prefix_append _ _

section Copy

variable (base : Tree) (dst : Path)

/-- Nothing has changed outside of the destination, and there is no link in it. -/
structure Bare (dirs : List Path) (fs : Tree) : Prop where
  outside : ∀ q, ¬components dst <+: q → fs.entry q = base.entry q
  noLink : ∀ q, components dst <+: q → ¬fs.IsLink q
  dirs : ∀ rel ∈ dirs, fs.entry (components dst ++ rel) = some .dir

/-- Nothing has changed outside of the destination, and these links and no others are in it. -/
structure Linked (dirs : List Path) (links : List (Path × String)) (fs : Tree) : Prop where
  outside : ∀ q, ¬components dst <+: q → fs.entry q = base.entry q
  made : ∀ link ∈ links, fs.entry (components dst ++ link.1) = some (.link link.2) ∧ link.2 ≠ ""
  only : ∀ q, components dst <+: q → fs.IsLink q → ∃ link ∈ links, q = components dst ++ link.1
  dirs : ∀ rel ∈ dirs, fs.entry (components dst ++ rel) = some .dir

variable {base dst} {dirs : List Path} {fs fs' : Tree}

variable {p rel tmp src : Path} {pid seq : Nat}

theorem Bare.plain (h : Bare base dst dirs fs) (hdst : Tree.Plain base dst)
    (hpre : components dst <+: components p) (hdots : ".." ∉ p) : Tree.Plain fs p := by
  refine ⟨hdots, fun q hq _ => ?_⟩
  by_cases hin : components dst <+: q
  · exact h.noLink q hin
  · have hup : q <+: components dst :=
      (List.prefix_or_prefix_of_prefix hq hpre).resolve_right hin
    have hne : q ≠ components dst := fun heq => hin (heq ▸ List.prefix_refl _)
    rw [Tree.IsLink, h.outside q hin]
    exact hdst.linkFree q hup hne

/-- A file or a directory is made, not in a directory's place. -/
theorem Bare.put (h : Bare base dst dirs fs) {loc : Loc} {e : Entry}
    (hpre : components dst <+: loc) (he : ∀ target, e ≠ .link target)
    (hplace : fs.entry loc ≠ some .dir)
    (hentry : ∀ q, fs'.entry q = if q = loc then some e else fs.entry q) :
    Bare base dst dirs fs' := by
  refine ⟨fun q hq => ?_, fun q hq => ?_, fun rel hmem => ?_⟩
  · have hne : q ≠ loc := fun heq => hq (heq ▸ hpre)
    rw [hentry, if_neg hne]
    exact h.outside q hq
  · rintro ⟨target, htarget⟩
    rw [hentry] at htarget
    split at htarget
    · exact he target (Option.some.inj htarget)
    · exact h.noLink q hq ⟨target, htarget⟩
  · have hdir := h.dirs rel hmem
    have hne : components dst ++ rel ≠ loc := fun heq => hplace (heq ▸ hdir)
    rw [hentry, if_neg hne]
    exact hdir

theorem Bare.mkdir (h : Bare base dst dirs fs) (hdst : Tree.Plain base dst)
    (hrel : Proper rel) (hmk : fs.mkdir (dst ++ rel) = .ok fs') :
    Bare base dst (dirs ++ [rel]) fs' := by
  have hplain := h.plain hdst (prefix_join dst rel) (by simp [hdst.dots, hrel.dots])
  obtain ⟨hnone, hentry⟩ := Tree.mkdir_ok hplain hmk
  have hput := h.put (prefix_join dst rel) (e := .dir) nofun (by rw [hnone]; simp) hentry
  refine ⟨hput.outside, hput.noLink, fun r hmem => ?_⟩
  rcases List.mem_append.1 hmem with hmem | hmem
  · exact hput.dirs r hmem
  · rw [List.mem_singleton.1 hmem, hentry, components_append, hrel.components, if_pos rfl]

theorem bare_makeDirs (hdst : Tree.Plain base dst) (rels : List Path) :
    ∀ {dirs : List Path} {fs : Tree}, Bare base dst dirs fs → (∀ rel ∈ rels, Proper rel) →
      makeDirs dst fs rels = (fs', .ok ()) → Bare base dst (dirs ++ rels) fs' := by
  induction rels with
  | nil =>
    intro dirs fs h _ hmake
    obtain ⟨rfl, -⟩ := Prod.mk.inj hmake
    rwa [List.append_nil]
  | cons rel rels ih =>
    intro dirs fs h hrels hmake
    rw [makeDirs] at hmake
    split at hmake
    · simp at hmake
    · rename_i next hmk
      have hnext := h.mkdir hdst (hrels rel List.mem_cons_self) hmk
      have hrest := ih hnext (fun r hr => hrels r (List.mem_cons_of_mem _ hr)) hmake
      rwa [List.append_assoc] at hrest

/-- A file takes its place. -/
theorem Bare.rename (h : Bare base dst dirs fs) (hdst : Tree.Plain base dst)
    {bytes : List UInt8} (htmp : components dst <+: components tmp)
    (hp : components dst <+: components p) (htmpDots : ".." ∉ tmp) (hdots : ".." ∉ p)
    (hfile : fs.entry (components tmp) = some (.file bytes)) (hmv : fs.rename tmp p = .ok fs') :
    Bare base dst dirs fs' := by
  rcases Tree.rename_ok (h.plain hdst htmp htmpDots) (h.plain hdst hp hdots) hmv with
    rfl | ⟨hbelow, hplace, -, hentry⟩
  · exact h
  refine ⟨fun q hq => ?_, fun q hq => ?_, fun rel hmem => ?_⟩
  · rw [hentry, if_neg (fun hpre => hq (hp.trans hpre)),
      if_neg (fun hpre => hq (htmp.trans hpre))]
    exact h.outside q hq
  · rintro ⟨target, htarget⟩
    rw [hentry] at htarget
    split at htarget
    · exact h.noLink _ (htmp.trans (List.prefix_append _ _)) ⟨target, htarget⟩
    · split at htarget
      · cases htarget
      · exact h.noLink q hq ⟨target, htarget⟩
  · -- A directory is neither at the temporary name nor at the file's, nor below them.
    have hdir := h.dirs rel hmem
    have hnotDir : fs.entry (components tmp) ≠ some .dir := by
      rw [hfile]
      simp
    have hno : ∀ loc : Loc, fs.entry loc ≠ some .dir →
        (∀ rest, rest ≠ [] → fs.entry (loc ++ rest) = none) →
        ¬loc <+: components dst ++ rel := by
      rintro loc hloc hrest ⟨rest, heq⟩
      rw [← heq] at hdir
      by_cases hnil : rest = []
      · rw [hnil, List.append_nil] at hdir
        exact hloc hdir
      · rw [hrest rest hnil] at hdir
        cases hdir
    rw [hentry, if_neg (hno _ (hplace hnotDir) hbelow),
      if_neg (hno _ hnotDir (fun rest hrest => Tree.entry_append_of_ne_dir hnotDir hrest))]
    exact hdir

theorem tempPathFor_ok (h : tempPathFor pid seq p = .ok tmp) :
    ∃ dir name, parent? p = some dir ∧ tmp = dir ++ [name] ∧ name ≠ ".." := by
  unfold tempPathFor at h
  split at h
  · cases h
  rename_i dir hdir
  split at h
  · cases h
  obtain rfl := Except.ok.inj h
  refine ⟨dir, _, hdir, rfl, fun heq => ?_⟩
  have hlen := congrArg String.length heq
  simp only [String.length_append, tmpTag] at hlen
  have htag : "embra-copy".length = 10 := rfl
  have hdots : "..".length = 2 := rfl
  omega

/-- The temporary name is in the directory of the file. -/
theorem tempPathFor_within (hdst : ".." ∉ dst)
    (hrel : Proper rel) (hne : rel ≠ []) (h : tempPathFor pid seq (dst ++ rel) = .ok tmp) :
    components dst <+: components tmp ∧ ".." ∉ tmp := by
  obtain ⟨dir, name, hdir, rfl, hname⟩ := tempPathFor_ok h
  obtain ⟨triv, last, tail, hsplit, -⟩ := parent?_eq_some hdir
  obtain ⟨last', hlast⟩ := components_parent hdir
  have hdots : ".." ∉ dst ++ rel := by simp [hdst, hrel.dots]
  constructor
  · obtain ⟨init, n, rfl⟩ := (List.eq_nil_or_concat' rel).resolve_left hne
    rw [components_append, hrel.components, ← List.append_assoc] at hlast
    obtain ⟨heq, -⟩ := List.append_inj' hlast rfl
    rw [components_append, ← heq, List.append_assoc]
    exact List.prefix_append _ _
  · intro hmem
    rcases List.mem_append.1 hmem with hmem | hmem
    · exact hdots (by rw [hsplit]; simp [hmem])
    · exact hname (List.mem_singleton.1 hmem).symm

theorem bare_copyFileAtomic {limit n : Nat} {s s' : Sys}
    (hdst : Tree.Plain base dst) (hrel : Proper rel) (hne : rel ≠ [])
    (h : Bare base dst dirs s.tree)
    (hcopy : copyFileAtomic pid s src (dst ++ rel) limit = (s', .ok n)) :
    Bare base dst dirs s'.tree := by
  unfold copyFileAtomic at hcopy
  split at hcopy
  · simp at hcopy
  rename_i tmp htmp
  obtain ⟨hwithin, hdots⟩ := tempPathFor_within hdst.dots hrel hne htmp
  dsimp only at hcopy
  split at hcopy
  · simp at hcopy
  rename_i staged bytes hstaged
  obtain ⟨content, hcreate⟩ : ∃ content, s.tree.createFile tmp content = .ok staged := by
    unfold copyBounded at hstaged
    split at hstaged
    · simp at hstaged
    split at hstaged
    · rename_i content _
      split at hstaged
      · simp at hstaged
      rename_i made hmade
      split at hstaged
      · simp at hstaged
      · obtain ⟨rfl, -⟩ := Prod.mk.inj hstaged
        exact ⟨content, hmade⟩
    · simp at hstaged
  obtain ⟨hplace, hentry⟩ :=
    Tree.createFile_ok (h.plain hdst hwithin hdots) (h.noLink _ hwithin) hcreate
  have hput := h.put hwithin (e := .file content) nofun hplace hentry
  split at hcopy
  · simp at hcopy
  rename_i committed hcommit
  obtain ⟨rfl, -⟩ := Prod.mk.inj hcopy
  unfold commitTemp at hcommit
  split at hcommit
  · rename_i moved hmoved
    obtain ⟨rfl, -⟩ := Prod.mk.inj hcommit
    have hfile : staged.entry (components tmp) = some (.file content) := by
      rw [hentry, if_pos rfl]
    exact hput.rename hdst hwithin (prefix_join dst rel) hdots
      (by simp [hdst.dots, hrel.dots]) hfile hmoved
  · simp at hcommit

theorem bare_copyFiles {fail : Option Nat} (hdst : Tree.Plain base dst)
    (files : List (Path × Nat)) : ∀ {i remaining copied n : Nat} {s s' : Sys},
      Bare base dst dirs s.tree → (∀ file ∈ files, Proper file.1 ∧ file.1 ≠ []) →
      copyFiles pid src dst fail i remaining copied s files = (s', .ok n) →
      Bare base dst dirs s'.tree := by
  induction files with
  | nil =>
    intro i remaining copied n s s' h _ hcopy
    obtain ⟨rfl, -⟩ := Prod.mk.inj hcopy
    exact h
  | cons file files ih =>
    intro i remaining copied n s s' h hfiles hcopy
    obtain ⟨rel, planned⟩ := file
    obtain ⟨hrel, hne⟩ := hfiles (rel, planned) List.mem_cons_self
    rw [copyFiles] at hcopy
    split at hcopy
    · simp at hcopy
    split at hcopy
    · simp at hcopy
    · split at hcopy
      · simp at hcopy
      · rename_i next m hnext
        have hbare := bare_copyFileAtomic hdst hrel hne h hnext
        exact ih hbare (fun f hf => hfiles f (List.mem_cons_of_mem _ hf)) hcopy
    · simp at hcopy

theorem symlink_target {target : String} (h : fs.symlink target p = .ok fs') :
    target ≠ "" := by
  rintro rfl
  simp [Tree.symlink] at h

theorem Linked.symlink {links : List (Path × String)} (h : Linked base dst dirs links fs)
    (hdots : ".." ∉ dst) {dir : Path} {name raw : String} (hdir : dir ∈ dirs)
    (hproper : Proper dir) (hname : ValidName name)
    (hmk : fs.symlink raw (dst ++ (dir ++ [name])) = .ok fs') :
    Linked base dst dirs (links ++ [(dir ++ [name], raw)]) fs' := by
  have hcomps : components (dst ++ dir) = components dst ++ dir := by
    rw [components_append, hproper.components]
  have hplain := Tree.plain_of_dir (p := dst ++ dir) (by simp [hdots, hproper.dots])
    (hcomps ▸ h.dirs dir hdir) hname
  rw [List.append_assoc] at hplain
  obtain ⟨hnone, hentry⟩ := Tree.symlink_ok hplain hmk
  have hloc : components (dst ++ (dir ++ [name])) = components dst ++ (dir ++ [name]) := by
    rw [components_append, (hproper.concat hname).components]
  rw [hloc] at hnone hentry
  -- What was there is still there.
  have hkeep : ∀ q e, fs.entry q = some e → fs'.entry q = some e := by
    intro q e he
    rw [hentry, if_neg]
    · exact he
    · rintro rfl
      rw [hnone] at he
      cases he
  refine ⟨fun q hq => ?_, fun link hlink => ?_, ?_, fun rel hmem => hkeep _ _ (h.dirs rel hmem)⟩
  · have hne : q ≠ components dst ++ (dir ++ [name]) := by
      rintro rfl
      exact hq (List.prefix_append _ _)
    rw [hentry, if_neg hne]
    exact h.outside q hq
  · rcases List.mem_append.1 hlink with hlink | hlink
    · exact ⟨hkeep _ _ (h.made link hlink).1, (h.made link hlink).2⟩
    · obtain rfl := List.mem_singleton.1 hlink
      exact ⟨by rw [hentry, if_pos rfl], symlink_target hmk⟩
  · rintro q hq ⟨target, htarget⟩
    rw [hentry] at htarget
    split at htarget
    · rename_i heq
      exact ⟨_, List.mem_append_right _ List.mem_cons_self, heq⟩
    · obtain ⟨link, hlink, heq⟩ := h.only q hq ⟨target, htarget⟩
      exact ⟨link, List.mem_append_left _ hlink, heq⟩

theorem linked_makeLinks (hdots : ".." ∉ dst) (hdirs : ∀ rel ∈ dirs, Proper rel)
    (links : List (Path × String)) : ∀ {made : List (Path × String)} {fs : Tree},
      Linked base dst dirs made fs →
      (∀ link ∈ links, ∃ dir ∈ dirs, ∃ name, ValidName name ∧ link.1 = dir ++ [name]) →
      makeLinks dst fs links = (fs', .ok ()) → Linked base dst dirs (made ++ links) fs' := by
  induction links with
  | nil =>
    intro made fs h _ hmake
    obtain ⟨rfl, -⟩ := Prod.mk.inj hmake
    rwa [List.append_nil]
  | cons link links ih =>
    intro made fs h hlinks hmake
    obtain ⟨rel, raw⟩ := link
    obtain ⟨dir, hdir, name, hname, hrel⟩ := hlinks (rel, raw) List.mem_cons_self
    obtain rfl : rel = dir ++ [name] := hrel
    rw [makeLinks] at hmake
    split at hmake
    · simp at hmake
    · rename_i next hmk
      have hnext := h.symlink hdots hdir (hdirs dir hdir) hname hmk
      have hrest := ih hnext (fun l hl => hlinks l (List.mem_cons_of_mem _ hl)) hmake
      rwa [List.append_assoc] at hrest

end Copy

/-! ## The tree that is left -/

section Landed

variable (fs : Tree) (home : Loc) (jail dst : Path) (plan : CopyPlan) (tree : Tree)

/-- What a copy leaves: all that was there, and the links of the plan, which are those of a source
at a location. -/
structure Landed : Prop where
  keeps : Tree.Extends fs tree
  only : ∀ q, tree.IsLink q → fs.IsLink q ∨ ∃ link ∈ plan.symlinks, q = components dst ++ link.1
  source : ∀ link ∈ plan.symlinks, fs.entry (home ++ link.1) = some (.link link.2)
  made : ∀ link ∈ plan.symlinks,
    tree.entry (components dst ++ link.1) = some (.link link.2) ∧ link.2 ≠ ""
  vetted : ∀ link ∈ plan.symlinks, Vetted fs dst jail link
  named : ∀ link ∈ plan.symlinks, ∃ dir name, Proper dir ∧ ValidName name ∧ link.1 = dir ++ [name]

variable {fs home jail dst plan tree} {src : Path}

theorem makeParents_grown {fs' : Tree} (hdst : Tree.Plain fs dst)
    (h : makeParents fs dst = (fs', .ok ())) : ∃ p, Tree.Grown fs fs' p := by
  unfold makeParents at h
  split at h
  · obtain ⟨rfl, -⟩ := Prod.mk.inj h
    exact ⟨[], Tree.Grown.refl fs []⟩
  rename_i parent hparent
  obtain ⟨hdots, hfree⟩ := hdst.parent hparent
  have hgrown := Tree.grown_createDirAll ((components parent).length + 1) fs parent
    ⟨hdots, fun q hq _ => hfree q hq⟩
  split at h
  · rename_i made hmade
    obtain ⟨rfl, -⟩ := Prod.mk.inj h
    rw [Tree.createDirAll] at hmade
    rw [hmade] at hgrown
    exact ⟨parent, hgrown⟩
  · simp at h

theorem makeRoot_ok {fs' : Tree} (hdst : Tree.Plain fs dst)
    (h : makeRoot fs dst = (fs', .ok ())) :
    ∃ base, Tree.Extends fs base ∧ (∀ q, base.IsLink q → fs.IsLink q) ∧ Tree.Plain base dst ∧
      base.entry (components dst) = none ∧ Bare base dst [[]] fs' := by
  unfold makeRoot at h
  split at h
  · simp at h
  rename_i base hparents
  obtain ⟨p, hgrown⟩ := makeParents_grown hdst hparents
  have hplain := hgrown.plain hdst
  split at h
  · simp at h
  rename_i made hmk
  obtain ⟨rfl, -⟩ := Prod.mk.inj h
  obtain ⟨hnone, hentry⟩ := Tree.mkdir_ok hplain hmk
  have hstart : Bare base dst [] base := by
    refine ⟨fun _ _ => rfl, ?_, by simp⟩
    rintro q ⟨rest, rfl⟩ ⟨target, htarget⟩
    rw [Tree.entry_append_of_none hnone] at htarget
    cases htarget
  have hput := hstart.put (List.prefix_refl _) (e := .dir) nofun (by rw [hnone]; simp) hentry
  refine ⟨base, fun q e he => ?_, fun q hq => ?_, hplain, hnone, hput.outside, hput.noLink, ?_⟩
  · rcases hgrown q with hsame | ⟨-, hnew, -⟩
    · rw [hsame, he]
    · rw [hnew] at he
      cases he
  · exact hgrown.isLink.1 hq
  · intro rel hmem
    rw [List.mem_singleton.1 hmem, List.append_nil, hentry, if_pos rfl]

theorem executeTree_linked {base : Tree} {pid n : Nat} {s s' : Sys}
    {opts : CopyOptions} (hdst : Tree.Plain base dst) (hstart : Bare base dst [[]] s.tree)
    (hplan : Planned fs src home dst jail plan)
    (h : executeTree pid s src dst plan opts = (s', .ok n)) :
    Linked base dst plan.dirs plan.symlinks s'.tree := by
  obtain ⟨rest, hroot⟩ := hplan.root
  unfold executeTree at h
  split at h
  · simp at h
  rename_i withDirs hdirs
  have hbare : Bare base dst plan.dirs withDirs := by
    rw [hroot] at hdirs ⊢
    refine bare_makeDirs hdst rest hstart (fun rel hmem => (hplan.dirs rel ?_).1) hdirs
    rw [hroot]
    exact List.mem_cons_of_mem _ hmem
  split at h
  · simp at h
  rename_i withFiles copied hfiles
  have hcopied := bare_copyFiles hdst plan.files hbare hplan.files hfiles
  have hnone : Linked base dst plan.dirs [] withFiles.tree :=
    ⟨hcopied.outside, by simp, fun q hq hlink => absurd hlink (hcopied.noLink q hq), hcopied.dirs⟩
  split at h
  · simp at h
  · rename_i withLinks hlinks
    obtain ⟨rfl, -⟩ := Prod.mk.inj h
    exact linked_makeLinks hdst.dots (fun rel hmem => (hplan.dirs rel hmem).1) plan.symlinks hnone
      (fun link hlink => (hplan.links link hlink).2.2) hlinks

theorem landed_of_linked {base : Tree} (hext : Tree.Extends fs base)
    (hold : ∀ q, base.IsLink q → fs.IsLink q) (hnone : base.entry (components dst) = none)
    (hplan : Planned fs src home dst jail plan)
    (h : Linked base dst plan.dirs plan.symlinks tree) : Landed fs home jail dst plan tree := by
  refine ⟨fun q e he => ?_, fun q hq => ?_, fun link hlink => (hplan.links link hlink).2.1,
    h.made, fun link hlink => (hplan.links link hlink).1, fun link hlink => ?_⟩
  · have hbase := hext q e he
    have hout : ¬components dst <+: q := by
      rintro ⟨rest, rfl⟩
      rw [Tree.entry_append_of_none hnone] at hbase
      cases hbase
    rw [h.outside q hout, hbase]
  · by_cases hin : components dst <+: q
    · exact .inr (h.only q hin hq)
    · rw [Tree.IsLink, h.outside q hin] at hq
      exact .inl (hold q hq)
  · obtain ⟨-, -, dir, hdir, name, hname, heq⟩ := hplan.links link hlink
    exact ⟨dir, name, (hplan.dirs dir hdir).1, hname, heq⟩

/-! ## Where its links lead -/

/-- By the system, a target leads where its text says, as long as there is no link. -/
theorem lexFrom_target (hdots : ".." ∉ dst) {dir : Path} {name : String} (hdir : Proper dir)
    (hname : ValidName name) (raw : String) :
    lexFrom (linkStart (components dst ++ (dir ++ [name])) raw) (segments raw) =
      normalizeLexical (joined (dst ++ (dir ++ [name])) raw) := by
  rw [linkStart, joined, Text.startsWith]
  split
  · rename_i habs
    obtain ⟨cs, hcs⟩ := List.isPrefixOf_iff_prefix.1 habs
    have hseg : segments raw = "" :: ofText raw := by
      rw [ofText, segments, ← hcs]
      rfl
    rw [hseg, normalizeLexical, lexFrom, components_cons]
    rfl
  · have hrel := hdir.concat hname
    have hcomps : components (dst ++ (dir ++ [name])) = components dst ++ dir ++ [name] := by
      rw [components_append, hrel.components, List.append_assoc]
    obtain ⟨q, hq⟩ : ∃ q, parent? (dst ++ (dir ++ [name])) = some q := by
      rw [parent?, if_neg (by rw [hcomps]; simp)]
      exact ⟨_, rfl⟩
    obtain ⟨last, hlast⟩ := components_parent hq
    obtain ⟨triv, n, tail, hsplit, -⟩ := parent?_eq_some hq
    have hqdots : ".." ∉ q := by
      intro hmem
      have hall : ".." ∉ dst ++ (dir ++ [name]) := by
        rw [List.mem_append, not_or]
        exact ⟨hdots, hrel.dots⟩
      exact hall (by rw [hsplit]; simp [hmem])
    rw [hcomps] at hlast
    obtain ⟨heq, -⟩ := List.append_inj' hlast rfl
    rw [hq, Option.getD_some, normalizeLexical, lexFrom_append, lexFrom_names hqdots, ← heq,
      ← List.append_assoc, List.dropLast_concat]
    rfl

/-- What is inside by its names is inside. -/
theorem Landed.inside (h : Landed fs home jail dst plan tree) {root loc : Loc}
    (hroot : fs.canonicalize jail = .ok root) (hdots : ".." ∉ jail)
    (hloc : Tree.Canonical tree loc) (hpre : components jail <+: loc) : root <+: loc := by
  have hfree : ∀ q, q <+: components jail → ¬fs.IsLink ([] ++ q) := by
    rintro q hq ⟨target, htarget⟩
    obtain ⟨e, he, hlink⟩ := hloc q (hq.trans hpre)
    exact hlink target (Option.some.inj (he.symm.trans (h.keeps _ _ htarget)))
  have heq := Tree.resolve_linkFree jail [] root hdots hfree (Tree.walk_ok hroot).2
  rw [heq]
  exact hpre

/-- The path of a recreated link leads where its target leads. -/
theorem Landed.resolve_eq (h : Landed fs home jail dst plan tree) {link : Path × String}
    (hlink : link ∈ plan.symlinks) (links : Nat) :
    tree.resolve true (links + 1) [] (dst ++ link.1) =
      tree.resolve true links (linkStart (components dst ++ link.1) link.2)
        (segments link.2) := by
  obtain ⟨dir, name, hdir, hname, hrel⟩ := h.named link hlink
  obtain ⟨hentry, hne⟩ := h.made link hlink
  have hcomps : components (dst ++ dir) ++ [name] = components dst ++ (dir ++ [name]) := by
    rw [components_append, hdir.components, List.append_assoc]
  rw [hrel] at hentry ⊢
  have hwalk := @Tree.resolve_link tree [] link.2 links (dst ++ dir) name (hcomps ▸ hentry) hne
  rw [hcomps, List.append_nil, List.append_assoc] at hwalk
  exact hwalk

end Landed

/-! ## Links that are not what was looked at -/

/-- The path leads to something outside. -/
def leadsOutside (root : Loc) (tree : Tree) (p : Path) : Bool :=
  match tree.walk true p with
  | .ok loc => !within loc root
  | .error _ => false

/-- The links of a tree at or below a location, with their paths from there. -/
def linksBelow (fs : Tree) (home : Loc) : List (Path × String) :=
  fs.nodes.filterMap fun
    | (q, .link raw) => if home <+: q then some (q.drop home.length, raw) else none
    | _ => none

/-- No target of a link of the source, read from where the link will be, goes through a link, one
that is there or one that is to be made; but it may end at one to be made, and it may go on after a
link without going up if it is there already. -/
def Uncrossed (fs : Tree) (home : Loc) (dst : Path) : Prop :=
  ∀ link ∈ linksBelow fs home,
    ∀ v ∈ visits (linkStart (components dst ++ link.1) link.2) (segments link.2),
      fs.IsLink v.1 ∨ (∃ other ∈ linksBelow fs home, v.1 = components dst ++ other.1) →
        components v.2 = [] ∧ ¬fs.IsLink v.1 ∨
          ".." ∉ v.2 ∧
            (fs.canonicalize (normalizeLexical (joined (dst ++ link.1) link.2))).isOk = true

theorem mem_linksBelow {fs : Tree} {home : Loc} {link : Path × String}
    (h : fs.entry (home ++ link.1) = some (.link link.2)) : link ∈ linksBelow fs home := by
  have hne : home ++ link.1 ≠ [] := by
    intro hnil
    rw [hnil] at h
    cases h
  rw [Tree.entry, entryAt, if_neg hne] at h
  obtain ⟨before, after, hnodes, -⟩ := List.lookup_eq_some_iff.1 h
  refine List.mem_filterMap.2 ⟨(home ++ link.1, .link link.2), ?_, by simp⟩
  rw [hnodes]
  exact List.mem_append_right _ List.mem_cons_self

section Result

variable {fs tree : Tree} {jail dst : Path} {plan : CopyPlan} {root home : Loc}

theorem leadsOutside_eq_false {p : Path} :
    leadsOutside root tree p = false ↔ ∀ loc, tree.walk true p = .ok loc → root <+: loc := by
  unfold leadsOutside
  split
  · rename_i loc hloc
    simp [hloc, within, List.isPrefixOf_iff_prefix]
  · rename_i e he
    simp [he]

/-- A walk that was looked at: it goes through a link, but never up after it, and it leads to what
was there when the copy was planned. -/
theorem Landed.leads_seen (h : Landed fs home jail dst plan tree) {loc start d seen : Loc}
    {s rest : Path} {target : String} {links : Nat} (hlinks : links < maxLinks)
    (hfirst : tree.firstLink start s = some (loc, target, rest)) (hrest : ".." ∉ rest)
    (hseen : fs.canonicalize (lexFrom start s) = .ok seen)
    (hwalk : tree.resolve true links start s = .ok d) : d = seen := by
  obtain ⟨hentry, htarget, left, hleft, hon⟩ := Tree.resolve_firstLink hfirst hwalk
  have hlex : lexFrom start s = loc ++ components rest := by
    rw [Tree.lexFrom_firstLink hfirst, lexFrom_names hrest]
  have hthere := Tree.resolve_mono h.keeps (Nat.le_refl _) (Tree.Thin.refl _)
    (Tree.walk_ok hseen).2
  obtain ⟨p, name, rfl⟩ : ∃ p name, loc = p ++ [name] := by
    rcases List.eq_nil_or_concat' loc with rfl | hconcat
    · cases hentry
    · exact hconcat
  have hvalid := Tree.validName_of_mem (by rw [hentry]; simp : tree.entry (p ++ [name]) ≠ none)
  have hp : components p = p :=
    components_eq_self (fun n hn => (hvalid n (List.mem_append_left _ hn)).not_trivial)
  have hthrough := @Tree.resolve_link tree (components rest) target 39 p name
    (by rw [hp]; exact hentry) htarget
  rw [hlex, List.append_assoc, List.singleton_append] at hthere
  rw [hp] at hthrough
  have hthin := (Tree.thin_components rest).append_left (segments target)
  have hagain := Tree.resolve_mono (Tree.Extends.refl tree)
    (show left ≤ 39 by have : maxLinks = 40 := rfl; omega) hthin hon
  rw [← hthrough] at hagain
  exact Except.ok.inj (hagain.symm.trans hthere)

/-- A recreated link leads inside.  The links that are left to follow go down from one recreated
link to the next. -/
theorem Landed.leads_inside (h : Landed fs home jail dst plan tree)
    (hroot : fs.canonicalize jail = .ok root) (hjail : ".." ∉ jail) (hdst : ".." ∉ dst)
    (huncrossed : Uncrossed fs home dst) (links : Nat) :
    links < maxLinks → ∀ link ∈ plan.symlinks, ∀ d,
      tree.resolve true links (linkStart (components dst ++ link.1) link.2) (segments link.2) =
        .ok d → root <+: d := by
  induction links using Nat.strong_induction_on with
  | _ links ih =>
    intro hlinks link hlink d hwalk
    obtain ⟨dir, name, hdir, hname, hrel⟩ := h.named link hlink
    obtain ⟨hentry, -⟩ := h.made link hlink
    have hvetted := h.vetted link hlink
    have htext := lexFrom_target hdst hdir hname link.2
    rw [← hrel] at htext
    have hstart : Tree.Canonical tree (linkStart (components dst ++ link.1) link.2) := by
      rw [linkStart]
      split
      · exact Tree.canonical_nil
      · refine Tree.canonical_of_dir ?_
        rw [hrel, ← List.append_assoc] at hentry ⊢
        rw [List.dropLast_concat]
        exact Tree.dir_of_entry (by rw [hentry]; simp)
    have hcanon := Tree.resolve_canonical hstart hwalk
    cases hfirst : tree.firstLink (linkStart (components dst ++ link.1) link.2)
        (segments link.2) with
    | none =>
      have hd := Tree.resolve_lexFrom hfirst hwalk
      refine h.inside hroot hjail hcanon ?_
      rw [hd, htext]
      exact hvetted.byText
    | some found =>
      obtain ⟨loc, target, rest⟩ := found
      obtain ⟨hlocEntry, -, left, hleft, hon⟩ := Tree.resolve_firstLink hfirst hwalk
      have hlocLink := h.only loc ⟨target, hlocEntry⟩
      have hmet : fs.IsLink loc ∨
          ∃ other ∈ linksBelow fs home, loc = components dst ++ other.1 := by
        refine hlocLink.imp_right ?_
        rintro ⟨other, hmem, heq⟩
        exact ⟨other, mem_linksBelow (h.source _ hmem), heq⟩
      rcases huncrossed link (mem_linksBelow (h.source link hlink)) (loc, rest)
        (Tree.mem_visits_of_firstLink _ _ hfirst) hmet with ⟨hrest, hnew⟩ | ⟨hrest, hok⟩
      · obtain ⟨other, hmem, rfl⟩ := hlocLink.resolve_left hnew
        obtain rfl : other.2 = target := by
          simpa using (h.made other hmem).1.symm.trans hlocEntry
        have hthin := (Tree.thin_components rest).append_left (segments other.2)
        rw [hrest, List.append_nil] at hthin
        have hthere := Tree.resolve_mono (Tree.Extends.refl tree) (Nat.le_refl left) hthin hon
        exact ih left hleft (by omega) other hmem d hthere
      · cases hseen : fs.canonicalize (normalizeLexical (joined (dst ++ link.1) link.2)) with
        | error e =>
          rw [hseen] at hok
          cases hok
        | ok seen =>
          obtain rfl := h.leads_seen hlinks hfirst hrest (htext ▸ hseen) hwalk
          exact h.inside hroot hjail hcanon (hvetted.inFact d hseen)

theorem Landed.links_inside (h : Landed fs home jail dst plan tree)
    (hroot : fs.canonicalize jail = .ok root) (hjail : ".." ∉ jail) (hdst : ".." ∉ dst)
    (huncrossed : Uncrossed fs home dst) :
    ∀ link ∈ plan.symlinks, leadsOutside root tree (dst ++ link.1) = false := by
  intro link hlink
  rw [leadsOutside_eq_false]
  intro loc hloc
  have hwalk := (Tree.walk_ok hloc).2
  rw [maxLinks, h.resolve_eq hlink 39] at hwalk
  exact h.leads_inside hroot hjail hdst huncrossed 39 (by decide) link hlink loc hwalk

end Result

/-! ## The tool -/

section Tool

variable {env : Env} {s s' : Sys} {opts : CopyOptions} {src : Path} {real : Jail.Real}
  {plan : CopyPlan} {report : String}

theorem copyPlanned_copied {real' : Jail.Real} {plan' : CopyPlan}
    (h : copyPlanned env s src opts real plan = (s', .copied real' plan' report)) :
    real' = real ∧ plan' = plan ∧ ∃ fs n, makeRoot s.tree real.path = (fs, .ok ()) ∧
      executeTree env.pid { s with tree := fs } src real.path plan opts = (s', .ok n) := by
  unfold copyPlanned at h
  split at h
  · simp at h
  split at h
  · simp at h
  rename_i fs hmake
  split at h
  · rename_i done n hexec
    obtain ⟨rfl, hout⟩ := Prod.mk.inj h
    obtain ⟨rfl, rfl, -⟩ := Outcome.copied.inj hout
    exact ⟨rfl, rfl, fs, n, hmake, hexec⟩
  · simp [rollBack] at h

theorem copyTree_copied {dst : Path}
    (h : copyTree env s src dst opts = (s', .copied real plan report)) :
    Jail.real s.tree opts.jailRoot dst = .ok real ∧
      planTree s.tree src real.path opts = .ok plan ∧
      ∃ fs n, makeRoot s.tree real.path = (fs, .ok ()) ∧
        executeTree env.pid { s with tree := fs } src real.path plan opts = (s', .ok n) := by
  unfold copyTree at h
  split at h
  · simp at h
  split at h
  · simp at h
  rename_i real' hreal
  split at h
  · simp at h
  split at h
  · simp at h
  split at h
  · simp at h
  rename_i plan' hplan
  split at h
  · simp at h
  · obtain ⟨rfl, rfl, hmade⟩ := copyPlanned_copied h
    exact ⟨hreal, hplan, hmade⟩

/-- The root of a jail that a path lies in has no `..`. -/
theorem lexical_root_dots {root : Root} {raw lex : String} (h : lexical root raw = .ok lex) :
    ".." ∉ root.path := by
  have hdots := lexical_dots h
  unfold lexical at h
  extract_lets trimmed resolved at h
  split at h
  · cases h
  split at h
  · cases h
  rename_i hstarts
  obtain rfl := Except.ok.inj h
  have hpre : components root.path <+: components (ofText resolved) :=
    List.isPrefixOf_iff_prefix.1 (by simpa [startsWith] using hstarts)
  intro hmem
  have hcomp : ".." ∈ components root.path := List.mem_filter.2 ⟨hmem, by decide⟩
  exact hdots (List.mem_filter.1 (hpre.subset hcomp)).1

theorem fileCopyIn_copied {destination : String}
    (h : fileCopyIn env s opts src destination = (s', .copied real plan report)) :
    ∃ lex home, lexical opts.jailRoot destination = .ok lex ∧
      Jail.real s.tree opts.jailRoot (ofText lex) = .ok real ∧
      s.tree.canonicalize src = .ok home ∧
      s.tree.canonicalize opts.jailRoot.path = .ok real.root ∧ ".." ∉ opts.jailRoot.path ∧
      ".." ∉ real.path ∧ Landed s.tree home opts.jailRoot.path real.path plan s'.tree := by
  unfold fileCopyIn at h
  split at h
  · simp at h
  rename_i lex hlex
  unfold copyAt at h
  split at h
  · simp at h
  rename_i home hsrc
  split at h
  · obtain ⟨hreal, hplan, fs, n, hmake, hexec⟩ := copyTree_copied h
    have hok := real_ok (lexical_dots hlex) hreal
    have hplain : Tree.Plain s.tree real.path := ⟨hok.dots, hok.proper⟩
    have hplanned := planTree_ok hsrc hplan
    obtain ⟨base, hext, hold, hbase, hnone, hbare⟩ := makeRoot_ok hplain hmake
    have hlinked := executeTree_linked hbase hbare hplanned hexec
    exact ⟨lex, home, hlex, hreal, hsrc, hok.root, lexical_root_dots hlex, hok.dots,
      landed_of_linked hext hold hnone hplanned hlinked⟩
  · simp at h

end Tool

/-- After a copy, every recreated link leads inside the workspace or nowhere. -/
def linksInside (done : Sys × Outcome) : Prop :=
  ∀ real plan report, done.2 = .copied real plan report →
    ∀ link ∈ plan.symlinks, leadsOutside real.root done.1.tree (real.path ++ link.1) = false

/-- The targets of the source's links cross no link, at the real place of the destination. -/
def sourceUncrossed (fs : Tree) (opts : CopyOptions) (src : Path) (destination : String) : Prop :=
  ∀ lex ∈ (lexical opts.jailRoot destination).toOption,
    ∀ real ∈ (Jail.real fs opts.jailRoot (ofText lex)).toOption,
      ∀ home ∈ (fs.canonicalize src).toOption, Uncrossed fs home real.path

instance decidableIsLink (fs : Tree) (q : Loc) : Decidable (fs.IsLink q) :=
  decidable_of_iff ((fs.entry q).any fun e => e matches .link _) (by
    rw [Tree.IsLink]
    rcases fs.entry q with _ | _ | _ | _ <;> simp)

instance (fs : Tree) (home : Loc) (dst : Path) : Decidable (Uncrossed fs home dst) :=
  inferInstanceAs (Decidable (∀ link ∈ linksBelow fs home, ∀ v ∈ _, _ → _))

instance (fs : Tree) (opts : CopyOptions) (src : Path) (destination : String) :
    Decidable (sourceUncrossed fs opts src destination) :=
  inferInstanceAs (Decidable (∀ lex ∈ _, ∀ real ∈ _, ∀ home ∈ _, Uncrossed fs home _))

instance : (done : Sys × Outcome) → Decidable (linksInside done)
  | (s, .copied real plan report) =>
    decidable_of_iff (∀ link ∈ plan.symlinks,
        leadsOutside real.root s.tree (real.path ++ link.1) = false)
      ⟨fun h _ _ _ heq => by cases heq; exact h, fun h => h real plan report rfl⟩
  | (_, .refused _) => isTrue nofun
  | (_, .single) => isTrue nofun
  | (_, .dryRun _ _) => isTrue nofun
  | (_, .rolledBack _) => isTrue nofun

def roomyEnv : Env where
  pid := 1
  rollbackSeq := 0
  availableBytes := fun _ _ => .ok (2 ^ 40)
  quoted := id

def treeOptions : CopyOptions where
  recursive := true
  overwrite := false
  dryRun := false
  exclude := []
  jailRoot := workspaceRoot
  caps := .default
  failAfterFiles := none
  availableOverride := none

/-- A tree with a link to its own root, one to that link, and one through a link of the
workspace. -/
def chainedTree : Tree :=
  Tree.ofNodes
    [(["embra"], .dir), (["embra", "workspace"], .dir), (["embra", "workspace", "v1"], .dir),
      (["embra", "workspace", "v1", "log"], .file []),
      (["embra", "workspace", "now"], .link "v1"), (["s"], .dir), (["s", "a"], .dir),
      (["s", "a", "up"], .link ".."), (["s", "a", "again"], .link "./up"),
      (["s", "log"], .link "../now/log")]
    (by decide +kernel)

/-- A tree with a link to its own root, and one that climbs from there: `out` reads as a path in the
copy, which is not there when the copy is planned. -/
def climbingTree : Tree :=
  Tree.ofNodes
    [(["embra"], .dir), (["embra", "workspace"], .dir), (["etc"], .dir), (["s"], .dir),
      (["s", "a"], .dir), (["s", "a", "b"], .dir), (["s", "a", "b", "up"], .link "../.."),
      (["s", "a", "b", "out"], .link "up/../../../etc")]
    (by decide +kernel)

end EmbraOS.Ports.FileCopy
