import EmbraOS.Verified.FileChanges

/-!
# System calls on a file tree

The calls a program makes on paths: the walks (`lstat`, `canonicalize`) and the
changes.  A text with a NUL byte is refused before the system sees it.

A change is made in the directory that the path of the parent leads to; for a
path whose parents are no links, that is where the path says
(`locate_plain`).  The lemmas about the changes say which locations they
leave alone.
-/

namespace EmbraOS.Verified.FileTree

open Verified.UnixPath

/-- The links the system follows in one walk. -/
def maxLinks : Nat := 40

def Errno.text : Errno → String
  | enoent => "No such file or directory (os error 2)"
  | enotdir => "Not a directory (os error 20)"
  | eloop => "Too many levels of symbolic links (os error 40)"
  | eexist => "File exists (os error 17)"
  | enotempty => "Directory not empty (os error 39)"
  | eisdir => "Is a directory (os error 21)"
  | einval => "Invalid argument (os error 22)"
  | nul => "file name contained an unexpected NUL byte"

def hasNul (p : Path) : Bool := p.any (fun s => s.toList.contains '\x00')

@[simp] theorem hasNul_append (p q : Path) :
    hasNul (p ++ q) = (hasNul p || hasNul q) :=
  List.any_append

theorem hasNul_trivials {p : Path} (h : ∀ s ∈ p, isTrivial s = true) :
    hasNul p = false := by
  rw [hasNul, List.any_eq_false]
  intro s hs
  have hs := h s hs
  simp only [isTrivial, decide_eq_true_eq] at hs
  rcases hs with rfl | rfl <;> decide

theorem hasNul_name {name : String} (h : ValidName name) : hasNul [name] = false := by
  simp [hasNul, h.2.2.2.2]

namespace Tree

variable (fs : Tree)

/-- Where a path leads. -/
def walk (follow : Bool) (p : Path) : Except Errno Loc :=
  if hasNul p then .error .nul else fs.resolve follow maxLinks [] p

/-- `symlink_metadata`. -/
def lstat (p : Path) : Except Errno Entry :=
  match fs.walk false p with
  | .error e => .error e
  | .ok loc =>
    match fs.entry loc with
    | some e => .ok e
    | none => .error .enoent

def canonicalize (p : Path) : Except Errno Loc := fs.walk true p

variable {fs}

variable {p q : Path} {d : Loc} {e : Entry} {name : String} {fs' : Tree}

theorem walk_ok {follow : Bool} (h : fs.walk follow p = .ok d) :
    hasNul p = false ∧ fs.resolve follow maxLinks [] p = .ok d := by
  unfold walk at h
  split at h
  · cases h
  · rename_i hnul
    exact ⟨by simpa using hnul, h⟩

theorem lstat_ok :
    fs.lstat p = .ok e ↔ ∃ d, fs.walk false p = .ok d ∧ fs.entry d = some e := by
  unfold lstat
  constructor
  · intro h
    split at h
    · cases h
    rename_i d hwalk
    split at h
    · rename_i e' he
      obtain rfl := Except.ok.inj h
      exact ⟨d, hwalk, he⟩
    · cases h
  · rintro ⟨d, hwalk, he⟩
    rw [hwalk]
    simp only [he]

theorem hasNul_of_entry (h : fs.entry (components p) ≠ none) :
    hasNul p = false := by
  rw [hasNul, List.any_eq_false]
  intro s hs
  cases htriv : isTrivial s with
  | true =>
    have hone := hasNul_trivials (p := [s]) (by simpa using htriv)
    simpa [hasNul] using hone
  | false =>
    have hmem : s ∈ components p := List.mem_filter.2 ⟨hs, by simp [htriv]⟩
    simpa using (validName_of_mem h s hmem).2.2.2.2

/-- The path of a directory leads to it. -/
theorem walk_dir {follow : Bool} (h : fs.entry (components p) = some .dir) :
    fs.walk follow p = .ok (components p) := by
  rw [walk, hasNul_of_entry (by rw [h]; simp)]
  have hdir := @resolve_dir fs follow maxLinks p [] (by simpa using h)
  simpa using hdir

theorem lstat_dir (h : fs.entry (components p) = some .dir) :
    fs.lstat p = .ok .dir :=
  lstat_ok.2 ⟨components p, walk_dir h, h⟩

theorem canonicalize_canonical (h : fs.canonicalize p = .ok d) :
    Canonical fs d :=
  resolve_canonical canonical_nil (walk_ok h).2

theorem canonicalize_exists (h : fs.canonicalize p = .ok d) :
    fs.entry d ≠ none :=
  resolve_exists (by simp) (walk_ok h).2

variable {triv : Path} {dir : Loc}

/-- The entry that a path and a name lead to. -/
theorem lstat_child (hp : fs.canonicalize p = .ok d) (htriv : ∀ s ∈ triv, isTrivial s = true)
    (hname : isTrivial name = false) (hup : name ≠ "..") :
    fs.lstat (p ++ triv ++ [name]) = .ok e ↔ fs.entry (d ++ [name]) = some e := by
  obtain ⟨hnul, hwalk⟩ := walk_ok hp
  have happend : ∀ r, (∀ links, fs.resolve false links d (triv ++ [name]) = r) →
      fs.resolve false maxLinks [] (p ++ triv ++ [name]) = r := by
    intro r hr
    rw [List.append_assoc]
    exact resolve_append (by simp) hr maxLinks [] p hwalk
  constructor
  · intro h
    obtain ⟨loc, hloc, he⟩ := lstat_ok.1 h
    replace hloc := (walk_ok hloc).2
    by_cases hd : fs.entry d = some .dir
    · cases hentry : fs.entry (d ++ [name]) with
      | none =>
        rw [happend (.error .enoent) (fun links => by
          rw [resolve_trivials htriv hd, resolve_missing hname hup hd hentry])] at hloc
        cases hloc
      | some e' =>
        rw [happend (.ok (d ++ [name])) (fun links => by
          rw [resolve_trivials htriv hd,
            resolve_cons hname hup hd hentry (fun _ => ⟨rfl, rfl⟩), resolve_nil])] at hloc
        obtain rfl := Except.ok.inj hloc
        rw [← hentry, he]
    · rw [happend (.error .enotdir) (fun links =>
        resolve_of_ne_dir hd (by simp))] at hloc
      cases hloc
  · intro he
    have hsome : fs.entry (d ++ [name]) ≠ none := by rw [he]; simp
    have hd := dir_of_entry hsome
    have hvalid := validName_of_entry hsome
    refine lstat_ok.2 ⟨d ++ [name], ?_, he⟩
    rw [walk, hasNul_append, hasNul_append, hnul, hasNul_trivials htriv,
      hasNul_name hvalid]
    exact happend _ (fun links => by
      rw [resolve_trivials htriv hd,
        resolve_cons hname hup hd he (fun _ => ⟨rfl, rfl⟩), resolve_nil])

/-- A directory is found by its name where its parent is. -/
theorem canonicalize_child (hp : fs.canonicalize p = .ok d)
    (he : fs.entry (d ++ [name]) = some .dir) :
    fs.canonicalize (p ++ [name]) = .ok (d ++ [name]) := by
  obtain ⟨hnul, hwalk⟩ := walk_ok hp
  have hsome : fs.entry (d ++ [name]) ≠ none := by rw [he]; simp
  have hvalid := validName_of_entry hsome
  rw [canonicalize, walk, hasNul_append, hnul, hasNul_name hvalid]
  exact resolve_append (by simp) (fun links => by
    rw [resolve_cons hvalid.not_trivial hvalid.2.2.1 (dir_of_entry hsome) he (by simp),
      resolve_nil]) maxLinks [] p hwalk

/-- Nothing is found through a name that is not there. -/
theorem lstat_missing {raw : Path}
    (hp : fs.canonicalize p = .ok d) (htriv : ∀ s ∈ triv, isTrivial s = true)
    (hname : isTrivial name = false) (hup : name ≠ "..")
    (hnone : fs.entry (d ++ [name]) = none) (e : Entry) :
    fs.lstat (p ++ triv ++ [name] ++ raw) ≠ .ok e := by
  intro h
  obtain ⟨loc, hloc, -⟩ := lstat_ok.1 h
  replace hloc := (walk_ok hloc).2
  rw [List.append_assoc, List.append_assoc] at hloc
  by_cases hd : fs.entry d = some .dir
  · rw [resolve_append (by simp) (r := .error .enoent) (fun links => by
      rw [resolve_trivials htriv hd, List.singleton_append,
        resolve_missing hname hup hd hnone]) maxLinks [] p (walk_ok hp).2] at hloc
    cases hloc
  · rw [resolve_append (by simp) (fun links => resolve_of_ne_dir hd (by simp))
      maxLinks [] p (walk_ok hp).2] at hloc
    cases hloc

/-! ## Calls that change the tree -/

/-- The directory and the name of a path that has no trivial end. -/
def locate (fs : Tree) (p : Path) : Except Errno (Loc × String) :=
  if hasNul p then .error .nul
  else
    match parent? p, (components p).getLast? with
    | some q, some name =>
      match fs.resolve true maxLinks [] q with
      | .error e => .error e
      | .ok dir =>
        if fs.entry dir ≠ some .dir then .error .enotdir
        else if ValidName name then .ok (dir, name)
        else .error .einval
    | _, _ => .error .eexist

/-- An entry that takes no directory's place. -/
def create (fs : Tree) (dir : Loc) (name : String) (e : Entry) : Except Errno Tree :=
  if h : fs.entry dir = some .dir ∧ ValidName name ∧
      fs.entry (dir ++ [name]) ≠ some .dir then .ok (fs.put dir name e h)
  else .error .eisdir

def mkdir (fs : Tree) (p : Path) : Except Errno Tree :=
  match fs.locate p with
  | .error e => .error e
  | .ok (dir, name) =>
    if fs.entry (dir ++ [name]) ≠ none then .error .eexist
    else fs.create dir name .dir

def symlink (fs : Tree) (target : String) (p : Path) : Except Errno Tree :=
  if '\x00' ∈ target.toList then .error .nul
  else if target = "" then .error .enoent
  else
    match fs.locate p with
    | .error e => .error e
    | .ok (dir, name) =>
      if fs.entry (dir ++ [name]) ≠ none then .error .eexist
      else fs.create dir name (.link target)

/-- Where a file is made or emptied: through the links at the end of a path,
a dangling one included. -/
def createLoc (fs : Tree) : Nat → Loc → Path → Except Errno (Loc × String)
  | links, cur, p =>
    if dropTrailing p ≠ p then .error .eisdir
    else
      match parent? p, (components p).getLast? with
      | some q, some name =>
        match fs.resolve true links cur q with
        | .error e => .error e
        | .ok dir =>
          if fs.entry dir ≠ some .dir then .error .enotdir
          else
            match fs.entry (dir ++ [name]), links with
            | some .dir, _ => .error .eisdir
            | some (.link _), 0 => .error .eloop
            | some (.link target), links + 1 =>
              fs.createLoc links
                (if "/".toList.isPrefixOf target.toList then [] else dir)
                (segments target)
            | _, _ => .ok (dir, name)
      | _, _ => .error .eisdir

/-- Make a file with these bytes, or give an existing one these bytes. -/
def createFile (fs : Tree) (p : Path) (bytes : List UInt8) : Except Errno Tree :=
  if hasNul p then .error .nul
  else
    match fs.createLoc maxLinks [] p with
    | .error e => .error e
    | .ok (dir, name) => fs.create dir name (.file bytes)

theorem concat_ne_nil (dir : Loc) (name : String) : dir ++ [name] ≠ [] := by simp

/-- Remove a file or a link. -/
def unlink (fs : Tree) (p : Path) : Except Errno Tree :=
  match fs.locate p with
  | .error e => .error e
  | .ok (dir, name) =>
    match fs.entry (dir ++ [name]) with
    | none => .error .enoent
    | some .dir => .error .eisdir
    | some _ => .ok (fs.remove (dir ++ [name]) (concat_ne_nil dir name))

/-- Remove an empty directory. -/
def rmdir (fs : Tree) (p : Path) : Except Errno Tree :=
  match fs.locate p with
  | .error e => .error e
  | .ok (dir, name) =>
    match fs.entry (dir ++ [name]) with
    | none => .error .enoent
    | some .dir =>
      if fs.isEmpty (dir ++ [name]) then
        .ok (fs.remove (dir ++ [name]) (concat_ne_nil dir name))
      else .error .enotempty
    | some _ => .error .enotdir

/-- `remove_dir_all`: a directory with all that is in it, or a link. -/
def removeDirAll (fs : Tree) (p : Path) : Except Errno Tree :=
  match fs.locate p with
  | .error e => .error e
  | .ok (dir, name) =>
    match fs.entry (dir ++ [name]) with
    | none => .error .enoent
    | some (.file _) => .error .enotdir
    | some _ => .ok (fs.remove (dir ++ [name]) (concat_ne_nil dir name))

/-- A directory may take the place of an empty one, and what is none of what
is none. -/
def rename (fs : Tree) (p q : Path) : Except Errno Tree :=
  match fs.locate p with
  | .error e => .error e
  | .ok (odir, oname) =>
    match fs.locate q with
    | .error e => .error e
    | .ok (dir, name) =>
      match fs.entry (odir ++ [oname]), fs.entry (dir ++ [name]) with
      | none, _ => .error .enoent
      | some old, new =>
        if odir ++ [oname] = dir ++ [name] then .ok fs
        else if h : fs.entry dir = some .dir ∧ ValidName name ∧
            ¬odir ++ [oname] <+: dir ++ [name] ∧
            ¬dir ++ [name] <+: odir ++ [oname] then
          if old = .dir ∧ new ≠ none ∧ new ≠ some .dir then .error .enotdir
          else if old ≠ .dir ∧ new = some .dir then .error .eisdir
          else if fs.isEmpty (dir ++ [name]) then
            .ok (fs.move (odir ++ [oname]) dir name h)
          else .error .enotempty
        else if odir ++ [oname] <+: dir ++ [name] then .error .einval
        else .error .enotempty

/-- `Path::is_dir`. -/
def isDir (fs : Tree) (p : Path) : Bool :=
  match fs.canonicalize p with
  | .ok loc => fs.entry loc = some .dir
  | .error _ => false

/-- `create_dir_all`, with the directories made when it stops. -/
def createDirAllFrom : Nat → Tree → Path → Tree × Except Errno Unit
  | 0, fs, _ => (fs, .error .enoent)
  | n + 1, fs, p =>
    match fs.mkdir p with
    | .ok fs' => (fs', .ok ())
    | .error .enoent =>
      match parent? p with
      | none => (fs, .error .enoent)
      | some q =>
        match createDirAllFrom n fs q with
        | (fs', .error e) => (fs', .error e)
        | (fs', .ok ()) =>
          match fs'.mkdir p with
          | .ok fs'' => (fs'', .ok ())
          | .error e => (fs', if fs'.isDir p then .ok () else .error e)
    | .error e => (fs, if fs.isDir p then .ok () else .error e)

def createDirAll (fs : Tree) (p : Path) : Tree × Except Errno Unit :=
  createDirAllFrom ((components p).length + 1) fs p

/-! ## What the calls leave alone -/

/-- No directory of the path is a link, and none is left by `..`. -/
structure Plain (fs : Tree) (p : Path) : Prop where
  dots : ".." ∉ p
  linkFree : ∀ q, q <+: components p → q ≠ components p → ¬fs.IsLink q

theorem Plain.parent (h : Plain fs p) (hq : parent? p = some q) :
    ".." ∉ q ∧ ∀ r, r <+: components q → ¬fs.IsLink r := by
  obtain ⟨triv, name, tail, hp, -⟩ := parent?_eq_some hq
  obtain ⟨last, hlast⟩ := components_parent hq
  refine ⟨fun hmem => h.dots (by rw [hp]; simp [hmem]), fun r hr => ?_⟩
  refine h.linkFree r (by rw [hlast]; exact hr.trans (List.prefix_append _ _)) ?_
  rintro rfl
  have hlen := hr.length_le
  rw [hlast, List.length_append, List.length_singleton] at hlen
  omega

/-- The directory of a plain path is what it says. -/
theorem Plain.components_eq (h : Plain fs p)
    (hq : parent? p = some q) (hname : (components p).getLast? = some name)
    (hdir : fs.resolve true maxLinks [] q = .ok dir) : components p = dir ++ [name] := by
  obtain ⟨hdots, hfree⟩ := h.parent hq
  have hdir := resolve_linkFree q [] dir hdots (by simpa using hfree) hdir
  obtain ⟨last, hcomps⟩ := components_parent hq
  rw [hcomps, List.getLast?_concat] at hname
  rw [hcomps, hdir, Option.some.inj hname, List.nil_append]

/-- The location of a plain path is what it says. -/
theorem locate_plain (hp : Plain fs p)
    (h : fs.locate p = .ok (dir, name)) : dir ++ [name] = components p := by
  unfold locate at h
  split at h
  · cases h
  split at h
  · rename_i q last hq hlast
    split at h
    · cases h
    rename_i d hd
    split at h
    · cases h
    · split at h
      · obtain ⟨rfl, rfl⟩ := Prod.mk.inj (Except.ok.inj h)
        exact (hp.components_eq hq hlast hd).symm
      · cases h
  · cases h

theorem create_ok (h : fs.create dir name e = .ok fs') :
    fs.entry (dir ++ [name]) ≠ some .dir ∧
      ∀ q, fs'.entry q = if q = dir ++ [name] then some e else fs.entry q := by
  unfold create at h
  split at h
  · rename_i hput
    obtain rfl := Except.ok.inj h
    exact ⟨hput.2.2, entry_put hput⟩
  · cases h

section

variable (hp : Plain fs p)
include hp

theorem mkdir_ok (h : fs.mkdir p = .ok fs') :
    fs.entry (components p) = none ∧
      ∀ q, fs'.entry q = if q = components p then some .dir else fs.entry q := by
  unfold mkdir at h
  split at h
  · cases h
  rename_i dir name hloc
  split at h
  · cases h
  · rename_i hnone
    rw [← locate_plain hp hloc]
    exact ⟨not_not.1 hnone, (create_ok h).2⟩

theorem symlink_ok {target : String} (h : fs.symlink target p = .ok fs') :
    fs.entry (components p) = none ∧
      ∀ q, fs'.entry q = if q = components p then some (.link target) else fs.entry q := by
  unfold symlink at h
  split at h
  · cases h
  split at h
  · cases h
  split at h
  · cases h
  rename_i dir name hloc
  split at h
  · cases h
  · rename_i hnone
    rw [← locate_plain hp hloc]
    exact ⟨not_not.1 hnone, (create_ok h).2⟩

/-- A file made where there is no link. -/
theorem createFile_ok {bytes : List UInt8}
    (hlink : ¬fs.IsLink (components p)) (h : fs.createFile p bytes = .ok fs') :
    fs.entry (components p) ≠ some .dir ∧
      ∀ q, fs'.entry q = if q = components p then some (.file bytes) else fs.entry q := by
  unfold createFile at h
  split at h
  · cases h
  split at h
  · cases h
  rename_i dir name hloc
  have hcomps : dir ++ [name] = components p := by
    unfold createLoc at hloc
    split at hloc
    · cases hloc
    split at hloc
    · rename_i q last hq hlast
      split at hloc
      · cases hloc
      rename_i d hd
      have hcomps := hp.components_eq hq hlast hd
      split at hloc
      · cases hloc
      split at hloc
      · cases hloc
      · cases hloc
      · rename_i target _ htarget _
        exact absurd ⟨target, hcomps ▸ htarget⟩ hlink
      · obtain ⟨rfl, rfl⟩ := Prod.mk.inj (Except.ok.inj hloc)
        exact hcomps.symm
    · cases hloc
  rw [← hcomps]
  exact create_ok h

theorem unlink_ok (h : fs.unlink p = .ok fs') :
    fs.entry (components p) ≠ some .dir ∧
      ∀ q, fs'.entry q = if components p <+: q then none else fs.entry q := by
  unfold unlink at h
  split at h
  · cases h
  rename_i dir name hloc
  rw [← locate_plain hp hloc]
  split at h
  · cases h
  · cases h
  rename_i e hnot he
  obtain rfl := Except.ok.inj h
  refine ⟨fun hdir => ?_, entry_remove _⟩
  rw [he] at hdir
  exact hnot (Option.some.inj hdir)

theorem rmdir_ok (h : fs.rmdir p = .ok fs') :
    fs.isEmpty (components p) = true ∧
      ∀ q, fs'.entry q = if components p <+: q then none else fs.entry q := by
  unfold rmdir at h
  split at h
  · cases h
  rename_i dir name hloc
  rw [← locate_plain hp hloc]
  split at h
  · cases h
  · split at h
    · rename_i hempty
      obtain rfl := Except.ok.inj h
      exact ⟨hempty, entry_remove _⟩
    · cases h
  · cases h

theorem removeDirAll_ok (h : fs.removeDirAll p = .ok fs') :
    ∀ q, fs'.entry q = if components p <+: q then none else fs.entry q := by
  unfold removeDirAll at h
  split at h
  · cases h
  rename_i dir name hloc
  rw [← locate_plain hp hloc]
  split at h
  · cases h
  · cases h
  · obtain rfl := Except.ok.inj h
    exact entry_remove _

/-- A rename does nothing, or moves what it names to a place with nothing
below it, where there is no directory unless one is moved. -/
theorem rename_ok (hq : Plain fs q) (h : fs.rename p q = .ok fs') :
    fs' = fs ∨
      ((∀ rest, rest ≠ [] → fs.entry (components q ++ rest) = none) ∧
        (fs.entry (components p) ≠ some .dir → fs.entry (components q) ≠ some .dir) ∧
        ¬components q <+: components p ∧
        ∀ r, fs'.entry r =
          if components q <+: r then
            fs.entry (components p ++ r.drop (components q).length)
          else if components p <+: r then none else fs.entry r) := by
  unfold rename at h
  split at h
  · cases h
  rename_i odir oname hold
  split at h
  · cases h
  rename_i dir name hnew
  rw [← locate_plain hp hold, ← locate_plain hq hnew]
  split at h
  · cases h
  rename_i old hentry
  split at h
  · exact Or.inl (Except.ok.inj h).symm
  split at h
  · rename_i hmove
    split at h
    · cases h
    split at h
    · cases h
    rename_i hisdir
    split at h
    · rename_i hempty
      obtain rfl := Except.ok.inj h
      refine Or.inr ⟨fun rest hrest => entry_of_isEmpty hempty hrest,
        fun hnot hdir => hisdir ⟨?_, ?_⟩, hmove.2.2.2, entry_move hmove⟩
      · rintro rfl
        exact hnot hentry
      · exact hdir
    · cases h
  · split at h
    · cases h
    · cases h

/-- Only one place is renamed to itself. -/
theorem rename_self (hq : Plain fs q) (h : fs.rename p q = .ok fs) :
    components p = components q := by
  unfold rename at h
  split at h
  · cases h
  rename_i odir oname hold
  split at h
  · cases h
  rename_i dir name hnew
  rw [← locate_plain hp hold, ← locate_plain hq hnew]
  split at h
  · cases h
  rename_i old hentry
  split at h
  · assumption
  split at h
  · rename_i hmove
    have hgone := entry_move hmove (odir ++ [oname])
    rw [if_neg hmove.2.2.2, if_pos (List.prefix_refl _)] at hgone
    split_ifs at h
    rw [Except.ok.inj h, hentry] at hgone
    cases hgone
  · split_ifs at h

end

/-- Between two trees nothing but directories on a path was made. -/
def Grown (fs fs' : Tree) (p : Path) : Prop :=
  ∀ q, fs'.entry q = fs.entry q ∨
    q <+: components p ∧ fs.entry q = none ∧ fs'.entry q = some .dir

theorem Grown.refl (fs : Tree) (p : Path) : Grown fs fs p := fun _ => Or.inl rfl

theorem Grown.trans {fs'' : Tree} (h : Grown fs fs' p)
    (h' : Grown fs' fs'' q) (hpq : components p <+: components q) : Grown fs fs'' q := by
  intro r
  rcases h' r with heq | ⟨hpre, hnone, hdir⟩
  · rcases h r with heq' | ⟨hpre, hnone, hdir⟩
    · exact Or.inl (heq.trans heq')
    · exact Or.inr ⟨hpre.trans hpq, hnone, heq.trans hdir⟩
  · rcases h r with heq' | ⟨-, -, hdir'⟩
    · exact Or.inr ⟨hpre, heq' ▸ hnone, hdir⟩
    · rw [hnone] at hdir'
      cases hdir'

/-- No link is made on the way. -/
theorem Grown.isLink (h : Grown fs fs' p) {q : Loc} :
    fs'.IsLink q ↔ fs.IsLink q := by
  unfold IsLink
  rcases h q with heq | ⟨-, hnone, hdir⟩
  · rw [heq]
  · rw [hnone, hdir]
    simp

theorem Grown.plain (h : Grown fs fs' p) (hq : Plain fs q) :
    Plain fs' q :=
  ⟨hq.dots, fun r hr hne hlink => hq.linkFree r hr hne (h.isLink.1 hlink)⟩

theorem grown_mkdir (hp : Plain fs p) (h : fs.mkdir p = .ok fs') : Grown fs fs' p := by
  obtain ⟨hnone, hentry⟩ := mkdir_ok hp h
  intro q
  rw [hentry]
  split
  · rename_i heq
    exact Or.inr ⟨heq ▸ List.prefix_refl _, heq ▸ hnone, rfl⟩
  · exact Or.inl rfl

theorem grown_createDirAll (n : Nat) : ∀ (fs : Tree) (p : Path), Plain fs p →
    Grown fs (createDirAllFrom n fs p).1 p := by
  induction n with
  | zero => exact fun fs p _ => Grown.refl fs p
  | succ n ih =>
    intro fs p hp
    rw [createDirAllFrom]
    split
    · rename_i fs' hmk
      exact grown_mkdir hp hmk
    · split
      · exact Grown.refl fs p
      rename_i q hq
      obtain ⟨hdots, hfree⟩ := hp.parent hq
      have hparent : Plain fs q := ⟨hdots, fun r hr _ => hfree r hr⟩
      obtain ⟨last, hlast⟩ := components_parent hq
      have hpre : components q <+: components p := by
        rw [hlast]
        exact List.prefix_append _ _
      have hgrown := ih fs q hparent
      have hup := hgrown.trans (Grown.refl _ p) hpre
      split
      · rename_i heq
        rw [heq] at hup
        exact hup
      · rename_i fs' heq
        rw [heq] at hup
        split
        · rename_i fs'' hmk
          exact hup.trans (grown_mkdir (hup.plain hp) hmk) (List.prefix_refl _)
        · exact hup
    · exact Grown.refl fs p

end Tree

end EmbraOS.Verified.FileTree
