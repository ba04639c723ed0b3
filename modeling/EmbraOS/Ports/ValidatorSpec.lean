import EmbraOS.Ports.Validator

/-!
# What the gate says about `use` declarations

The gate checks a `use` tree by two recursions: `use_root` finds one first
segment, `use_leaves` lists the paths that are named.  Against both stands
`imports`, every end of the tree, globs included.

`validate_uses` settles what the two together cover: no leaf is ever a denied
path or macro, while the roots are covered exactly for the declarations that
open well (`opensWell`): a group at the start has only its first member's root
checked, and a bare glob none.
-/

namespace EmbraOS.Ports.Validator

open Verified
open Verified.Serde

/-! ## What a `use` tree imports -/

/-- One end of a `use` tree: an item by its path, or everything under a path. -/
inductive Import where
  | leaf (path : List String)
  | glob (path : List String)
  deriving DecidableEq, Repr

namespace Import

def path : Import → List String
  | leaf p => p
  | glob p => p

def under (name : String) : Import → Import
  | leaf p => leaf (name :: p)
  | glob p => glob (name :: p)

def leaf? : Import → Option (List String)
  | leaf p => some p
  | glob _ => none

@[simp] theorem path_under (name : String) (i : Import) :
    (i.under name).path = name :: i.path := by
  cases i <;> rfl

@[simp] theorem leaf?_under (name : String) (i : Import) :
    (i.under name).leaf? = i.leaf?.map (name :: ·) := by
  cases i <;> rfl

end Import

mutual

/-- Every end of a tree, whatever the groups are nested in. -/
def imports : UseTree → List Import
  | .path ident tree => (imports tree).map (Import.under (identName ident))
  | .name ident => [.leaf [identName ident]]
  | .rename ident _ => [.leaf [identName ident]]
  | .group items => importsOf items
  | .glob => [.glob []]

def importsOf : List UseTree → List Import
  | [] => []
  | tree :: trees => imports tree ++ importsOf trees

end

/-- The first segment is one of the allowed roots. -/
def rooted (path : List String) : Bool := path.head?.any useRootsOk.contains

/-- A path that the denylists refuse: by its start, or as a macro by its end. -/
def denied (path : List String) : Bool :=
  deniedPath path || path.getLast?.any deniedMacros.contains

/-- Every leaf and every glob of the tree starts with an allowed root. -/
def AllRooted (tree : UseTree) : Prop :=
  ∀ i ∈ imports tree, ∃ r ∈ useRootsOk, i.path.head? = some r

/-- No leaf of the tree names a denied path or a denied macro. -/
def NoneDenied (tree : UseTree) : Prop :=
  ∀ p, Import.leaf p ∈ imports tree → deniedPath p = false ∧ ∀ n ∈ p.getLast?, n ∉ deniedMacros

theorem rooted_eq_true {path : List String} :
    rooted path = true ↔ ∃ r ∈ useRootsOk, path.head? = some r := by
  rw [rooted, Option.any_eq_true]
  simp only [List.contains_iff_mem]
  constructor
  · rintro ⟨r, hr, hmem⟩
    exact ⟨r, hmem, hr⟩
  · rintro ⟨r, hmem, hr⟩
    exact ⟨r, hr, hmem⟩

theorem denied_eq_false {path : List String} :
    denied path = false ↔
      deniedPath path = false ∧ ∀ n ∈ path.getLast?, n ∉ deniedMacros := by
  rw [denied, Bool.or_eq_false_iff, Option.any_eq_false]
  simp

variable {tree : UseTree} {d : Deny} {span : Span}

theorem allRooted_iff :
    AllRooted tree ↔ (imports tree).all (fun i => rooted i.path) = true := by
  rw [AllRooted, List.all_eq_true]
  apply forall₂_congr
  intro i _
  exact rooted_eq_true.symm

mutual

/-- The members of the groups that a declaration opens with; the tree itself
when it opens with a name or a glob. -/
def openings : UseTree → List UseTree
  | .group items => openingsOf items
  | tree => [tree]

def openingsOf : List UseTree → List UseTree
  | [] => []
  | tree :: trees => openings tree ++ openingsOf trees

end

def UseTree.isGlob : UseTree → Bool
  | .glob => true
  | _ => false

/-- The tree starts with an allowed root, or imports nothing. -/
def startsAllowed (tree : UseTree) : Bool :=
  (imports tree).isEmpty || (useRoot tree).any useRootsOk.contains

/-- The declaration does not open with a bare glob, and every member but the
first of the groups it opens with starts with an allowed root. -/
def opensWell (tree : UseTree) : Bool :=
  match openings tree with
  | [] => true
  | first :: later => !first.isGlob && later.all startsAllowed

/-! ## The `use` declarations of a file -/

mutual

def Node.uses : Node → List UseTree
  | .useItem tree _ children => tree :: usesOf children
  | .externCrate _ children => usesOf children
  | .foreignMod _ children => usesOf children
  | .modItem _ children => usesOf children
  | .exprUnsafe _ children => usesOf children
  | .implItem _ _ children => usesOf children
  | .fnItem _ _ children => usesOf children
  | .constItem _ _ _ children => usesOf children
  | .macroCall _ _ _ children => usesOf children
  | .path _ _ children => usesOf children
  | .attr _ _ children => usesOf children
  | .metaList _ children => usesOf children
  | .other children => usesOf children

def usesOf : List Node → List UseTree
  | [] => []
  | node :: nodes => node.uses ++ usesOf nodes

end

def File.uses (file : File) : List UseTree := usesOf file.attrs ++ usesOf file.items

/-! ## The walk keeps the first violation -/

@[simp] theorem Deny.flag_ne_none (d : Deny) (e : ValidationError) : d.flag e ≠ none := by
  cases d <;> simp [Deny.flag]

@[simp] theorem Deny.flagIf_eq_none {test : Bool} {e : ValidationError} :
    d.flagIf test e = none ↔ d = none ∧ test = false := by
  cases test <;> simp [Deny.flagIf]

theorem of_scanFlat_eq_none {tts : List TokenTree} (h : scanFlat d tts = none) :
    d = none := by
  fun_induction scanFlat d tts with
  | case1 d => exact h
  | case2 d ident span rest name segs after last d1 d2 ih =>
    have h3 := (Deny.flagIf_eq_none.mp (ih h)).1
    have h2 := (Deny.flagIf_eq_none.mp h3).1
    exact (Deny.flagIf_eq_none.mp h2).1
  | case3 d tt rest hne ih => exact ih h

theorem of_checkMacro_eq_none {path : List Ident} {tokens : List TokenTree}
    (h : checkMacro path tokens span d = none) : d = none := by
  have h1 := of_scanFlat_eq_none h
  exact (Deny.flagIf_eq_none.mp h1).1

theorem of_checkAttribute_eq_none {path : List Ident}
    (h : checkAttribute path span d = none) : d = none := by
  unfold checkAttribute at h
  split at h
  · exact h
  · have h1 := (Deny.flagIf_eq_none.mp h).1
    exact (Deny.flagIf_eq_none.mp h1).1

theorem checkLeaf_eq_none {segs : List String} :
    checkLeaf span d segs = none ↔ d = none ∧ denied segs = false := by
  simp only [checkLeaf, Deny.flagIf_eq_none, denied, Bool.or_eq_false_iff]
  tauto

theorem foldl_checkLeaf_eq_none {leaves : List (List String)} :
    leaves.foldl (checkLeaf span) d = none ↔
      d = none ∧ ∀ segs ∈ leaves, denied segs = false := by
  induction leaves generalizing d with
  | nil => simp
  | cons segs leaves ih =>
    rw [List.foldl_cons, ih, checkLeaf_eq_none, List.forall_mem_cons, and_assoc]

theorem checkUseRoot_eq_none :
    checkUseRoot tree span d = none ↔
      d = none ∧ ∀ r ∈ useRoot tree, useRootsOk.contains r = true := by
  unfold checkUseRoot
  cases useRoot tree with
  | none => simp
  | some r => simp

/-- What a declaration that raises no violation is checked for. -/
def useChecked (tree : UseTree) : Prop :=
  (∀ r ∈ useRoot tree, useRootsOk.contains r = true) ∧
    ∀ segs ∈ useLeaves [] tree, denied segs = false

theorem checkUse_eq_none :
    checkUse tree span d = none ↔ d = none ∧ useChecked tree := by
  rw [checkUse, foldl_checkLeaf_eq_none, checkUseRoot_eq_none, and_assoc, useChecked]

mutual

/-- A walk without a violation started without one and checked every `use`
declaration below the node. -/
theorem visit_eq_none {d : Deny} {node : Node} (h : visit d node = none) :
    d = none ∧ ∀ tree ∈ node.uses, useChecked tree := by
  cases node with
  | externCrate | foreignMod | modItem | exprUnsafe => exact absurd h (Deny.flag_ne_none _ _)
  | implItem | path =>
    have hc := visitAll_eq_none h
    exact ⟨(Deny.flagIf_eq_none.mp hc.1).1, hc.2⟩
  | fnItem sig inherited children =>
    have hc := visitAll_eq_none h
    have h1 := (Deny.flagIf_eq_none.mp hc.1).1
    exact ⟨(Deny.flagIf_eq_none.mp h1).1, hc.2⟩
  | constItem | other => exact visitAll_eq_none h
  | macroCall path tokens span children =>
    have hc := visitAll_eq_none h
    exact ⟨of_checkMacro_eq_none hc.1, hc.2⟩
  | useItem tree span children =>
    have hc := visitAll_eq_none h
    have hu := checkUse_eq_none.mp hc.1
    exact ⟨hu.1, List.forall_mem_cons.mpr ⟨hu.2, hc.2⟩⟩
  | attr path span children =>
    have hc := visitAll_eq_none h
    exact ⟨of_checkAttribute_eq_none hc.1, hc.2⟩
  | metaList tokens children =>
    have hc := visitAll_eq_none h
    exact ⟨of_scanFlat_eq_none hc.1, hc.2⟩

theorem visitAll_eq_none {d : Deny} {nodes : List Node} (h : visitAll d nodes = none) :
    d = none ∧ ∀ tree ∈ usesOf nodes, useChecked tree := by
  cases nodes with
  | nil => exact ⟨h, by simp [usesOf]⟩
  | cons node nodes =>
    have hs := visitAll_eq_none (d := visit d node) h
    have hn := visit_eq_none hs.1
    exact ⟨hn.1, List.forall_mem_append.mpr ⟨hn.2, hs.2⟩⟩

end

theorem visitFile_eq_none {file : File} (h : visitFile file = none) :
    ∀ tree ∈ file.uses, useChecked tree := by
  have hi := visitAll_eq_none h
  have ha := visitAll_eq_none hi.1
  exact List.forall_mem_append.mpr ⟨ha.2, hi.2⟩

/-! ## The two recursions against the ends of a tree -/

mutual

theorem useLeaves_eq (pre : List String) (tree : UseTree) :
    useLeaves pre tree = ((imports tree).filterMap Import.leaf?).map (pre ++ ·) := by
  cases tree with
  | path ident tree =>
    rw [useLeaves, useLeaves_eq (pre ++ [identName ident]) tree, imports, List.filterMap_map]
    simp [Function.comp_def, List.map_filterMap]
  | name | rename | glob => rfl
  | group items => exact useLeavesOf_eq pre items

theorem useLeavesOf_eq (pre : List String) (items : List UseTree) :
    useLeavesOf pre items = ((importsOf items).filterMap Import.leaf?).map (pre ++ ·) := by
  cases items with
  | nil => rfl
  | cons tree trees =>
    rw [useLeavesOf, useLeaves_eq pre tree, useLeavesOf_eq pre trees, importsOf,
      List.filterMap_append, List.map_append]

end

mutual

theorem imports_eq_openings (tree : UseTree) :
    imports tree = (openings tree).flatMap imports := by
  cases tree with
  | group items => exact importsOf_eq_openings items
  | path | name | rename | glob => simp [openings]

theorem importsOf_eq_openings (items : List UseTree) :
    importsOf items = (openingsOf items).flatMap imports := by
  cases items with
  | nil => rfl
  | cons tree trees =>
    rw [importsOf, openingsOf, List.flatMap_append, ← imports_eq_openings tree,
      ← importsOf_eq_openings trees]

end

mutual

theorem useRoot_eq_openings (tree : UseTree) :
    useRoot tree = (openings tree).findSome? useRoot := by
  cases tree with
  | group items => exact useRootOf_eq_openings items
  | path | name | rename | glob => simp [openings, useRoot]

theorem useRootOf_eq_openings (items : List UseTree) :
    useRootOf items = (openingsOf items).findSome? useRoot := by
  cases items with
  | nil => rfl
  | cons tree trees =>
    rw [useRootOf, openingsOf, List.findSome?_append, ← useRoot_eq_openings tree,
      ← useRootOf_eq_openings trees]

end

def UseTree.isGroup : UseTree → Bool
  | .group _ => true
  | _ => false

mutual

theorem not_isGroup_of_mem_openings {tree t : UseTree} (h : t ∈ openings tree) :
    t.isGroup = false := by
  cases tree with
  | group items => exact not_isGroup_of_mem_openingsOf h
  | path | name | rename | glob => simp only [openings, List.mem_singleton] at h; rw [h]; rfl

theorem not_isGroup_of_mem_openingsOf {items : List UseTree} {t : UseTree}
    (h : t ∈ openingsOf items) : t.isGroup = false := by
  cases items with
  | nil => simp [openingsOf] at h
  | cons tree trees =>
    rcases List.mem_append.mp h with h | h
    · exact not_isGroup_of_mem_openings h
    · exact not_isGroup_of_mem_openingsOf h

end

/-- Every end of a member starts with the member's own first segment. -/
theorem all_rooted_iff {t : UseTree} (hg : t.isGroup = false) :
    (imports t).all (fun i => rooted i.path) = startsAllowed t := by
  cases t with
  | group items => simp [UseTree.isGroup] at hg
  | path ident tree =>
    simp only [imports, startsAllowed, useRoot, List.all_map, Function.comp_def,
      Import.path_under, rooted, List.head?_cons, Option.any_some, List.isEmpty_map]
    cases imports tree with
    | nil => rfl
    | cons i is => cases useRootsOk.contains (identName ident) <;> simp
  | name | rename => simp [imports, startsAllowed, useRoot, rooted, Import.path]
  | glob => rfl

theorem all_rooted_eq_openings (tree : UseTree) :
    (imports tree).all (fun i => rooted i.path) = (openings tree).all startsAllowed := by
  rw [imports_eq_openings, List.all_flatMap, Bool.eq_iff_iff, List.all_eq_true,
    List.all_eq_true]
  apply forall₂_congr
  intro t ht
  rw [all_rooted_iff (not_isGroup_of_mem_openings ht)]

theorem useRoot_isSome {t : UseTree} (hg : t.isGroup = false) (hglob : t.isGlob = false) :
    (useRoot t).isSome := by
  cases t with
  | group items => simp [UseTree.isGroup] at hg
  | glob => simp [UseTree.isGlob] at hglob
  | path | name | rename => rfl

/-- The root check sees the first member, and a bare glob not at all: with the
root found allowed, the members all start well exactly when the declaration
opens well. -/
theorem all_startsAllowed_iff (hroot : ∀ r ∈ useRoot tree, useRootsOk.contains r = true) :
    (openings tree).all startsAllowed = opensWell tree := by
  have hmem : ∀ t ∈ openings tree, t.isGroup = false := fun t ht =>
    not_isGroup_of_mem_openings ht
  rw [useRoot_eq_openings] at hroot
  unfold opensWell
  revert hmem hroot
  cases openings tree with
  | nil => exact fun _ _ => rfl
  | cons first later =>
    intro hroot hmem
    have hg := hmem first List.mem_cons_self
    rw [List.all_cons]
    dsimp only
    cases hglob : first.isGlob with
    | true =>
      cases first with
      | glob => rfl
      | _ => simp [UseTree.isGlob] at hglob
    | false =>
      cases hr : useRoot first with
      | none => simpa [hr] using useRoot_isSome hg hglob
      | some r =>
        have hok := hroot r (by rw [List.findSome?_cons, hr]; rfl)
        have hfirst : startsAllowed first = true := by
          rw [startsAllowed, hr, Option.any_some, hok, Bool.or_true]
        rw [hfirst]
        rfl

theorem noneDenied_of_useChecked (h : useChecked tree) :
    NoneDenied tree := by
  intro p hp
  have hleaf : p ∈ useLeaves [] tree := by
    rw [useLeaves_eq]
    simpa using ⟨_, hp, rfl⟩
  exact denied_eq_false.mp (h.2 p hleaf)

theorem allRooted_iff_opensWell (h : useChecked tree) :
    AllRooted tree ↔ opensWell tree = true := by
  rw [allRooted_iff, all_rooted_eq_openings, all_startsAllowed_iff h.1]

/-! ## Accepted modules -/

theorem visitFile_of_validate {env : Env} {source : String} {reserved : List String}
    {m : ValidatedModule} (h : validate env source reserved = .ok m) :
    ∃ file, env.parseFile source = .ok file ∧ visitFile file = none := by
  unfold validate at h
  cases hmarker : checkMarker source reserved with
  | error e => simp [hmarker, bind, Except.bind] at h
  | ok marker =>
    cases hparse : env.parseFile source with
    | error e => simp [hmarker, parse, hparse, bind, Except.bind] at h
    | ok file =>
      cases hwalk : visitFile file with
      | some e => simp [hmarker, parse, hparse, denyWalk, hwalk, bind, Except.bind] at h
      | none => exact ⟨file, rfl, hwalk⟩

/-- For every `use` declaration of an accepted module, at any depth: no leaf is
denied, and the ends all start with an allowed root exactly when it opens well. -/
theorem validate_uses (env : Env) (source : String) (reserved : List String)
    (m : ValidatedModule) (h : validate env source reserved = .ok m) :
    ∃ file, env.parseFile source = .ok file ∧
      ∀ tree ∈ file.uses,
        NoneDenied tree ∧ (AllRooted tree ∧ NoneDenied tree ↔ opensWell tree = true) := by
  obtain ⟨file, hfile, hwalk⟩ := visitFile_of_validate h
  refine ⟨file, hfile, ?_⟩
  intro tree htree
  have hchecked := visitFile_eq_none hwalk tree htree
  have hnone := noneDenied_of_useChecked hchecked
  rw [and_iff_left hnone]
  exact ⟨hnone, allRooted_iff_opensWell hchecked⟩

/-- A module around one `use` declaration, and what `syn` reads it to. -/
def demoSource (use : String) : String :=
  "// guardian-tool: demo\nconst GUARDIAN_NAME: &str = \"demo\";\n" ++
    "const GUARDIAN_DESC: &str = \"A demo.\";\n" ++
    "const GUARDIAN_SCHEMA: &str = r#\"\x7b\"type\":\"object\"\x7d\"#;\n" ++
    use ++ "\nfn run(input: &str) -> String \x7b String::new() \x7d\n"

def demoFile (tree : UseTree) : File where
  attrs := []
  items :=
    [.constItem "GUARDIAN_NAME" (.str "demo") ⟨2, 0⟩ [.path ["str"] ⟨2, 22⟩ []],
      .constItem "GUARDIAN_DESC" (.str "A demo.") ⟨3, 0⟩ [.path ["str"] ⟨3, 22⟩ []],
      .constItem "GUARDIAN_SCHEMA" (.str "\x7b\"type\":\"object\"\x7d") ⟨4, 0⟩
        [.path ["str"] ⟨4, 24⟩ []],
      .useItem tree ⟨5, 0⟩ [],
      .fnItem ⟨"run", false, [.typed (.reference (.path ["str"]))], some (.path ["String"]),
          ⟨6, 0⟩⟩ true
        [.path ["str"] ⟨6, 15⟩ [], .path ["String"] ⟨6, 23⟩ [],
          .path ["String", "new"] ⟨6, 32⟩ []]]

def demoEnv (use : String) (tree : UseTree) : Env where
  parseFile source :=
    if source = demoSource use then .ok (demoFile tree)
    else .error ("unexpected end of input", ⟨1, 0⟩)
  parseJson s :=
    if s = "\x7b\"type\":\"object\"\x7d" then .ok (.obj [("type", .str "object")])
    else .error "expected value at line 1 column 1"

theorem readItems_demo (tree : UseTree) :
    (demoFile tree).items.foldlM readItem {} =
      .ok ⟨some ("demo", ⟨2, 0⟩), some "A demo.", some "\x7b\"type\":\"object\"\x7d", none, 1⟩ := by
  simp [demoFile, readItem, readConst, strLit, checkRunSig, takesStr, isStrRef, pathTailIs,
    List.foldlM, Except.map, bind, Except.bind, pure, Except.pure]

/-- The gate takes the module when the marker is read and the walk finds nothing. -/
theorem validate_demo {use : String} (hmarker : findMarker (demoSource use) = some "demo")
    (hwalk : visitFile (demoFile tree) = none) :
    validate (demoEnv use tree) (demoSource use) [] =
      .ok ⟨"demo", "A demo.", .obj [("type", .str "object"), ("properties", .obj [])], [],
        demoSource use⟩ := by
  have hname : validToolName "demo" = true := by decide +kernel
  have hchecked : checkMarker (demoSource use) [] = .ok "demo" := by
    simp [checkMarker, hmarker, hname]
  have hparse : parse (demoEnv use tree) (demoSource use) = .ok (demoFile tree) := by
    simp [parse, demoEnv]
  have hdeny : denyWalk (demoFile tree) = .ok () := by rw [denyWalk, hwalk]
  have hdesc : (Text.trim "A demo." = "" || decide (maxDesc < "A demo.".utf8ByteSize)) = false := by
    decide +kernel
  have hschema : ¬ maxSchema < "\x7b\"type\":\"object\"\x7d".utf8ByteSize := by
    decide +kernel
  have hjson : normalizeSchema (demoEnv use tree) "\x7b\"type\":\"object\"\x7d" =
      .ok (.obj [("type", .str "object"), ("properties", .obj [])]) := by
    simp [normalizeSchema, demoEnv, Json.get?, Json.asStr?, Json.setMember]
  simp only [validate, hchecked, hparse, hdeny, readItems_demo, bind, Except.bind,
    checkNameLit, checkDescription, hdesc, checkSchema, hschema, hjson, checkRunCount]
  rfl

def groupUse : UseTree :=
  .group [.path "core" (.name "fmt"), .path "std" (.path "collections" (.name "HashMap"))]

def groupText : String := "use \x7bcore::fmt, std::collections::HashMap\x7d;"

def nestedUse : UseTree :=
  .path "core" (.group [.path "fmt" (.name "Write"), .path "cmp" .glob])

def nestedText : String := "use core::\x7bfmt::Write, cmp::*\x7d;"

theorem validate_uses_nested :
    ∃ file, (demoEnv nestedText nestedUse).parseFile (demoSource nestedText) = .ok file ∧
      ∀ tree ∈ file.uses,
        NoneDenied tree ∧ (AllRooted tree ∧ NoneDenied tree ↔ opensWell tree = true) :=
  validate_uses _ _ _ _ (validate_demo (by decide +kernel) (by decide +kernel))

/-- The gate takes `use {core::fmt, std::collections::HashMap};`: only the root
of the first member is looked at. -/
theorem validate_accepts_std :
    (demoEnv groupText groupUse).parseFile (demoSource groupText) = .ok (demoFile groupUse) ∧
      (∃ m, validate (demoEnv groupText groupUse) (demoSource groupText) [] = .ok m) ∧
      groupUse ∈ (demoFile groupUse).uses ∧
      Import.leaf ["std", "collections", "HashMap"] ∈ imports groupUse ∧
      "std" ∉ useRootsOk := by
  have hwalk : visitFile (demoFile groupUse) = none := by decide +kernel
  have hmarker : findMarker (demoSource groupText) = some "demo" := by decide +kernel
  refine ⟨by simp [demoEnv], ⟨_, validate_demo hmarker hwalk⟩, ?_, by decide, by decide⟩
  simp [File.uses, demoFile, usesOf, Node.uses]

end EmbraOS.Ports.Validator
