import EmbraOS.Verified.FileTree

/-!
# Changes of a file tree

A new entry, a subtree removed, and a subtree moved.  Each takes what makes it
well defined as an argument, and its lemma says what is at every location
afterwards.
-/

namespace EmbraOS.Verified.FileTree

open Verified.UnixPath

/-! ## Lookups -/

theorem lookup_cons_key (q loc : Loc) (e : Entry) (nodes : Nodes) :
    List.lookup q ((loc, e) :: nodes) = if q = loc then some e else nodes.lookup q := by
  rw [List.lookup_cons]
  by_cases hq : q = loc
  · rw [if_pos hq, beq_iff_eq.2 hq]
  · rw [if_neg hq, beq_eq_false_iff_ne.2 hq]

theorem lookup_filter_key (keep : Loc → Bool) (q : Loc) (nodes : Nodes) :
    (nodes.filter (fun n => keep n.1)).lookup q =
      if keep q then nodes.lookup q else none := by
  induction nodes with
  | nil => simp
  | cons n nodes ih =>
    obtain ⟨loc, e⟩ := n
    rw [List.filter_cons, lookup_cons_key]
    by_cases hq : q = loc
    · subst hq
      cases hkeep : keep q
      · simpa [hkeep] using ih
      · simp
    · rw [if_neg hq]
      split
      · rw [lookup_cons_key, if_neg hq, ih]
      · exact ih

/-- Moved keys are found under their new names. -/
theorem lookup_map_key (f : Loc → Loc) (q q' : Loc) (nodes : Nodes)
    (h : ∀ n ∈ nodes, f n.1 = q ↔ n.1 = q') :
    (nodes.map (fun n => (f n.1, n.2))).lookup q = nodes.lookup q' := by
  induction nodes with
  | nil => rfl
  | cons n nodes ih =>
    obtain ⟨loc, e⟩ := n
    have hhead : q = f loc ↔ q' = loc := by
      rw [eq_comm, h (loc, e) List.mem_cons_self, eq_comm]
    rw [List.map_cons, lookup_cons_key, lookup_cons_key,
      ih (fun n hn => h n (List.mem_cons_of_mem _ hn))]
    exact if_congr hhead rfl rfl

theorem entryAt_cons {loc : Loc} (hloc : loc ≠ []) (e : Entry) (nodes : Nodes) (q : Loc) :
    entryAt ((loc, e) :: nodes) q = if q = loc then some e else entryAt nodes q := by
  rw [entryAt, entryAt, lookup_cons_key]
  by_cases hnil : q = []
  · rw [if_pos hnil, if_pos hnil, if_neg (fun hq => hloc (hq.symm.trans hnil))]
  · rw [if_neg hnil, if_neg hnil]

/-- Without what is at and below a location. -/
def without (loc : Loc) (nodes : Nodes) : Nodes :=
  nodes.filter (fun n => !loc.isPrefixOf n.1)

theorem entryAt_without {loc : Loc} (hloc : loc ≠ []) (nodes : Nodes) (q : Loc) :
    entryAt (without loc nodes) q = if loc <+: q then none else entryAt nodes q := by
  rw [entryAt, entryAt, without, lookup_filter_key (fun k => !loc.isPrefixOf k)]
  by_cases hnil : q = []
  · have hno : ¬loc <+: q := fun h => hloc (List.prefix_nil.1 (hnil ▸ h))
    rw [if_pos hnil, if_pos hnil, if_neg hno]
  rw [if_neg hnil, if_neg hnil]
  by_cases hpre : loc <+: q
  · rw [if_pos hpre, List.isPrefixOf_iff_prefix.2 hpre]
    rfl
  · have hfalse : loc.isPrefixOf q = false := by
      rw [← Bool.not_eq_true, List.isPrefixOf_iff_prefix]
      exact hpre
    rw [if_neg hpre, hfalse]
    rfl

/-- A location with its front replaced. -/
def rebase (old new loc : Loc) : Loc :=
  if old.isPrefixOf loc then new ++ loc.drop old.length else loc

theorem rebase_append (old new rest : Loc) : rebase old new (old ++ rest) = new ++ rest := by
  rw [rebase, if_pos (List.isPrefixOf_iff_prefix.2 (List.prefix_append old rest)),
    List.drop_left]

theorem rebase_of_disjoint {old new loc : Loc} (h : ¬old <+: loc) :
    rebase old new loc = loc :=
  if_neg (fun hpre => h (List.isPrefixOf_iff_prefix.1 hpre))

/-- What is at and below `old` goes to `new`. -/
def moved (old new : Loc) (nodes : Nodes) : Nodes :=
  (without new nodes).map (fun n => (rebase old new n.1, n.2))

/-- Two locations of which neither is in the other have nothing in common. -/
theorem not_prefix_append {a b : Loc} (hab : ¬a <+: b) (hba : ¬b <+: a) (rest : Loc) :
    ¬a <+: b ++ rest := by
  intro h
  rcases List.prefix_or_prefix_of_prefix h (List.prefix_append b rest) with h | h
  · exact hab h
  · exact hba h

theorem entryAt_moved {old new : Loc} (hon : ¬old <+: new) (hno : ¬new <+: old)
    (nodes : Nodes) (q : Loc) :
    entryAt (moved old new nodes) q =
      if new <+: q then entryAt nodes (old ++ q.drop new.length)
      else if old <+: q then none else entryAt nodes q := by
  have hold : old ≠ [] := fun h => hon (h ▸ List.nil_prefix)
  have hnew : new ≠ [] := fun h => hno (h ▸ List.nil_prefix)
  have hkeys : ∀ n ∈ without new nodes, ¬new <+: n.1 := by
    intro n hn hpre
    have := (List.mem_filter.1 hn).2
    rw [List.isPrefixOf_iff_prefix.2 hpre] at this
    cases this
  have hlook : ∀ q, ¬new <+: q →
      (without new nodes).lookup q = nodes.lookup q := by
    intro q hq
    rw [without, lookup_filter_key (fun k => !new.isPrefixOf k), if_pos]
    rw [Bool.not_eq_true', ← Bool.not_eq_true, List.isPrefixOf_iff_prefix]
    exact hq
  by_cases hq : new <+: q
  · obtain ⟨rest, rfl⟩ := hq
    rw [if_pos (List.prefix_append new rest), List.drop_left, entryAt, entryAt,
      if_neg (by simp [hnew]), if_neg (by simp [hold]), moved,
      lookup_map_key (rebase old new) (new ++ rest) (old ++ rest)]
    · exact hlook _ (not_prefix_append hno hon rest)
    intro n hn
    constructor
    · intro hr
      by_cases hpre : old <+: n.1
      · obtain ⟨rest', hrest'⟩ := hpre
        rw [← hrest', rebase_append] at hr
        rw [← hrest', List.append_cancel_left hr]
      · rw [rebase_of_disjoint hpre] at hr
        exact absurd (hr ▸ List.prefix_append new rest) (hkeys n hn)
    · intro hr
      rw [hr, rebase_append]
  · rw [if_neg hq]
    by_cases hpre : old <+: q
    · have hnil : q ≠ [] := by
        rintro rfl
        exact hold (List.prefix_nil.1 hpre)
      rw [if_pos hpre, entryAt, if_neg hnil, List.lookup_eq_none_iff]
      intro n hn
      obtain ⟨m, hm, rfl⟩ := List.mem_map.1 hn
      rw [bne_iff_ne]
      rintro rfl
      by_cases hm' : old <+: m.1
      · obtain ⟨rest, hrest⟩ := hm'
        rw [← hrest, rebase_append] at hq
        exact hq (List.prefix_append new rest)
      · rw [rebase_of_disjoint hm'] at hpre
        exact hm' hpre
    · rw [if_neg hpre, entryAt, entryAt]
      by_cases hnil : q = []
      · rw [if_pos hnil, if_pos hnil]
      rw [if_neg hnil, if_neg hnil, moved, lookup_map_key (rebase old new) q q]
      · exact hlook q hq
      intro n hn
      by_cases hm : old <+: n.1
      · obtain ⟨rest, hrest⟩ := hm
        rw [← hrest, rebase_append]
        constructor
        · rintro rfl
          exact absurd (List.prefix_append new rest) hq
        · rintro rfl
          exact absurd (List.prefix_append old rest) hpre
      · rw [rebase_of_disjoint hm]

namespace Tree

/-! ## The changes -/

/-- An entry in a directory, in the place of anything but a directory. -/
def put (fs : Tree) (dir : Loc) (name : String) (e : Entry)
    (h : fs.entry dir = some .dir ∧ ValidName name ∧
      fs.entry (dir ++ [name]) ≠ some .dir) : Tree where
  nodes := (dir ++ [name], e) :: fs.nodes
  parent p n hsome := by
    rw [entryAt_cons (by simp)] at hsome ⊢
    split at hsome
    · rename_i heq
      obtain ⟨rfl, -⟩ := List.append_inj' heq rfl
      rw [if_neg (by simp)]
      exact h.1
    · have hdir := fs.parent p n hsome
      rw [if_neg]
      · exact hdir
      · rintro rfl
        exact h.2.2 hdir
  name p n hsome := by
    rw [entryAt_cons (by simp)] at hsome
    split at hsome
    · rename_i heq
      obtain ⟨-, hn⟩ := List.append_inj' heq rfl
      rw [List.singleton_inj.1 hn]
      exact h.2.1
    · exact fs.name p n hsome

theorem entry_put {fs : Tree} {dir : Loc} {name : String} {e : Entry}
    (h : fs.entry dir = some .dir ∧ ValidName name ∧ fs.entry (dir ++ [name]) ≠ some .dir)
    (q : Loc) :
    (fs.put dir name e h).entry q = if q = dir ++ [name] then some e else fs.entry q :=
  entryAt_cons (by simp) e fs.nodes q

/-- Everything at and below a location goes. -/
def remove (fs : Tree) (loc : Loc) (h : loc ≠ []) : Tree where
  nodes := without loc fs.nodes
  parent p n hsome := by
    rw [entryAt_without h] at hsome ⊢
    split at hsome
    · exact absurd rfl hsome
    · rename_i hpre
      rw [if_neg (fun hp => hpre (hp.trans (List.prefix_append p [n])))]
      exact fs.parent p n hsome
  name p n hsome := by
    rw [entryAt_without h] at hsome
    split at hsome
    · exact absurd rfl hsome
    · exact fs.name p n hsome

theorem entry_remove {fs : Tree} {loc : Loc} (h : loc ≠ []) (q : Loc) :
    (fs.remove loc h).entry q = if loc <+: q then none else fs.entry q :=
  entryAt_without h fs.nodes q

/-- Everything at and below a location goes to a name of a directory. -/
def move (fs : Tree) (old dir : Loc) (name : String)
    (h : fs.entry dir = some .dir ∧ ValidName name ∧ ¬old <+: dir ++ [name] ∧
      ¬dir ++ [name] <+: old) : Tree where
  nodes := moved old (dir ++ [name]) fs.nodes
  parent p n hsome := by
    obtain ⟨hdir, hname, hon, hno⟩ := h
    rw [entryAt_moved hon hno] at hsome ⊢
    split at hsome
    · rename_i hpre
      rcases List.prefix_concat_iff.1 hpre with heq | hpre
      · obtain ⟨rfl, -⟩ := List.append_inj' heq rfl
        rw [if_neg (fun hp => absurd hp.length_le (by simp)),
          if_neg (fun hp => hon (hp.trans (List.prefix_append _ _)))]
        exact hdir
      · obtain ⟨rest, rfl⟩ := hpre
        rw [List.append_assoc, List.drop_left, ← List.append_assoc] at hsome
        rw [if_pos (List.prefix_append _ rest), List.drop_left]
        exact fs.parent _ n hsome
    · rename_i hpre
      split at hsome
      · exact absurd rfl hsome
      · rename_i hpre'
        rw [if_neg (fun hp => hpre (hp.trans (List.prefix_append p [n]))),
          if_neg (fun hp => hpre' (hp.trans (List.prefix_append p [n])))]
        exact fs.parent p n hsome
  name p n hsome := by
    obtain ⟨hdir, hname, hon, hno⟩ := h
    rw [entryAt_moved hon hno] at hsome
    split at hsome
    · rename_i hpre
      rcases List.prefix_concat_iff.1 hpre with heq | hpre
      · obtain ⟨-, hn⟩ := List.append_inj' heq rfl
        rw [← List.singleton_inj.1 hn]
        exact hname
      · obtain ⟨rest, rfl⟩ := hpre
        rw [List.append_assoc, List.drop_left, ← List.append_assoc] at hsome
        exact fs.name _ n hsome
    · split at hsome
      · exact absurd rfl hsome
      · exact fs.name p n hsome

theorem entry_move {fs : Tree} {old dir : Loc} {name : String}
    (h : fs.entry dir = some .dir ∧ ValidName name ∧ ¬old <+: dir ++ [name] ∧
      ¬dir ++ [name] <+: old) (q : Loc) :
    (fs.move old dir name h).entry q =
      if dir ++ [name] <+: q then fs.entry (old ++ q.drop (dir ++ [name]).length)
      else if old <+: q then none else fs.entry q :=
  entryAt_moved h.2.2.1 h.2.2.2 fs.nodes q

/-- Nothing is below the location. -/
def isEmpty (fs : Tree) (loc : Loc) : Bool :=
  fs.nodes.all (fun n => !(loc.isPrefixOf n.1 && decide (n.1 ≠ loc)))

theorem entry_of_isEmpty {fs : Tree} {loc rest : Loc} (h : fs.isEmpty loc = true)
    (hrest : rest ≠ []) : fs.entry (loc ++ rest) = none := by
  by_contra hne
  rcases List.eq_nil_or_concat' rest with rfl | ⟨init, last, rfl⟩
  · exact hrest rfl
  · rw [← List.append_assoc] at hne
    obtain ⟨e, he⟩ := mem_of_entryAt hne
    have hall := List.all_eq_true.1 h _ he
    rw [List.isPrefixOf_iff_prefix.2 ⟨init ++ [last], by simp⟩] at hall
    simp at hall

end Tree

end EmbraOS.Verified.FileTree
