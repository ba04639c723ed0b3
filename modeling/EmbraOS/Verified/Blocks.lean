import EmbraOS.Verified.Search

/-!
# Blocks between two marks

A text is read from left to right for the blocks that an opening mark starts and the next
closing mark ends.  Each block is kept with the place where it starts, so that the blocks of
two texts can be told apart.

`blocks_merged_iff`: of texts that are written one after another, with a separator that is in
neither mark, the blocks are those of each text, exactly when none of them but the last leaves
a block open.  `closedFrom_false` and `closedFrom_true` are the steps of a loop that searches
for one mark and then for the other.
-/

namespace EmbraOS.Verified.Blocks

open Verified.Search

variable {α : Type} [DecidableEq α]

structure Marks (α : Type) where
  opening : List α
  closing : List α
  opening_ne : opening ≠ []
  closing_ne : closing ≠ []

structure Block (α : Type) where
  start : Nat
  text : List α
  deriving DecidableEq, Repr

def Block.push (b : Block α) (c : α) : Block α := ⟨b.start, b.text ++ [c]⟩

/-- The blocks of a text that starts at a place, and the one that is open at its end; `skip`
characters belong to a mark that has been read already. -/
def scan (m : Marks α) : Nat → Option (Block α) → Nat → List α →
    List (Block α) × Option (Block α)
  | _, live, _, [] => ([], live)
  | pos, live, skip + 1, c :: cs => scan m (pos + 1) (live.map (·.push c)) skip cs
  | pos, none, 0, c :: cs =>
    if m.opening.isPrefixOf (c :: cs) then
      scan m (pos + 1) (some ⟨pos, [c]⟩) (m.opening.length - 1) cs
    else scan m (pos + 1) none 0 cs
  | pos, some b, 0, c :: cs =>
    if m.closing.isPrefixOf (c :: cs) then
      let r := scan m (pos + 1) none (m.closing.length - 1) cs
      (⟨b.start, b.text ++ m.closing⟩ :: r.1, r.2)
    else scan m (pos + 1) (some (b.push c)) 0 cs

def blocks (m : Marks α) (pos : Nat) (text : List α) : List (Block α) := (scan m pos none 0 text).1

/-- The text leaves a block open. -/
def unfinished (m : Marks α) (text : List α) : Bool := (scan m 0 none 0 text).2.isSome

/-- The texts one after another, each with a separator behind it. -/
def merged (sep : α) (texts : List (List α)) : List α := texts.flatMap (· ++ [sep])

/-- The blocks of each text, where the text stands among the others. -/
def placed (m : Marks α) : Nat → List (List α) → List (Block α)
  | _, [] => []
  | pos, x :: xs => blocks m pos x ++ placed m (pos + x.length + 1) xs

/-! ## A separator -/

variable {m : Marks α} {sep : α}

theorem isPrefixOf_append_sep {pat : List α} (h : sep ∉ pat) (x y : List α) :
    pat.isPrefixOf (x ++ sep :: y) = pat.isPrefixOf x := by
  rw [Bool.eq_iff_iff, List.isPrefixOf_iff_prefix, List.isPrefixOf_iff_prefix]
  constructor
  · intro hpre
    rcases List.prefix_or_prefix_of_prefix hpre (List.prefix_append x (sep :: y)) with hx | ⟨r, rfl⟩
    · exact hx
    cases r with
    | nil => rw [List.append_nil]
    | cons d r =>
      -- a pattern longer than `x` would hold the separator
      have hr : d :: r <+: sep :: y := (List.prefix_append_right_inj x).1 hpre
      obtain ⟨rfl, -⟩ := List.cons_prefix_cons.1 hr
      exact absurd (List.mem_append_right _ List.mem_cons_self) h
  · intro hx
    exact hx.trans (List.prefix_append _ _)

theorem isPrefixOf_sep {pat : List α} (hne : pat ≠ []) (h : sep ∉ pat) (y : List α) :
    pat.isPrefixOf (sep :: y) = false := by
  have hnil := isPrefixOf_append_sep h [] y
  rw [List.nil_append] at hnil
  rw [hnil]
  cases pat with
  | nil => exact absurd rfl hne
  | cons c cs => rfl

theorem length_le_of_isPrefixOf {pat x : List α} (h : pat.isPrefixOf x = true) :
    pat.length ≤ x.length :=
  (List.isPrefixOf_iff_prefix.1 h).length_le

/-- A scan stops at a separator, and goes on from what is open there. -/
theorem scan_append_sep (hopen : sep ∉ m.opening) (hclose : sep ∉ m.closing) (y : List α)
    (x : List α) : ∀ (pos : Nat) (live : Option (Block α)) (skip : Nat), skip ≤ x.length →
      scan m pos live skip (x ++ sep :: y) =
        ((scan m pos live skip x).1 ++
            (scan m (pos + x.length) (scan m pos live skip x).2 0 (sep :: y)).1,
          (scan m (pos + x.length) (scan m pos live skip x).2 0 (sep :: y)).2) := by
  induction x with
  | nil =>
    intro pos live skip hskip
    obtain rfl : skip = 0 := Nat.le_zero.1 hskip
    cases live with
    | none => rfl
    | some b => rfl
  | cons c x ih =>
    intro pos live skip hskip
    have hpos : pos + (c :: x).length = pos + 1 + x.length := by
      rw [List.length_cons]
      omega
    rw [hpos]
    cases skip with
    | succ skip =>
      have hshort : skip ≤ x.length := by
        rw [List.length_cons] at hskip
        omega
      rw [List.cons_append, scan, scan]
      exact ih (pos + 1) _ skip hshort
    | zero =>
      cases live with
      | none =>
        have hsame := isPrefixOf_append_sep hopen (c :: x) y
        rw [List.cons_append] at hsame ⊢
        rw [scan, scan, hsame]
        split
        · rename_i hpre
          have hle := length_le_of_isPrefixOf hpre
          rw [List.length_cons] at hle
          exact ih (pos + 1) _ _ (by omega)
        · exact ih (pos + 1) none 0 (Nat.zero_le _)
      | some b =>
        have hsame := isPrefixOf_append_sep hclose (c :: x) y
        rw [List.cons_append] at hsame ⊢
        rw [scan, scan, hsame]
        split
        · rename_i hpre
          have hle := length_le_of_isPrefixOf hpre
          rw [List.length_cons] at hle
          rw [ih (pos + 1) none _ (by omega)]
          rfl
        · exact ih (pos + 1) _ 0 (Nat.zero_le _)

theorem scan_sep_none (hopen : sep ∉ m.opening) (pos : Nat) (y : List α) :
    scan m pos none 0 (sep :: y) = scan m (pos + 1) none 0 y := by
  rw [scan, isPrefixOf_sep m.opening_ne hopen]
  exact if_neg Bool.false_ne_true

theorem scan_sep_some (hclose : sep ∉ m.closing) (pos : Nat) (b : Block α) (y : List α) :
    scan m pos (some b) 0 (sep :: y) = scan m (pos + 1) (some (b.push sep)) 0 y := by
  rw [scan, isPrefixOf_sep m.closing_ne hclose]
  exact if_neg Bool.false_ne_true

/-! ## Where blocks start -/

theorem le_start (text : List α) : ∀ (pos : Nat) (live : Option (Block α)) (skip bound : Nat),
    bound ≤ pos → (∀ b ∈ live, bound ≤ b.start) →
      (∀ b ∈ (scan m pos live skip text).1, bound ≤ b.start) ∧
      ∀ b ∈ (scan m pos live skip text).2, bound ≤ b.start := by
  induction text with
  | nil =>
    intro pos live skip bound _ hlive
    cases live with
    | none => exact ⟨nofun, hlive⟩
    | some b => exact ⟨nofun, hlive⟩
  | cons c cs ih =>
    intro pos live skip bound hpos hlive
    have hnext : bound ≤ pos + 1 := by omega
    cases skip with
    | succ skip =>
      refine ih (pos + 1) _ skip bound hnext ?_
      intro b hb
      obtain ⟨b', hb', rfl⟩ := Option.map_eq_some_iff.1 hb
      exact hlive b' hb'
    | zero =>
      cases live with
      | none =>
        rw [scan]
        split
        · refine ih (pos + 1) _ _ bound hnext ?_
          intro b hb
          cases hb
          exact hpos
        · exact ih (pos + 1) none 0 bound hnext hlive
      | some b =>
        rw [scan]
        split
        · obtain ⟨hclosed, hopen⟩ :=
            ih (pos + 1) none (m.closing.length - 1) bound hnext nofun
          refine ⟨?_, hopen⟩
          intro b' hb'
          rcases List.mem_cons.1 hb' with rfl | hlater
          · exact hlive b rfl
          · exact hclosed b' hlater
        · refine ih (pos + 1) _ 0 bound hnext ?_
          intro b' hb'
          cases hb'
          exact hlive b rfl

theorem live_start_le (text : List α) : ∀ (pos : Nat) (live : Option (Block α)) (skip : Nat),
    (∀ b ∈ live, b.start ≤ pos) →
      ∀ b ∈ (scan m pos live skip text).2, b.start ≤ pos + text.length := by
  induction text with
  | nil =>
    intro pos live skip hlive b hb
    cases live with
    | none => cases hb
    | some b' => exact hlive b hb
  | cons c cs ih =>
    intro pos live skip hlive b hb
    have hpos : pos + (c :: cs).length = pos + 1 + cs.length := by
      rw [List.length_cons]
      omega
    rw [hpos]
    have hlater : ∀ b ∈ live, b.start ≤ pos + 1 := by
      intro b' hb'
      have hle := hlive b' hb'
      omega
    cases skip with
    | succ skip =>
      refine ih (pos + 1) _ skip ?_ b hb
      intro b' hb'
      obtain ⟨b₀, hb₀, rfl⟩ := Option.map_eq_some_iff.1 hb'
      exact hlater b₀ hb₀
    | zero =>
      cases live with
      | none =>
        rw [scan] at hb
        split at hb
        · refine ih (pos + 1) _ _ ?_ b hb
          intro b' hb'
          cases hb'
          exact Nat.le_succ pos
        · exact ih (pos + 1) none 0 nofun b hb
      | some b₀ =>
        rw [scan] at hb
        split at hb
        · exact ih (pos + 1) none _ nofun b hb
        · refine ih (pos + 1) _ 0 ?_ b hb
          intro b' hb'
          cases hb'
          exact hlater b₀ rfl

theorem le_start_placed (xs : List (List α)) : ∀ pos, ∀ b ∈ placed m pos xs, pos ≤ b.start := by
  induction xs with
  | nil => exact fun _ => nofun
  | cons x xs ih =>
    intro pos b hb
    rcases List.mem_append.1 hb with hfirst | hlater
    · exact (le_start x pos none 0 pos (le_refl pos) nofun).1 b hfirst
    · have hle := ih _ b hlater
      omega

/-! ## Closing marks -/

theorem closing_infix_of_closed (text : List α) : ∀ (pos : Nat) (live : Option (Block α))
    (skip : Nat), (scan m pos live skip text).1 ≠ [] → m.closing <:+: text := by
  induction text with
  | nil =>
    intro pos live skip hne
    cases live with
    | none => exact absurd rfl hne
    | some b => exact absurd rfl hne
  | cons c cs ih =>
    intro pos live skip hne
    cases skip with
    | succ skip => exact List.infix_cons (ih _ _ _ hne)
    | zero =>
      cases live with
      | none =>
        rw [scan] at hne
        split at hne
        · exact List.infix_cons (ih _ _ _ hne)
        · exact List.infix_cons (ih _ _ _ hne)
      | some b =>
        rw [scan] at hne
        split at hne
        · rename_i hpre
          exact (List.isPrefixOf_iff_prefix.1 hpre).isInfix
        · exact List.infix_cons (ih _ _ _ hne)

/-- An open block is closed by the first closing mark. -/
theorem exists_closed (text : List α) : ∀ (pos : Nat) (b : Block α), m.closing <:+: text →
    ∃ first rest, (scan m pos (some b) 0 text).1 = first :: rest ∧ first.start = b.start := by
  induction text with
  | nil =>
    intro pos b hin
    exact absurd (List.infix_nil.1 hin) m.closing_ne
  | cons c cs ih =>
    intro pos b hin
    rw [scan]
    split
    · exact ⟨_, _, rfl, rfl⟩
    · rename_i hnot
      have hcs : m.closing <:+: cs := by
        rcases List.infix_cons_iff.1 hin with hpre | hcs
        · exact absurd (List.isPrefixOf_iff_prefix.2 hpre) hnot
        · exact hcs
      exact ih (pos + 1) (b.push c) hcs

/-! ## Texts one after another -/

/-- How many blocks are closed, and whether one is open at the end, depends on whether one was
open before, not on where. -/
theorem scan_shape (text : List α) : ∀ (pos pos' skip : Nat) (live live' : Option (Block α)),
    live.isSome = live'.isSome →
      (scan m pos live skip text).1.length = (scan m pos' live' skip text).1.length ∧
      (scan m pos live skip text).2.isSome = (scan m pos' live' skip text).2.isSome := by
  induction text with
  | nil =>
    intro pos pos' skip live live' h
    unfold scan
    exact ⟨rfl, h⟩
  | cons c cs ih =>
    intro pos pos' skip live live' h
    cases skip with
    | succ skip =>
      refine ih _ _ _ _ _ ?_
      rw [Option.isSome_map, Option.isSome_map]
      exact h
    | zero =>
      cases live with
      | none =>
        cases live' with
        | none =>
          rw [scan, scan]
          split
          · exact ih _ _ _ _ _ rfl
          · exact ih _ _ _ _ _ rfl
        | some b => cases h
      | some b =>
        cases live' with
        | none => cases h
        | some b' =>
          rw [scan, scan]
          split
          · obtain ⟨hlength, hopen⟩ := ih (pos + 1) (pos' + 1) (m.closing.length - 1)
              none none rfl
            exact ⟨congrArg (· + 1) hlength, hopen⟩
          · exact ih _ _ _ _ _ rfl

theorem unfinished_eq (pos : Nat) (text : List α) :
    unfinished m text = (scan m pos none 0 text).2.isSome :=
  (scan_shape text 0 pos 0 none none rfl).2

theorem blocks_append_of_finished (hopen : sep ∉ m.opening) (hclose : sep ∉ m.closing) (pos : Nat)
    {x : List α} (hx : unfinished m x = false) (y : List α) :
    blocks m pos (x ++ sep :: y) = blocks m pos x ++ blocks m (pos + x.length + 1) y := by
  have hnone : (scan m pos none 0 x).2 = none := by
    rw [unfinished_eq pos] at hx
    exact Option.not_isSome_iff_eq_none.1 (Bool.eq_false_iff.1 hx)
  unfold blocks
  rw [scan_append_sep hopen hclose y x pos none 0 (Nat.zero_le _), hnone, scan_sep_none hopen]

omit [DecidableEq α] in
theorem merged_cons (x : List α) (xs : List (List α)) :
    merged sep (x :: xs) = x ++ sep :: merged sep xs := by
  unfold merged
  rw [List.flatMap_cons, List.append_assoc]
  rfl

/-- The blocks of texts one after another are the blocks of each, exactly when none but the
last leaves a block open. -/
theorem blocks_merged_iff (hopen : sep ∉ m.opening) (hclose : sep ∉ m.closing)
    (xs : List (List α)) : ∀ pos, (∀ x ∈ xs.tail, m.closing <:+: x) →
      (blocks m pos (merged sep xs) = placed m pos xs ↔
        ∀ x ∈ xs.dropLast, unfinished m x = false) := by
  induction xs with
  | nil => exact fun pos _ => ⟨fun _ => nofun, fun _ => rfl⟩
  | cons x xs ih =>
    intro pos hclosing
    rw [merged_cons]
    cases hxs : xs with
    | nil =>
      refine ⟨fun _ => nofun, fun _ => ?_⟩
      rw [placed, placed, List.append_nil]
      unfold blocks
      rw [show merged sep ([] : List (List α)) = [] from rfl,
        scan_append_sep hopen hclose [] x pos none 0 (Nat.zero_le _)]
      cases (scan m pos none 0 x).2 with
      | none => rw [scan_sep_none hopen]; exact List.append_nil _
      | some b => rw [scan_sep_some hclose]; exact List.append_nil _
    | cons z zs =>
      rw [hxs] at ih hclosing
      have htail : ∀ y ∈ zs, m.closing <:+: y :=
        fun y hy => hclosing y (List.mem_cons_of_mem z hy)
      have hrest := ih (pos + x.length + 1) htail
      rw [List.dropLast_cons_cons]
      cases hx : unfinished m x with
      | false =>
        rw [blocks_append_of_finished hopen hclose pos hx, placed,
          List.append_cancel_left_eq, hrest]
        constructor
        · intro hall y hy
          rcases List.mem_cons.1 hy with rfl | hy
          · exact hx
          · exact hall y hy
        · exact fun hall y hy => hall y (List.mem_cons_of_mem x hy)
      | true =>
        refine ⟨fun heq => ?_, fun hall => ?_⟩
        · rw [unfinished_eq pos] at hx
          obtain ⟨b, hb⟩ := Option.isSome_iff_exists.1 hx
          have hin : m.closing <:+: merged sep (z :: zs) := by
            rw [merged_cons]
            exact (hclosing z List.mem_cons_self).trans (List.prefix_append _ _).isInfix
          obtain ⟨first, rest, hfirst, hstart⟩ :=
            exists_closed (merged sep (z :: zs)) (pos + x.length + 1) (b.push sep) hin
          unfold blocks at heq
          rw [scan_append_sep hopen hclose _ x pos none 0 (Nat.zero_le _), hb,
            scan_sep_some hclose, hfirst, placed] at heq
          have hplaced : first ∈ placed m (pos + x.length + 1) (z :: zs) := by
            have hcancel := List.append_cancel_left heq
            rw [← hcancel]
            exact List.mem_cons_self
          -- the block starts in the first text, those of the others behind it
          have hle := le_start_placed (z :: zs) (pos + x.length + 1) first hplaced
          have hbefore := live_start_le x pos none 0 nofun b hb
          rw [hstart] at hle
          have hpush : (b.push sep).start = b.start := rfl
          omega
        · have hfalse := hall x List.mem_cons_self
          rw [hx] at hfalse
          cases hfalse

/-- Separators at the end of a text change none of its blocks. -/
theorem scan_append_replicate (hopen : sep ∉ m.opening) (hclose : sep ∉ m.closing) (pos : Nat)
    (x : List α) (n : Nat) :
    blocks m pos (x ++ List.replicate n sep) = blocks m pos x ∧
      unfinished m (x ++ List.replicate n sep) = unfinished m x := by
  have hquiet : ∀ n pos (live : Option (Block α)),
      (scan m pos live 0 (List.replicate n sep)).1 = [] ∧
      (scan m pos live 0 (List.replicate n sep)).2.isSome = live.isSome := by
    intro n
    induction n with
    | zero =>
      intro pos live
      cases live with
      | none => exact ⟨rfl, rfl⟩
      | some b => exact ⟨rfl, rfl⟩
    | succ n ih =>
      intro pos live
      rw [List.replicate_succ]
      cases live with
      | none =>
        rw [scan_sep_none hopen]
        exact ih _ none
      | some b =>
        rw [scan_sep_some hclose]
        exact ih _ _
  cases n with
  | zero =>
    rw [List.replicate_zero, List.append_nil]
    exact ⟨rfl, rfl⟩
  | succ n =>
    rw [List.replicate_succ]
    unfold blocks unfinished
    rw [scan_append_sep hopen hclose _ x pos none 0 (Nat.zero_le _),
      scan_append_sep hopen hclose _ x 0 none 0 (Nat.zero_le _), ← List.replicate_succ]
    refine ⟨?_, (hquiet _ _ _).2⟩
    rw [(hquiet _ _ _).1]
    exact List.append_nil _

/-! ## One mark searched after the other -/

theorem closed_length_skip (skip : Nat) : ∀ (pos : Nat) (live live' : Option (Block α))
    (text : List α), live.isSome = live'.isSome →
      (scan m pos live skip text).1.length = (scan m 0 live' 0 (text.drop skip)).1.length := by
  induction skip with
  | zero =>
    intro pos live live' text h
    exact (scan_shape text pos 0 0 live live' h).1
  | succ skip ih =>
    intro pos live live' text h
    cases text with
    | nil =>
      unfold scan
      rfl
    | cons c cs =>
      rw [List.drop_succ_cons]
      refine ih (pos + 1) _ live' cs ?_
      rw [Option.isSome_map]
      exact h

/-- The number of blocks that are closed from here on. -/
def closedFrom (m : Marks α) (inside : Bool) (text : List α) : Nat :=
  (scan m 0 (if inside then some ⟨0, []⟩ else none) 0 text).1.length

theorem closedFrom_false_cons (c : α) (cs : List α) :
    closedFrom m false (c :: cs) =
      if m.opening.isPrefixOf (c :: cs) then closedFrom m true ((c :: cs).drop m.opening.length)
      else closedFrom m false cs := by
  have hlen : m.opening.length = m.opening.length - 1 + 1 :=
    (Nat.sub_add_cancel (List.length_pos_iff.2 m.opening_ne)).symm
  unfold closedFrom
  rw [if_neg Bool.false_ne_true, if_pos rfl, scan]
  split
  · rw [hlen, List.drop_succ_cons]
    exact closed_length_skip _ 1 _ _ cs rfl
  · exact (scan_shape cs 1 0 0 none none rfl).1

theorem closedFrom_true_cons (c : α) (cs : List α) :
    closedFrom m true (c :: cs) =
      if m.closing.isPrefixOf (c :: cs) then
        closedFrom m false ((c :: cs).drop m.closing.length) + 1
      else closedFrom m true cs := by
  have hlen : m.closing.length = m.closing.length - 1 + 1 :=
    (Nat.sub_add_cancel (List.length_pos_iff.2 m.closing_ne)).symm
  unfold closedFrom
  rw [if_neg Bool.false_ne_true, if_pos rfl, scan]
  split
  · rw [hlen, List.drop_succ_cons]
    exact congrArg (· + 1) (closed_length_skip _ 1 none none cs rfl)
  · exact (scan_shape cs 1 0 0 (some (Block.push ⟨0, []⟩ c)) (some ⟨0, []⟩) rfl).1

theorem closedFrom_nil (inside : Bool) : closedFrom m inside [] = 0 := by
  cases inside with
  | false => rfl
  | true => rfl

/-- A search for the opening mark, or none. -/
theorem closedFrom_false (text : List α) :
    closedFrom m false text =
      match before? m.opening text with
      | none => 0
      | some front => closedFrom m true (text.drop (front.length + m.opening.length)) := by
  induction text with
  | nil =>
    rw [before?, if_neg m.opening_ne]
    exact closedFrom_nil false
  | cons c cs ih =>
    rw [closedFrom_false_cons, before?]
    split
    · dsimp only
      rw [List.length_nil, Nat.zero_add]
    · rw [ih]
      cases before? m.opening cs with
      | none => rfl
      | some front =>
        rw [Option.map_some]
        dsimp only
        rw [List.length_cons, Nat.add_right_comm, List.drop_succ_cons]

theorem closedFrom_true (text : List α) :
    closedFrom m true text =
      match before? m.closing text with
      | none => 0
      | some body => closedFrom m false (text.drop (body.length + m.closing.length)) + 1 := by
  induction text with
  | nil =>
    rw [before?, if_neg m.closing_ne]
    exact closedFrom_nil true
  | cons c cs ih =>
    rw [closedFrom_true_cons, before?]
    split
    · dsimp only
      rw [List.length_nil, Nat.zero_add]
    · rw [ih]
      cases before? m.closing cs with
      | none => rfl
      | some body =>
        rw [Option.map_some]
        dsimp only
        rw [List.length_cons, Nat.add_right_comm, List.drop_succ_cons]

theorem length_blocks (pos : Nat) (text : List α) :
    (blocks m pos text).length = closedFrom m false text :=
  (scan_shape text pos 0 0 none none rfl).1

end EmbraOS.Verified.Blocks
