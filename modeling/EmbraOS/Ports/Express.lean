import EmbraOS.Verified.BytePlaces

/-!
# The expression panel's sanitisers

Port of `strip_ansi` and `sanitize` of `embra-brain/src/tools/express.rs` and of the console's
`sanitize_for_render` (`embra-console/src/terminal/ui.rs`).  The nested loops over one iterator are
a scan with the loop it is in as its mode.

A text is read against a grammar (`Item`): plain characters, CSI sequences with their final byte,
OSC sequences up to BEL or to ESC backslash.  The scan leaves an OSC sequence at BEL only, so one
that ends in ESC backslash swallows what follows it (`kept`).

`sanitize_text` says what is left of a text of the grammar, `sanitize_plain_iff` when that is its
plain text, and what holds of every text.
-/

namespace EmbraOS.Ports.Express

open String (utf8Len)
open Verified.BytePlaces
open Verified.Text (takeBytes)

/-! ## The code -/

def esc : Char := '\x1b'

def bel : Char := '\x07'

def maxExpressionBytes : Nat := 2048

/-- `(0x40..=0x7e).contains(&cv)` -/
def isFinal (c : Char) : Bool := 0x40 ≤ c.toNat && c.toNat ≤ 0x7e

/-- The arms of the `match` that drop the control characters but newline. -/
def visible (c : Char) : Bool :=
  if c = '\n' then true
  else if c.toNat < 0x20 then false
  else if c = '\x7f' then false
  else if 0x80 ≤ c.toNat && c.toNat < 0xA0 then false
  else true

/-- The loop the scan is in; `escape` is the peek after ESC. -/
inductive Mode where
  | text
  | escape
  | csi
  | osc
  deriving DecidableEq

/-- The loops that `strip_ansi` and `sanitize_for_render` share: escape sequences are dropped, and
of the other characters those that are not to be kept. -/
def scan (keep : Char → Bool) : Mode → List Char → List Char
  | _, [] => []
  | .text, c :: cs =>
    if c = esc then scan keep .escape cs
    else if keep c then c :: scan keep .text cs else scan keep .text cs
  | .escape, c :: cs =>
    if c = '[' then scan keep .csi cs
    else if c = ']' then scan keep .osc cs
    -- only ESC is dropped: the character is read like any other
    else if c = esc then scan keep .escape cs
    else if keep c then c :: scan keep .text cs else scan keep .text cs
  | .csi, c :: cs => if isFinal c then scan keep .text cs else scan keep .csi cs
  | .osc, c :: cs => if c = bel then scan keep .text cs else scan keep .osc cs

def stripAnsi (s : List Char) : List Char := scan (fun _ => true) .text s

def sanitizeForRender (s : List Char) : List Char := scan visible .text s

/-- `String::truncate`; `none` where it panics. -/
def truncate (s : List Char) (n : Nat) : Option (List Char) := (splitBytes s n).map Prod.fst

def sanitize (input : List Char) : Option (List Char) :=
  let out := (stripAnsi input).filter visible
  if utf8Len out > maxExpressionBytes then truncate out (floorBoundary out maxExpressionBytes)
  else some out

/-! ## The grammar -/

/-- What ends an OSC sequence. -/
inductive OscEnd where
  | bel
  | escBackslash
  deriving DecidableEq

def OscEnd.text : OscEnd → List Char
  | .bel => [Express.bel]
  | .escBackslash => [esc, '\\']

/-- A plain character (control characters other than ESC are among them) or a complete terminal
sequence. -/
inductive Item where
  | plain (c : Char) (hc : c ≠ esc)
  | csi (body : List Char) (final : Char)
      (hbody : ∀ c ∈ body, isFinal c = false ∧ c ≠ bel) (hfinal : isFinal final = true)
  | osc (body : List Char) (stop : OscEnd) (hbel : bel ∉ body) (hst : ¬ [esc, '\\'] <:+: body)

def Item.text : Item → List Char
  | .plain c _ => [c]
  | .csi body final _ _ => esc :: '[' :: body ++ [final]
  | .osc body stop _ _ => esc :: ']' :: body ++ stop.text

def textOf (items : List Item) : List Char := items.flatMap Item.text

/-- The plain text. -/
def plainOf (items : List Item) : List Char :=
  items.filterMap fun
    | .plain c _ => some c
    | _ => none

/-- The plain characters outside the stretches from an OSC sequence that ends in ESC backslash to
the next BEL; `running` inside one. -/
def kept : (running : Bool) → List Item → List Char
  | _, [] => []
  | false, .plain c _ :: items => c :: kept false items
  | true, .plain c _ :: items => kept (c ≠ bel) items
  | running, .csi _ _ _ _ :: items => kept running items
  | _, .osc _ .bel _ _ :: items => kept false items
  | _, .osc _ .escBackslash _ _ :: items => kept true items

/-- The visible plain characters, each with whether it stands inside such a stretch. -/
def marked : (running : Bool) → List Item → List (Char × Bool)
  | _, [] => []
  | running, .plain c _ :: items =>
    [(c, running)].filter (fun m => visible m.1) ++ marked (running && c ≠ bel) items
  | running, .csi _ _ _ _ :: items => marked running items
  | _, .osc _ stop _ _ :: items => marked (stop = .escBackslash) items

/-! ## The scan -/

variable {keep : Char → Bool}

variable {c final : Char} {s body : List Char}

theorem scan_text (hc : c ≠ esc) (cs : List Char) :
    scan keep .text (c :: cs) = [c].filter keep ++ scan keep .text cs := by
  rw [scan, if_neg hc]
  by_cases hkeep : keep c = true
  · rw [if_pos hkeep, List.filter_singleton, hkeep]
    rfl
  · rw [if_neg hkeep, List.filter_singleton, Bool.eq_false_of_not_eq_true hkeep]
    rfl

/-- A text without ESC is only filtered. -/
theorem scan_of_not_mem (h : esc ∉ s) : scan keep .text s = s.filter keep := by
  induction s with
  | nil => rfl
  | cons c cs ih =>
    obtain ⟨hc, hcs⟩ := List.ne_and_not_mem_of_not_mem_cons h
    rw [scan_text hc.symm, ih hcs, ← List.filter_append]
    rfl

theorem scan_csi (hbody : ∀ c ∈ body, isFinal c = false)
    (hfinal : isFinal final = true) (cs : List Char) :
    scan keep .csi (body ++ final :: cs) = scan keep .text cs := by
  induction body with
  | nil => rw [List.nil_append, scan, if_pos hfinal]
  | cons c body ih =>
    obtain ⟨hc, hrest⟩ := List.forall_mem_cons.1 hbody
    rw [List.cons_append, scan, if_neg (Bool.eq_false_iff.1 hc), ih hrest]

theorem scan_osc (h : bel ∉ body) (cs : List Char) :
    scan keep .osc (body ++ cs) = scan keep .osc cs := by
  induction body with
  | nil => rfl
  | cons c body ih =>
    obtain ⟨hc, hrest⟩ := List.ne_and_not_mem_of_not_mem_cons h
    rw [List.cons_append, scan, if_neg hc.symm, ih hrest]

/-- In the loop of an OSC sequence an item without BEL is swallowed whole. -/
theorem scan_osc_csi (hbody : bel ∉ body) (hfinal : isFinal final = true) (cs : List Char) :
    scan keep .osc (esc :: '[' :: body ++ [final] ++ cs) = scan keep .osc cs := by
  apply scan_osc
  have hne : bel ≠ final := by
    rintro rfl
    cases hfinal
  simp only [List.cons_append, List.mem_cons, List.mem_append, List.not_mem_nil, or_false]
  rintro (h | h | h | h)
  · cases h
  · cases h
  · exact hbody h
  · exact hne h

theorem scan_osc_stop (keep : Char → Bool) (stop : OscEnd) (cs : List Char) :
    scan keep .osc (stop.text ++ cs) =
      scan keep (if stop = .bel then .text else .osc) cs := by
  cases stop with
  | bel => rfl
  | escBackslash => rfl

/-- What the scan leaves of a text of the grammar. -/
theorem scan_textOf (keep : Char → Bool) (items : List Item) : ∀ running : Bool,
    scan keep (if running then .osc else .text) (textOf items) =
      (kept running items).filter keep := by
  induction items with
  | nil =>
    intro running
    cases running <;> rfl
  | cons item items ih =>
    have hcons : textOf (item :: items) = item.text ++ textOf items := List.flatMap_cons
    intro running
    rw [hcons]
    cases item with
    | plain c hc =>
      cases running with
      | false =>
        have htext := ih false
        rw [if_neg Bool.false_ne_true] at htext ⊢
        rw [Item.text, List.singleton_append, scan_text hc, htext, ← List.filter_append]
        rfl
      | true =>
        have hnext := ih (c ≠ bel)
        rw [kept, ← hnext, Item.text, List.singleton_append, if_pos rfl, scan]
        by_cases hbel : c = bel
        · simp [hbel]
        · simp [hbel]
    | csi body final hbody hfinal =>
      cases running with
      | false =>
        have hopen : (Item.csi body final hbody hfinal).text ++ textOf items =
            esc :: '[' :: (body ++ final :: textOf items) := by
          simp [Item.text]
        have hread : scan keep .text (esc :: '[' :: (body ++ final :: textOf items)) =
            scan keep .csi (body ++ final :: textOf items) := rfl
        rw [if_neg Bool.false_ne_true, hopen, hread,
          scan_csi (fun c hc => (hbody c hc).1) hfinal, kept, ← ih false,
          if_neg Bool.false_ne_true]
      | true =>
        have hbel : bel ∉ body := fun hmem => (hbody bel hmem).2 rfl
        rw [if_pos rfl, Item.text, scan_osc_csi hbel hfinal, kept, ← ih true, if_pos rfl]
    | osc body stop hbel hst =>
      have hopen : (Item.osc body stop hbel hst).text ++ textOf items =
          esc :: ']' :: (body ++ (stop.text ++ textOf items)) := by
        simp [Item.text]
      have hread : scan keep (if running then .osc else .text)
            (esc :: ']' :: (body ++ (stop.text ++ textOf items))) =
          scan keep .osc (body ++ (stop.text ++ textOf items)) := by
        cases running with
        | false => rfl
        | true => rfl
      rw [hopen, hread, scan_osc hbel, scan_osc_stop]
      cases stop with
      | bel =>
        rw [kept, ← ih false]
        rfl
      | escBackslash =>
        rw [kept, ← ih true]
        rfl

theorem map_marked (items : List Item) : ∀ running,
    (marked running items).map Prod.fst = (plainOf items).filter visible ∧
      ((marked running items).filter (fun m => !m.2)).map Prod.fst =
        (kept running items).filter visible := by
  induction items with
  | nil => exact fun _ => ⟨rfl, rfl⟩
  | cons item items ih =>
    intro running
    cases item with
    | plain c hc =>
      obtain ⟨hplain, hkept⟩ := ih (running && c ≠ bel)
      rw [plainOf] at hplain
      by_cases hc' : visible c = true
      · cases running <;> simp_all [marked, plainOf, kept]
      · cases running <;> simp_all [marked, plainOf, kept]
    | csi body final hbody hfinal => exact ih running
    | osc body stop hbel hst => cases stop <;> exact ih _

/-- What is marked behind the cap only does not show. -/
theorem takeBytes_unmarked (marks : List (Char × Bool)) : ∀ n,
    (∀ front c rest, marks = front ++ (c, true) :: rest → n ≤ utf8Len (front.map Prod.fst)) →
    takeBytes n ((marks.filter (fun m => !m.2)).map Prod.fst) =
      takeBytes n (marks.map Prod.fst) := by
  induction marks with
  | nil => exact fun _ _ => rfl
  | cons m marks ih =>
    intro n h
    obtain ⟨c, inside⟩ := m
    cases inside with
    | true =>
      have hn : n = 0 := Nat.le_zero.1 (h [] c marks rfl)
      have hzero : ∀ text, takeBytes n text = [] := fun text =>
        String.utf8Len_eq_zero.1 (Nat.le_zero.1 (hn ▸ utf8Len_takeBytes_le n text))
      rw [hzero, hzero]
    | false =>
      have htail := ih (n - c.utf8Size) fun front d rest heq => by
        have hn := h ((c, false) :: front) d rest (by rw [heq, List.cons_append])
        rw [List.map_cons, String.utf8Len_cons] at hn
        exact Nat.sub_le_of_le_add hn
      rw [List.filter_cons_of_pos rfl, List.map_cons, List.map_cons, takeBytes, takeBytes, htail]

/-! ## The sanitisers -/

/-- The cut is the longest prefix within the cap, and never inside a character. -/
theorem sanitize_eq (input : List Char) :
    sanitize input = some (takeBytes maxExpressionBytes ((stripAnsi input).filter visible)) := by
  rw [sanitize]
  generalize (stripAnsi input).filter visible = out
  split
  · obtain ⟨rest, hrest⟩ := takeBytes_isPart maxExpressionBytes out
    have hsplit := splitBytes_append (takeBytes maxExpressionBytes out) rest
    rw [hrest] at hsplit
    rw [truncate, floorBoundary_eq, hsplit]
    rfl
  · rename_i hle
    rw [takeBytes_of_le (Nat.not_lt.1 hle)]

/-- What is left of a text of the grammar. -/
theorem sanitize_text (items : List Item) :
    sanitize (textOf items) =
      some (takeBytes maxExpressionBytes ((kept false items).filter visible)) := by
  have hstrip : stripAnsi (textOf items) = kept false items := by
    have hscan := scan_textOf (fun _ => true) items false
    rw [List.filter_true] at hscan
    exact hscan
  rw [sanitize_eq, hstrip]

theorem not_mem_esc (h : ∀ c ∈ s, visible c = true) : esc ∉ s :=
  fun hmem => Bool.false_ne_true (h esc hmem)

/-- The renderer leaves a text without control characters as it is. -/
theorem sanitizeForRender_of_visible (h : ∀ c ∈ s, visible c = true) :
    sanitizeForRender s = s := by
  rw [sanitizeForRender, scan_of_not_mem (not_mem_esc h), List.filter_eq_self.2 h]

theorem sanitize_of_visible (h : ∀ c ∈ s, visible c = true) :
    sanitize s = some (takeBytes maxExpressionBytes s) := by
  have hstrip : stripAnsi s = s := by
    rw [stripAnsi, scan_of_not_mem (not_mem_esc h), List.filter_true]
  rw [sanitize_eq, hstrip, List.filter_eq_self.2 h]

theorem visible_iff (c : Char) : visible c = true ↔
    (c.toNat < 0x20 ∨ 0x7f ≤ c.toNat ∧ c.toNat < 0xA0 → c = '\n') := by
  have hdel : c = '\x7f' ↔ c.toNat = 0x7f := Char.toNat_inj.symm
  unfold visible
  split_ifs with hnl hlow hcdel hc1
  · simp [hnl]
  · simp [hlow, hnl]
  · simp [hdel.1 hcdel, hnl]
  · simp only [Bool.and_eq_true, decide_eq_true_eq] at hc1
    simp only [hnl, imp_false, false_iff, not_not]
    exact Or.inr ⟨by omega, hc1.2⟩
  · simp only [Bool.and_eq_true, decide_eq_true_eq] at hc1
    simp only [hnl, imp_false, true_iff]
    rw [hdel] at hcdel
    omega

/-- The sanitised text of the grammar is its plain text without control characters, cut, if every
visible character lost to an OSC sequence that ends in ESC backslash is behind the cap, and the
whole of it only then; exactly if the cut text has lost none.  And any text
sanitised has no control character but newline, is left as it is when it is sanitised again, and by
the renderer. -/
theorem sanitize_plain_iff (items : List Item) (input : List Char) :
    ((∀ front c rest, marked false items = front ++ (c, true) :: rest →
        maxExpressionBytes ≤ utf8Len (front.map Prod.fst)) →
      sanitize (textOf items) =
        some (takeBytes maxExpressionBytes ((plainOf items).filter visible))) ∧
    (sanitize (textOf items) = some ((plainOf items).filter visible) →
      ∀ m ∈ marked false items, m.2 = false) ∧
    (sanitize (textOf items) =
        some (takeBytes maxExpressionBytes ((plainOf items).filter visible)) ↔
      takeBytes maxExpressionBytes ((kept false items).filter visible) =
        takeBytes maxExpressionBytes ((plainOf items).filter visible)) ∧
    ∃ out, sanitize input = some out ∧ utf8Len out ≤ maxExpressionBytes ∧
      (∀ c ∈ out, c.toNat < 0x20 ∨ 0x7f ≤ c.toNat ∧ c.toNat < 0xA0 → c = '\n') ∧
      sanitize out = some out ∧ sanitizeForRender out = out := by
  obtain ⟨hplain, hkept⟩ := map_marked items false
  refine ⟨fun h => ?_, fun h => ?_, ?_, ?_⟩
  · rw [sanitize_text, ← hkept, takeBytes_unmarked _ _ h, hplain]
  · rw [sanitize_text, Option.some_inj, ← hkept, ← hplain] at h
    -- the text left is part of what is kept, so no shorter than what is marked
    have hle := (h ▸ takeBytes_isPart maxExpressionBytes _).length_le
    rw [List.length_map, List.length_map] at hle
    have hall := List.length_filter_eq_length_iff.1 ((List.length_filter_le _ _).antisymm hle)
    exact fun m hm => Bool.not_inj (hall m hm)
  · rw [sanitize_text]
    exact Option.some_inj
  have hvisible : ∀ c ∈ takeBytes maxExpressionBytes ((stripAnsi input).filter visible),
      visible c = true := by
    intro c hc
    exact (List.mem_filter.1 ((takeBytes_isPart _ _).subset hc)).2
  have hcap := utf8Len_takeBytes_le maxExpressionBytes ((stripAnsi input).filter visible)
  refine ⟨_, sanitize_eq input, hcap, ?_, ?_, sanitizeForRender_of_visible hvisible⟩
  · exact fun c hc => (visible_iff c).1 (hvisible c hc)
  · rw [sanitize_of_visible hvisible, takeBytes_of_le hcap]

/-- A window title set with ESC backslash, and a greeting. -/
def titled : List Item :=
  [.osc ['0', ';', 't'] .escBackslash (by decide) (by decide), .plain 'h' (by decide),
    .plain 'i' (by decide)]

/-- The greeting is lost with the title. -/
theorem sanitize_loses_plain :
    sanitize (textOf titled) = some [] ∧
      takeBytes maxExpressionBytes ((plainOf titled).filter visible) = ['h', 'i'] := by
  decide

end EmbraOS.Ports.Express
