import EmbraOS.Verified.Braces
import EmbraOS.Verified.Search
import EmbraOS.Verified.Text

/-!
# The document in a model turn

Port of `extract_json_from_text` and `object_spans` (`embra-brain/src/learning/phases.rs`),
which decide what is sealed.  Fenced blocks are found by their backquotes alone; bare
objects by a walk that knows strings.  Texts are lists of characters, and offsets count
them.

`extract_last_object` says which document is returned.
-/

namespace EmbraOS.Ports.ExtractJson

open Verified.Braces
open Verified.Search
open Verified.Text (isWhitespace)

abbrev Text := List Char

def marker : Text := ['`', '`', '`', 'j', 's', 'o', 'n']

def fence : Text := ['`', '`', '`']

def trimEnds (text : Text) : Text :=
  ((text.dropWhile isWhitespace).reverse.dropWhile isWhitespace).reverse

/-! ## Bare objects -/

/-- The walk of `object_spans`, `i` characters into the text. -/
def spansFrom (s : State) (start i : Nat) : Text → List (Nat × Nat)
  | [] => []
  | c :: cs =>
    -- an opening brace at the top level
    let start := if s.place = .outside ∧ s.depth = 0 ∧ c = '\x7b' then i else start
    let closed := s.depth = 1 ∧ (step s c).depth = 0
    (if closed then [(start, i + 1)] else []) ++ spansFrom (step s c) start (i + 1) cs

def objectSpans (text : Text) : List (Nat × Nat) := spansFrom ⟨.outside, 0⟩ 0 0 text

def slice (text : Text) (span : Nat × Nat) : Text := (text.take span.2).drop span.1

/-! ## The document -/

section Extract

-- `serde_json::from_str`
variable {V : Type} (read : Text → Option V)

/-- A search that has come to a fence: the block, when it parses. -/
def fencedStep (fenced : Option V) (afterMarker : Text) : Option V :=
  match before? fence afterMarker with
  | none => fenced
  | some block => (read (trimEnds block)).or fenced

def fencedDocument (text : Text) : Option V :=
  (afterEach marker 0 text).foldl (fencedStep read) none

def extractJsonFromText (text : Text) : Option V :=
  match fencedDocument read text with
  | some v => some v
  | none => (objectSpans text).reverse.findSome? (fun span => read (slice text span))

end Extract

/-! ## Serialisations -/

/-- What is used of `serde_json`: how the objects are written, and what is read. -/
structure Serializer (V : Type) where
  Object : V → Prop
  write : V → Text
  read : Text → Option V
  read_write : ∀ v, Object v → read (write v) = some v
  /-- An object is written in braces, its strings closed and its braces matched. -/
  nested : ∀ v, Object v → ∃ body, Nested body ∧ write v = '\x7b' :: body ++ ['\x7d']
  /-- No proper part of an object's text reads as the object. -/
  whole : ∀ v, Object v → ∀ t, t <:+: write v → t ≠ write v → read t ≠ some v
  empty : V
  empty_object : Object empty
  write_empty : write empty = ['\x7b', '\x7d']

variable {V : Type} (S : Serializer V)

def Prose (p : Text) : Prop := ∀ c ∈ p, c ≠ '\x7b' ∧ c ≠ '\x7d' ∧ c ≠ '`'

def White (w : Text) : Prop := ∀ c ∈ w, isWhitespace c = true

/-- Prose and fenced blocks. -/
inductive Fenced : Text → Prop where
  | prose {p : Text} (hp : Prose p) : Fenced p
  | block {r w w' p : Text} {v : V} (hr : Fenced r) (hw : White w) (hv : S.Object v)
      (hw' : White w') (hp : Prose p) :
      Fenced (r ++ marker ++ (w ++ S.write v ++ w' ++ fence ++ p))

/-- Prose and fenced blocks, of which the last holds `v`. -/
def LastFenced (v : V) (reply : Text) : Prop :=
  ∃ r w w' p, Fenced S r ∧ White w ∧ White w' ∧ Prose p ∧
    reply = r ++ marker ++ (w ++ S.write v ++ w' ++ fence ++ p)

/-- Prose and bare objects. -/
inductive Bare : Text → Prop where
  | prose {p : Text} (hp : Prose p) : Bare p
  | object {r p : Text} {v : V} (hr : Bare r) (hv : S.Object v) (hp : Prose p) :
      Bare (r ++ S.write v ++ p)

/-- Prose and bare objects, of which the last is `v`. -/
def LastBare (v : V) (reply : Text) : Prop :=
  ∃ r p, Bare S r ∧ Prose p ∧ reply = r ++ S.write v ++ p

/-! ## Trimming -/

variable {w text w' p a reply : Text} {v : V}

theorem dropWhile_white (hw : White w) :
    (w ++ text).dropWhile isWhitespace = text.dropWhile isWhitespace := by
  induction w with
  | nil => rfl
  | cons c w ih =>
    rw [List.cons_append, List.dropWhile_cons_of_pos (hw c List.mem_cons_self)]
    exact ih (fun d hd => hw d (List.mem_cons_of_mem _ hd))

theorem trimEnds_part (text : Text) : trimEnds text <:+: text := by
  have hend := List.dropWhile_suffix isWhitespace (l := (text.dropWhile isWhitespace).reverse)
  have hpre : trimEnds text <+: text.dropWhile isWhitespace := by
    rw [trimEnds, ← List.reverse_suffix, List.reverse_reverse]
    exact hend
  exact hpre.isInfix.trans (List.dropWhile_suffix isWhitespace).isInfix

/-- White space around a text is trimmed, and only that. -/
theorem trimEnds_white (hw : White w) (hw' : White w') {c d : Char} {body : Text}
    (htext : text = c :: body ++ [d]) (hc : isWhitespace c = false) (hd : isWhitespace d = false) :
    trimEnds (w ++ text ++ w') = text := by
  have hw'r : White w'.reverse := fun e he => hw' e (List.mem_reverse.1 he)
  rw [trimEnds, List.append_assoc, dropWhile_white hw, htext, List.cons_append, List.cons_append,
    List.dropWhile_cons_of_neg (by rw [hc]; exact Bool.false_ne_true), List.reverse_cons,
    List.reverse_append, List.append_assoc, dropWhile_white hw'r, List.reverse_append,
    List.reverse_singleton, List.cons_append, List.nil_append, List.cons_append,
    List.dropWhile_cons_of_neg (by rw [hd]; exact Bool.false_ne_true)]
  simp

theorem trimEnds_append_newline (text : Text) : trimEnds (text ++ ['\n']) = trimEnds text := by
  rw [trimEnds, trimEnds, List.dropWhile_append]
  cases h : text.dropWhile isWhitespace with
  | nil =>
    rw [List.isEmpty_nil, if_pos rfl]
    rfl
  | cons c cs =>
    rw [List.isEmpty_cons, if_neg Bool.false_ne_true, List.reverse_append,
      List.reverse_singleton, List.singleton_append, List.dropWhile_cons_of_pos (by decide)]

theorem trimEnds_newline (text : Text) : trimEnds ('\n' :: text) = trimEnds text := by
  rw [trimEnds, List.dropWhile_cons_of_pos (by decide)]
  rfl

/-! ## Fenced blocks -/

theorem borderless_marker : Borderless marker := ⟨by decide, by decide⟩

/-- The first fence behind a text without one, unless the text ends in a backquote. -/
theorem firstAfter_fence {core rest : Text} (hno : ¬ fence <:+: core)
    (hlast : core.getLast? ≠ some '`') : FirstAfter fence core (core ++ fence ++ rest) := by
  intro z r heq
  by_contra hlt
  have hlt : z.length < core.length := Nat.lt_of_not_le hlt
  -- the occurrence starts inside `core`
  have hz : z <+: core := by
    have hpre : z <+: core ++ fence ++ rest := by
      rw [heq, List.append_assoc]
      exact List.prefix_append _ _
    have hcore : core <+: core ++ fence ++ rest := by
      rw [List.append_assoc]
      exact List.prefix_append _ _
    exact List.prefix_of_prefix_length_le hpre hcore (le_of_lt hlt)
  obtain ⟨m, rfl⟩ := hz
  have hm : m ++ fence ++ rest = fence ++ r := by
    simp only [List.append_assoc] at heq
    simpa using heq
  rcases m with _ | ⟨a, _ | ⟨b, _ | ⟨c, m⟩⟩⟩
  · simp at hlt
  · simp only [fence, List.cons_append, List.nil_append, List.cons.injEq] at hm
    simp [hm.1] at hlast
  · simp only [fence, List.cons_append, List.nil_append, List.cons.injEq] at hm
    simp [hm.2.1] at hlast
  · simp only [fence, List.cons_append, List.nil_append, List.cons.injEq] at hm
    apply hno
    exact ⟨z, m, by simp [fence, hm.1, hm.2.1, hm.2.2.1]⟩

theorem no_fence_of_prose (hp : Prose p) : ¬ fence <:+: p := by
  intro hin
  exact (hp '`' (hin.subset (by simp [fence]))).2.2 rfl

theorem no_backquote_of_white (hw : White w) : '`' ∉ w := by
  intro hin
  have h := hw '`' hin
  revert h
  decide

theorem fence_infix_of_append_left {b : Text} (ha : '`' ∉ a) (h : fence <:+: a ++ b) :
    fence <:+: b := by
  induction a with
  | nil => exact h
  | cons c a ih =>
    rw [List.mem_cons, not_or] at ha
    rw [List.cons_append, List.infix_cons_iff] at h
    rcases h with hpre | hin
    · exact absurd (List.prefix_cons_iff.1 hpre) (by simp [fence, ha.1])
    · exact ih ha.2 hin

theorem fence_infix_of_append_right {b : Text} (hb : '`' ∉ b) (h : fence <:+: a ++ b) :
    fence <:+: a := by
  have hrev : fence <:+: b.reverse ++ a.reverse := by
    have h' := List.reverse_infix.2 h
    rwa [List.reverse_append] at h'
  have ha := fence_infix_of_append_left (fun hin => hb (List.mem_reverse.1 hin)) hrev
  have ha' := List.reverse_infix.2 ha
  rwa [List.reverse_reverse] at ha'

variable {S}

/-- The text of a block has no fence when that of its object has none. -/
theorem block_no_fence (hv : S.Object v) (hw : White w) (hw' : White w')
    (hclean : ¬ fence <:+: S.write v) :
    ¬ fence <:+: w ++ S.write v ++ w' ∧ (w ++ S.write v ++ w').getLast? ≠ some '`' := by
  constructor
  · intro h
    apply hclean
    apply fence_infix_of_append_left (no_backquote_of_white hw)
    exact fence_infix_of_append_right (no_backquote_of_white hw') h
  · rcases List.eq_nil_or_concat w' with rfl | ⟨w₀, c, rfl⟩
    · obtain ⟨body, -, hwrite⟩ := S.nested v hv
      rw [List.append_nil, hwrite, ← List.append_assoc, List.getLast?_concat]
      decide
    · rw [List.concat_eq_append, ← List.append_assoc, List.getLast?_concat]
      intro heq
      apply no_backquote_of_white hw'
      rw [← Option.some.inj heq]
      simp

/-- A block whose object has no fence in its text is read as the object. -/
theorem fencedStep_block (hv : S.Object v) (hw : White w)
    (hw' : White w') (hclean : ¬ fence <:+: S.write v) (fenced : Option V) :
    fencedStep S.read fenced (w ++ S.write v ++ w' ++ fence ++ p) = some v := by
  obtain ⟨hno, hlast⟩ := block_no_fence hv hw hw' hclean
  obtain ⟨body, -, hwrite⟩ := S.nested v hv
  rw [fencedStep, before?_append (firstAfter_fence hno hlast)]
  dsimp only
  rw [trimEnds_white hw hw' hwrite (by decide) (by decide), S.read_write v hv, Option.some_or]

/-- No fence behind the last block: what follows it adds nothing. -/
theorem foldl_after_block (hv : S.Object v) (hw : White w)
    (hw' : White w') (hp : Prose p) (hclean : ¬ fence <:+: S.write v) (fenced : Option V) :
    (afterEach marker 0 (w ++ S.write v ++ w' ++ fence ++ p)).foldl (fencedStep S.read) fenced =
      fenced := by
  obtain ⟨hno, hlast⟩ := block_no_fence hv hw hw' hclean
  have hquiet : ∀ a ∈ afterEach marker 0 (w ++ S.write v ++ w' ++ fence ++ p), ∀ fenced,
      fencedStep S.read fenced a = fenced := by
    intro a ha fenced
    obtain ⟨z, hz⟩ := mem_afterEach ha
    have hocc : w ++ S.write v ++ w' ++ fence ++ p = z ++ fence ++ (['j', 's', 'o', 'n'] ++ a) := by
      rw [hz]
      simp [marker, fence]
    have hlen := firstAfter_fence hno hlast z _ hocc
    -- `a` is an end of the prose
    have hsuffix : a <:+ p := by
      have ha' : a <:+ w ++ S.write v ++ w' ++ fence ++ p := by
        rw [hz]
        exact List.suffix_append _ _
      apply List.suffix_of_suffix_length_le ha' (List.suffix_append _ _)
      have htotal := congrArg List.length hz
      simp only [List.length_append, marker, fence, List.length_cons, List.length_nil]
        at htotal hlen
      omega
    rw [fencedStep, before?_eq_none]
    exact fun hin => no_fence_of_prose hp (hin.trans hsuffix.isInfix)
  generalize afterEach marker 0 (w ++ S.write v ++ w' ++ fence ++ p) = rests at hquiet
  induction rests generalizing fenced with
  | nil => rfl
  | cons a rests ih =>
    rw [List.foldl_cons, hquiet a List.mem_cons_self]
    exact ih fenced (fun b hb => hquiet b (List.mem_cons_of_mem _ hb))

/-- The last block is returned, whatever blocks stand before it. -/
theorem extract_of_clean (hv : S.Object v) (hclean : ¬ fence <:+: S.write v)
    (h : LastFenced S v reply) : extractJsonFromText S.read reply = some v := by
  obtain ⟨r, w, w', p, -, hw, hw', hp, rfl⟩ := h
  obtain ⟨found, hfound⟩ := afterEach_append borderless_marker r
    (w ++ S.write v ++ w' ++ fence ++ p)
  have hfenced : fencedDocument S.read (r ++ marker ++ (w ++ S.write v ++ w' ++ fence ++ p)) =
      some v := by
    rw [fencedDocument, hfound, List.foldl_append, List.foldl_cons,
      fencedStep_block hv hw hw' hclean, foldl_after_block hv hw hw' hp hclean]
  rw [extractJsonFromText, hfenced]

/-! ## Bare objects -/

/-- At depth 1 or more no object is closed. -/
theorem spansFrom_walks {s s' : State} (h : Walks 1 s text s') (start i : Nat) (rest : Text) :
    spansFrom s start i (text ++ rest) = spansFrom s' start (i + text.length) rest := by
  induction text generalizing s i with
  | nil =>
    obtain rfl := h.ends
    rfl
  | cons c cs ih =>
    have hdepth : 1 ≤ s.depth := h.above [] (List.nil_prefix)
    have hstep : 1 ≤ (step s c).depth := h.above [c] ⟨cs, rfl⟩
    have hcs : Walks 1 (step s c) cs s' :=
      ⟨fun p hp => h.above (c :: p) (List.cons_prefix_cons.2 ⟨rfl, hp⟩), h.ends⟩
    have hclosed : ¬ (s.depth = 1 ∧ (step s c).depth = 0) := by omega
    have htop : ¬ (s.place = .outside ∧ s.depth = 0 ∧ c = '\x7b') := by omega
    have hlen : i + 1 + cs.length = i + (c :: cs).length := by
      rw [List.length_cons]
      omega
    rw [List.cons_append, spansFrom, if_neg hclosed, if_neg htop, List.nil_append, ih hcs, hlen]

theorem spansFrom_prose (hp : Prose p) (start i : Nat) (rest : Text) :
    spansFrom ⟨.outside, 0⟩ start i (p ++ rest) =
      spansFrom ⟨.outside, 0⟩ start (i + p.length) rest := by
  induction p generalizing i with
  | nil => rfl
  | cons c p ih =>
    obtain ⟨hopen, hclose, -⟩ := hp c List.mem_cons_self
    have hstep : step ⟨.outside, 0⟩ c = ⟨.outside, 0⟩ := by simp [step, hopen]
    have hclosed : ¬ ((⟨.outside, 0⟩ : State).depth = 1 ∧
        (step ⟨.outside, 0⟩ c).depth = 0) := by simp
    have htop : ¬ ((⟨.outside, 0⟩ : State).place = .outside ∧ (⟨.outside, 0⟩ : State).depth = 0 ∧
        c = '\x7b') := fun h => hopen h.2.2
    have hlen : i + 1 + p.length = i + (c :: p).length := by
      rw [List.length_cons]
      omega
    rw [List.cons_append, spansFrom, if_neg hclosed, if_neg htop, List.nil_append, hstep,
      ih (fun d hd => hp d (List.mem_cons_of_mem _ hd)), hlen]

/-- An object in braces is one span. -/
theorem spansFrom_object {body : Text} (hbody : Nested body) (start i : Nat) (rest : Text) :
    spansFrom ⟨.outside, 0⟩ start i ('\x7b' :: body ++ ['\x7d'] ++ rest) =
      (i, i + (body.length + 2)) ::
        spansFrom ⟨.outside, 0⟩ i (i + (body.length + 2)) rest := by
  have hopen : ∀ tail, spansFrom ⟨.outside, 0⟩ start i ('\x7b' :: tail) =
      spansFrom ⟨.outside, 1⟩ i (i + 1) tail := by
    intro tail
    rw [spansFrom]
    simp [step]
  have hclose : ∀ j, spansFrom ⟨.outside, 1⟩ i j ('\x7d' :: rest) =
      (i, j + 1) :: spansFrom ⟨.outside, 0⟩ i (j + 1) rest := by
    intro j
    rw [spansFrom]
    simp [step]
  rw [List.cons_append, List.cons_append, hopen, List.append_assoc,
    spansFrom_walks (walks_nested hbody 0), List.singleton_append, hclose]
  have hlen : i + 1 + body.length + 1 = i + (body.length + 2) := by omega
  rw [hlen]

/-- The objects of a reply, with the place where each starts. -/
theorem spansFrom_bare (h : Bare S reply) :
    ∀ start i rest, ∃ spans start', spansFrom ⟨.outside, 0⟩ start i (reply ++ rest) =
      spans ++ spansFrom ⟨.outside, 0⟩ start' (i + reply.length) rest := by
  induction h with
  | prose hp => exact fun start i rest => ⟨[], start, spansFrom_prose hp start i rest⟩
  | @object r p v _ hv hp ih =>
    intro start i rest
    obtain ⟨body, hbody, hwrite⟩ := S.nested v hv
    obtain ⟨spans, start', hspans⟩ := ih start i (S.write v ++ (p ++ rest))
    refine ⟨spans ++ [(i + r.length, i + r.length + (body.length + 2))], i + r.length, ?_⟩
    have hlen : i + r.length + (body.length + 2) + p.length =
        i + (r ++ S.write v ++ p).length := by
      simp only [hwrite, List.length_append, List.length_cons, List.length_nil]
      omega
    rw [← hlen, List.append_assoc, List.append_assoc, hspans, hwrite, spansFrom_object hbody,
      spansFrom_prose hp, List.append_assoc, List.singleton_append]

/-- Without a fence the last bare object is returned, whole. -/
theorem extract_of_bare (hv : S.Object v) (h : LastBare S v reply)
    (hmarker : ¬ marker <:+: reply) : extractJsonFromText S.read reply = some v := by
  have hnone : fencedDocument S.read reply = none := by
    rw [fencedDocument, afterEach_eq_nil hmarker]
    rfl
  obtain ⟨r, p, hr, hp, rfl⟩ := h
  obtain ⟨body, hbody, hwrite⟩ := S.nested v hv
  obtain ⟨spans, start', hspans⟩ := spansFrom_bare hr 0 0 (S.write v ++ p)
  have hlast : objectSpans (r ++ S.write v ++ p) =
      spans ++ [(r.length, r.length + (S.write v).length)] := by
    have hp' := spansFrom_prose hp (0 + r.length) (0 + r.length + (body.length + 2)) []
    rw [List.append_nil] at hp'
    have hlen : body.length + 2 = (S.write v).length := by simp [hwrite]
    rw [objectSpans, List.append_assoc, hspans, hwrite, spansFrom_object hbody, hp', ← hwrite,
      hlen, Nat.zero_add]
    rfl
  have hslice : slice (r ++ S.write v ++ p) (r.length, r.length + (S.write v).length) =
      S.write v := by
    rw [slice, ← List.length_append, List.take_left, List.drop_left]
  rw [extractJsonFromText, hnone]
  rw [hlast, List.reverse_append, List.reverse_singleton, List.singleton_append,
    List.findSome?_cons, hslice, S.read_write v hv]

/-! ## A fence inside a string -/

/-- A part of a text, shorter than it, does not read as the object. -/
theorem read_part_ne (hv : S.Object v) {part : Text} (hin : part <:+: S.write v)
    (hlen : part.length < (S.write v).length) : S.read (trimEnds part) ≠ some v := by
  apply S.whole v hv _ ((trimEnds_part part).trans hin)
  intro heq
  have hle := (trimEnds_part part).length_le
  rw [heq] at hle
  omega

/-- The block of an object with a fence in its text, as the loop sees it. -/
theorem candidate_ne (hv : S.Object v) {s₁ s₂ : Text}
    (hwrite : S.write v = s₁ ++ fence ++ s₂) {block : Text}
    (h : before? fence ('\n' :: S.write v ++ ['\n'] ++ fence) = some block) :
    S.read (trimEnds block) ≠ some v := by
  obtain ⟨⟨r, hr⟩, hfirst⟩ := before?_spec h
  have hlen := hfirst ('\n' :: s₁) (s₂ ++ ['\n'] ++ fence) (by simp [hwrite])
  have hpre : block <+: '\n' :: s₁ := by
    have hblock : block <+: '\n' :: S.write v ++ ['\n'] ++ fence := by
      rw [hr, List.append_assoc]
      exact List.prefix_append _ _
    have hs₁ : '\n' :: s₁ <+: '\n' :: S.write v ++ ['\n'] ++ fence := by
      rw [hwrite]
      exact ⟨fence ++ s₂ ++ ['\n'] ++ fence, by simp⟩
    exact List.prefix_of_prefix_length_le hblock hs₁ hlen
  have hs₁ : s₁ <:+: S.write v := ⟨[], fence ++ s₂, by simp [hwrite]⟩
  have hs₁len : s₁.length < (S.write v).length := by
    simp only [hwrite, List.length_append, fence, List.length_cons]
    omega
  rcases List.prefix_cons_iff.1 hpre with rfl | ⟨block', rfl, hblock'⟩
  · exact read_part_ne hv List.nil_infix (lt_of_le_of_lt (Nat.zero_le _) hs₁len)
  · rw [trimEnds_newline]
    exact read_part_ne hv (hblock'.isInfix.trans hs₁) (lt_of_le_of_lt hblock'.length_le hs₁len)

/-- A fence marker inside the text of the object. -/
theorem inner_candidate_ne (hv : S.Object v) {z block : Text}
    (hz : '\n' :: S.write v ++ ['\n'] ++ fence = z ++ marker ++ a)
    (h : before? fence a = some block) : S.read (trimEnds block) ≠ some v := by
  obtain ⟨⟨r, hr⟩, -⟩ := before?_spec h
  cases z with
  | nil => simp [marker] at hz
  | cons c z =>
    -- the marker and the block end before the closing fence
    have heq : (S.write v ++ ['\n']) ++ fence = (z ++ marker ++ block) ++ (fence ++ r) := by
      have htail := (List.cons.inj (by simpa using hz)).2
      rw [hr] at htail
      simpa using htail
    have hpre : z ++ marker ++ block <+: S.write v ++ ['\n'] := by
      have hleft : z ++ marker ++ block <+: S.write v ++ ['\n'] ++ fence := by
        rw [heq]
        exact List.prefix_append _ _
      apply List.prefix_of_prefix_length_le hleft (List.prefix_append _ _)
      have hlen := congrArg List.length heq
      simp only [List.length_append] at hlen ⊢
      omega
    have hmarker : marker.length = 7 := rfl
    rcases List.prefix_concat_iff.1 hpre with hall | hinside
    · -- the block runs up to the line break in front of the closing fence
      rcases List.eq_nil_or_concat block with rfl | ⟨part, last, rfl⟩
      · have hend := congrArg List.getLast? hall
        rw [List.append_nil, List.getLast?_concat] at hend
        simp [marker] at hend
      · rw [List.concat_eq_append, ← List.append_assoc, List.append_singleton_inj] at hall
        obtain ⟨hall, rfl⟩ := hall
        rw [List.concat_eq_append, trimEnds_append_newline]
        apply read_part_ne hv
        · rw [← hall]
          exact (List.suffix_append _ _).isInfix
        · rw [← hall]
          simp only [List.length_append]
          omega
    · apply read_part_ne hv
      · exact List.IsInfix.trans (List.suffix_append _ _).isInfix hinside.isInfix
      · have hle := hinside.length_le
        simp only [List.length_append] at hle
        omega

theorem foldl_fencedStep_ne {rests : List Text}
    (h : ∀ a ∈ rests, ∀ block, before? fence a = some block → S.read (trimEnds block) ≠ some v) :
    ∀ u ≠ v, ∃ u' ≠ v, rests.foldl (fencedStep S.read) (some u) = some u' := by
  induction rests with
  | nil => exact fun u hu => ⟨u, hu, rfl⟩
  | cons a rests ih =>
    intro u hu
    have hrests := ih (fun b hb => h b (List.mem_cons_of_mem _ hb))
    rw [List.foldl_cons, fencedStep]
    cases hblock : before? fence a with
    | none => exact hrests u hu
    | some block =>
      dsimp only
      cases hread : S.read (trimEnds block) with
      | none => exact hrests u hu
      | some u' =>
        apply hrests u'
        rintro rfl
        exact h a List.mem_cons_self block hblock hread

/-- A draft without a fence in it, then a block. -/
def draftThen (S : Serializer V) (v : V) : Text :=
  [] ++ marker ++ (['\n'] ++ S.write S.empty ++ ['\n'] ++ fence ++ ['\n']) ++ marker ++
    (['\n'] ++ S.write v ++ ['\n'] ++ fence ++ [])

theorem white_newline : White ['\n'] := by
  intro c hc
  rw [List.mem_singleton.1 hc]
  decide

theorem prose_newline : Prose ['\n'] := by
  intro c hc
  rw [List.mem_singleton.1 hc]
  decide

theorem lastFenced_draftThen (v : V) : LastFenced S v (draftThen S v) := by
  refine ⟨_, _, _, _, ?_, white_newline, white_newline, ?_, rfl⟩
  · exact Fenced.block (Fenced.prose (by simp [Prose])) white_newline S.empty_object white_newline
      prose_newline
  · simp [Prose]

theorem afterEach_draftThen (v : V) :
    afterEach marker 0 (draftThen S v) =
      (['\n'] ++ S.write S.empty ++ ['\n'] ++ fence ++ (['\n'] ++ marker ++
          ('\n' :: S.write v ++ ['\n'] ++ fence))) ::
        ('\n' :: S.write v ++ ['\n'] ++ fence) ::
          afterEach marker 0 ('\n' :: S.write v ++ ['\n'] ++ fence) := by
  rw [draftThen, S.write_empty]
  simp [afterEach, marker, fence, List.isPrefixOf]

/-- With a fence in its text, the last block is passed over for a draft. -/
theorem extract_draftThen_ne (hv : S.Object v) (hfence : fence <:+: S.write v) :
    extractJsonFromText S.read (draftThen S v) ≠ some v := by
  obtain ⟨s₁, s₂, hwrite⟩ := hfence
  have hempty : ¬ fence <:+: S.write S.empty := by
    rw [S.write_empty]
    decide
  have hne : S.empty ≠ v := by
    rintro rfl
    exact hempty ⟨s₁, s₂, hwrite⟩
  have hcandidates : ∀ a ∈ ('\n' :: S.write v ++ ['\n'] ++ fence) ::
      afterEach marker 0 ('\n' :: S.write v ++ ['\n'] ++ fence),
      ∀ block, before? fence a = some block → S.read (trimEnds block) ≠ some v := by
    intro a ha block hblock
    rcases List.mem_cons.1 ha with rfl | ha
    · exact candidate_ne hv hwrite.symm hblock
    · obtain ⟨z, hz⟩ := mem_afterEach ha
      exact inner_candidate_ne hv hz hblock
  obtain ⟨u, hu, hfold⟩ := foldl_fencedStep_ne hcandidates S.empty hne
  have hfenced : fencedDocument S.read (draftThen S v) = some u := by
    rw [fencedDocument, afterEach_draftThen, List.foldl_cons,
      fencedStep_block S.empty_object white_newline white_newline hempty]
    exact hfold
  rw [extractJsonFromText, hfenced]
  exact fun h => hu (Option.some.inj h)

/-- **Which document a reply gives.**  The object of the last fenced block, for every
reply that ends in that block, exactly when no three backquotes stand in its text; and
without a fence, the last bare object. -/
theorem extract_last_object (S : Serializer V) :
    (∀ v, S.Object v →
        ((∀ reply, LastFenced S v reply → extractJsonFromText S.read reply = some v) ↔
          ¬ fence <:+: S.write v)) ∧
      ∀ v, S.Object v → ∀ reply, LastBare S v reply → ¬ marker <:+: reply →
        extractJsonFromText S.read reply = some v := by
  refine ⟨fun v hv => ⟨?_, ?_⟩, fun v hv reply h hmarker => extract_of_bare hv h hmarker⟩
  · intro h hfence
    exact extract_draftThen_ne hv hfence (h _ (lastFenced_draftThen v))
  · exact fun hclean reply h => extract_of_clean hv hclean h

/-! ## A reader of four documents -/

inductive Demo where
  | empty
  | draft
  /-- A document with backquotes in a string. -/
  | quoted
  /-- A document with a fenced block in a string. -/
  | quotedBlock
  deriving DecidableEq, Repr

def demoBody : Demo → Text
  | .empty => []
  | .draft => ['"', 'a', '"', ':', '1']
  | .quoted => ['"', 'a', '"', ':', '"', '`', '`', '`', '"']
  | .quotedBlock =>
    ['"', 'a', '"', ':', '"', '`', '`', '`', 'j', 's', 'o', 'n', '\x7b', '\x7d', '`', '`', '`', '"']

def demoText (v : Demo) : Text := '\x7b' :: demoBody v ++ ['\x7d']

def demoRead (t : Text) : Option Demo :=
  [Demo.empty, .draft, .quoted, .quotedBlock].find? (fun v => demoText v = t)

theorem nested_demoBody (v : Demo) : Nested (demoBody v) := by
  have hkey : ∀ {rest}, Nested rest → Nested ('"' :: 'a' :: '"' :: ':' :: rest) := by
    intro rest h
    have ha : StringBody ['a'] := .plain (by decide) (by decide) .nil
    exact Nested.string ha (.plain (by decide) (by decide) (by decide) h)
  have hbody : ∀ body : Text, '"' ∉ body → '\\' ∉ body → StringBody body := by
    intro body hquote hslash
    induction body with
    | nil => exact .nil
    | cons c cs ih =>
      rw [List.mem_cons, not_or] at hquote hslash
      exact .plain (Ne.symm hquote.1) (Ne.symm hslash.1) (ih hquote.2 hslash.2)
  cases v with
  | empty => exact .nil
  | draft => exact hkey (.plain (by decide) (by decide) (by decide) .nil)
  | quoted => exact hkey (Nested.string (hbody ['`', '`', '`'] (by decide) (by decide)) .nil)
  | quotedBlock =>
    exact hkey (Nested.string (hbody
      ['`', '`', '`', 'j', 's', 'o', 'n', '\x7b', '\x7d', '`', '`', '`'] (by decide) (by decide))
      .nil)

def demo : Serializer Demo where
  Object _ := True
  write := demoText
  read := demoRead
  read_write v _ := by
    cases v with
    | empty | draft | quoted | quotedBlock => decide
  nested v _ := ⟨demoBody v, nested_demoBody v, rfl⟩
  whole v _ t _ hne h := by
    have hfound := List.find?_some h
    exact hne (by simpa using (of_decide_eq_true hfound).symm)
  empty := .empty
  empty_object := trivial
  write_empty := rfl

/-- The draft behind another block, and behind an object with backquotes. -/
theorem extract_last_object_draft :
    extractJsonFromText demo.read (draftThen demo .draft) = some .draft ∧
      extractJsonFromText demo.read ([] ++ demoText .quoted ++ ['\n'] ++ demoText .draft ++ []) =
        some .draft := by
  obtain ⟨hfenced, hbare⟩ := extract_last_object demo
  have hnil : Prose [] := by simp [Prose]
  refine ⟨(hfenced .draft trivial).2 (by decide) _ (lastFenced_draftThen _), ?_⟩
  exact hbare .draft trivial _
    ⟨_, [], Bare.object (v := Demo.quoted) (Bare.prose hnil) trivial prose_newline, hnil, rfl⟩
    (by decide)

def demoBlock (v : Demo) : Text := marker ++ (['\n'] ++ demoText v ++ ['\n'] ++ fence ++ ['\n'])

/-- A draft is returned for the document that follows it, and a part of a string for the
document that holds it. -/
theorem extract_fence_in_string :
    (LastFenced demo .quoted (demoBlock .draft ++ demoBlock .quoted) ∧
        extractJsonFromText demo.read (demoBlock .draft ++ demoBlock .quoted) = some .draft) ∧
      LastFenced demo .quotedBlock (demoBlock .quotedBlock) ∧
        extractJsonFromText demo.read (demoBlock .quotedBlock) = some .empty := by
  have hnil : Prose [] := by simp [Prose]
  refine ⟨⟨?_, by decide⟩, ?_, by decide⟩
  · refine ⟨demoBlock .draft, ['\n'], ['\n'], ['\n'], ?_, white_newline, white_newline,
      prose_newline, rfl⟩
    exact Fenced.block (v := Demo.draft) (Fenced.prose hnil) white_newline trivial white_newline
      prose_newline
  · exact ⟨[], ['\n'], ['\n'], ['\n'], Fenced.prose hnil, white_newline, white_newline,
      prose_newline, rfl⟩

end EmbraOS.Ports.ExtractJson
