import EmbraOS.Verified.Slice
import EmbraOS.Verified.Text
import EmbraOS.Verified.Utf8

/-!
# The HTML reducer of the guest tools

Port of `embra-guardian/src/guest/html_text.rs`.  A page is its bytes, and the loops of the source
move a cursor over them: past a tag, past the body of a `script` or `style` element, past an entity,
past a character.  Every slice is partial (`sliceFrom?`, `strSlice?`), and a loop has a bound on its
turns; a result says that no slice was refused and that the bound was enough.

`toText_normalised`: for every page the reducer returns, and what it returns is normalised.  Each
helper that moves the cursor moves it on (`tagEnd_spec`, `skipElement_spec`, `decodeEntity_spec`)
and leaves it between two characters, since it stands behind a byte that is one (`Place.behind`).
-/

namespace EmbraOS.Ports.HtmlText

open Verified
open Verified.Slice (sliceFrom? sliceFrom?_eq)
open Verified.Text (isWhitespace)
open Verified.Utf8 (encode fromUtf8? isBoundary strSlice? strSlice?_eq)

def bytes (s : String) : List UInt8 := encode s.toList

/-! ## Searching -/

def memchr (h : List UInt8) (needle : UInt8) (start : Nat) : Option Nat :=
  ((h.drop start).findIdx? (· == needle)).map (start + ·)

def findSub (h needle : List UInt8) (start : Nat) : Option Nat :=
  if needle = [] ∨ h.length < start + needle.length then none
  else
    (List.range' start (h.length - needle.length + 1 - start)).find?
      (fun i => (h.drop i).take needle.length == needle)

/-! ## Tags -/

/-- The loop of `tag_end`, with a bound on its turns. -/
def tagLoop (b : List UInt8) (start : Nat) : Nat → Nat → Option Nat
  | turns, i =>
    match b[i]? with
    | none => some b.length
    | some c =>
      match turns with
      | 0 => none
      | turns + 1 =>
        if c = 0x3E then some (i + 1)
        else if c = 0x22 ∨ c = 0x27 then
          match memchr b c (i + 1) with
          | some close => tagLoop b start turns (close + 1)
          | none =>
            -- an unbalanced quote: the plain rule from the opening
            match memchr b 0x3E (start + 1) with
            | some k => some (k + 1)
            | none => some b.length
        else tagLoop b start turns (i + 1)

def tagEnd (b : List UInt8) (start : Nat) : Option Nat := do
  let rest ← sliceFrom? b start
  if (bytes "<!--").isPrefixOf rest then
    match findSub b (bytes "-->") (start + 4) with
    | some p => pure (p + 3)
    | none => pure b.length
  else tagLoop b start b.length (start + 1)

def isAsciiWhitespace (c : UInt8) : Bool :=
  c == 0x20 || c == 0x09 || c == 0x0A || c == 0x0C || c == 0x0D

/-- The outer result is whether the slices are in range. -/
def skipElement (lb : List UInt8) (start : Nat) (name : String) : Option (Option Nat) :=
  let after := start + 1
  let len := (bytes name).length
  if lb.length < after + len ∨ (lb.drop after).take len ≠ bytes name then some none
  else
    match lb[after + len]? with
    | none => some none
    | some c =>
      if c = 0x3E ∨ c = 0x2F ∨ isAsciiWhitespace c then do
        let openEnd ← tagEnd lb start
        if lb.length ≤ openEnd then pure (some lb.length)
        else
          match findSub lb (bytes "</" ++ bytes name) openEnd with
          | some p => do
            let stop ← tagEnd lb p
            pure (some stop)
          | none => pure (some lb.length)
      else some none

/-! ## Writing -/

/-- A single space, never a second one and never the first character. -/
def pushSpace (out : List Char) : List Char :=
  if out ≠ [] ∧ out.getLast? ≠ some ' ' then out ++ [' '] else out

def pushCollapsible (out : List Char) (ch : Char) : List Char :=
  if isWhitespace ch then pushSpace out else out ++ [ch]

/-! ## Entities -/

def entities : List (String × Char) :=
  [("&amp;", '&'), ("&lt;", '<'), ("&gt;", '>'), ("&quot;", '"'), ("&apos;", '\''),
    ("&#39;", '\''), ("&nbsp;", ' ')]

def digitValue (radix : Nat) (b : UInt8) : Option Nat :=
  let n := b.toNat
  let v :=
    if 0x30 ≤ n ∧ n ≤ 0x39 then n - 0x30
    else if 0x61 ≤ n ∧ n ≤ 0x7A then n - 0x61 + 10
    else if 0x41 ≤ n ∧ n ≤ 0x5A then n - 0x41 + 10
    else radix
  if v < radix then some v else none

def digitsFrom (radix : Nat) : Nat → List UInt8 → Option Nat
  | acc, [] => some acc
  | acc, b :: bs => do
    let v ← digitValue radix b
    let next := acc * radix + v
    if next < 2 ^ 32 then digitsFrom radix next bs else none

/-- `u32::from_str_radix`; a plus sign in front of a digit is accepted. -/
def fromStrRadix (digits : List UInt8) (radix : Nat) : Option Nat :=
  match digits with
  | [] => none
  | b :: bs => if b = 0x2B ∧ bs ≠ [] then digitsFrom radix 0 bs else digitsFrom radix 0 (b :: bs)

/-- `char::from_u32`. -/
def fromU32 (code : Nat) : Option Char :=
  if code.isValidChar then some (Char.ofNat code) else none

/-- The bytes an entity spans and the text with it, the outer result being whether the slices are
in range. -/
def decodeEntity (s : List UInt8) (out : List Char) : Option (Option (Nat × List Char)) :=
  match entities.find? (fun e => (bytes e.1).isPrefixOf s) with
  | some (name, ch) => some (some ((bytes name).length, pushCollapsible out ch))
  | none =>
    if (bytes "&#").isPrefixOf s then
      let body := s.drop 2
      match body.findIdx? (· == 0x3B) with
      | none => some none
      | some semi =>
        if semi = 0 ∨ 8 < semi then some none
        else do
          let (digits, radix) ←
            if body.head? = some 0x78 ∨ body.head? = some 0x58 then do
              let digits ← strSlice? (body.drop 1) 0 (semi - 1)
              pure (digits, 16)
            else do
              let digits ← strSlice? body 0 semi
              pure (digits, 10)
          match (fromStrRadix digits radix).bind fromU32 with
          | none => pure none
          | some ch => pure (some (2 + semi + 1, pushCollapsible out ch))
    else some none

/-! ## The page -/

def lower (b : UInt8) : UInt8 := if 0x41 ≤ b ∧ b ≤ 0x5A then b + 0x20 else b

def utf8Len (first : UInt8) : Nat :=
  if first < 0x80 then 1 else if first < 0xE0 then 2 else if first < 0xF0 then 3 else 4

/-- One turn at the byte `c`: where the cursor goes, and the text. -/
def step (b : List UInt8) (i : Nat) (c : UInt8) (out : List Char) : Option (Nat × List Char) :=
  if c = 0x3C then do
    let lb := b.map lower
    let script ← skipElement lb i "script"
    let skipped ← if script.isSome then pure script else skipElement lb i "style"
    match skipped with
    | some j => pure (j, pushSpace out)
    | none => do
      let stop ← tagEnd b i
      pure (stop, pushSpace out)
  else do
    let decoded ←
      if c = 0x26 then do
        let rest ← strSlice? b i b.length
        decodeEntity rest out
      else pure none
    match decoded with
    | some (used, out) => pure (i + used, out)
    | none => do
      let stop := min (i + utf8Len c) b.length
      let piece ← strSlice? b i stop
      let chars ← fromUtf8? piece
      match chars.head? with
      | some ch => pure (stop, if isWhitespace ch then pushSpace out else out ++ [ch])
      | none => pure (stop, out)

/-- The loop of `to_text`, with a bound on its turns. -/
def loop (b : List UInt8) : Nat → Nat → List Char → Option (List Char)
  | turns, i, out =>
    match b[i]? with
    | none => some out
    | some c =>
      match turns with
      | 0 => none
      | turns + 1 => do
        let (next, out) ← step b i c out
        loop b turns next out

def toText (b : List UInt8) : Option (List Char) := do
  let out ← loop b b.length 0 []
  pure (out.rdropWhile (· == ' '))

/-! ## What is written -/

/-- Whitespace is single spaces between other characters. -/
structure Normalised (out : List Char) : Prop where
  space : ∀ c ∈ out, isWhitespace c = true → c = ' '
  first : ∀ c, out.head? = some c → isWhitespace c = false
  last : ∀ c, out.getLast? = some c → isWhitespace c = false
  single : ¬ [' ', ' '] <:+: out

/-- As long as the page is read, a space may stand at the end. -/
structure Running (out : List Char) : Prop where
  space : ∀ c ∈ out, isWhitespace c = true → c = ' '
  first : ∀ c, out.head? = some c → isWhitespace c = false
  single : ¬ [' ', ' '] <:+: out

theorem running_nil : Running [] := ⟨by simp, by simp, by simp⟩

variable {out html : List Char} {c : Char} {start i : Nat} {b : UInt8} {bs : List UInt8}

theorem not_twoSpaces_snoc (h : ¬ [' ', ' '] <:+: out)
    (hc : c ≠ ' ' ∨ out.getLast? ≠ some ' ') : ¬ [' ', ' '] <:+: out ++ [c] := by
  rw [List.infix_concat_iff]
  rintro (hsuffix | hin)
  · obtain ⟨pre, hpre⟩ := hsuffix
    have hsplit : (pre ++ [' ']) ++ [' '] = out ++ [c] := by rw [← hpre]; simp
    obtain ⟨hout, hlast⟩ := List.append_inj' hsplit rfl
    rcases hc with hc | hc
    · exact hc (List.cons.inj hlast).1.symm
    · apply hc
      rw [← hout, List.getLast?_concat]
  · exact h hin

theorem Running.snoc (h : Running out)
    (hspace : isWhitespace c = true → c = ' ') (hfirst : out = [] → isWhitespace c = false)
    (hc : c ≠ ' ' ∨ out.getLast? ≠ some ' ') : Running (out ++ [c]) where
  space := by
    intro d hd
    rcases List.mem_append.1 hd with hd | hd
    · exact h.space d hd
    · rwa [List.mem_singleton.1 hd]
  first := by
    intro d hd
    cases out with
    | nil =>
      obtain rfl := Option.some.inj hd
      exact hfirst rfl
    | cons x out => exact h.first d hd
  single := not_twoSpaces_snoc h.single hc

theorem Running.pushSpace (h : Running out) : Running (pushSpace out) := by
  rw [HtmlText.pushSpace]
  split
  · rename_i hout
    exact h.snoc (fun _ => rfl) (fun hnil => absurd hnil hout.1) (Or.inr hout.2)
  · exact h

theorem Running.pushCollapsible (h : Running out) (ch : Char) :
    Running (pushCollapsible out ch) := by
  rw [HtmlText.pushCollapsible]
  split
  · exact h.pushSpace
  · rename_i hch
    refine h.snoc (fun hyes => absurd hyes hch) (fun _ => Bool.eq_false_iff.2 hch) (Or.inl ?_)
    rintro rfl
    exact hch rfl

theorem Running.normalised (h : Running out) :
    Normalised (out.rdropWhile (· == ' ')) := by
  have hpre := List.rdropWhile_prefix (p := (· == ' ')) out
  refine ⟨fun c hc => h.space c (hpre.subset hc), ?_, ?_,
    fun hin => h.single (hin.trans hpre.isInfix)⟩
  · intro c hc
    obtain ⟨rest, hrest⟩ := hpre
    apply h.first c
    rw [← hrest, List.head?_append, hc]
    rfl
  · intro c hc
    have hmem := List.mem_of_getLast? hc
    have hne : c ≠ ' ' := by
      intro heq
      have hkept := List.rdropWhile_last_not (p := (· == ' ')) out (List.ne_nil_of_mem hmem)
      rw [List.getLast_of_getLast?_eq_some hc, heq] at hkept
      exact hkept rfl
    rw [Bool.eq_false_iff]
    exact fun hyes => hne (h.space c (hpre.subset hmem) hyes)

/-! ## Where the cursor goes -/

/-- Behind the end of a tag, or at the end of the page. -/
def TagStop (b : List UInt8) (e : Nat) : Prop :=
  e = b.length ∨ ∃ k, e = k + 1 ∧ b[k]? = some 0x3E

theorem memchr_spec {h : List UInt8} {needle : UInt8} {k : Nat}
    (hfound : memchr h needle start = some k) : start ≤ k ∧ h[k]? = some needle := by
  rw [memchr, Option.map_eq_some_iff] at hfound
  obtain ⟨j, hj, rfl⟩ := hfound
  rw [List.findIdx?_eq_some_iff_getElem] at hj
  obtain ⟨hlt, hyes, -⟩ := hj
  rw [List.getElem_drop, beq_iff_eq] at hyes
  rw [List.length_drop] at hlt
  exact ⟨Nat.le_add_right _ _, by rw [← hyes]; exact List.getElem?_eq_getElem (by omega)⟩

theorem findSub_spec {h needle : List UInt8} {p : Nat} (hfound : findSub h needle start = some p) :
    start ≤ p ∧ p + needle.length ≤ h.length ∧ (h.drop p).take needle.length = needle := by
  rw [findSub] at hfound
  split at hfound
  · cases hfound
  rename_i hguard
  have hmem := List.mem_of_find?_eq_some hfound
  have hyes := List.find?_some hfound
  rw [List.mem_range'_1] at hmem
  exact ⟨hmem.1, by omega, beq_iff_eq.1 hyes⟩

theorem tagLoop_spec {b : List UInt8} (hstart : start < b.length) (turns : Nat) :
    ∀ i, start < i → b.length ≤ i + turns →
      ∃ e, tagLoop b start turns i = some e ∧ start < e ∧ TagStop b e := by
  induction turns with
  | zero =>
    intro i hi hturns
    rw [Nat.add_zero] at hturns
    rw [tagLoop, List.getElem?_eq_none hturns]
    exact ⟨_, rfl, hstart, Or.inl rfl⟩
  | succ turns ih =>
    intro i hi hturns
    rw [tagLoop]
    cases hget : b[i]? with
    | none => exact ⟨_, rfl, hstart, Or.inl rfl⟩
    | some c =>
      dsimp only
      split
      · rename_i hc
        exact ⟨_, rfl, by omega, Or.inr ⟨i, rfl, by rw [hget, hc]⟩⟩
      split
      · cases hclose : memchr b c (i + 1) with
        | some close =>
          obtain ⟨hle, -⟩ := memchr_spec hclose
          exact ih (close + 1) (by omega) (by omega)
        | none =>
          cases hplain : memchr b 0x3E (start + 1) with
          | some k =>
            obtain ⟨hle, hk⟩ := memchr_spec hplain
            exact ⟨_, rfl, by omega, Or.inr ⟨k, rfl, hk⟩⟩
          | none => exact ⟨_, rfl, hstart, Or.inl rfl⟩
      · exact ih (i + 1) (by omega) (by omega)

/-- The cursor moves on to behind the end of the tag. -/
theorem tagEnd_spec {b : List UInt8} (hstart : start < b.length) :
    ∃ e, tagEnd b start = some e ∧ start < e ∧ TagStop b e := by
  rw [tagEnd, sliceFrom?_eq hstart.le]
  dsimp only [Option.bind_eq_bind, Option.bind_some]
  split
  · cases hfind : findSub b (bytes "-->") (start + 4) with
    | none => exact ⟨_, rfl, hstart, Or.inl rfl⟩
    | some p =>
      obtain ⟨hle, hlen, heq⟩ := findSub_spec hfind
      refine ⟨p + 3, rfl, by omega, Or.inr ⟨p + 2, rfl, ?_⟩⟩
      have hget : ((b.drop p).take (bytes "-->").length)[2]? = some 0x3E := by
        rw [heq]
        rfl
      rwa [List.getElem?_take_of_lt (by decide), List.getElem?_drop] at hget
  · exact tagLoop_spec hstart b.length (start + 1) (by omega) (by omega)

theorem skipElement_spec {lb : List UInt8} (hstart : start < lb.length)
    (name : String) : ∃ r, skipElement lb start name = some r ∧
      ∀ j, r = some j → start < j ∧ TagStop lb j := by
  have hend : start < lb.length ∧ TagStop lb lb.length := ⟨hstart, Or.inl rfl⟩
  rw [skipElement]
  split
  · exact ⟨none, rfl, nofun⟩
  split
  · exact ⟨none, rfl, nofun⟩
  split
  · obtain ⟨openEnd, hopen, hlt, -⟩ := tagEnd_spec hstart
    rw [hopen]
    dsimp only [Option.bind_eq_bind, Option.bind_some]
    split
    · exact ⟨_, rfl, by rintro j ⟨⟩; exact hend⟩
    cases hfind : findSub lb (bytes "</" ++ bytes name) openEnd with
    | none => exact ⟨_, rfl, by rintro j ⟨⟩; exact hend⟩
    | some p =>
      obtain ⟨hle, hlen, -⟩ := findSub_spec hfind
      have hp : p < lb.length := by
        have hpos : 0 < (bytes "</" ++ bytes name).length := by
          rw [List.length_append]
          exact Nat.add_pos_left (by decide) _
        omega
      obtain ⟨e, he, hpe, hstop⟩ := tagEnd_spec hp
      dsimp only
      rw [he]
      exact ⟨some e, rfl, by rintro j ⟨⟩; exact ⟨by omega, hstop⟩⟩
  · exact ⟨none, rfl, nofun⟩

theorem entities_end : ∀ e ∈ entities, 0 < (bytes e.1).length ∧
    (bytes e.1)[(bytes e.1).length - 1]? = some 0x3B := by
  decide +kernel

theorem isBoundary_of_byte (h : bs[i]? = some b) (hb : b.toNat < 128) : isBoundary bs i = true := by
  simp only [isBoundary, h, Utf8.isContinuation, Bool.or_eq_true, Bool.not_eq_true']
  exact Or.inr (by rw [decide_eq_false (by omega)]; rfl)

theorem strSlice?_zero (h : bs[i]? = some 0x3B) :
    strSlice? bs 0 i = some (bs.take i) := by
  have hlt := (List.getElem?_eq_some_iff.1 h).1
  exact strSlice?_eq (Nat.zero_le i) hlt.le rfl (isBoundary_of_byte h (by decide))

/-- An entity ends with its semicolon, and one character is written for it. -/
theorem decodeEntity_spec (s : List UInt8) (out : List Char) :
    ∃ r, decodeEntity s out = some r ∧ ∀ used out', r = some (used, out') →
      (∃ k, used = k + 1 ∧ s[k]? = some 0x3B) ∧ ∃ ch, out' = pushCollapsible out ch := by
  rw [decodeEntity]
  split
  · rename_i name ch hfind
    obtain ⟨hpos, hlast⟩ := entities_end _ (List.mem_of_find?_eq_some hfind)
    have hyes : (bytes name).isPrefixOf s = true := by simpa using List.find?_some hfind
    obtain ⟨rest, hrest⟩ := List.isPrefixOf_iff_prefix.1 hyes
    refine ⟨_, rfl, ?_⟩
    rintro used out' ⟨⟩
    refine ⟨⟨(bytes name).length - 1, (Nat.sub_add_cancel hpos).symm, ?_⟩, ch, rfl⟩
    rw [← hrest, List.getElem?_append_left (Nat.sub_one_lt hpos.ne')]
    exact hlast
  · split
    · dsimp only
      cases hsemi : (s.drop 2).findIdx? (· == 0x3B) with
      | none => exact ⟨none, rfl, nofun⟩
      | some semi =>
        have hget : (s.drop 2)[semi]? = some 0x3B := by
          obtain ⟨hlt, hyes, -⟩ := List.findIdx?_eq_some_iff_getElem.1 hsemi
          rw [← beq_iff_eq.1 hyes]
          exact List.getElem?_eq_getElem hlt
        have hdone : ∀ digits radix, ∃ r,
            (match (fromStrRadix digits radix).bind fromU32 with
              | none => some none
              | some ch => some (some (2 + semi + 1, pushCollapsible out ch))) = some r ∧
            ∀ used out', r = some (used, out') →
              (∃ k, used = k + 1 ∧ s[k]? = some 0x3B) ∧ ∃ ch, out' = pushCollapsible out ch := by
          intro digits radix
          cases (fromStrRadix digits radix).bind fromU32 with
          | none => exact ⟨none, rfl, nofun⟩
          | some ch =>
            refine ⟨_, rfl, ?_⟩
            rintro used out' ⟨⟩
            rw [List.getElem?_drop] at hget
            exact ⟨⟨2 + semi, rfl, hget⟩, ch, rfl⟩
        dsimp only
        split
        · exact ⟨none, rfl, nofun⟩
        rename_i hrange
        split
        · have hhex : ((s.drop 2).drop 1)[semi - 1]? = some 0x3B := by
            rw [List.getElem?_drop, show 1 + (semi - 1) = semi by omega]
            exact hget
          rw [strSlice?_zero hhex]
          exact hdone _ 16
        · rw [strSlice?_zero hget]
          exact hdone _ 10
    · exact ⟨none, rfl, nofun⟩

/-! ## Places in a page -/

/-- A place between two characters. -/
def Place (html : List Char) (i : Nat) : Prop :=
  ∃ pre post, html = pre ++ post ∧ (encode pre).length = i

theorem Place.behind {k : Nat} (h : (encode html)[k]? = some b)
    (hb : b.toNat < 128) : Place html (k + 1) := by
  obtain ⟨pre, c, post, rfl, hlen, hc⟩ := Utf8.exists_of_ascii h hb
  refine ⟨pre ++ [c], post, by simp, ?_⟩
  rw [Utf8.encode_append, Utf8.encode_cons, hc, List.length_append, hlen]
  rfl

theorem place_end (html : List Char) : Place html (encode html).length :=
  ⟨html, [], (List.append_nil html).symm, rfl⟩

theorem Place.boundary (h : Place html i) :
    isBoundary (encode html) i = true := by
  obtain ⟨pre, post, rfl, rfl⟩ := h
  exact Utf8.isBoundary_encode pre post

theorem TagStop.place {e : Nat} (h : TagStop (encode html) e) :
    Place html e := by
  rcases h with rfl | ⟨k, rfl, hk⟩
  · exact place_end html
  · exact Place.behind hk (by decide)

theorem lower_eq_gt (h : lower b = 0x3E) : b = 0x3E := by
  rw [lower] at h
  split at h
  · rename_i hupper
    have hnat := congrArg UInt8.toNat h
    simp only [UInt8.le_iff_toNat_le, UInt8.reduceToNat] at hupper
    rw [UInt8.toNat_add, show (0x20 : UInt8).toNat = 32 from rfl,
      show (0x3E : UInt8).toNat = 62 from rfl] at hnat
    omega
  · exact h

theorem TagStop.of_lower {b : List UInt8} {e : Nat} (h : TagStop (b.map lower) e) :
    TagStop b e := by
  rcases h with rfl | ⟨k, rfl, hk⟩
  · exact Or.inl (List.length_map lower)
  · rw [List.getElem?_map, Option.map_eq_some_iff] at hk
    obtain ⟨c, hc, hlower⟩ := hk
    exact Or.inr ⟨k, rfl, by rw [hc, lower_eq_gt hlower]⟩

/-- The first byte of a character tells how many it has. -/
theorem utf8Len_head
    (h : String.utf8EncodeChar c = b :: bs) : utf8Len b = (String.utf8EncodeChar c).length := by
  rw [h]
  simp only [String.utf8EncodeChar] at h
  simp only [utf8Len, UInt8.lt_iff_toNat_lt, UInt8.reduceToNat]
  split at h
  · obtain ⟨rfl, rfl⟩ := List.cons.inj h
    rw [UInt8.toNat_ofNat', if_pos (by omega)]
    rfl
  · split at h
    · obtain ⟨rfl, rfl⟩ := List.cons.inj h
      rw [UInt8.toNat_ofNat', if_neg (by omega), if_pos (by omega)]
      rfl
    · split at h
      · obtain ⟨rfl, rfl⟩ := List.cons.inj h
        rw [UInt8.toNat_ofNat', if_neg (by omega), if_neg (by omega), if_pos (by omega)]
        rfl
      · obtain ⟨rfl, rfl⟩ := List.cons.inj h
        rw [UInt8.toNat_ofNat', if_neg (by omega), if_neg (by omega), if_neg (by omega)]
        rfl

/-- At a place before the end, one character is read and the cursor is behind it. -/
theorem Place.char {c : UInt8} (hplace : Place html i) (hget : (encode html)[i]? = some c) :
    ∃ ch, i < min (i + utf8Len c) (encode html).length ∧
      Place html (min (i + utf8Len c) (encode html).length) ∧
      strSlice? (encode html) i (min (i + utf8Len c) (encode html).length) =
        some (String.utf8EncodeChar ch) := by
  have hfirst := hplace.boundary
  obtain ⟨pre, post, rfl, rfl⟩ := hplace
  cases post with
  | nil =>
    rw [List.append_nil, List.getElem?_eq_none (le_refl _)] at hget
    cases hget
  | cons ch post =>
    obtain ⟨b, bs, hch, -⟩ := Utf8.utf8EncodeChar_head ch
    have hc : b = c := by
      rw [Utf8.encode_append, List.getElem?_append_right (le_refl _), Nat.sub_self,
        Utf8.encode_cons, hch] at hget
      exact Option.some.inj hget
    have hlen := utf8Len_head hch
    rw [hc] at hlen
    have htotal : (encode (pre ++ ch :: post)).length = (encode pre).length +
        ((String.utf8EncodeChar ch).length + (encode post).length) := by
      rw [Utf8.encode_append, Utf8.encode_cons, List.length_append, List.length_append]
    have hpos : 0 < (String.utf8EncodeChar ch).length := by rw [hch]; exact Nat.succ_pos _
    have hmin : min ((encode pre).length + utf8Len c) (encode (pre ++ ch :: post)).length =
        (encode pre).length + (String.utf8EncodeChar ch).length := by
      rw [hlen, htotal]
      omega
    have hplace : Place (pre ++ ch :: post)
        ((encode pre).length + (String.utf8EncodeChar ch).length) := by
      refine ⟨pre ++ [ch], post, by simp, ?_⟩
      rw [Utf8.encode_append, Utf8.encode_cons, Utf8.encode_nil, List.append_nil,
        List.length_append]
    rw [hmin]
    refine ⟨ch, by omega, hplace, ?_⟩
    rw [strSlice?_eq (by omega) (by omega) hfirst hplace.boundary, Utf8.encode_append,
      Utf8.encode_cons, List.take_length_add_append, List.drop_left, List.take_left]

/-! ## One turn -/

theorem step_spec {c : UInt8}
    (hplace : Place html i) (hget : (encode html)[i]? = some c) (hout : Running out) :
    ∃ next out', step (encode html) i c out = some (next, out') ∧ i < next ∧ Place html next ∧
      Running out' := by
  have hlt := (List.getElem?_eq_some_iff.1 hget).1
  rw [step]
  split
  · -- a tag
    have hlower : i < ((encode html).map lower).length := by rwa [List.length_map]
    obtain ⟨script, hscript, hscriptEnd⟩ := skipElement_spec hlower "script"
    obtain ⟨style, hstyle, hstyleEnd⟩ := skipElement_spec hlower "style"
    obtain ⟨stop, hstop, hnext, htag⟩ := tagEnd_spec hlt
    dsimp only
    rw [hscript]
    dsimp only [Option.bind_eq_bind, Option.bind_some]
    cases script with
    | some j =>
      obtain ⟨hj, hend⟩ := hscriptEnd j rfl
      exact ⟨j, _, rfl, hj, hend.of_lower.place, hout.pushSpace⟩
    | none =>
      rw [if_neg (by simp), hstyle]
      cases style with
      | some j =>
        obtain ⟨hj, hend⟩ := hstyleEnd j rfl
        exact ⟨j, _, rfl, hj, hend.of_lower.place, hout.pushSpace⟩
      | none =>
        dsimp only [Option.bind_some]
        rw [hstop]
        exact ⟨stop, _, rfl, hnext, htag.place, hout.pushSpace⟩
  · -- an entity, or else a character
    have hchar : ∃ next out', (do
        let piece ← strSlice? (encode html) i (min (i + utf8Len c) (encode html).length)
        let chars ← fromUtf8? piece
        match chars.head? with
        | some ch => pure (min (i + utf8Len c) (encode html).length,
            if isWhitespace ch then pushSpace out else out ++ [ch])
        | none => pure (min (i + utf8Len c) (encode html).length, out)) = some (next, out') ∧
        i < next ∧ Place html next ∧ Running out' := by
      obtain ⟨ch, hnext, hplace', hpiece⟩ := hplace.char hget
      have hone : encode [ch] = String.utf8EncodeChar ch := List.append_nil _
      rw [hpiece, ← hone]
      dsimp only [Option.bind_eq_bind, Option.bind_some]
      rw [Utf8.fromUtf8?_encode]
      exact ⟨_, _, rfl, hnext, hplace', hout.pushCollapsible ch⟩
    split
    · rw [strSlice?_eq hlt.le (le_refl _) hplace.boundary (Utf8.isBoundary_length _),
        List.take_length]
      obtain ⟨r, hr, hused⟩ := decodeEntity_spec ((encode html).drop i) out
      dsimp only [Option.bind_eq_bind, Option.bind_some]
      rw [hr]
      cases r with
      | none => exact hchar
      | some p =>
        obtain ⟨used, out'⟩ := p
        obtain ⟨⟨k, rfl, hk⟩, ch, rfl⟩ := hused used out' rfl
        rw [List.getElem?_drop] at hk
        exact ⟨_, _, rfl, by omega, Place.behind hk (by decide), hout.pushCollapsible ch⟩
    · exact hchar

/-! ## The whole page -/

theorem loop_spec (turns : Nat) : ∀ i out, Place html i → Running out →
    (encode html).length ≤ i + turns → ∃ out', loop (encode html) turns i out = some out' ∧
      Running out' := by
  induction turns with
  | zero =>
    intro i out _ hout hturns
    rw [Nat.add_zero] at hturns
    rw [loop, List.getElem?_eq_none hturns]
    exact ⟨out, rfl, hout⟩
  | succ turns ih =>
    intro i out hplace hout hturns
    rw [loop]
    cases hget : (encode html)[i]? with
    | none => exact ⟨out, rfl, hout⟩
    | some c =>
      obtain ⟨next, out', hstep, hlt, hplace', hout'⟩ := step_spec hplace hget hout
      dsimp only
      rw [hstep]
      exact ih next out' hplace' hout' (by omega)

/-- For every page the reducer returns: its loops end within as many turns as the page has bytes,
no slice is out of range or cuts a character, and the text is normalised. -/
theorem toText_normalised (html : List Char) :
    ∃ out, toText (encode html) = some out ∧ Normalised out := by
  have hstart : Place html 0 := ⟨[], html, rfl, rfl⟩
  obtain ⟨out, hloop, hout⟩ :=
    loop_spec (encode html).length 0 [] hstart running_nil (Nat.le_add_left _ _)
  refine ⟨out.rdropWhile (· == ' '), ?_, hout.normalised⟩
  rw [toText, hloop]
  rfl

-- a quoted `>`, an entity that is whitespace, and a character of several bytes
example : toText (bytes "<a t=\">\">caf\u00e9&#9;\n&lt;x</a>") = some "café <x".toList := by
  decide +kernel

end EmbraOS.Ports.HtmlText
