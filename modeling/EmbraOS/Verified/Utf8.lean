import Mathlib

/-!
# UTF-8: strict and lossy decoding

`scan` is a byte-at-a-time UTF-8 decoder.  Its state is the character under
construction: the bits read, the continuation bytes still owed and the range
the next one must lie in.  The range is what excludes overlong forms,
surrogates and values past `U+10FFFF`.  A byte outside the range ends the
malformed sequence *before* it and is read again as a first byte, so one
malformed mark stands for each maximal ill-formed subsequence.

Two readings of a scan are used: `fromUtf8Lossy`, in which a malformed sequence
reads as `U+FFFD`, and `fromUtf8?`, which is undefined as soon as there is one.
A well-formed text scans to its own characters (`scan_encode`).

`isBoundary` is a place between two characters: a byte of its own has one on both
sides (`isBoundary_of_ascii`, `isBoundary_succ`).

`utf8Chunks` keeps the bytes: it is the same machine, cut after each malformed
sequence into the well-formed run before it and the sequence itself, and loses
none of them (`sum_length_utf8Chunks`).
-/

namespace EmbraOS.Verified.Utf8

/-- The UTF-8 bytes of a text. -/
def encode (text : List Char) : List UInt8 :=
  text.flatMap String.utf8EncodeChar

@[simp] theorem encode_nil : encode [] = [] := rfl

@[simp] theorem encode_cons (c : Char) (text : List Char) :
    encode (c :: text) = String.utf8EncodeChar c ++ encode text := rfl

@[simp] theorem encode_append (s t : List Char) :
    encode (s ++ t) = encode s ++ encode t := List.flatMap_append ..

/-- A character of one byte. -/
theorem utf8EncodeChar_ascii {c : Char} (h : c.toNat < 128) :
    String.utf8EncodeChar c = [UInt8.ofNat c.toNat] := by
  simp only [String.utf8EncodeChar, Char.toNat_val]
  rw [if_pos (by omega)]

/-- No byte of a longer character is the byte of another character. -/
theorem utf8EncodeChar_high {c : Char} (h : 128 ≤ c.toNat) :
    ∀ b ∈ String.utf8EncodeChar c, 128 ≤ b.toNat := by
  simp only [String.utf8EncodeChar, Char.toNat_val]
  rw [if_neg (by omega)]
  split
  · simp only [List.mem_cons, List.not_mem_nil, or_false, forall_eq_or_imp, forall_eq,
      UInt8.toNat_ofNat']
    omega
  · split
    · simp only [List.mem_cons, List.not_mem_nil, or_false, forall_eq_or_imp, forall_eq,
        UInt8.toNat_ofNat']
      omega
    · simp only [List.mem_cons, List.not_mem_nil, or_false, forall_eq_or_imp, forall_eq,
        UInt8.toNat_ofNat']
      omega

theorem length_encode (text : List Char) : (encode text).length = String.utf8Len text := by
  induction text with
  | nil => rfl
  | cons c text ih =>
    rw [encode_cons, List.length_append, ih, String.utf8Len_cons, String.length_utf8EncodeChar,
      Nat.add_comm]

/-- A character whose first bytes have been read. -/
structure Pending where
  /-- The bits read so far. -/
  cp : Nat
  /-- How many continuation bytes are still owed. -/
  needed : Nat
  /-- The least value the next byte may take. -/
  lo : Nat
  /-- The greatest value the next byte may take. -/
  hi : Nat

/-- What a first byte announces. -/
inductive Lead where
  | done (c : Char)
  | more (p : Pending)
  | bad

def lead (b : UInt8) : Lead :=
  let n := b.toNat
  if n ≤ 0x7F then .done (Char.ofNat n)
  else if 0xC2 ≤ n ∧ n ≤ 0xDF then .more ⟨n - 0xC0, 1, 0x80, 0xBF⟩
  else if n = 0xE0 then .more ⟨0, 2, 0xA0, 0xBF⟩
  else if n = 0xED then .more ⟨0xD, 2, 0x80, 0x9F⟩
  else if 0xE1 ≤ n ∧ n ≤ 0xEF then .more ⟨n - 0xE0, 2, 0x80, 0xBF⟩
  else if n = 0xF0 then .more ⟨0, 3, 0x90, 0xBF⟩
  else if 0xF1 ≤ n ∧ n ≤ 0xF3 then .more ⟨n - 0xF0, 3, 0x80, 0xBF⟩
  else if n = 0xF4 then .more ⟨4, 3, 0x80, 0x8F⟩
  else .bad

/-- The characters of a byte sequence, `none` for each maximal ill-formed
subsequence. -/
def scan : Option Pending → List UInt8 → List (Option Char)
  | none, [] => []
  | some _, [] => [none]
  | none, b :: bs =>
    match lead b with
    | .done c => some c :: scan none bs
    | .more p => scan (some p) bs
    | .bad => none :: scan none bs
  | some p, b :: bs =>
    if p.lo ≤ b.toNat ∧ b.toNat ≤ p.hi then
      let cp := p.cp * 64 + (b.toNat - 0x80)
      if p.needed = 1 then some (Char.ofNat cp) :: scan none bs
      else scan (some ⟨cp, p.needed - 1, 0x80, 0xBF⟩) bs
    else
      -- the byte belongs to what follows and is read again as a first byte
      none :: match lead b with
        | .done c => some c :: scan none bs
        | .more q => scan (some q) bs
        | .bad => none :: scan none bs

/-- The replacement character `U+FFFD`. -/
def replacement : Char := Char.ofNat 0xFFFD

/-- `String::from_utf8_lossy`. -/
def fromUtf8Lossy (bytes : List UInt8) : List Char :=
  (scan none bytes).map (fun c => c.getD replacement)

/-- `core::str::from_utf8`. -/
def fromUtf8? (bytes : List UInt8) : Option (List Char) :=
  (scan none bytes).mapM id

/-! ## A well-formed text scans to itself -/

variable {n i : Nat} {p : Pending} {bs : List UInt8} {text : List Char} {b : UInt8}

private theorem toNat_ofNat_lt (h : n < 256) :
    (UInt8.ofNat n).toNat = n := by
  rw [UInt8.toNat_ofNat']
  exact Nat.mod_eq_of_lt h

/-- A continuation byte inside its range is consumed; the last one completes
the character. -/
private theorem scan_last
    (hneeded : p.needed = 1) (hlo : p.lo ≤ n) (hhi : n ≤ p.hi) (hn : n < 256) :
    scan (some p) (UInt8.ofNat n :: bs) =
      some (Char.ofNat (p.cp * 64 + (n - 0x80))) :: scan none bs := by
  simp only [scan, toNat_ofNat_lt hn, hlo, hhi, hneeded, and_self, if_true]

private theorem scan_more
    (hneeded : p.needed ≠ 1) (hlo : p.lo ≤ n) (hhi : n ≤ p.hi) (hn : n < 256) :
    scan (some p) (UInt8.ofNat n :: bs) =
      scan (some ⟨p.cp * 64 + (n - 0x80), p.needed - 1, 0x80, 0xBF⟩) bs := by
  simp only [scan, toNat_ofNat_lt hn, hlo, hhi, hneeded, and_self, if_true,
    if_false]

private theorem scan_lead (h : lead (UInt8.ofNat n) = .more p) :
    scan none (UInt8.ofNat n :: bs) = scan (some p) bs := by
  rw [scan, h]

/-- The bytes of one character scan to that character, whatever follows. -/
theorem scan_encodeChar (c : Char) (bs : List UInt8) :
    scan none (String.utf8EncodeChar c ++ bs) = some c :: scan none bs := by
  have hvalid := c.valid
  have hback : Char.ofNat c.val.toNat = c := Char.ofNat_toNat c
  unfold String.utf8EncodeChar
  generalize hv : c.val.toNat = v at hback ⊢
  have hrange : v < 0xD800 ∨ (0xDFFF < v ∧ v < 0x110000) := by
    simpa [UInt32.isValidChar, Nat.isValidChar, hv] using hvalid
  dsimp only
  split
  · -- one byte
    rename_i h1
    have hlead : lead (UInt8.ofNat v) = .done c := by
      simp only [lead, toNat_ofNat_lt (show v < 256 by omega), h1, if_true,
        hback]
    rw [List.cons_append, List.nil_append, scan, hlead]
  · rename_i h1
    split
    · -- two bytes
      rename_i h2
      have hlead : lead (UInt8.ofNat (v / 64 % 0x20 + 0xc0)) =
          .more ⟨v / 64, 1, 0x80, 0xBF⟩ := by
        have hn : v / 64 % 0x20 = v / 64 := by omega
        simp only [lead, toNat_ofNat_lt (show v / 64 % 0x20 + 0xc0 < 256 by omega)]
        rw [if_neg (by omega), if_pos (by omega), hn]
        simp
      rw [List.cons_append, List.cons_append, List.nil_append, scan_lead hlead,
        scan_last rfl (by simp) (by simp; omega) (by omega)]
      simp only
      rw [show v / 64 * 64 + (v % 0x40 + 0x80 - 0x80) = v by omega, hback]
    · rename_i h2
      split
      · -- three bytes
        rename_i h3
        obtain ⟨lo, hi, hlead, hlo, hhi⟩ : ∃ lo hi,
            lead (UInt8.ofNat (v / 4096 % 0x10 + 0xe0)) =
              .more ⟨v / 4096, 2, lo, hi⟩ ∧
            lo ≤ v / 64 % 0x40 + 0x80 ∧ v / 64 % 0x40 + 0x80 ≤ hi := by
          have hn : v / 4096 % 0x10 = v / 4096 := by omega
          simp only [lead,
            toNat_ofNat_lt (show v / 4096 % 0x10 + 0xe0 < 256 by omega)]
          rw [if_neg (by omega), if_neg (by omega), hn]
          by_cases h0 : v / 4096 = 0
          · refine ⟨0xA0, 0xBF, ?_, by omega, by omega⟩
            rw [if_pos (by omega), h0]
          · rw [if_neg (by omega)]
            by_cases hd : v / 4096 = 0xD
            · refine ⟨0x80, 0x9F, ?_, by omega, by omega⟩
              rw [if_pos (by omega), hd]
            · refine ⟨0x80, 0xBF, ?_, by omega, by omega⟩
              rw [if_neg (by omega), if_pos (by omega)]
              simp
        rw [List.cons_append, List.cons_append, List.cons_append,
          List.nil_append, scan_lead hlead,
          scan_more (by simp) hlo hhi (by omega),
          scan_last (by simp) (by simp) (by simp; omega) (by omega)]
        simp only
        rw [show (v / 4096 * 64 + (v / 64 % 0x40 + 0x80 - 0x80)) * 64 +
            (v % 0x40 + 0x80 - 0x80) = v by omega, hback]
      · -- four bytes
        rename_i h3
        obtain ⟨lo, hi, hlead, hlo, hhi⟩ : ∃ lo hi,
            lead (UInt8.ofNat (v / 262144 % 0x08 + 0xf0)) =
              .more ⟨v / 262144, 3, lo, hi⟩ ∧
            lo ≤ v / 4096 % 0x40 + 0x80 ∧ v / 4096 % 0x40 + 0x80 ≤ hi := by
          have hn : v / 262144 % 0x08 = v / 262144 := by omega
          simp only [lead,
            toNat_ofNat_lt (show v / 262144 % 0x08 + 0xf0 < 256 by omega)]
          rw [if_neg (by omega), if_neg (by omega), if_neg (by omega),
            if_neg (by omega), if_neg (by omega), hn]
          by_cases h0 : v / 262144 = 0
          · refine ⟨0x90, 0xBF, ?_, by omega, by omega⟩
            rw [if_pos (by omega), h0]
          · rw [if_neg (by omega)]
            by_cases h4 : v / 262144 = 4
            · refine ⟨0x80, 0x8F, ?_, by omega, by omega⟩
              rw [if_neg (by omega), if_pos (by omega), h4]
            · refine ⟨0x80, 0xBF, ?_, by omega, by omega⟩
              rw [if_pos (by omega)]
              simp
        rw [List.cons_append, List.cons_append, List.cons_append,
          List.cons_append, List.nil_append, scan_lead hlead,
          scan_more (by simp) hlo hhi (by omega),
          scan_more (by simp) (by simp) (by simp; omega) (by omega),
          scan_last (by simp) (by simp) (by simp; omega) (by omega)]
        simp only
        rw [show ((v / 262144 * 64 + (v / 4096 % 0x40 + 0x80 - 0x80)) * 64 +
            (v / 64 % 0x40 + 0x80 - 0x80)) * 64 +
            (v % 0x40 + 0x80 - 0x80) = v by omega, hback]

/-- A well-formed text scans to its own characters. -/
theorem scan_encode (text : List Char) (bs : List UInt8) :
    scan none (encode text ++ bs) = text.map some ++ scan none bs := by
  induction text with
  | nil => rfl
  | cons c text ih =>
    rw [encode_cons, List.append_assoc, scan_encodeChar, ih]
    rfl

private theorem mapM_id_map_some (text : List Char) :
    (text.map some).mapM id = some text := by
  induction text with
  | nil => rfl
  | cons c text ih =>
    rw [List.map_cons, List.mapM_cons, ih]
    rfl

theorem fromUtf8?_encode (text : List Char) :
    fromUtf8? (encode text) = some text := by
  have h := scan_encode text []
  rw [List.append_nil] at h
  rw [fromUtf8?, h, scan, List.append_nil, mapM_id_map_some]

/-- Bytes that are one character each. -/
theorem encode_ascii {bytes : List UInt8} (h : ∀ b ∈ bytes, b.toNat < 128) :
    encode (bytes.map fun b => Char.ofNat b.toNat) = bytes := by
  induction bytes with
  | nil => rfl
  | cons b bytes ih =>
    have hb := h b List.mem_cons_self
    have hval : (Char.ofNat b.toNat).toNat = b.toNat := by
      rw [Char.toNat_ofNat, if_pos (Or.inl (by omega))]
    rw [List.map_cons, encode_cons, utf8EncodeChar_ascii (by rw [hval]; exact hb), hval,
      UInt8.ofNat_toNat, ih fun d hd => h d (List.mem_cons_of_mem _ hd)]
    rfl

/-! ## Places between characters -/

/-- A byte that goes on with a character. -/
def isContinuation (b : UInt8) : Bool := decide (0x80 ≤ b.toNat) && decide (b.toNat < 0xC0)

/-- `str::is_char_boundary`. -/
def isBoundary (bytes : List UInt8) (i : Nat) : Bool :=
  i == 0 || match bytes[i]? with
    | some b => !isContinuation b
    | none => i == bytes.length

/-- `&text[i..j]`, refused out of range and inside a character. -/
def strSlice? (bytes : List UInt8) (i j : Nat) : Option (List UInt8) :=
  if i ≤ j ∧ j ≤ bytes.length ∧ isBoundary bytes i = true ∧ isBoundary bytes j = true then
    some ((bytes.take j).drop i)
  else none

theorem strSlice?_eq {bytes : List UInt8} {j : Nat} (hij : i ≤ j) (hj : j ≤ bytes.length)
    (hfirst : isBoundary bytes i = true) (hlast : isBoundary bytes j = true) :
    strSlice? bytes i j = some ((bytes.take j).drop i) :=
  if_pos ⟨hij, hj, hfirst, hlast⟩

/-- No character begins with a continuation byte. -/
theorem utf8EncodeChar_head (c : Char) :
    ∃ b bs, String.utf8EncodeChar c = b :: bs ∧ isContinuation b = false := by
  simp only [String.utf8EncodeChar, isContinuation, Bool.and_eq_false_iff, decide_eq_false_iff_not,
    not_le, not_lt]
  split
  · exact ⟨_, _, rfl, Or.inl (by rw [UInt8.toNat_ofNat']; omega)⟩
  · split
    · exact ⟨_, _, rfl, Or.inr (by rw [UInt8.toNat_ofNat']; omega)⟩
    · split
      · exact ⟨_, _, rfl, Or.inr (by rw [UInt8.toNat_ofNat']; omega)⟩
      · exact ⟨_, _, rfl, Or.inr (by rw [UInt8.toNat_ofNat']; omega)⟩

theorem isBoundary_length (bytes : List UInt8) : isBoundary bytes bytes.length = true := by
  simp [isBoundary]

theorem isBoundary_encode (pre post : List Char) :
    isBoundary (encode (pre ++ post)) (encode pre).length = true := by
  cases post with
  | nil =>
    rw [List.append_nil]
    exact isBoundary_length _
  | cons c post =>
    obtain ⟨b, bs, hc, hb⟩ := utf8EncodeChar_head c
    rw [isBoundary, encode_append, encode_cons, hc, List.getElem?_append_right (le_refl _),
      Nat.sub_self, List.cons_append, List.getElem?_cons_zero]
    simp [hb]

/-- A byte of its own is a character, and what stands around it is text. -/
theorem exists_of_ascii (hget : (encode text)[i]? = some b) (hb : b.toNat < 128) :
    ∃ pre c post, text = pre ++ c :: post ∧ (encode pre).length = i ∧
      String.utf8EncodeChar c = [b] := by
  induction text generalizing i with
  | nil => cases hget
  | cons c text ih =>
    rw [encode_cons] at hget
    by_cases hi : i < (String.utf8EncodeChar c).length
    · rw [List.getElem?_append_left hi] at hget
      have hlow : c.toNat < 128 := by
        by_contra hhigh
        have := utf8EncodeChar_high (by omega) b (List.mem_of_getElem? hget)
        omega
      rw [utf8EncodeChar_ascii hlow] at hget hi
      obtain rfl : i = 0 := by
        rw [List.length_singleton] at hi
        omega
      refine ⟨[], c, text, rfl, rfl, ?_⟩
      rw [utf8EncodeChar_ascii hlow]
      exact congrArg (fun x => [x]) (Option.some.inj hget)
    · rw [List.getElem?_append_right (by omega)] at hget
      obtain ⟨pre, d, post, rfl, hlen, hd⟩ := ih hget
      refine ⟨c :: pre, d, post, rfl, ?_, hd⟩
      rw [encode_cons, List.length_append, hlen]
      omega

/-- Behind bytes of their own there is a text again. -/
theorem exists_encode_of_ascii {rest : List UInt8} (h : encode text = bs ++ rest)
    (hbs : ∀ b ∈ bs, b.toNat < 128) : ∃ text', rest = encode text' := by
  induction bs generalizing text with
  | nil => exact ⟨text, h.symm⟩
  | cons b bs ih =>
    have hget : (encode text)[0]? = some b := by rw [h]; rfl
    obtain ⟨pre, c, post, rfl, hlen, hc⟩ := exists_of_ascii hget (hbs b List.mem_cons_self)
    cases pre with
    | nil =>
      rw [List.nil_append, encode_cons, hc] at h
      exact ih (List.cons.inj h).2 fun d hd => hbs d (List.mem_cons_of_mem b hd)
    | cons d pre =>
      have hpos := d.utf8Size_pos
      rw [encode_cons, List.length_append, String.length_utf8EncodeChar] at hlen
      omega

theorem isBoundary_of_ascii (hget : (encode text)[i]? = some b) (hb : b.toNat < 128) :
    isBoundary (encode text) i = true := by
  obtain ⟨pre, c, post, rfl, rfl, -⟩ := exists_of_ascii hget hb
  exact isBoundary_encode pre (c :: post)

theorem isBoundary_succ (hget : (encode text)[i]? = some b) (hb : b.toNat < 128) :
    isBoundary (encode text) (i + 1) = true := by
  obtain ⟨pre, c, post, rfl, rfl, hc⟩ := exists_of_ascii hget hb
  have hplace := isBoundary_encode (pre ++ [c]) post
  rw [List.append_assoc, encode_append pre [c], encode_cons, hc, encode_nil, List.append_nil,
    List.length_append] at hplace
  exact hplace

-- an overlong form, and a character cut before its last byte
example : fromUtf8Lossy [0xE0, 0x80] = [replacement, replacement] := by decide
example : fromUtf8Lossy [0xF0, 0x9F, 0x98, 0x41] = [replacement, 'A'] := by
  decide

/-! ## The bytes of a scan -/

/-- A well-formed run and the malformed sequence that ends it, which is empty
at the end of the input. -/
structure Chunk where
  valid : List UInt8
  invalid : List UInt8
deriving DecidableEq, Repr

/-- How many bytes a chunk stands for. -/
def Chunk.length (k : Chunk) : Nat := k.valid.length + k.invalid.length

/-- The chunks of what is left, behind the well-formed bytes `valid` and the
first bytes of a character. -/
def utf8ChunksFrom (valid : List UInt8) : Option (Pending × List UInt8) → List UInt8 → List Chunk
  | none, [] => if valid.isEmpty then [] else [⟨valid, []⟩]
  | some (_, cut), [] => [⟨valid, cut⟩]
  | none, b :: bs =>
    match lead b with
    | .done _ => utf8ChunksFrom (valid ++ [b]) none bs
    | .more p => utf8ChunksFrom valid (some (p, [b])) bs
    | .bad => ⟨valid, [b]⟩ :: utf8ChunksFrom [] none bs
  | some (p, cut), b :: bs =>
    if p.lo ≤ b.toNat ∧ b.toNat ≤ p.hi then
      if p.needed = 1 then utf8ChunksFrom (valid ++ (cut ++ [b])) none bs
      else
        let cp := p.cp * 64 + (b.toNat - 0x80)
        utf8ChunksFrom valid (some (⟨cp, p.needed - 1, 0x80, 0xBF⟩, cut ++ [b])) bs
    else
      ⟨valid, cut⟩ :: match lead b with
        | .done _ => utf8ChunksFrom [b] none bs
        | .more q => utf8ChunksFrom [] (some (q, [b])) bs
        | .bad => ⟨[], [b]⟩ :: utf8ChunksFrom [] none bs

/-- `<[u8]>::utf8_chunks`. -/
def utf8Chunks (bytes : List UInt8) : List Chunk := utf8ChunksFrom [] none bytes

/-- The bytes of the character under construction. -/
def held : Option (Pending × List UInt8) → List UInt8
  | none => []
  | some (_, cut) => cut

theorem sum_length_utf8ChunksFrom (bytes : List UInt8) :
    ∀ (valid : List UInt8) (p : Option (Pending × List UInt8)),
      ((utf8ChunksFrom valid p bytes).map Chunk.length).sum
        = valid.length + (held p).length + bytes.length := by
  induction bytes with
  | nil =>
    intro valid p
    rcases p with _ | ⟨p, cut⟩
    · cases valid <;> simp [utf8ChunksFrom, held, Chunk.length]
    · simp [utf8ChunksFrom, held, Chunk.length]
  | cons b bs ih =>
    intro valid p
    rcases p with _ | ⟨p, cut⟩
    · simp only [utf8ChunksFrom]
      split <;> simp [ih, held, Chunk.length] <;> omega
    · simp only [utf8ChunksFrom]
      split
      · split <;> simp [ih, held] <;> omega
      · split <;> simp [ih, held, Chunk.length] <;> omega

/-- No byte is lost and none is counted twice. -/
theorem sum_length_utf8Chunks (bytes : List UInt8) :
    ((utf8Chunks bytes).map Chunk.length).sum = bytes.length := by
  simp [utf8Chunks, sum_length_utf8ChunksFrom, held]

end EmbraOS.Verified.Utf8
