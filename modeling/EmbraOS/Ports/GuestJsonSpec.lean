import EmbraOS.Ports.GuestJson

/-!
# What the guest's JSON reader accepts

`Derives N v t` is the grammar of RFC 8259: it derives the text `t` for the
value `v`, with white space wherever the grammar has it and any way of writing
a string; `N` says which texts stand for which numbers.

The reader takes every text of the grammar and gives the value it derives
(`parse_derived`).  What the writer prints is one of them, so it reads back
(`parse_stringify`).  What both reserve beforehand is enough (`buffers_sized`).
-/

namespace EmbraOS.Ports.GuestJson

open Verified.Utf8
open Verified.Text
open Verified.JsonGrammar

/-! ## The grammar -/

variable {Num : Type}

mutual

inductive Derives (N : Num → List Char → Prop) : Json Num → List Char → Prop where
  | null : Derives N .null "null".toList
  | yes : Derives N (.bool true) "true".toList
  | no : Derives N (.bool false) "false".toList
  | num {n : Num} {t : List Char} (ht : N n t) : Derives N (.num n) t
  | str {s : String} {t : List Char} (ht : WritesString s t) : Derives N (.str s) t
  | empty {w : List Char} (hw : White w) : Derives N (.arr []) ('[' :: (w ++ [']']))
  | arr {items : List (Json Num)} {t : List Char} (ht : DerivesItems N items t) :
      Derives N (.arr items) ('[' :: (t ++ [']']))
  | blank {w : List Char} (hw : White w) : Derives N (.obj []) ('\x7b' :: (w ++ ['\x7d']))
  | obj {members : List (String × Json Num)} {t : List Char}
      (ht : DerivesMembers N members t) : Derives N (.obj members) ('\x7b' :: (t ++ ['\x7d']))

/-- The items of an array that has some. -/
inductive DerivesItems (N : Num → List Char → Prop) : List (Json Num) → List Char → Prop where
  | last {v : Json Num} {w t w' : List Char} (hw : White w) (ht : Derives N v t)
      (hw' : White w') : DerivesItems N [v] (w ++ (t ++ w'))
  | more {v : Json Num} {vs : List (Json Num)} {w t w' ts : List Char} (hw : White w)
      (ht : Derives N v t) (hw' : White w') (hts : DerivesItems N vs ts) :
      DerivesItems N (v :: vs) (w ++ (t ++ (w' ++ ',' :: ts)))

/-- The members of an object that has some. -/
inductive DerivesMembers (N : Num → List Char → Prop) :
    List (String × Json Num) → List Char → Prop where
  | last {k : String} {v : Json Num} {w key w₁ w₂ t w' : List Char} (hw : White w)
      (hkey : WritesString k key) (hw₁ : White w₁) (hw₂ : White w₂) (ht : Derives N v t)
      (hw' : White w') :
      DerivesMembers N [(k, v)] (w ++ (key ++ (w₁ ++ ':' :: (w₂ ++ (t ++ w')))))
  | more {k : String} {v : Json Num} {ms : List (String × Json Num)}
      {w key w₁ w₂ t w' ts : List Char} (hw : White w) (hkey : WritesString k key)
      (hw₁ : White w₁) (hw₂ : White w₂) (ht : Derives N v t) (hw' : White w')
      (hts : DerivesMembers N ms ts) :
      DerivesMembers N ((k, v) :: ms)
        (w ++ (key ++ (w₁ ++ ':' :: (w₂ ++ (t ++ (w' ++ ',' :: ts))))))

end

/-- A text: a value with white space around it. -/
def Document (N : Num → List Char → Prop) (v : Json Num) (text : List Char) : Prop :=
  ∃ w t w', White w ∧ Derives N v t ∧ White w' ∧ text = w ++ (t ++ w')

/-! ## Reads -/

/-- A read that gives `a` and stops in front of `tail`. -/
def Reads {α : Type} (r : Except Failure (α × P)) (a : α) (tail : List UInt8) : Prop :=
  ∃ j, r = .ok (a, ⟨tail, j⟩)

variable {α : Type} {w cs out out' : List Char} {b : UInt8} {fuel i : Nat} {f : F64}

variable {r : Except Failure (α × P)} {a : α} {tail rest : List UInt8}

theorem Reads.bind {β : Type} {g : α × P → Except Failure (β × P)} {b : β} {tail' : List UInt8}
    (h : Reads r a tail) (hg : ∀ j, Reads (g (a, ⟨tail, j⟩)) b tail') :
    Reads (r >>= g) b tail' := by
  obtain ⟨j, rfl⟩ := h
  exact hg j

theorem skipWhile_append {test : UInt8 → Bool} {xs ys : List UInt8} (i : Nat)
    (hxs : ∀ x ∈ xs, test x = true) (hys : ∀ y ∈ ys.head?, test y = false) :
    P.skipWhile test ⟨xs ++ ys, i⟩ = ⟨ys, i + xs.length⟩ := by
  have htail : ys.takeWhile test = [] := by
    cases ys with
    | nil => rfl
    | cons y ys => simp [hys y rfl]
  rw [P.skipWhile, List.takeWhile_append_of_pos hxs, htail, List.append_nil]
  simp [P.advance]

theorem advance_one (b : UInt8) (bs : List UInt8) (i : Nat) :
    P.advance ⟨b :: bs, i⟩ 1 = ⟨bs, i + 1⟩ := rfl

/-- What comes next is no white space. -/
def Dark (tail : List UInt8) : Prop := ∀ b ∈ tail.head?, isWs b = false

/-- Nothing that could go on a number comes next. -/
def Stops (tail : List UInt8) : Prop := ∀ b ∈ tail.head?, isNumberByte b = false

/-- White space is bytes of its own, and none of them goes on a number. -/
theorem white_bytes (hw : White w) :
    ∀ b ∈ encode w, isWs b = true ∧ isNumberByte b = false := by
  intro b hb
  obtain ⟨c, hc, hmem⟩ := List.mem_flatMap.1 hb
  rcases hw c hc with rfl | rfl | rfl | rfl <;>
    · rw [utf8EncodeChar_ascii (by decide), List.mem_singleton] at hmem
      subst hmem
      decide

theorem ws_white (hw : White w) (htail : Dark tail)
    (i : Nat) : ∃ j, P.ws ⟨encode w ++ tail, i⟩ = ⟨tail, j⟩ :=
  ⟨_, skipWhile_append i (fun b hb => (white_bytes hw b hb).1) htail⟩

theorem ws_dark (htail : Dark tail) (i : Nat) :
    P.ws ⟨tail, i⟩ = ⟨tail, i⟩ := by
  have h := @skipWhile_append isWs [] tail i (by simp) htail
  simpa [P.ws] using h

theorem dark_ws (p : P) : Dark p.ws.rest := by
  intro b hb
  have hdrop : p.ws.rest = p.rest.dropWhile isWs := by
    show p.rest.drop _ = _
    conv_lhs => rw [← List.takeWhile_append_dropWhile (p := isWs) (l := p.rest)]
    exact List.drop_left' (by simp)
  rw [hdrop] at hb
  have h := List.head?_dropWhile_not isWs p.rest
  rw [hb] at h
  exact h

/-- White space that has been passed over is passed over. -/
theorem ws_ws (p : P) : p.ws.ws = p.ws := ws_dark (dark_ws p) p.ws.i

theorem stops_white (hw : White w) (htail : Stops tail) :
    Stops (encode w ++ tail) := by
  cases hbytes : encode w with
  | nil => exact htail
  | cons b bs =>
    intro x hx
    obtain rfl : b = x := by simpa using hx
    exact (white_bytes hw b (by rw [hbytes]; exact List.mem_cons_self)).2

theorem length_le_encode (t : List Char) : t.length ≤ (encode t).length := by
  induction t with
  | nil => simp
  | cons c t ih =>
    have hpos := c.utf8Size_pos
    rw [encode_cons, List.length_append, String.length_utf8EncodeChar, List.length_cons]
    omega

theorem lit_append (word : String) (v : Json Num) (tail : List UInt8) (i : Nat) :
    Reads (lit word v ⟨encode word.toList ++ tail, i⟩) v tail := by
  have hpre : (encode word.toList).isPrefixOf (encode word.toList ++ tail) = true :=
    List.isPrefixOf_iff_prefix.2 (List.prefix_append _ _)
  refine ⟨i + (encode word.toList).length, ?_⟩
  simp only [lit, hpre, if_true, P.advance, List.drop_left]

/-! ## Strings -/

variable {c : Char} {n : Nat} {t : List Char}

theorem hexValue_ascii (h : hexValue c = some n) :
    c.toNat < 128 ∧ hexDigit (UInt8.ofNat c.toNat) = some n := by
  have hascii : c.toNat < 128 := by
    unfold hexValue at h
    simp only [Char.le_def, UInt32.le_iff_toNat_le] at h
    have htoNat : c.val.toNat = c.toNat := rfl
    rw [htoNat] at h
    by_contra hbig
    have h9 : '9'.val.toNat = 57 := rfl
    have hf : 'f'.val.toNat = 102 := rfl
    have hF : 'F'.val.toNat = 70 := rfl
    rw [h9, hf, hF, if_neg (by omega), if_neg (by omega), if_neg (by omega)] at h
    cases h
  refine ⟨hascii, ?_⟩
  have hbyte : (UInt8.ofNat c.toNat).toNat = c.toNat := by
    rw [UInt8.toNat_ofNat']
    omega
  rw [hexDigit, hbyte, Char.ofNat_toNat, h]

/-- Four digits, whatever follows. -/
theorem unit?_hex4 {digits : List Char} (h : Hex4 n digits) (tail : List UInt8) :
    unit? (encode digits ++ tail) = some n ∧ (encode digits).length = 4 := by
  obtain ⟨a, b, c, d, x, y, z, w, rfl, ha, hb, hc, hd, rfl⟩ := h
  obtain ⟨ha', hax⟩ := hexValue_ascii ha
  obtain ⟨hb', hby⟩ := hexValue_ascii hb
  obtain ⟨hc', hcz⟩ := hexValue_ascii hc
  obtain ⟨hd', hdw⟩ := hexValue_ascii hd
  have hbytes : encode [a, b, c, d] = [UInt8.ofNat a.toNat, UInt8.ofNat b.toNat,
      UInt8.ofNat c.toNat, UInt8.ofNat d.toNat] := by
    simp [utf8EncodeChar_ascii ha', utf8EncodeChar_ascii hb', utf8EncodeChar_ascii hc',
      utf8EncodeChar_ascii hd']
  rw [hbytes]
  refine ⟨?_, rfl⟩
  simp [unit?, hexDigits, hax, hby, hcz, hdw]

/-- A read whose result is known up to the cursor's count. -/
theorem reads_of_toOption
    (h : r.toOption.map (fun x => (x.1, x.2.rest)) = some (a, tail)) : Reads r a tail := by
  match r, h with
  | .ok (b, ⟨rest, j⟩), h =>
    simp only [Except.toOption, Option.map_some, Option.some.injEq, Prod.mk.injEq] at h
    obtain ⟨rfl, rfl⟩ := h
    exact ⟨j, rfl⟩

theorem char_not_surrogate (c : Char) : isHigh c.toNat = false ∧ isLow c.toNat = false := by
  have hvalid : c.toNat < 0xD800 ∨ 0xDFFF < c.toNat ∧ c.toNat < 0x110000 := c.valid
  simp only [isHigh, isLow, Bool.and_eq_false_iff, decide_eq_false_iff_not]
  omega

theorem unicodeEscape_unit {hex : List Char} (h : Hex4 c.toNat hex) (tail : List UInt8) (i : Nat) :
    Reads (unicodeEscape ⟨encode hex ++ tail, i⟩) c tail := by
  obtain ⟨hunit, hlen⟩ := unit?_hex4 h tail
  obtain ⟨hhigh, hlow⟩ := char_not_surrogate c
  have hread := readUnit_of_unit? hunit
  have hlt : c.toNat < 65536 := by
    rcases (readUnit_cases hread).2.2 with ⟨-, -, hlt⟩ | ⟨-, -, hlt⟩ <;> omega
  apply reads_of_toOption
  rw [unicodeEscape_units]
  rw [hread, Option.bind_some, hhigh, charFromU32_unit hlt, hhigh, hlow, Char.ofNat_toNat,
    List.drop_left' hlen]
  rfl

theorem unicodeEscape_pair {high low : List Char} {m : Nat}
    (hhigh : Hex4 (0xD800 + m) high) (hlow : Hex4 (0xDC00 + n) low) (hn : n < 1024)
    (hc : c.toNat = 0x10000 + m * 1024 + n) (tail : List UInt8) (i : Nat) :
    Reads (unicodeEscape
      ⟨encode high ++ backslash :: letterU :: (encode low ++ tail), i⟩) c tail := by
  have hm : m < 1024 := by
    have hvalid : c.toNat < 0xD800 ∨ 0xDFFF < c.toNat ∧ c.toNat < 0x110000 := c.valid
    omega
  obtain ⟨hunit, hlen⟩ := unit?_hex4 hhigh (backslash :: letterU :: (encode low ++ tail))
  obtain ⟨hunit', hlen'⟩ := unit?_hex4 hlow tail
  have hfour : (encode high ++ backslash :: letterU :: (encode low ++ tail)).drop 4
      = backslash :: letterU :: (encode low ++ tail) := List.drop_left' hlen
  have hsix : (encode high ++ backslash :: letterU :: (encode low ++ tail)).drop 6
      = encode low ++ tail := by
    rw [show 6 = 4 + 2 from rfl, ← List.drop_drop, hfour]
    rfl
  have hten : (encode high ++ backslash :: letterU :: (encode low ++ tail)).drop 10 = tail := by
    rw [show 10 = 6 + 4 from rfl, ← List.drop_drop, hsix, List.drop_left' hlen']
  have hisHigh : isHigh (0xD800 + m) = true := by
    simp only [isHigh, Bool.and_eq_true, decide_eq_true_eq]
    omega
  have hvalue : pairValue (0xD800 + m) (0xDC00 + n) = c.toNat := by
    unfold pairValue
    omega
  have hlt : c.toNat < 0x110000 := by omega
  have hnext : escapeNext (backslash :: letterU :: (encode low ++ tail)) = true := by
    simp [escapeNext]
  apply reads_of_toOption
  rw [unicodeEscape_units]
  rw [readUnit_of_unit? hunit, Option.bind_some, hisHigh, if_pos rfl, hfour,
    if_pos hnext, hsix, readUnit_of_unit? hunit', Option.bind_some,
    pairChar_eq hisHigh (by omega) (by omega), hvalue, if_pos hlt, hten, Char.ofNat_toNat]
  rfl

/-- A letter behind a backslash. -/
theorem escape_letter {e : Char} (h : escapeOf e = some c) (p : P) :
    e.toNat < 128 ∧ escape (UInt8.ofNat e.toNat) p = .ok (c, p) := by
  unfold escapeOf at h
  split at h <;> cases h <;> exact ⟨by decide, rfl⟩

/-- The bytes of a character that is no quote and no backslash go on a run. -/
theorem isPlainByte_of_char (hquote : c ≠ '"') (hslash : c ≠ '\\')
    (hb : b ∈ String.utf8EncodeChar c) : isPlainByte b = true := by
  simp only [isPlainByte, Bool.and_eq_true, decide_eq_true_eq]
  by_cases hascii : c.toNat < 128
  · rw [utf8EncodeChar_ascii hascii, List.mem_singleton] at hb
    subst hb
    have hne : ∀ d : Char, d.toNat < 128 → c ≠ d →
        UInt8.ofNat c.toNat ≠ UInt8.ofNat d.toNat := by
      intro d hd hcd heq
      apply hcd
      have hnat := congrArg UInt8.toNat heq
      rw [UInt8.toNat_ofNat', UInt8.toNat_ofNat', Nat.mod_eq_of_lt (by omega),
        Nat.mod_eq_of_lt (by omega)] at hnat
      rw [← Char.ofNat_toNat c, hnat, Char.ofNat_toNat]
    exact ⟨hne '"' (by decide) hquote, hne '\\' (by decide) hslash⟩
  · have hge := utf8EncodeChar_high (by omega) b hb
    constructor <;> rintro rfl <;> exact absurd hge (by decide)

/-- The characters in front of the first escape. -/
theorem writesChars_run (h : WritesChars cs t) :
    ∃ run cs' t', cs = run ++ cs' ∧ t = run ++ t' ∧
      (∀ c ∈ run, c ≠ '"' ∧ c ≠ '\\') ∧ WritesChars cs' t' ∧ ∀ c ∈ t'.head?, c = '\\' := by
  induction h with
  | nil => exact ⟨[], [], [], rfl, rfl, by simp, .nil, by simp⟩
  | @plain c cs t hquote hslash hcontrol h ih =>
    obtain ⟨run, cs', t', rfl, rfl, hrun, h', hhead⟩ := ih
    refine ⟨c :: run, cs', t', rfl, rfl, ?_, h', hhead⟩
    rintro d (_ | ⟨_, hd⟩)
    · exact ⟨hquote, hslash⟩
    · exact hrun d hd
  | escape he h _ => exact ⟨[], _, _, rfl, rfl, by simp, .escape he h, by simp⟩
  | unicode hhex h _ => exact ⟨[], _, _, rfl, rfl, by simp, .unicode hhex h, by simp⟩
  | surrogates hhigh hlow hn hc h _ =>
    exact ⟨[], _, _, rfl, rfl, by simp, .surrogates hhigh hlow hn hc h, by simp⟩

theorem encodeChar_backslash : String.utf8EncodeChar '\\' = [backslash] := rfl

theorem encodeChar_u : String.utf8EncodeChar 'u' = [letterU] := rfl

theorem stringLoop_escape (fuel : Nat) (out : List Char) (e : UInt8) (rest : List UInt8) (i : Nat) :
    stringLoop (fuel + 1) out ⟨backslash :: e :: rest, i⟩ =
      escape e ⟨rest, i + 2⟩ >>= fun r => stringLoop fuel (out ++ [r.1]) r.2 := by
  have hne : backslash ≠ quote := by decide
  simp only [stringLoop, hne, if_false, if_true, P.advance, List.drop_succ_cons, List.drop_zero]

theorem encode_plain (h : ∀ c ∈ cs, c ≠ '"' ∧ c ≠ '\\') :
    ∀ b ∈ encode cs, isPlainByte b = true := by
  intro b hb
  obtain ⟨c, hc, hmem⟩ := List.mem_flatMap.1 hb
  exact isPlainByte_of_char (h c hc).1 (h c hc).2 hmem

theorem head_not_plain (h : ∀ c ∈ cs.head?, c = '"' ∨ c = '\\')
    (htail : ∀ b ∈ tail.head?, isPlainByte b = false) :
    ∀ b ∈ (encode cs ++ tail).head?, isPlainByte b = false := by
  cases cs with
  | nil => exact htail
  | cons c cs =>
    rcases h c rfl with rfl | rfl <;>
      · rintro b ⟨⟩
        rfl

/-- The loop over a run of plain characters. -/
theorem stringLoop_run {run : List Char} (hne : run ≠ []) (hrun : ∀ c ∈ run, c ≠ '"' ∧ c ≠ '\\')
    (hrest : ∀ b ∈ rest.head?, isPlainByte b = false) :
    stringLoop (fuel + 1) out ⟨encode run ++ rest, i⟩ =
      stringLoop fuel (out ++ run) ⟨rest, i + (encode run).length⟩ := by
  have hplain := encode_plain hrun
  cases hbytes : encode run with
  | nil =>
    have hlen := length_le_encode run
    rw [hbytes, List.length_nil, Nat.le_zero, List.length_eq_zero_iff] at hlen
    exact absurd hlen hne
  | cons b bs =>
    rw [hbytes] at hplain
    have hb := hplain b List.mem_cons_self
    simp only [isPlainByte, Bool.and_eq_true, decide_eq_true_eq] at hb
    have htail : rest.takeWhile isPlainByte = [] := by
      cases rest with
      | nil => rfl
      | cons x xs => simp [hrest x rfl]
    have htake : (bs ++ rest).takeWhile isPlainByte = bs := by
      rw [List.takeWhile_append_of_pos fun x hx => hplain x (List.mem_cons_of_mem _ hx),
        htail, List.append_nil]
    rw [List.cons_append]
    simp only [stringLoop, hb.1, hb.2, if_false, htake]
    rw [← hbytes, fromUtf8?_encode, hbytes, P.advance, List.length_cons, Nat.add_comm 1]
    simp only [List.drop_succ_cons, List.drop_left]

/-- The loop over the inside of a literal.  By induction on its length: a pass
takes one escape or all the characters in front of the next one. -/
theorem stringLoop_writes (m : Nat) :
    ∀ {cs t : List Char}, WritesChars cs t → t.length ≤ m →
    ∀ (fuel : Nat) (out : List Char) (tail : List UInt8) (i : Nat), t.length < fuel →
      Reads (stringLoop fuel out ⟨encode t ++ quote :: tail, i⟩) (out ++ cs) tail := by
  induction m with
  | zero =>
    intro cs t h hm fuel out tail i hfuel
    obtain ⟨fuel, rfl⟩ := Nat.exists_eq_succ_of_ne_zero (by omega : fuel ≠ 0)
    obtain rfl : t = [] := List.length_eq_zero_iff.1 (by omega)
    cases h
    exact ⟨i + 1, by simp [stringLoop, P.advance]⟩
  | succ m ih =>
    intro cs t h hm fuel out tail i hfuel
    obtain ⟨fuel, rfl⟩ := Nat.exists_eq_succ_of_ne_zero (by omega : fuel ≠ 0)
    cases h with
    | nil => exact ⟨i + 1, by simp [stringLoop, P.advance]⟩
    | @plain c cs t hquote hslash hcontrol h =>
      obtain ⟨run, cs', t', hcs, ht, hrun, h', hhead⟩ :=
        writesChars_run (.plain hquote hslash hcontrol h)
      rw [hcs, ht, encode_append, List.append_assoc, ← List.append_assoc out]
      rw [ht, List.length_append] at hm hfuel
      have hne : run ≠ [] := by
        rintro rfl
        rw [List.nil_append] at ht
        rw [← ht] at hhead
        exact hslash (hhead c rfl)
      have hpos := List.length_pos_iff.2 hne
      rw [stringLoop_run hne hrun (head_not_plain (fun d hd => Or.inr (hhead d hd)) (by
        rintro b ⟨⟩
        rfl))]
      exact ih h' (by omega) fuel _ tail _ (by omega)
    | @escape c e cs t he h =>
      simp only [List.length_cons] at hm hfuel
      obtain ⟨hascii, -⟩ := escape_letter he ⟨[], 0⟩
      have hcons : encode ('\\' :: e :: t) = backslash :: UInt8.ofNat e.toNat :: encode t := by
        rw [encode_cons, encode_cons, encodeChar_backslash, utf8EncodeChar_ascii hascii]
        rfl
      rw [hcons, List.append_cons out c]
      rw [List.cons_append, List.cons_append, stringLoop_escape]
      refine Reads.bind ⟨_, (escape_letter he _).2⟩ fun j => ?_
      exact ih h (by omega) fuel _ tail j (by omega)
    | @unicode c cs t hex hhex h =>
      simp only [List.cons_append, List.length_cons, List.length_append] at hm hfuel
      rw [List.append_cons out c]
      have hcons : encode ('\\' :: 'u' :: hex ++ t) ++ quote :: tail
          = backslash :: letterU :: (encode hex ++ (encode t ++ quote :: tail)) := by
        simp [encodeChar_backslash, encodeChar_u]
      rw [hcons, stringLoop_escape]
      refine Reads.bind (unicodeEscape_unit hhex _ _) fun j => ?_
      exact ih h (by omega) fuel _ tail j (by omega)
    | @surrogates c cs t high low k n hhigh hlow hn hc h =>
      simp only [List.cons_append, List.append_assoc, List.length_cons,
        List.length_append] at hm hfuel
      rw [List.append_cons out c]
      have hcons : encode ('\\' :: 'u' :: high ++ '\\' :: 'u' :: low ++ t) ++ quote :: tail
          = backslash :: letterU :: (encode high ++ backslash :: letterU ::
            (encode low ++ (encode t ++ quote :: tail))) := by
        simp [encodeChar_backslash, encodeChar_u]
      rw [hcons, stringLoop_escape]
      refine Reads.bind (unicodeEscape_pair hhigh hlow hn hc _ _) fun j => ?_
      exact ih h (by omega) fuel _ tail j (by omega)

/-- A string literal, whatever follows it. -/
theorem string_writes {s : String} (h : WritesString s t) (tail : List UInt8)
    (i : Nat) : Reads (string ⟨encode t ++ tail, i⟩) s tail := by
  obtain ⟨body, hbody, rfl⟩ := h
  have hbytes : encode ('"' :: body ++ ['"']) ++ tail
      = quote :: (encode body ++ quote :: tail) := by
    simp [utf8EncodeChar_ascii (show '"'.toNat < 128 by decide), quote]
  have hlen := length_le_encode body
  obtain ⟨j, hj⟩ := stringLoop_writes body.length hbody le_rfl
    ((encode body ++ quote :: tail).length + 1) [] tail (i + 1)
    (by rw [List.length_append]; omega)
  refine ⟨j, ?_⟩
  rw [hbytes]
  simp only [string, P.advance, List.drop_succ_cons, List.drop_zero, hj, bind, Except.bind,
    List.nil_append, String.ofList_toList]

/-! ## Numbers -/

/-- A token that the reader takes for the number `n`. -/
def Numeral (f : F64) (n : f.Num) (t : List Char) : Prop :=
  (∃ c cs, t = c :: cs ∧ (c = '-' ∨ isAsciiDigit c = true)) ∧ (∀ c ∈ t, NumberChar c) ∧
    f.parse (String.ofList t) = some n

theorem isDigitByte_of_char (h : '0' ≤ c ∧ c ≤ '9') :
    c.toNat < 128 ∧ isDigitByte (UInt8.ofNat c.toNat) = true := by
  have hrange : 0x30 ≤ c.toNat ∧ c.toNat ≤ 0x39 := by
    simpa [Char.le_def, UInt32.le_iff_toNat_le] using h
  refine ⟨by omega, ?_⟩
  simp only [isDigitByte, Bool.and_eq_true, decide_eq_true_eq, UInt8.le_iff_toNat_le,
    UInt8.toNat_ofNat']
  rw [Nat.mod_eq_of_lt (by omega)]
  exact hrange

/-- A character of a number is one byte, and goes on a number. -/
theorem numberChar_byte (h : NumberChar c) :
    c.toNat < 128 ∧ isNumberByte (UInt8.ofNat c.toNat) = true := by
  rcases h with h | rfl | rfl | rfl | rfl | rfl
  · obtain ⟨hascii, hdigit⟩ := isDigitByte_of_char h
    exact ⟨hascii, by simp [isNumberByte, hdigit]⟩
  all_goals exact ⟨by decide, by decide⟩

/-- The first byte of a number. -/
theorem Numeral.head {n : f.Num} (h : Numeral f n t) :
    ∃ b cs, encode t = b :: encode cs ∧ (b = minus ∨ isDigitByte b = true) ∧
      ∀ c ∈ cs, NumberChar c := by
  obtain ⟨⟨c, cs, rfl, hc⟩, hall, -⟩ := h
  obtain ⟨hascii, -⟩ := numberChar_byte (hall c List.mem_cons_self)
  refine ⟨UInt8.ofNat c.toNat, cs, ?_, ?_, fun d hd => hall d (List.mem_cons_of_mem _ hd)⟩
  · rw [encode_cons, utf8EncodeChar_ascii hascii]
    rfl
  · rcases hc with rfl | hc
    · exact Or.inl rfl
    · exact Or.inr (isDigitByte_of_char (by simpa [isAsciiDigit] using hc)).2

theorem numberChars_bytes (h : ∀ c ∈ t, NumberChar c) :
    ∀ b ∈ encode t, isNumberByte b = true := by
  intro b hb
  obtain ⟨c, hc, hmem⟩ := List.mem_flatMap.1 hb
  obtain ⟨hascii, hnum⟩ := numberChar_byte (h c hc)
  rw [utf8EncodeChar_ascii hascii, List.mem_singleton] at hmem
  rw [hmem]
  exact hnum

theorem number_reads {n : f.Num} (h : Numeral f n t) (hstop : Stops tail) (i : Nat) :
    Reads (number f ⟨encode t ++ tail, i⟩) (.num n) tail := by
  obtain ⟨b, cs, hbytes, -, hcs⟩ := h.head
  -- a sign is a byte of the number too, so the loop ends in the same place
  have hskip : (if (encode t ++ tail).head? = some minus then P.advance ⟨encode t ++ tail, i⟩ 1
      else ⟨encode t ++ tail, i⟩).skipWhile isNumberByte
        = ⟨tail, i + (encode t).length⟩ := by
    split
    · have hrest := skipWhile_append (i + 1) (numberChars_bytes hcs) hstop
      rw [hbytes]
      simpa [P.advance, Nat.add_assoc, Nat.add_comm 1] using hrest
    · exact skipWhile_append i (numberChars_bytes h.2.1) hstop
  refine ⟨i + (encode t).length, ?_⟩
  simp only [number, hskip]
  rw [Nat.add_sub_cancel_left, List.take_left' rfl, fromUtf8?_encode]
  simp only [h.2.2]

/-- A number is dispatched to `number`. -/
theorem value_number (f : F64) (fuel : Nat) {bs : List UInt8} (i : Nat)
    (hb : b = minus ∨ isDigitByte b = true) :
    value f (fuel + 1) ⟨b :: bs, i⟩ = number f ⟨b :: bs, i⟩ := by
  have hne : ∀ c : UInt8, ¬(c = minus ∨ isDigitByte c = true) → b ≠ c := by
    rintro c hc rfl
    exact hc hb
  simp only [value]
  rw [if_neg (hne _ (by decide)), if_neg (hne _ (by decide)), if_neg (hne _ (by decide)),
    if_neg (hne _ (by decide)), if_neg (hne _ (by decide)), if_neg (hne _ (by decide)),
    if_pos hb]

/-! ## Values -/

section Punctuation

theorem encodeChar_openBracket : String.utf8EncodeChar '[' = [openBracket] := rfl

theorem encodeChar_closeBracket : String.utf8EncodeChar ']' = [closeBracket] := rfl

theorem encodeChar_openBrace : String.utf8EncodeChar '\x7b' = [openBrace] := rfl

theorem encodeChar_closeBrace : String.utf8EncodeChar '\x7d' = [closeBrace] := rfl

theorem encodeChar_comma : String.utf8EncodeChar ',' = [comma] := rfl

theorem encodeChar_colon : String.utf8EncodeChar ':' = [colon] := rfl

end Punctuation

section Values

variable {f : F64} {N : f.Num → List Char → Prop} (hN : ∀ n t, N n t → Numeral f n t)

include hN

variable {v : Json f.Num} {b : UInt8} {w : List Char}

/-- The first byte of a value: no white space and no closing bracket. -/
theorem Derives.head (h : Derives N v t) :
    ∃ b bs, encode t = b :: bs ∧ isWs b = false ∧ b ≠ closeBracket ∧ b ≠ closeBrace := by
  cases h with
  | null => exact ⟨0x6E, _, rfl, by decide, by decide, by decide⟩
  | yes => exact ⟨0x74, _, rfl, by decide, by decide, by decide⟩
  | no => exact ⟨0x66, _, rfl, by decide, by decide, by decide⟩
  | num ht =>
    obtain ⟨b, cs, hbytes, hb, -⟩ := (hN _ _ ht).head
    refine ⟨b, _, hbytes, ?_, ?_, ?_⟩
    · by_contra hws
      simp only [isWs, Bool.not_eq_false, Bool.or_eq_true, decide_eq_true_eq] at hws
      rcases hws with ((rfl | rfl) | rfl) | rfl <;> revert hb <;> decide
    all_goals rintro rfl; revert hb; decide
  | str ht =>
    obtain ⟨body, -, rfl⟩ := ht
    exact ⟨quote, _, rfl, by decide, by decide, by decide⟩
  | empty | arr => exact ⟨openBracket, _, rfl, by decide, by decide, by decide⟩
  | blank | obj => exact ⟨openBrace, _, rfl, by decide, by decide, by decide⟩

theorem Derives.dark (h : Derives N v t) (tail : List UInt8) :
    Dark (encode t ++ tail) := by
  obtain ⟨b, bs, hbytes, hws, -, -⟩ := h.head hN
  rw [hbytes]
  intro x hx
  obtain rfl : b = x := by simpa using hx
  exact hws

omit hN

theorem arrayLoop_ws (fuel : Nat) (out : List (Json f.Num)) (p : P) :
    arrayLoop f fuel out p.ws = arrayLoop f fuel out p := by
  cases fuel with
  | zero => rfl
  | succ fuel => simp only [arrayLoop, ws_ws]

theorem objectLoop_ws (fuel : Nat) (out : List (String × Json f.Num)) (p : P) :
    objectLoop f fuel out p.ws = objectLoop f fuel out p := by
  cases fuel with
  | zero => rfl
  | succ fuel => simp only [objectLoop, memberKey, ws_ws]

theorem dark_cons (hb : isWs b = false) (tail : List UInt8) : Dark (b :: tail) := by
  intro x hx
  obtain rfl : b = x := by simpa using hx
  exact hb

theorem stops_cons (hb : isNumberByte b = false) (tail : List UInt8) :
    Stops (b :: tail) := by
  intro x hx
  obtain rfl : b = x := by simpa using hx
  exact hb

section Loops

variable {fuel i : Nat} {w w' w₁ w₂ : List Char} {bytes rest tail : List UInt8}
  {v r : Json f.Num}

/-- The last item of an array. -/
theorem arrayLoop_last {out : List (Json f.Num)} (hw : White w) (hdark : Dark bytes)
    (hw' : White w')
    (hval : ∀ j, Reads (value f fuel ⟨bytes, j⟩) v (encode w' ++ closeBracket :: tail)) :
    Reads (arrayLoop f (fuel + 1) out ⟨encode w ++ bytes, i⟩) (.arr (out ++ [v])) tail := by
  obtain ⟨j, hj⟩ := ws_white hw hdark i
  rw [arrayLoop, hj]
  refine (hval j).bind fun k => ?_
  obtain ⟨l, hl⟩ := ws_white hw' (dark_cons (by decide : isWs closeBracket = false) tail) k
  refine ⟨l + 1, ?_⟩
  dsimp only
  rw [hl, if_neg (by simp [comma, closeBracket]), if_pos List.head?_cons]
  rfl

/-- An item with more behind it. -/
theorem arrayLoop_more {out : List (Json f.Num)} (hw : White w) (hdark : Dark bytes)
    (hw' : White w')
    (hval : ∀ j, Reads (value f fuel ⟨bytes, j⟩) v (encode w' ++ comma :: rest))
    (hnext : ∀ j, Reads (arrayLoop f fuel (out ++ [v]) ⟨rest, j⟩) r tail) :
    Reads (arrayLoop f (fuel + 1) out ⟨encode w ++ bytes, i⟩) r tail := by
  obtain ⟨j, hj⟩ := ws_white hw hdark i
  rw [arrayLoop, hj]
  refine (hval j).bind fun k => ?_
  obtain ⟨l, hl⟩ := ws_white hw' (dark_cons (by decide : isWs comma = false) rest) k
  dsimp only
  rw [hl, if_pos List.head?_cons]
  exact hnext (l + 1)

/-- A key, its colon, and the white space around them. -/
theorem memberKey_reads {k : String} {key : List Char} (hw : White w)
    (hkey : WritesString k key) (hw₁ : White w₁) (hw₂ : White w₂) (hdark : Dark bytes) :
    Reads (memberKey
      ⟨encode w ++ (encode key ++ (encode w₁ ++ colon :: (encode w₂ ++ bytes))), i⟩) k bytes := by
  obtain ⟨cs, hcs⟩ : ∃ cs, encode key = quote :: cs := by
    obtain ⟨body, -, rfl⟩ := hkey
    exact ⟨_, rfl⟩
  have hquote : Dark (encode key ++ (encode w₁ ++ colon :: (encode w₂ ++ bytes))) := by
    rw [hcs]
    exact dark_cons (by decide) _
  obtain ⟨j, hj⟩ := ws_white hw hquote i
  rw [memberKey]
  rw [hj, if_neg (by simp [hcs])]
  refine (string_writes hkey _ j).bind fun k => ?_
  obtain ⟨l, hl⟩ := ws_white hw₁ (dark_cons (by decide : isWs colon = false)
    (encode w₂ ++ bytes)) k
  obtain ⟨m, hm⟩ := ws_white hw₂ hdark (l + 1)
  refine ⟨m, ?_⟩
  dsimp only
  rw [hl, if_neg (by simp)]
  show Except.ok (_, P.ws ⟨encode w₂ ++ bytes, l + 1⟩) = _
  rw [hm]

/-- The last member of an object. -/
theorem objectLoop_last {out : List (String × Json f.Num)} {k : String}
    {front : List UInt8} (hkey : Reads (memberKey ⟨front, i⟩) k bytes) (hw' : White w')
    (hval : ∀ j, Reads (value f fuel ⟨bytes, j⟩) v (encode w' ++ closeBrace :: tail)) :
    Reads (objectLoop f (fuel + 1) out ⟨front, i⟩) (.obj (out ++ [(k, v)])) tail := by
  rw [objectLoop]
  refine hkey.bind fun j => (hval j).bind fun m => ?_
  obtain ⟨l, hl⟩ := ws_white hw' (dark_cons (by decide : isWs closeBrace = false) tail) m
  refine ⟨l + 1, ?_⟩
  dsimp only
  rw [hl, if_neg (by simp [comma, closeBrace]), if_pos List.head?_cons]
  rfl

/-- A member with more behind it. -/
theorem objectLoop_more {out : List (String × Json f.Num)} {k : String}
    {front : List UInt8} (hkey : Reads (memberKey ⟨front, i⟩) k bytes) (hw' : White w')
    (hval : ∀ j, Reads (value f fuel ⟨bytes, j⟩) v (encode w' ++ comma :: rest))
    (hnext : ∀ j, Reads (objectLoop f fuel (out ++ [(k, v)]) ⟨rest, j⟩) r tail) :
    Reads (objectLoop f (fuel + 1) out ⟨front, i⟩) r tail := by
  rw [objectLoop]
  refine hkey.bind fun j => (hval j).bind fun m => ?_
  obtain ⟨l, hl⟩ := ws_white hw' (dark_cons (by decide : isWs comma = false) rest) m
  dsimp only
  rw [hl, if_pos List.head?_cons]
  exact hnext (l + 1)

end Loops

theorem value_openBracket (fuel i : Nat) (bs : List UInt8) :
    value f (fuel + 1) ⟨openBracket :: bs, i⟩ = array f fuel ⟨openBracket :: bs, i⟩ := by
  simp [value, openBracket, openBrace]

theorem value_openBrace (fuel i : Nat) (bs : List UInt8) :
    value f (fuel + 1) ⟨openBrace :: bs, i⟩ = object f fuel ⟨openBrace :: bs, i⟩ := by
  simp [value]

theorem array_empty (hw : White w) (fuel i : Nat) (tail : List UInt8) :
    Reads (array f (fuel + 1) ⟨openBracket :: (encode w ++ closeBracket :: tail), i⟩)
      (.arr []) tail := by
  obtain ⟨j, hj⟩ := ws_white hw (dark_cons (by decide : isWs closeBracket = false) tail) (i + 1)
  refine ⟨j + 1, ?_⟩
  rw [array]
  rw [advance_one, hj, if_pos List.head?_cons, advance_one]

theorem object_empty (hw : White w) (fuel i : Nat) (tail : List UInt8) :
    Reads (object f (fuel + 1) ⟨openBrace :: (encode w ++ closeBrace :: tail), i⟩)
      (.obj []) tail := by
  obtain ⟨j, hj⟩ := ws_white hw (dark_cons (by decide : isWs closeBrace = false) tail) (i + 1)
  refine ⟨j + 1, ?_⟩
  rw [object]
  rw [advance_one, hj, if_pos List.head?_cons, advance_one]

/-- An array that does not close at once is read by the loop. -/
theorem array_loop (hw : White w) {bytes : List UInt8} (hdark : Dark bytes)
    (hne : bytes.head? ≠ some closeBracket) (fuel i : Nat) :
    ∃ j, array f (fuel + 1) ⟨openBracket :: (encode w ++ bytes), i⟩
      = arrayLoop f fuel [] ⟨encode w ++ bytes, j⟩ := by
  obtain ⟨j, hj⟩ := ws_white hw hdark (i + 1)
  refine ⟨i + 1, ?_⟩
  rw [array]
  rw [advance_one, if_neg (by rw [hj]; exact hne), arrayLoop_ws]

theorem object_loop (hw : White w) {bytes : List UInt8} (hdark : Dark bytes)
    (hne : bytes.head? ≠ some closeBrace) (fuel i : Nat) :
    ∃ j, object f (fuel + 1) ⟨openBrace :: (encode w ++ bytes), i⟩
      = objectLoop f fuel [] ⟨encode w ++ bytes, j⟩ := by
  obtain ⟨j, hj⟩ := ws_white hw hdark (i + 1)
  refine ⟨i + 1, ?_⟩
  rw [object]
  rw [advance_one, if_neg (by rw [hj]; exact hne), objectLoop_ws]

include hN

/-- The items of an array begin with white space and a value. -/
theorem DerivesItems.front {vs : List (Json f.Num)} (h : DerivesItems N vs t) (tail : List UInt8) :
    ∃ w bytes, White w ∧ Dark bytes ∧ bytes.head? ≠ some closeBracket ∧
      encode t ++ tail = encode w ++ bytes := by
  cases h with
  | @last v w t w' hw ht hw' =>
    obtain ⟨b, bs, hbytes, -, hne, -⟩ := ht.head hN
    refine ⟨w, encode t ++ (encode w' ++ tail), hw, ht.dark hN _, ?_, by simp⟩
    simpa [hbytes] using hne
  | @more v vs w t w' ts hw ht hw' hts =>
    obtain ⟨b, bs, hbytes, -, hne, -⟩ := ht.head hN
    refine ⟨w, encode t ++ (encode (w' ++ ',' :: ts) ++ tail), hw, ht.dark hN _, ?_, by simp⟩
    simpa [hbytes] using hne

omit hN in
/-- The members of an object begin with white space and a quote. -/
theorem DerivesMembers.front {ms : List (String × Json f.Num)}
    (h : DerivesMembers N ms t) (tail : List UInt8) :
    ∃ w bytes, White w ∧ Dark bytes ∧ bytes.head? ≠ some closeBrace ∧
      encode t ++ tail = encode w ++ bytes := by
  obtain ⟨w, key, more, hw, ⟨body, -, rfl⟩, rfl⟩ : ∃ w key more, White w ∧
      (∃ body, True ∧ key = '"' :: body) ∧ t = w ++ (key ++ more) := by
    cases h with
    | last hw hkey _ _ _ _ =>
      obtain ⟨body, -, rfl⟩ := hkey
      exact ⟨_, _, _, hw, ⟨_, trivial, rfl⟩, rfl⟩
    | more hw hkey _ _ _ _ _ =>
      obtain ⟨body, -, rfl⟩ := hkey
      exact ⟨_, _, _, hw, ⟨_, trivial, rfl⟩, rfl⟩
  refine ⟨w, encode ('"' :: body) ++ (encode more ++ tail), hw, ?_, ?_, by simp⟩
  · exact dark_cons (by decide : isWs quote = false) _
  · exact nofun

mutual

/-- The reader takes a derived value, whatever follows that does not go on a
number.  By induction on the derivation; three calls for a character are
enough. -/
theorem value_derived {v : Json f.Num} {t : List Char} : Derives N v t →
    ∀ (fuel : Nat) (tail : List UInt8) (i : Nat), 3 * t.length ≤ fuel → Stops tail →
      Reads (value f fuel ⟨encode t ++ tail, i⟩) v tail
  | .null, fuel, tail, i, hfuel, _ => by
    obtain ⟨fuel, rfl⟩ := Nat.exists_eq_add_of_le' (show 1 ≤ fuel from by simp at hfuel; omega)
    exact lit_append "null" .null tail i
  | .yes, fuel, tail, i, hfuel, _ => by
    obtain ⟨fuel, rfl⟩ := Nat.exists_eq_add_of_le' (show 1 ≤ fuel from by simp at hfuel; omega)
    exact lit_append "true" (.bool true) tail i
  | .no, fuel, tail, i, hfuel, _ => by
    obtain ⟨fuel, rfl⟩ := Nat.exists_eq_add_of_le' (show 1 ≤ fuel from by simp at hfuel; omega)
    exact lit_append "false" (.bool false) tail i
  | .num ht, fuel, tail, i, hfuel, hstop => by
    have hnum := hN _ _ ht
    obtain ⟨b, cs, hbytes, hb, -⟩ := hnum.head
    obtain ⟨c, cs', rfl, -⟩ := hnum.1
    obtain ⟨fuel, rfl⟩ := Nat.exists_eq_add_of_le' (show 1 ≤ fuel from by simp at hfuel; omega)
    have hread := number_reads hnum hstop i
    rw [hbytes, List.cons_append] at hread ⊢
    rwa [value_number f fuel i hb]
  | .str ht, fuel, tail, i, hfuel, _ => by
    have hread := string_writes ht tail i
    obtain ⟨body, -, rfl⟩ := ht
    obtain ⟨fuel, rfl⟩ := Nat.exists_eq_add_of_le' (show 1 ≤ fuel from by simp at hfuel; omega)
    have hvalue : ∀ bs, value f (fuel + 1) ⟨quote :: bs, i⟩
        = (string ⟨quote :: bs, i⟩ >>= fun r => .ok (.str r.1, r.2)) := by
      intro bs
      simp [value, quote, openBrace, openBracket]
    obtain ⟨bs, hbs⟩ : ∃ bs, encode ('"' :: body ++ ['"']) ++ tail = quote :: bs := ⟨_, rfl⟩
    rw [hbs] at hread ⊢
    rw [hvalue]
    exact hread.bind fun j => ⟨j, rfl⟩
  | .empty (w := w) hw, fuel, tail, i, hfuel, _ => by
    obtain ⟨fuel, rfl⟩ := Nat.exists_eq_add_of_le' (show 2 ≤ fuel from by simp at hfuel; omega)
    have hbytes : encode ('[' :: (w ++ [']'])) ++ tail
        = openBracket :: (encode w ++ closeBracket :: tail) := by
      simp [encodeChar_openBracket, encodeChar_closeBracket]
    rw [hbytes, value_openBracket]
    exact array_empty hw fuel i tail
  | .arr (t := t) ht, fuel, tail, i, hfuel, _ => by
    obtain ⟨fuel, rfl⟩ := Nat.exists_eq_add_of_le' (show 2 ≤ fuel from by simp at hfuel; omega)
    simp only [List.length_cons, List.length_append, List.length_nil] at hfuel
    have hbytes : encode ('[' :: (t ++ [']'])) ++ tail
        = openBracket :: (encode t ++ closeBracket :: tail) := by
      simp [encodeChar_openBracket, encodeChar_closeBracket]
    obtain ⟨w, bytes, hw, hdark, hne, hfront⟩ := ht.front hN (closeBracket :: tail)
    obtain ⟨j, hj⟩ := array_loop (f := f) hw hdark hne fuel i
    rw [hbytes, value_openBracket, hfront, hj, ← hfront]
    exact arrayLoop_derived ht fuel [] tail j (by omega)
  | .blank (w := w) hw, fuel, tail, i, hfuel, _ => by
    obtain ⟨fuel, rfl⟩ := Nat.exists_eq_add_of_le' (show 2 ≤ fuel from by simp at hfuel; omega)
    have hbytes : encode ('\x7b' :: (w ++ ['\x7d'])) ++ tail
        = openBrace :: (encode w ++ closeBrace :: tail) := by
      simp [encodeChar_openBrace, encodeChar_closeBrace]
    rw [hbytes, value_openBrace]
    exact object_empty hw fuel i tail
  | .obj (t := t) ht, fuel, tail, i, hfuel, _ => by
    obtain ⟨fuel, rfl⟩ := Nat.exists_eq_add_of_le' (show 2 ≤ fuel from by simp at hfuel; omega)
    simp only [List.length_cons, List.length_append, List.length_nil] at hfuel
    have hbytes : encode ('\x7b' :: (t ++ ['\x7d'])) ++ tail
        = openBrace :: (encode t ++ closeBrace :: tail) := by
      simp [encodeChar_openBrace, encodeChar_closeBrace]
    obtain ⟨w, bytes, hw, hdark, hne, hfront⟩ := ht.front (closeBrace :: tail)
    obtain ⟨j, hj⟩ := object_loop (f := f) hw hdark hne fuel i
    rw [hbytes, value_openBrace, hfront, hj, ← hfront]
    exact objectLoop_derived ht fuel [] tail j (by omega)

theorem arrayLoop_derived {vs : List (Json f.Num)} {t : List Char} : DerivesItems N vs t →
    ∀ (fuel : Nat) (out : List (Json f.Num)) (tail : List UInt8) (i : Nat),
      3 * t.length + 1 ≤ fuel →
      Reads (arrayLoop f fuel out ⟨encode t ++ closeBracket :: tail, i⟩) (.arr (out ++ vs)) tail
  | .last hw ht hw', fuel, out, tail, i, hfuel => by
    obtain ⟨fuel, rfl⟩ := Nat.exists_eq_add_of_le' (show 1 ≤ fuel by omega)
    simp only [List.length_append] at hfuel
    rw [encode_append, encode_append, List.append_assoc, List.append_assoc]
    refine arrayLoop_last hw (ht.dark hN _) hw' fun j => ?_
    exact value_derived ht fuel _ j (by omega)
      (stops_white hw' (stops_cons (by decide : isNumberByte closeBracket = false) tail))
  | .more hw ht hw' hts, fuel, out, tail, i, hfuel => by
    obtain ⟨fuel, rfl⟩ := Nat.exists_eq_add_of_le' (show 1 ≤ fuel by omega)
    simp only [List.length_append, List.length_cons] at hfuel
    simp only [encode_append, encode_cons, encodeChar_comma, List.append_assoc,
      List.cons_append, List.nil_append]
    rw [List.append_cons out]
    have hcomma : isNumberByte comma = false := by decide
    exact arrayLoop_more hw (ht.dark hN _) hw'
      (fun j => value_derived ht fuel _ j (by omega) (stops_white hw' (stops_cons hcomma _)))
      fun j => arrayLoop_derived hts fuel _ tail j (by omega)

theorem objectLoop_derived {ms : List (String × Json f.Num)} {t : List Char} :
    DerivesMembers N ms t →
    ∀ (fuel : Nat) (out : List (String × Json f.Num)) (tail : List UInt8) (i : Nat),
      3 * t.length + 1 ≤ fuel →
      Reads (objectLoop f fuel out ⟨encode t ++ closeBrace :: tail, i⟩) (.obj (out ++ ms)) tail
  | .last hw hkey hw₁ hw₂ ht hw', fuel, out, tail, i, hfuel => by
    obtain ⟨fuel, rfl⟩ := Nat.exists_eq_add_of_le' (show 1 ≤ fuel by omega)
    simp only [List.length_append, List.length_cons] at hfuel
    simp only [encode_append, encode_cons, encodeChar_colon, List.append_assoc,
      List.cons_append, List.nil_append]
    refine objectLoop_last (memberKey_reads hw hkey hw₁ hw₂ (ht.dark hN _)) hw' fun j => ?_
    exact value_derived ht fuel _ j (by omega)
      (stops_white hw' (stops_cons (by decide : isNumberByte closeBrace = false) tail))
  | .more hw hkey hw₁ hw₂ ht hw' hts, fuel, out, tail, i, hfuel => by
    obtain ⟨fuel, rfl⟩ := Nat.exists_eq_add_of_le' (show 1 ≤ fuel by omega)
    simp only [List.length_append, List.length_cons] at hfuel
    simp only [encode_append, encode_cons, encodeChar_colon, encodeChar_comma,
      List.append_assoc, List.cons_append, List.nil_append]
    rw [List.append_cons out]
    have hcomma : isNumberByte comma = false := by decide
    exact objectLoop_more (memberKey_reads hw hkey hw₁ hw₂ (ht.dark hN _)) hw'
      (fun j => value_derived ht fuel _ j (by omega) (stops_white hw' (stops_cons hcomma _)))
      fun j => objectLoop_derived hts fuel _ tail j (by omega)

end

/-- A derived text is read, to its end. -/
theorem parse_document {text : List Char} (h : Document N v text) :
    parse f (String.ofList text) = .ok v := by
  obtain ⟨w, t, w', hw, ht, hw', rfl⟩ := h
  have hnil : Dark [] ∧ Stops [] := ⟨by simp [Dark], by simp [Stops]⟩
  obtain ⟨j, hj⟩ := ws_white hw (ht.dark hN (encode w')) 0
  have hlen := length_le_encode t
  have hstop : Stops (encode w') := by simpa using stops_white hw' hnil.2
  obtain ⟨k, hk⟩ := value_derived hN ht (fuelFor (encode t ++ encode w').length) (encode w') j
    (by rw [fuelFor, List.length_append]; omega) hstop
  obtain ⟨l, hl⟩ := ws_white hw' hnil.1 k
  rw [List.append_nil] at hl
  simp only [parse, String.toList_ofList, encode_append, hj, hk, hl, bind, Except.bind, ne_eq,
    not_true_eq_false, if_false]

end Values

/-! ## The texts of RFC 8259 -/

/-- A number of the RFC's grammar, and what it stands for. -/
def Rfc (f : F64) (n : f.Num) (t : List Char) : Prop :=
  NumberText t ∧ n = f.read (String.ofList t)

theorem Rfc.numeral {n : f.Num} (h : Rfc f n t) : Numeral f n t := by
  obtain ⟨hnumber, rfl⟩ := h
  obtain ⟨c, cs, ht, hc⟩ := hnumber.head
  refine ⟨⟨c, cs, ht, hc.imp_right fun h => ?_⟩, hnumber.numberChar, f.parse_number t hnumber⟩
  simpa [isAsciiDigit] using h

/-- **Every RFC 8259 text is read**, to its end and as the value its grammar
gives it. -/
theorem parse_derived (f : F64) (v : Json f.Num) (text : List Char)
    (h : Document (Rfc f) v text) : parse f (String.ofList text) = .ok v :=
  parse_document (fun _ _ h => h.numeral) h

/-- A number type of three values: zero, one and a half below zero, and one
that is not finite and stands for every other text. -/
def sampleF64 : F64 where
  Num := Fin 3
  isFinite n := n.val < 2
  display n := if n = 0 then "0" else "-1.5"
  parse s := some (if s = "0" then 0 else if s = "-1.5" then 1 else 2)
  read s := if s = "0" then 0 else if s = "-1.5" then 1 else 2
  parse_number _ _ := rfl
  display_chars n _ := by
    by_cases h : n = 0
    · simp [h, isAsciiDigit]
    · simp [h, isAsciiDigit]
  display_head n _ := by
    by_cases h : n = 0
    · exact ⟨'0', [], by simp [h], by decide⟩
    · exact ⟨'-', ['1', '.', '5'], by simp [h], by decide⟩
  parse_display := by decide

/-- White space, a number with an exponent, a pair of surrogates. -/
theorem parse_derived_sample :
    Document (Rfc sampleF64) (.arr [.num (2 : Fin 3), .str "😀"])
        " [ 1E+9 ,\"\\ud83d\\uDE00\"]".toList ∧
      parse sampleF64 (String.ofList " [ 1E+9 ,\"\\ud83d\\uDE00\"]".toList)
        = .ok (.arr [.num (2 : Fin 3), .str "😀"]) := by
  have hblank : White [' '] := by simp [White]
  have hnil : White [] := by simp [White]
  have hexp : ExpText ('E' :: (['+'] ++ ['9'])) :=
    .exp (Or.inr rfl) (Or.inr (Or.inl rfl)) (by simp) (by simp [Digits])
  have hnumber : NumberText ['1', 'E', '+', '9'] :=
    ⟨[], ['1'], [], _, rfl, Or.inl rfl, .digits (by decide) (by simp [Digits]), .none, hexp⟩
  have hpair : WritesChars ['😀'] "\\ud83d\\uDE00".toList :=
    .surrogates (m := 61) (n := 512) ⟨'d', '8', '3', 'd', 13, 8, 3, 13, rfl, by decide, by decide,
      by decide, by decide, rfl⟩ ⟨'D', 'E', '0', '0', 13, 14, 0, 0, rfl, by decide, by decide,
      by decide, by decide, rfl⟩ (by decide) (by decide) .nil
  have hdoc : Document (Rfc sampleF64) (.arr [.num (2 : Fin 3), .str "😀"])
      " [ 1E+9 ,\"\\ud83d\\uDE00\"]".toList :=
    ⟨[' '], _, [], hblank, .arr (.more hblank (.num ⟨hnumber, rfl⟩) hblank
      (.last hnil (.str ⟨_, hpair, rfl⟩) hnil)), hnil, rfl⟩
  exact ⟨hdoc, parse_derived sampleF64 _ _ hdoc⟩

/-! ## What the writer prints -/

mutual

/-- Every number of the value is finite. -/
def finite (f : F64) : Json f.Num → Bool
  | .num n => f.isFinite n
  | .arr items => finiteItems f items
  | .obj pairs => finitePairs f pairs
  | _ => true

def finiteItems (f : F64) : List (Json f.Num) → Bool
  | [] => true
  | v :: items => finite f v && finiteItems f items

def finitePairs (f : F64) : List (String × Json f.Num) → Bool
  | [] => true
  | (_, v) :: pairs => finite f v && finitePairs f pairs

end

/-- A finite number, as it is displayed. -/
def Displayed (f : F64) (n : f.Num) (t : List Char) : Prop :=
  f.isFinite n = true ∧ t = (f.display n).toList

theorem Displayed.numeral {n : f.Num} (h : Displayed f n t) :
    Numeral f n t := by
  obtain ⟨hn, rfl⟩ := h
  obtain ⟨c, cs, hcs, hhead⟩ := f.display_head n hn
  refine ⟨⟨c, cs, hcs, hhead.symm⟩, fun d hd => ?_, ?_⟩
  · rcases f.display_chars n hn d hd with hdigit | rfl | rfl
    · exact Or.inl (by simpa [isAsciiDigit] using hdigit)
    · exact Or.inr (Or.inr (Or.inr (Or.inl rfl)))
    · exact Or.inr (Or.inr (Or.inl rfl))
  · rw [String.ofList_toList]
    exact f.parse_display n hn

/-- The four digits of a control character. -/
theorem hex4_fmt04x (hn : n < 0x20) : Hex4 n (fmt04x n) := by
  have hdigits : ∀ n < 0x20, fmt04x n = ['0', '0', Nat.digitChar (n / 16),
      Nat.digitChar (n % 16)] := by decide
  have hvalue : ∀ d < 16, hexValue (Nat.digitChar d) = some d := by decide
  refine ⟨'0', '0', _, _, 0, 0, n / 16, n % 16, hdigits n hn, rfl, rfl, hvalue _ (by omega),
    hvalue _ (by omega), by omega⟩

/-- What the writer prints for a character is one of the ways to write it. -/
theorem writesChars_escapeChar (c : Char) (h : WritesChars cs t) :
    WritesChars (c :: cs) (escapeChar c ++ t) := by
  unfold escapeChar
  split_ifs with h1 h2 h3 h4 h5 h6 h7 h8
  · exact .escape (by rw [h1]; rfl) h
  · exact .escape (by rw [h2]; rfl) h
  · exact .escape (by rw [h3]; rfl) h
  · exact .escape (by rw [h4]; rfl) h
  · exact .escape (by rw [h5]; rfl) h
  · exact .escape (by rw [h6]; rfl) h
  · exact .escape (by rw [h7]; rfl) h
  · exact .unicode (hex4_fmt04x h8) h
  · exact .plain h1 h2 (Nat.not_lt.1 h8) h

theorem writesString_writeStr (s : String) : WritesString s (writeStr s) := by
  refine ⟨s.toList.flatMap escapeChar, ?_, rfl⟩
  induction s.toList with
  | nil => exact .nil
  | cons c cs ih =>
    rw [List.flatMap_cons]
    exact writesChars_escapeChar c ih

theorem white_nil : White [] := by simp [White]

/-- Behind the first item there is a comma and the text of the others. -/
theorem writeItems_false (f : F64) (v : Json f.Num) (items : List (Json f.Num)) :
    writeItems f false (v :: items) = ',' :: writeItems f true (v :: items) := by
  simp [writeItems]

theorem writePairs_false (f : F64) (kv : String × Json f.Num)
    (pairs : List (String × Json f.Num)) :
    writePairs f false (kv :: pairs) = ',' :: writePairs f true (kv :: pairs) := by
  simp [writePairs]

mutual

theorem write_derives (f : F64) : ∀ v : Json f.Num, finite f v = true →
    Derives (Displayed f) v (write f v)
  | .null, _ => .null
  | .bool true, _ => .yes
  | .bool false, _ => .no
  | .num n, h => by
    have hn : f.isFinite n = true := h
    rw [write, if_pos hn]
    exact .num ⟨hn, rfl⟩
  | .str s, _ => .str (writesString_writeStr s)
  | .arr [], _ => .empty white_nil
  | .arr (v :: items), h => .arr (writeItems_derives f (v :: items) h nofun)
  | .obj [], _ => .blank white_nil
  | .obj (kv :: pairs), h => .obj (writePairs_derives f (kv :: pairs) h nofun)

theorem writeItems_derives (f : F64) : ∀ items : List (Json f.Num),
    finiteItems f items = true → items ≠ [] →
    DerivesItems (Displayed f) items (writeItems f true items)
  | [], _, hne => absurd rfl hne
  | [v], h, _ => by
    rw [finiteItems, Bool.and_eq_true] at h
    have hlast := DerivesItems.last white_nil (write_derives f v h.1) white_nil
    simpa [writeItems] using hlast
  | v :: v' :: items, h, _ => by
    rw [finiteItems, Bool.and_eq_true] at h
    have hmore := DerivesItems.more white_nil (write_derives f v h.1) white_nil
      (writeItems_derives f (v' :: items) h.2 nofun)
    rw [writeItems, writeItems_false]
    simpa using hmore

theorem writePairs_derives (f : F64) : ∀ pairs : List (String × Json f.Num),
    finitePairs f pairs = true → pairs ≠ [] →
    DerivesMembers (Displayed f) pairs (writePairs f true pairs)
  | [], _, hne => absurd rfl hne
  | [(k, v)], h, _ => by
    rw [finitePairs, Bool.and_eq_true] at h
    have hlast := DerivesMembers.last white_nil (writesString_writeStr k) white_nil white_nil
      (write_derives f v h.1) white_nil
    simpa [writePairs] using hlast
  | (k, v) :: kv :: pairs, h, _ => by
    rw [finitePairs, Bool.and_eq_true] at h
    have hmore := DerivesMembers.more white_nil (writesString_writeStr k) white_nil white_nil
      (write_derives f v h.1) white_nil (writePairs_derives f (kv :: pairs) h.2 nofun)
    rw [writePairs, writePairs_false]
    simpa using hmore

end

/-- **The reader undoes the writer**, for every value whose numbers are all
finite. -/
theorem parse_stringify (f : F64) (v : Json f.Num) (h : finite f v = true) :
    parse f (stringify f v) = .ok v :=
  parse_document (fun _ _ h => h.numeral)
    ⟨[], write f v, [], white_nil, write_derives f v h, white_nil, by simp⟩

/-- Repeated keys, every kind of escape, an empty and a nested array. -/
theorem parse_stringify_sample :
    parse sampleF64 (stringify sampleF64
      (.obj [("k\"\\", .arr [.num (1 : Fin 3), .bool true, .arr []]),
        ("k\"\\", .str "\n\t\x01é😀")])) =
      .ok (.obj [("k\"\\", .arr [.num (1 : Fin 3), .bool true, .arr []]),
        ("k\"\\", .str "\n\t\x01é😀")]) :=
  parse_stringify sampleF64 _ (by decide)

/-! ## What is reserved -/

variable {text : List Char} {p : P}

theorem length_escapeChar (c : Char) : (encode (escapeChar c)).length = charSize c := by
  have hcontrol : ∀ n < 0x20, (encode ('\\' :: 'u' :: fmt04x n)).length = 6 := by decide
  by_cases hshort : c ∈ ['"', '\\', '\n', '\r', '\t', Char.ofNat 0x08, Char.ofNat 0x0C]
  · rw [charSize, if_pos hshort]
    simp only [List.mem_cons, List.not_mem_nil, or_false] at hshort
    rcases hshort with rfl | rfl | rfl | rfl | rfl | rfl | rfl <;> rfl
  · rw [charSize, if_neg hshort]
    simp only [List.mem_cons, List.not_mem_nil, or_false, not_or] at hshort
    simp only [escapeChar, hshort, if_false]
    split
    · rename_i hlt
      exact hcontrol c.toNat hlt
    · simp

theorem length_writeStr (s : String) : (encode (writeStr s)).length = strSize s := by
  have hbody : (encode (s.toList.flatMap escapeChar)).length = (s.toList.map charSize).sum := by
    induction s.toList with
    | nil => rfl
    | cons c cs ih => simp [length_escapeChar, ih]
  simp [writeStr, strSize, hbody, utf8EncodeChar_ascii (show '"'.toNat < 128 by decide)]
  omega

mutual

/-- There is no number in the value. -/
def numberless : Json Num → Bool
  | .num _ => false
  | .arr items => numberlessItems items
  | .obj pairs => numberlessPairs pairs
  | _ => true

def numberlessItems : List (Json Num) → Bool
  | [] => true
  | v :: items => numberless v && numberlessItems items

def numberlessPairs : List (String × Json Num) → Bool
  | [] => true
  | (_, v) :: pairs => numberless v && numberlessPairs pairs

end

mutual

theorem length_write (f : F64) : ∀ v : Json f.Num, numberless v = true →
    (encode (write f v)).length = size v
  | .null, _ | .bool true, _ | .bool false, _ => rfl
  | .str s, _ => length_writeStr s
  | .arr items, h => by
    have hitems := length_writeItems f true items h
    simp [write, size, encodeChar_openBracket, encodeChar_closeBracket, hitems]
    omega
  | .obj pairs, h => by
    have hpairs := length_writePairs f true pairs h
    simp [write, size, encodeChar_openBrace, encodeChar_closeBrace, hpairs]
    omega

/-- A comma in front of every item but the first. -/
theorem length_writeItems (f : F64) : ∀ (first : Bool) (items : List (Json f.Num)),
    numberlessItems items = true → (encode (writeItems f first items)).length =
      items.length - first.toNat + sizeItems items
  | _, [], _ => by simp [writeItems, sizeItems]
  | first, v :: items, h => by
    obtain ⟨hv, hitems⟩ := Bool.and_eq_true_iff.1 h
    have hv := length_write f v hv
    have hitems := length_writeItems f false items hitems
    cases first <;> simp [writeItems, sizeItems, encodeChar_comma, hv, hitems] <;> omega

theorem length_writePairs (f : F64) : ∀ (first : Bool) (pairs : List (String × Json f.Num)),
    numberlessPairs pairs = true → (encode (writePairs f first pairs)).length =
      pairs.length - first.toNat + sizePairs pairs
  | _, [], _ => by simp [writePairs, sizePairs]
  | first, (k, v) :: pairs, h => by
    obtain ⟨hv, hpairs⟩ := Bool.and_eq_true_iff.1 h
    have hv := length_write f v hv
    have hpairs := length_writePairs f false pairs hpairs
    cases first <;> simp [writePairs, sizePairs, encodeChar_comma, encodeChar_colon,
      length_writeStr, hv, hpairs] <;> omega

end

theorem rawStringLen_append {run : List UInt8} (h : ∀ b ∈ run, isPlainByte b = true)
    (rest : List UInt8) : rawStringLen (run ++ rest) = run.length + rawStringLen rest := by
  induction run with
  | nil => simp
  | cons b run ih =>
    have hb := h b List.mem_cons_self
    simp only [isPlainByte, Bool.and_eq_true, decide_eq_true_eq] at hb
    rw [List.cons_append, rawStringLen.eq_def]
    simp only [hb, if_false]
    rw [ih fun d hd => h d (List.mem_cons_of_mem b hd), List.length_cons]
    omega

/-- Four digits of an escape: their bytes are plain, and a text follows. -/
theorem readUnit_rest (h : readUnit (encode text) = some n) :
    rawStringLen (encode text) = 4 + rawStringLen ((encode text).drop 4) ∧
      ∃ text', (encode text).drop 4 = encode text' := by
  obtain ⟨hlen, hall, -⟩ := readUnit_cases h
  have hsplit := List.take_append_drop 4 (encode text)
  refine ⟨?_, exists_encode_of_ascii hsplit.symm fun b hb => (hall b hb).1⟩
  conv_lhs => rw [← hsplit]
  rw [rawStringLen_append fun b hb => (hall b hb).2, List.length_take, Nat.min_eq_left hlen]

theorem escapeNext_eq {bytes : List UInt8} (h : escapeNext bytes = true) :
    bytes = [backslash, letterU] ++ bytes.drop 2 := by
  rcases bytes with _ | ⟨b, _ | ⟨u, bytes⟩⟩
  · cases h
  · simp [escapeNext] at h
  · obtain ⟨rfl, rfl⟩ : b = backslash ∧ u = letterU := by simpa [escapeNext] using h
    rfl

theorem unicodeEscape_length (h : unicodeEscape ⟨encode text, i⟩ = .ok (c, p)) :
    c.utf8Size + rawStringLen p.rest ≤ 2 + rawStringLen (encode text) ∧
      ∃ text', p.rest = encode text' := by
  have hunits := unicodeEscape_units ⟨encode text, i⟩
  rw [h] at hunits
  obtain ⟨unit, hread, hunits⟩ := Option.bind_eq_some_iff.1 hunits.symm
  obtain ⟨hraw, text₁, htext₁⟩ := readUnit_rest hread
  have hfour := c.utf8Size_le_four
  rw [htext₁] at hraw
  split_ifs at hunits with hhigh hnext
  · obtain ⟨low, hlow, hunits⟩ := Option.bind_eq_some_iff.1 hunits
    obtain ⟨d, -, heq⟩ := Option.map_eq_some_iff.1 hunits
    obtain ⟨rfl, hrest⟩ := Prod.mk.inj heq
    have hsplit := escapeNext_eq hnext
    rw [List.drop_drop, htext₁] at hsplit
    obtain ⟨text₂, htext₂⟩ := exists_encode_of_ascii hsplit (by simp [backslash, letterU])
    rw [htext₂] at hsplit hlow
    obtain ⟨hraw₂, text₃, htext₃⟩ := readUnit_rest hlow
    have hpair : rawStringLen (encode text₁) = 2 + rawStringLen (encode text₂) := by
      rw [hsplit]
      rfl
    rw [htext₃] at hraw₂
    rw [← htext₂, List.drop_drop] at htext₃
    rw [← hrest, htext₃]
    exact ⟨by omega, text₃, rfl⟩
  · obtain ⟨d, -, heq⟩ := Option.map_eq_some_iff.1 hunits
    obtain ⟨rfl, hrest⟩ := Prod.mk.inj heq
    rw [← hrest, htext₁]
    exact ⟨by omega, text₁, rfl⟩

/-- A character has no more bytes than its escape, and a text follows. -/
theorem escape_length {e : UInt8} (hbytes : encode text = backslash :: e :: rest)
    (h : escape e ⟨rest, i⟩ = .ok (c, p)) :
    c.utf8Size + rawStringLen p.rest ≤ rawStringLen (encode text) ∧
      ∃ text', p.rest = encode text' := by
  have hascii : e.toNat < 128 := by
    unfold escape at h
    split_ifs at h <;> first | (subst_vars; decide) | cases h
  obtain ⟨text, rfl⟩ := exists_encode_of_ascii
    (show _ = [backslash, e] ++ rest from hbytes) (by simpa [backslash] using hascii)
  rw [hbytes]
  by_cases hu : e = letterU
  · rw [hu] at h
    exact unicodeEscape_length h
  · simp only [escape, hu, if_false] at h
    split_ifs at h <;> cases h <;>
      exact ⟨Nat.add_le_add_right (by decide) _, text, rfl⟩

/-- Up to the next quote or escape. -/
theorem exists_run (text : List Char) : ∃ run more, text = run ++ more ∧
    (∀ c ∈ run, c ≠ '"' ∧ c ≠ '\\') ∧ ∀ c ∈ more.head?, c = '"' ∨ c = '\\' := by
  induction text with
  | nil => exact ⟨[], [], rfl, nofun, nofun⟩
  | cons c text ih =>
    obtain ⟨run, more, rfl, hrun, hmore⟩ := ih
    by_cases hc : c = '"' ∨ c = '\\'
    · exact ⟨[], c :: (run ++ more), rfl, nofun, by rintro d ⟨⟩; exact hc⟩
    · exact ⟨c :: run, more, rfl, List.forall_mem_cons.2 ⟨not_or.1 hc, hrun⟩, hmore⟩

theorem stringLoop_length (fuel : Nat) : ∀ {out text out' : List Char} {i : Nat} {p : P},
    stringLoop fuel out ⟨encode text, i⟩ = .ok (out', p) →
      (encode out').length ≤ (encode out).length + rawStringLen (encode text) := by
  induction fuel with
  | zero => nofun
  | succ fuel ih =>
    intro out text out' i p h
    obtain ⟨run, more, rfl, hrun, hmore⟩ := exists_run text
    by_cases hne : run = []
    · subst hne
      cases more with
      | nil => cases h
      | cons c more =>
        rcases hmore c rfl with rfl | rfl
        · cases h
          exact Nat.le_add_right _ _
        have hbytes : encode ('\\' :: more) = backslash :: encode more := rfl
        rw [List.nil_append] at h ⊢
        cases hrest : encode more with
        | nil =>
          rw [hbytes, hrest] at h
          cases h
        | cons e rest =>
          rw [hrest] at hbytes
          rw [hbytes, stringLoop_escape] at h
          cases hesc : escape e ⟨rest, i + 2⟩ with
          | error err => simp [hesc, bind, Except.bind] at h
          | ok r =>
            obtain ⟨c, bytes, j⟩ := r
            obtain ⟨hlen, text, rfl⟩ := escape_length hbytes hesc
            dsimp only at hlen
            rw [hesc] at h
            have hnext := ih h
            simp only [encode_append, encode_cons, encode_nil, List.length_append,
              String.length_utf8EncodeChar, List.append_nil] at hnext
            omega
    · have hhead := @head_not_plain more [] hmore nofun
      rw [List.append_nil] at hhead
      rw [encode_append, stringLoop_run hne hrun hhead] at h
      have hnext := ih h
      rw [encode_append, rawStringLen_append (encode_plain hrun)]
      rw [encode_append, List.length_append] at hnext
      omega

/-- **Neither buffer grows.**  For a value without numbers the writer reserves as many bytes as it
writes, and for a string token the reader reserves no fewer than the string has.  The reader's
input is a text, and a token is only read where its quote stands. -/
theorem buffers_sized (f : F64) :
    (∀ v : Json f.Num, numberless v = true → (encode (stringify f v).toList).length = size v) ∧
      ∀ (text : List Char) (i : Nat) (s : String) (p : P),
        string ⟨encode ('"' :: text), i⟩ = .ok (s, p) →
          (encode s.toList).length ≤ rawStringLen (encode text) := by
  refine ⟨fun v h => ?_, fun text i s p h => ?_⟩
  · rw [stringify, String.toList_ofList]
    exact length_write f v h
  rw [string, show P.advance ⟨encode ('"' :: text), i⟩ 1 = ⟨encode text, i + 1⟩ from rfl] at h
  cases hloop : stringLoop ((encode text).length + 1) [] ⟨encode text, i + 1⟩ with
  | error err => simp [hloop, bind, Except.bind] at h
  | ok r =>
    have hlen := stringLoop_length _ hloop
    simp only [hloop, bind, Except.bind, Except.ok.injEq, Prod.mk.injEq] at h
    rw [← h.1, String.toList_ofList]
    simpa using hlen

end EmbraOS.Ports.GuestJson
