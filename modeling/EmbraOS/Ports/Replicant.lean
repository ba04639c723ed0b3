import EmbraOS.Verified.BytePlaces
import EmbraOS.Verified.JsonGrammar
import EmbraOS.Verified.Utf8

/-!
# The verdict of the replicant check

Port of `parse_verdict` and `extract_json_object` (`embra-brain/src/guardian/replicant.rs`): the
reply of the judging model is searched for its first object by a walk over bytes, and the object
is read as a verdict.  `serde_json::from_str` is a parameter; how the derived `Deserialize` of
`RawVerdict` takes the members of an object is modelled.

`verdict_of_the_object` is the main result: the walk never stops the program, and a reply with an
object in it gives the verdict which that object states.
-/

namespace EmbraOS.Ports.Replicant

open String (utf8Len)
open Verified
open Verified.BytePlaces
open Verified.JsonGrammar
open Verified.Serde
open Verified.Text (trim toAsciiLowercase)
open Verified.Utf8

abbrev Text := List Char

/-! ## The first object of a text -/

/-- What would stop the program. -/
inductive Panic where
  /-- `depth -= 1` at depth 0. -/
  | underflow
  /-- A slice that ends inside a character. -/
  | boundary
  deriving DecidableEq, Repr

structure Scan where
  depth : Nat := 0
  inStr : Bool := false
  escaped : Bool := false
  deriving DecidableEq, Repr

/-- What a byte does to the scan. -/
inductive Turn where
  | goOn (s : Scan)
  | closed
  | underflow
  deriving DecidableEq, Repr

/-- The body of the loop. -/
def Scan.read (s : Scan) (c : Char) : Turn :=
  if s.inStr then
    if s.escaped then .goOn { s with escaped := false }
    else if c = '\\' then .goOn { s with escaped := true }
    else if c = '"' then .goOn { s with inStr := false }
    else .goOn s
  else if c = '"' then .goOn { s with inStr := true }
  else if c = '\x7b' then .goOn { s with depth := s.depth + 1 }
  else if c = '\x7d' then
    if s.depth = 0 then .underflow
    else if s.depth - 1 = 0 then .closed
    else .goOn { s with depth := s.depth - 1 }
  else .goOn s

/-- `Some(s[start..stop].to_string())` -/
def sliced (text : Text) (start stop : Nat) : Except Panic (Option Text) :=
  match slice? text start stop with
  | some t => .ok (some t)
  | none => .error .boundary

/-- The loop from byte `i` on. -/
def scanFrom (text : Text) (start : Nat) : Scan → Nat → List UInt8 → Except Panic (Option Text)
  | _, _, [] => .ok none
  | s, i, b :: bs =>
    -- `bytes[i] as char`
    match s.read (Char.ofNat b.toNat) with
    | .goOn s' => scanFrom text start s' (i + 1) bs
    | .closed => sliced text start (i + 1)
    | .underflow => .error .underflow

/-- `s.find(c)`: a number of bytes. -/
def find? (c : Char) (text : Text) : Option Nat :=
  if c ∈ text then some (utf8Len (text.takeWhile (· ≠ c))) else none

def extractJsonObject (text : Text) : Except Panic (Option Text) :=
  match find? '\x7b' text with
  | none => .ok none
  | some start => scanFrom text start {} start ((encode text).drop start)

/-! ## Verdicts -/

structure RawVerdict where
  verdict : String
  touchedLines : List String
  rationale : String
  deriving DecidableEq, Repr

structure ReplicantVerdict where
  verdict : String
  touchedLines : List String
  rationale : String
  deriving DecidableEq, Repr

/-- The fields of a `RawVerdict` that have been read. -/
structure Fields where
  verdict : Option String := none
  touchedLines : Option (List String) := none
  rationale : Option String := none

/-- A field is read once; a second one is refused. -/
def once {α : Type} (decode : Json → Option α) (old : Option α) (v : Json) : Option (Option α) :=
  match old with
  | some _ => none
  | none => (decode v).map some

def strings? : Json → Option (List String)
  | .arr items => items.mapM Json.asStr?
  | _ => none

/-- A member of the object; one of another name is ignored. -/
def Fields.visit (f : Fields) (m : String × Json) : Option Fields :=
  if m.1 = "verdict" then (once Json.asStr? f.verdict m.2).map fun v => { f with verdict := v }
  else if m.1 = "touched_lines" then
    (once strings? f.touchedLines m.2).map fun v => { f with touchedLines := v }
  else if m.1 = "rationale" then
    (once Json.asStr? f.rationale m.2).map fun v => { f with rationale := v }
  else some f

/-- The derived `Deserialize`, on the members of an object. -/
def RawVerdict.deserialize (members : List (String × Json)) : Option RawVerdict :=
  (members.foldlM Fields.visit {}).bind fun f =>
    f.verdict.map fun verdict => ⟨verdict, f.touchedLines.getD [], f.rationale.getD ""⟩

def truncate (s : Text) (n : Nat) : String :=
  if s.length ≤ n then String.ofList s else String.ofList (s.take n) ++ "…"

def known (verdict : String) : Prop :=
  verdict = "allow" ∨ verdict = "refuse" ∨ verdict = "escalate"

instance decidableKnown (verdict : String) : Decidable (known verdict) :=
  inferInstanceAs (Decidable (_ ∨ _ ∨ _))

def RawVerdict.normalized (parsed : RawVerdict) : ReplicantVerdict :=
  ⟨toAsciiLowercase (trim parsed.verdict), parsed.touchedLines, parsed.rationale⟩

/-- `read` is `serde_json::from_str`. -/
def parseVerdict (read : Text → Except String RawVerdict) (text : Text) :
    Except Panic (Except String ReplicantVerdict) :=
  match extractJsonObject text with
  | .error p => .error p
  | .ok none =>
    .ok (.error ("no JSON object in replicant response: " ++ truncate text 200))
  | .ok (some raw) =>
    match read raw with
    | .error e =>
      .ok (.error ("could not parse verdict JSON (" ++ e ++ "): " ++ truncate raw 200))
    | .ok parsed =>
      if known parsed.normalized.verdict then .ok (.ok parsed.normalized)
      else .ok (.error ("unknown verdict '" ++ parsed.verdict ++ "'"))

/-! ## The scan over characters -/

/-- The scan that stands where a walk over characters stands. -/
def ofState (st : Braces.State) : Scan :=
  { depth := st.depth, inStr := st.place ≠ .outside, escaped := st.place = .escaped }

/-- Inside an object a byte of one character does what the walk does. -/
theorem read_ofState {st : Braces.State} (hdepth : 0 < st.depth) (c : Char) :
    (ofState st).read c =
      if (Braces.step st c).depth = 0 then .closed else .goOn (ofState (Braces.step st c)) := by
  obtain ⟨place, depth⟩ := st
  simp only at hdepth
  have hne : depth ≠ 0 := by omega
  cases place with
  | outside =>
    by_cases hquote : c = '"'
    · subst hquote
      simp [ofState, Scan.read, Braces.step, hdepth, hne]
    · by_cases hopen : c = '\x7b'
      · subst hopen
        simp [ofState, Scan.read, Braces.step]
      · by_cases hclose : c = '\x7d'
        · subst hclose
          simp [ofState, Scan.read, Braces.step, hdepth, hne]
        · simp [ofState, Scan.read, Braces.step, hquote, hopen, hclose, hne]
  | inString =>
    by_cases hslash : c = '\\'
    · subst hslash
      simp [ofState, Scan.read, Braces.step, hne]
    · by_cases hquote : c = '"'
      · subst hquote
        simp [ofState, Scan.read, Braces.step, hne]
      · simp [ofState, Scan.read, Braces.step, hquote, hslash, hne]
  | escaped => simp [ofState, Scan.read, Braces.step, hne]

theorem char_ofNat_toNat {n : Nat} (h : n < 256) : (Char.ofNat n).toNat = n := by
  interval_cases n <;> rfl

/-- A character that is not written in the walk's own signs moves it out of an escape at most. -/
theorem step_of_high {c : Char} (hc : 128 ≤ c.toNat) (st : Braces.State) :
    Braces.step st c = ⟨if st.place = .escaped then .inString else st.place, st.depth⟩ := by
  have hne : ∀ d : Char, d.toNat < 128 → c ≠ d := by
    rintro d hd rfl
    omega
  obtain ⟨place, depth⟩ := st
  have hquote := hne '"' (by decide)
  have hslash := hne '\\' (by decide)
  have hopen := hne '\x7b' (by decide)
  have hclose := hne '\x7d' (by decide)
  cases place <;> simp [Braces.step, hquote, hslash, hopen, hclose]

/-- The bytes of a longer character: the first ends an escape, the others do nothing. -/
theorem scanFrom_high (text : Text) (start : Nat) (rest : List UInt8) {st : Braces.State}
    (hdepth : 0 < st.depth) {c : Char} (hc : 128 ≤ c.toNat) :
    ∀ (bytes : List UInt8) (i : Nat), (∀ b ∈ bytes, 128 ≤ b.toNat) → bytes ≠ [] →
      scanFrom text start (ofState st) i (bytes ++ rest) =
        scanFrom text start (ofState (Braces.step st c)) (i + bytes.length) rest := by
  intro bytes
  induction bytes generalizing st c with
  | nil => exact fun _ _ hne => absurd rfl hne
  | cons b bytes ih =>
    intro i hbytes _
    have hb : 128 ≤ (Char.ofNat b.toNat).toNat := by
      rw [char_ofNat_toNat b.toNat_lt]
      exact hbytes b List.mem_cons_self
    have hstep : Braces.step st (Char.ofNat b.toNat) = Braces.step st c := by
      rw [step_of_high hb, step_of_high hc]
    have hdepth' : (Braces.step st c).depth = st.depth := by rw [step_of_high hc]
    have hread := read_ofState hdepth (Char.ofNat b.toNat)
    rw [hstep, if_neg (by omega)] at hread
    rw [List.cons_append, scanFrom, hread]
    simp only
    cases bytes with
    | nil => rfl
    | cons b' bytes =>
      have hagain : Braces.step (Braces.step st c) c = Braces.step st c := by
        rw [step_of_high hc, step_of_high hc]
        cases st.place <;> rfl
      have hinside : 0 < (Braces.step st c).depth := by omega
      rw [ih hinside hc (i + 1) (fun d hd => hbytes d (List.mem_cons_of_mem _ hd)) (by simp),
        hagain]
      congr 1
      simp only [List.length_cons]
      omega

/-- One character of the text, inside an object. -/
theorem scanFrom_char (text : Text) (start i : Nat) (rest : Text) {st : Braces.State}
    (hdepth : 0 < st.depth) (c : Char) :
    scanFrom text start (ofState st) i (encode (c :: rest)) =
      if (Braces.step st c).depth = 0 then sliced text start (i + c.utf8Size)
      else scanFrom text start (ofState (Braces.step st c)) (i + c.utf8Size) (encode rest) := by
  rw [encode_cons, ← String.length_utf8EncodeChar]
  rcases Nat.lt_or_ge c.toNat 128 with hascii | hhigh
  · have hbyte : Char.ofNat (UInt8.ofNat c.toNat).toNat = c := by
      rw [UInt8.toNat_ofNat', Nat.mod_eq_of_lt (by omega), Char.ofNat_toNat]
    rw [utf8EncodeChar_ascii hascii, List.singleton_append, scanFrom, hbyte, read_ofState hdepth]
    by_cases hclosed : (Braces.step st c).depth = 0
    · rw [if_pos hclosed, if_pos hclosed]
      rfl
    · rw [if_neg hclosed, if_neg hclosed]
      rfl
  · have hdepth' : (Braces.step st c).depth = st.depth := by rw [step_of_high hhigh]
    rw [if_neg (by omega)]
    refine scanFrom_high text start (encode rest) hdepth hhigh _ i (utf8EncodeChar_high hhigh) ?_
    intro hnil
    have := String.length_utf8EncodeChar c
    rw [hnil] at this
    exact absurd this (by simpa using c.utf8Size_pos.ne)

/-- A part of the text over which the walk stays inside the object. -/
theorem scanFrom_walk (text : Text) (start : Nat) (rest : Text) :
    ∀ (word : Text) (st : Braces.State) (i : Nat),
      (∀ p, p <+: word → 1 ≤ (Braces.run st p).depth) →
      scanFrom text start (ofState st) i (encode (word ++ rest)) =
        scanFrom text start (ofState (Braces.run st word)) (i + utf8Len word) (encode rest) := by
  intro word
  induction word with
  | nil => exact fun _ _ _ => rfl
  | cons c word ih =>
    intro st i habove
    have hdepth : 0 < st.depth := habove [] List.nil_prefix
    have hnext : 1 ≤ (Braces.step st c).depth := habove [c] ⟨word, rfl⟩
    rw [List.cons_append, scanFrom_char text start i _ hdepth, if_neg (by omega),
      ih _ _ fun p hp => habove (c :: p) (List.cons_prefix_cons.2 ⟨rfl, hp⟩)]
    rw [String.utf8Len_cons, Nat.add_comm (utf8Len word), Nat.add_assoc]
    rfl

/-- What is cut out between the object's first brace and here. -/
theorem sliced_append (front mid rest : Text) :
    sliced (front ++ mid ++ rest) (utf8Len front) (utf8Len front + utf8Len mid) =
      .ok (some mid) := by
  rw [← String.utf8Len_append, sliced, slice?_append]

/-- Inside an object the scan ends with a slice of whole characters, or with the text. -/
theorem scanFrom_total (front : Text) :
    ∀ (rest mid : Text) (st : Braces.State), 0 < st.depth →
      ∃ r, scanFrom (front ++ mid ++ rest) (utf8Len front) (ofState st)
          (utf8Len front + utf8Len mid) (encode rest) = .ok r ∧
        ∀ t, r = some t → t <:+: front ++ mid ++ rest := by
  intro rest
  induction rest with
  | nil => exact fun mid st _ => ⟨none, rfl, by simp⟩
  | cons c rest ih =>
    intro mid st hdepth
    have htext : front ++ mid ++ c :: rest = front ++ (mid ++ [c]) ++ rest := by simp
    have hlen : utf8Len front + utf8Len mid + c.utf8Size =
        utf8Len front + utf8Len (mid ++ [c]) := by
      rw [String.utf8Len_append, String.utf8Len_cons, String.utf8Len_nil]
      omega
    rw [scanFrom_char _ _ _ rest hdepth, htext, hlen]
    by_cases hclosed : (Braces.step st c).depth = 0
    · rw [if_pos hclosed, sliced_append]
      refine ⟨_, rfl, ?_⟩
      rintro t ⟨⟩
      exact ⟨front, rest, rfl⟩
    · rw [if_neg hclosed]
      exact ih (mid ++ [c]) _ (Nat.pos_of_ne_zero hclosed)

/-! ## The object -/

/-- The search for an object starts at the first brace. -/
theorem extractJsonObject_eq {front : Text} (hfront : '\x7b' ∉ front) (rest : Text) :
    extractJsonObject (front ++ '\x7b' :: rest) =
      scanFrom (front ++ '\x7b' :: rest) (utf8Len front) (ofState ⟨.outside, 1⟩)
        (utf8Len front + utf8Len ['\x7b']) (encode rest) := by
  have hfind : find? '\x7b' (front ++ '\x7b' :: rest) = some (utf8Len front) := by
    rw [find?, if_pos (by simp), List.takeWhile_append_of_pos, List.takeWhile_cons_of_neg (by simp),
      List.append_nil]
    intro c hc
    simp only [decide_eq_true_eq]
    rintro rfl
    exact hfront hc
  rw [extractJsonObject, hfind]
  simp only
  rw [encode_append, ← length_encode, List.drop_left]
  rfl

theorem extractJsonObject_total (text : Text) :
    ∃ r, extractJsonObject text = .ok r ∧ ∀ t, r = some t → t <:+: text := by
  by_cases hopen : '\x7b' ∈ text
  · obtain ⟨front, rest, rfl, hfront⟩ := List.eq_append_cons_of_mem hopen
    rw [extractJsonObject_eq hfront]
    have htext : front ++ '\x7b' :: rest = front ++ ['\x7b'] ++ rest := by simp
    rw [htext]
    exact scanFrom_total front rest ['\x7b'] ⟨.outside, 1⟩ Nat.one_pos
  · refine ⟨none, ?_, by simp⟩
    rw [extractJsonObject, find?, if_neg hopen]

/-- The walk leaves the object at its own closing brace. -/
theorem extractJsonObject_object {front object : Text} (hfront : '\x7b' ∉ front)
    {members : List (String × Json)} (hobject : Writes (.obj members) object) (back : Text) :
    extractJsonObject (front ++ object ++ back) = .ok (some object) := by
  obtain ⟨body, hbody, rfl⟩ : ∃ body, Braces.Nested body ∧ object = '\x7b' :: body ++ ['\x7d'] := by
    cases hobject with
    | obj ht => exact ⟨_, ht.nested, rfl⟩
  have hwalk := Braces.walks_nested hbody 0
  have htext : front ++ ('\x7b' :: body ++ ['\x7d']) ++ back =
      front ++ '\x7b' :: (body ++ '\x7d' :: back) := by simp
  have hcut := sliced_append front ('\x7b' :: body ++ ['\x7d']) back
  rw [htext] at hcut ⊢
  rw [extractJsonObject_eq hfront, scanFrom_walk _ _ _ body _ _ hwalk.above, hwalk.ends,
    scanFrom_char _ _ _ back Nat.one_pos, if_pos (by decide), ← hcut]
  congr 1
  simp only [List.cons_append, String.utf8Len_append, String.utf8Len_cons, String.utf8Len_nil]
  omega

/-! ## The verdict an object states -/

/-- The values an object has for a key. -/
def valuesOf (members : List (String × Json)) (key : String) : List Json :=
  (members.filter fun m => m.1 = key).map Prod.snd

/-- The object has the verdict, and of the other two fields what is not at its default. -/
structure States (members : List (String × Json)) (v : RawVerdict) : Prop where
  verdict : valuesOf members "verdict" = [.str v.verdict]
  touchedLines : (valuesOf members "touched_lines" = [] ∧ v.touchedLines = []) ∨
    valuesOf members "touched_lines" = [.arr (v.touchedLines.map .str)]
  rationale : (valuesOf members "rationale" = [] ∧ v.rationale = "") ∨
    valuesOf members "rationale" = [.str v.rationale]

/-- What becomes of one field. -/
def slot {α : Type} (decode : Json → Option α) (old : Option α) (values : List Json) :
    Option (Option α) := values.foldlM (once decode) old

theorem slot_some {α : Type} (decode : Json → Option α) (a b : α) (values : List Json) :
    slot decode (some a) values = some (some b) ↔ values = [] ∧ a = b := by
  cases values with
  | nil => simp [slot]
  | cons v values => simp [slot, once]

/-- A field ends up as `b` when the object has it once, with a value that decodes to `b`; it stays
empty when the object does not have it. -/
theorem slot_none {α : Type} (decode : Json → Option α) (values : List Json) (r : Option α) :
    slot decode none values = some r ↔
      (values = [] ∧ r = none) ∨ ∃ v b, values = [v] ∧ decode v = some b ∧ r = some b := by
  cases values with
  | nil => simp [slot, eq_comm]
  | cons v values =>
    cases hv : decode v with
    | none => simp [slot, once, hv]
    | some a =>
      have hstep : slot decode none (v :: values) = slot decode (some a) values := by
        simp [slot, once, hv]
      rw [hstep]
      cases r with
      | none => cases values <;> simp [slot, once]
      | some b =>
        rw [slot_some]
        simp [hv, and_assoc]

theorem valuesOf_cons (m : String × Json) (members : List (String × Json)) (key : String) :
    valuesOf (m :: members) key =
      if m.1 = key then m.2 :: valuesOf members key else valuesOf members key := by
  unfold valuesOf
  by_cases h : m.1 = key <;> simp [h]

/-- The fields are read independently of each other. -/
theorem foldlM_visit (members : List (String × Json)) : ∀ f : Fields,
    members.foldlM Fields.visit f =
      (slot Json.asStr? f.verdict (valuesOf members "verdict")).bind fun v =>
      (slot strings? f.touchedLines (valuesOf members "touched_lines")).bind fun t =>
      (slot Json.asStr? f.rationale (valuesOf members "rationale")).map fun r => ⟨v, t, r⟩ := by
  induction members with
  | nil => exact fun f => rfl
  | cons m members ih =>
    intro f
    rw [List.foldlM_cons]
    simp only [valuesOf_cons, Fields.visit]
    by_cases hv : m.1 = "verdict"
    · simp only [hv, if_true, String.reduceEq, if_false]
      rw [slot, List.foldlM_cons]
      cases once Json.asStr? f.verdict m.2 with
      | none => rfl
      | some v => exact ih _
    · by_cases ht : m.1 = "touched_lines"
      · simp only [ht, if_true, String.reduceEq, if_false]
        rw [slot, slot, List.foldlM_cons]
        cases once strings? f.touchedLines m.2 with
        | none => simp
        | some t => exact ih _
      · by_cases hr : m.1 = "rationale"
        · simp only [hr, if_true, String.reduceEq, if_false]
          rw [slot, slot, slot, List.foldlM_cons]
          cases once Json.asStr? f.rationale m.2 with
          | none => simp
          | some r => exact ih _
        · simp only [hv, ht, hr, if_false]
          exact ih f

theorem asStr?_eq_some {v : Json} {s : String} : v.asStr? = some s ↔ v = .str s := by
  cases v <;> simp [Json.asStr?]

theorem strings?_eq_some {v : Json} {texts : List String} :
    strings? v = some texts ↔ v = .arr (texts.map .str) := by
  have hitems : ∀ items : List Json,
      items.mapM Json.asStr? = some texts ↔ items = texts.map .str := by
    induction texts with
    | nil =>
      intro items
      cases items with
      | nil => simp
      | cons v items => simp [List.mapM_cons, Option.bind_eq_some_iff]
    | cons s texts ih =>
      intro items
      cases items with
      | nil => simp
      | cons v items =>
        simp [List.mapM_cons, Option.bind_eq_some_iff, asStr?_eq_some, ih]
  cases v <;> simp [strings?, hitems]

theorem deserialize_eq_some (members : List (String × Json)) (v : RawVerdict) :
    RawVerdict.deserialize members = some v ↔ States members v := by
  obtain ⟨verdict, lines, rationale⟩ := v
  simp only [RawVerdict.deserialize, foldlM_visit, Option.bind_eq_some_iff, Option.map_eq_some_iff,
    slot_none]
  constructor
  · rintro ⟨f, ⟨_, hv, _, ht, _, hr, rfl⟩, _, rfl, heq⟩
    obtain ⟨rfl, rfl, rfl⟩ := RawVerdict.mk.inj heq
    refine ⟨?_, ?_, ?_⟩
    · rcases hv with ⟨_, hnone⟩ | ⟨x, b, hx, hb, hsome⟩
      · cases hnone
      · cases hsome
        rw [hx, asStr?_eq_some.1 hb]
    · rcases ht with ⟨hx, rfl⟩ | ⟨x, b, hx, hb, rfl⟩
      · exact .inl ⟨hx, rfl⟩
      · exact .inr (by rw [hx, strings?_eq_some.1 hb]; rfl)
    · rcases hr with ⟨hx, rfl⟩ | ⟨x, b, hx, hb, rfl⟩
      · exact .inl ⟨hx, rfl⟩
      · exact .inr (by rw [hx, asStr?_eq_some.1 hb]; rfl)
  · rintro ⟨hv, ht, hr⟩
    have ht' : ∃ t : Option (List String), t.getD [] = lines ∧
        ((valuesOf members "touched_lines" = [] ∧ t = none) ∨
          ∃ x b, valuesOf members "touched_lines" = [x] ∧ strings? x = some b ∧ t = some b) := by
      rcases ht with ⟨hx, rfl⟩ | hx
      · exact ⟨none, rfl, .inl ⟨hx, rfl⟩⟩
      · exact ⟨some lines, rfl, .inr ⟨_, _, hx, strings?_eq_some.2 rfl, rfl⟩⟩
    have hr' : ∃ r : Option String, r.getD "" = rationale ∧
        ((valuesOf members "rationale" = [] ∧ r = none) ∨
          ∃ x b, valuesOf members "rationale" = [x] ∧ x.asStr? = some b ∧ r = some b) := by
      rcases hr with ⟨hx, rfl⟩ | hx
      · exact ⟨none, rfl, .inl ⟨hx, rfl⟩⟩
      · exact ⟨some rationale, rfl, .inr ⟨_, _, hx, rfl, rfl⟩⟩
    obtain ⟨t, rfl, ht'⟩ := ht'
    obtain ⟨r, rfl, hr'⟩ := hr'
    exact ⟨⟨some verdict, t, r⟩,
      ⟨_, .inr ⟨_, _, hv, rfl, rfl⟩, t, ht', r, hr', rfl⟩, verdict, rfl, rfl⟩

/-- `serde_json` reads this text of an object as the derived code takes its members. -/
def ReadsBack (read : Text → Except String RawVerdict) (members : List (String × Json))
    (object : Text) : Prop := (read object).toOption = RawVerdict.deserialize members

/-- The scan comes to an end in every text; in a text with an object behind prose it finds that
object, and the verdict is the one the object states. -/
theorem verdict_of_the_object :
    (∀ text, ∃ r, extractJsonObject text = .ok r ∧ ∀ t, r = some t → t <:+: text) ∧
    ∀ (front object back : Text) (members : List (String × Json)),
      '\x7b' ∉ front → Writes (.obj members) object →
      extractJsonObject (front ++ object ++ back) = .ok (some object) ∧
      ∀ read, ReadsBack read members object →
        ∀ v, parseVerdict read (front ++ object ++ back) = .ok (.ok v) ↔
          ∃ raw, States members raw ∧ v = raw.normalized ∧ known v.verdict := by
  refine ⟨extractJsonObject_total, ?_⟩
  intro front object back members hfront hobject
  have hextract := extractJsonObject_object hfront hobject back
  refine ⟨hextract, ?_⟩
  intro read hread v
  have hread : RawVerdict.deserialize members = (read object).toOption := Eq.symm hread
  rw [parseVerdict, hextract]
  simp only [← deserialize_eq_some, hread]
  cases read object with
  | error e => simp [Except.toOption]
  | ok parsed =>
    simp only [Except.toOption, Option.some.injEq, exists_eq_left']
    by_cases hknown : known parsed.normalized.verdict
    · rw [if_pos hknown, Except.ok.injEq, Except.ok.injEq]
      constructor
      · intro heq
        exact ⟨heq.symm, heq ▸ hknown⟩
      · exact fun h => h.1.symm
    · rw [if_neg hknown, Except.ok.injEq]
      constructor
      · exact nofun
      · rintro ⟨rfl, h⟩
        exact absurd h hknown

def sampleObject : Text := ['\x7b'] ++ "\"verdict\": \"Refuse\"".toList ++ ['\x7d']

theorem sampleObject_writes : Writes (.obj [("verdict", .str "Refuse")]) sampleObject := by
  have hkey : WritesString "verdict" "\"verdict\"".toList :=
    ⟨"verdict".toList, writesChars_plain (by simp), rfl⟩
  have hvalue : WritesString "Refuse" "\"Refuse\"".toList :=
    ⟨"Refuse".toList, writesChars_plain (by simp), rfl⟩
  have hempty : White [] := fun _ h => absurd h List.not_mem_nil
  have hspace : White [' '] := fun c h => .inl (List.mem_singleton.1 h)
  exact .obj (.last hempty hkey hempty hspace (.str hvalue) hempty)

/-- A refusal behind a line of prose, with a brace behind it. -/
theorem verdict_of_the_object_refusal :
    parseVerdict (fun _ => .ok ⟨"Refuse", [], ""⟩)
      ("My verdict:\n".toList ++ sampleObject ++ ['\x7d']) = .ok (.ok ⟨"refuse", [], ""⟩) := by
  obtain ⟨-, hobject⟩ := verdict_of_the_object
  obtain ⟨-, hverdict⟩ := hobject "My verdict:\n".toList sampleObject ['\x7d'] _ (by decide)
    sampleObject_writes
  have hread : ReadsBack (fun _ => .ok ⟨"Refuse", [], ""⟩) [("verdict", .str "Refuse")]
      sampleObject := rfl
  have hstates : States [("verdict", .str "Refuse")] ⟨"Refuse", [], ""⟩ :=
    ⟨rfl, .inl ⟨rfl, rfl⟩, .inl ⟨rfl, rfl⟩⟩
  refine (hverdict _ hread _).2 ⟨_, hstates, ?_, ?_⟩
  · decide +kernel
  · exact .inr (.inl rfl)

end EmbraOS.Ports.Replicant
