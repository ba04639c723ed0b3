import EmbraOS.Verified.Slice
import EmbraOS.Verified.Text
import EmbraOS.Verified.Utf8

/-!
# Stored secrets, matched by value

Port of `SecretSet` in `embra-tools-core/src/lib.rs`: every stored secret in
the forms it could take on the wire, and the search of a text for one of them.

`add_found` says that a secret that was added is found in every text that has
one of its forms, whatever is added after it.
-/

namespace EmbraOS.Ports.Secrets

open Verified
open Verified.Slice
open Verified.Text

structure SecretEntry where
  kind : String
  forms : List String
  deriving DecidableEq, Repr

structure SecretSet where
  entries : List SecretEntry := []
  deriving DecidableEq, Repr

/-- A shorter value is not treated as a secret. -/
def secretMinBytes : Nat := 8

/-! ## The forms -/

/-- Split at the first white space. -/
def splitOnce (s : String) : Option (String × String) :=
  match s.toList.dropWhile (fun c => !isWhitespace c) with
  | [] => none
  | _ :: rest =>
    some (String.ofList (s.toList.takeWhile (fun c => !isWhitespace c)),
      String.ofList rest)

/-- The token of a header value `Bearer <token>`. -/
def bareBearerToken (value : String) : Option String := do
  let (scheme, token) ← splitOnce value
  if toAsciiLowercase scheme = "bearer" ∧ trim token ≠ "" then some (trim token)
  else none

def upperHex (n : Nat) : Char :=
  "0123456789ABCDEF".toList.getD n '0'

def isUnreserved (b : UInt8) : Bool :=
  let c := Char.ofNat b.toNat
  isAsciiAlphanumeric c || c == '-' || c == '.' || c == '_' || c == '~'

/-- RFC 3986: every byte but the unreserved ones as `%XX`. -/
def percentEncode (s : String) : String :=
  String.ofList ((Utf8.encode s.toList).flatMap (fun b =>
    if isUnreserved b then [Char.ofNat b.toNat]
    else ['%', upperHex (b.toNat / 16), upperHex (b.toNat % 16)]))

/-- Up to three bytes as two to four letters of the alphabet. -/
def base64Group (alphabet : List Char) (chunk : List UInt8) : List Char :=
  let at' := fun i => (chunk.getD i 0).toNat
  let n := at' 0 * 65536 + at' 1 * 256 + at' 2
  let letter := fun k => alphabet.getD (k % 64) 'A'
  [letter (n / 262144), letter (n / 4096)] ++
    (if 1 < chunk.length then [letter (n / 64)] else []) ++
    (if 2 < chunk.length then [letter n] else [])

def base64With (alphabet : List Char) (bytes : List UInt8) : String :=
  String.ofList ((chunks 3 bytes).flatMap (base64Group alphabet))

def base64StandardUnpadded (bytes : List UInt8) : String :=
  base64With "ABCDEFGHIJKLMNOPQRSTUVWXYZabcdefghijklmnopqrstuvwxyz0123456789+/".toList
    bytes

def base64UrlUnpadded (bytes : List UInt8) : String :=
  base64With "ABCDEFGHIJKLMNOPQRSTUVWXYZabcdefghijklmnopqrstuvwxyz0123456789-_".toList
    bytes

/-- The forms of one value, in the order they are tried. -/
def wireForms (v : String) : List String :=
  [v, percentEncode v, base64StandardUnpadded (Utf8.encode v.toList),
    base64UrlUnpadded (Utf8.encode v.toList)]

/-! ## The set -/

def pushForm (forms : List String) (form : String) : List String :=
  if secretMinBytes ≤ (Utf8.encode form.toList).length ∧ form ∉ forms then
    forms ++ [form]
  else forms

def add (set : SecretSet) (kind value : String) : SecretSet :=
  let value := trim value
  if (Utf8.encode value.toList).length < secretMinBytes then set
  else
    let values := value :: (bareBearerToken value).toList
    ⟨set.entries ++ [⟨kind, (values.flatMap wireForms).foldl pushForm []⟩]⟩

/-- The kind of the first stored secret that the text has in some form. -/
def foundIn (set : SecretSet) (text : String) : Option String :=
  (set.entries.find? (fun e => e.forms.any (fun f => contains text f))).map
    SecretEntry.kind

/-! ## What is found -/

/-- The text has no stored secret in any form. -/
theorem foundIn_eq_none {set : SecretSet} {text : String} :
    foundIn set text = none ↔
      ∀ e ∈ set.entries, ∀ f ∈ e.forms, contains text f = false := by
  simp [foundIn]

/-- A form that is long enough is kept. -/
theorem mem_foldl_pushForm (forms : List String) :
    ∀ (acc : List String) (f : String),
      f ∈ forms.foldl pushForm acc ↔
        f ∈ acc ∨ f ∈ forms ∧ secretMinBytes ≤ (Utf8.encode f.toList).length := by
  induction forms with
  | nil => simp
  | cons form forms ih =>
    intro acc f
    have hpush : f ∈ pushForm acc form ↔
        f ∈ acc ∨ f = form ∧ secretMinBytes ≤ (Utf8.encode form.toList).length := by
      unfold pushForm
      split
      · rename_i h
        simp [h.1]
      · rename_i h
        rw [not_and, Decidable.not_not] at h
        constructor
        · exact Or.inl
        · rintro (hmem | ⟨rfl, hlen⟩)
          · exact hmem
          · exact h hlen
    rw [List.foldl_cons, ih, hpush, List.mem_cons]
    constructor
    · rintro ((hacc | ⟨rfl, hlen⟩) | ⟨hmem, hlen⟩)
      · exact Or.inl hacc
      · exact Or.inr ⟨Or.inl rfl, hlen⟩
      · exact Or.inr ⟨Or.inr hmem, hlen⟩
    · rintro (hacc | ⟨rfl | hmem, hlen⟩)
      · exact Or.inl (Or.inl hacc)
      · exact Or.inl (Or.inr ⟨rfl, hlen⟩)
      · exact Or.inr ⟨hmem, hlen⟩

/-- What is in the set stays. -/
theorem mem_add {set : SecretSet} {kind value : String} {e : SecretEntry}
    (h : e ∈ set.entries) : e ∈ (add set kind value).entries := by
  unfold add
  dsimp only
  split
  · exact h
  · exact List.mem_append_left _ h

theorem mem_addAll (later : List (String × String)) {e : SecretEntry} :
    ∀ set : SecretSet, e ∈ set.entries →
      e ∈ (later.foldl (fun s kv => add s kv.1 kv.2) set).entries := by
  induction later with
  | nil => exact fun _ h => h
  | cons kv later ih =>
    intro set h
    rw [List.foldl_cons]
    exact ih _ (mem_add h)

/-- The entry of a value that is long enough has its forms, and those of the token in it. -/
theorem exists_entry_add (set : SecretSet) (kind : String) {value v form : String}
    (hvalue : secretMinBytes ≤ (Utf8.encode (trim value).toList).length)
    (hv : v = trim value ∨ bareBearerToken (trim value) = some v) (hform : form ∈ wireForms v)
    (hlen : secretMinBytes ≤ (Utf8.encode form.toList).length) :
    ∃ e ∈ (add set kind value).entries, form ∈ e.forms := by
  unfold add
  dsimp only
  rw [if_neg (Nat.not_lt.2 hvalue)]
  refine ⟨_, List.mem_append_right _ (List.mem_singleton.2 rfl), ?_⟩
  rw [mem_foldl_pushForm]
  refine Or.inr ⟨List.mem_flatMap.2 ⟨v, ?_, hform⟩, hlen⟩
  simpa [eq_comm] using hv

/-- **A stored secret is found**, in every form that is long enough, and stays
found whatever is added later. -/
theorem add_found (set : SecretSet) (kind value : String) {form text : String}
    (hvalue : secretMinBytes ≤ (Utf8.encode (trim value).toList).length)
    (hform : form ∈ wireForms (trim value))
    (hlen : secretMinBytes ≤ (Utf8.encode form.toList).length)
    (htext : contains text form = true) (later : List (String × String)) :
    foundIn (later.foldl (fun s kv => add s kv.1 kv.2) (add set kind value)) text ≠
      none := by
  obtain ⟨e, he, hf⟩ := exists_entry_add set kind hvalue (.inl rfl) hform hlen
  intro hnone
  have hfalse := foundIn_eq_none.1 hnone e (mem_addAll later _ he) form hf
  exact Bool.false_ne_true (hfalse.symm.trans htext)

example : base64StandardUnpadded (Utf8.encode "fooba".toList) = "Zm9vYmE" := by
  decide +kernel

end EmbraOS.Ports.Secrets
