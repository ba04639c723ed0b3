import EmbraOS.Verified.EditScript
import EmbraOS.Ports.Secrets

/-!
# Redaction of stored secrets

Port of `SecretSet::redact` in `embra-tools-core/src/lib.rs`: the forms of the
stored secrets are replaced one after the other, each in the text that the ones
before it left.

A later form may overlap what an earlier one put in, so the output is described
by an edit script of the text: every edit replaces an occurrence of a stored
form by the placeholder of its kind.  `redact_spec` says that when all is done
no stretch of the original text that is left has a stored form in it.
-/

namespace EmbraOS.Ports.Secrets

open Verified
open Verified.Text
open Verified.EditScript

/-! ## The code -/

def placeholder (kind : String) : String := "[" ++ kind ++ " redacted]"

/-- One turn of the inner loop. -/
def redactForm (text kind : String) (out : Option String) (form : String) : Option String :=
  let current := out.getD text
  if contains current form then some (replace current form (placeholder kind)) else out

def redact (set : SecretSet) (text : String) : Option String :=
  set.entries.foldl (fun out e => e.forms.foldl (redactForm text e.kind) out) none

/-- The set that a list of kinds and values is added to from nothing. -/
def ofSecrets (secrets : List (String × String)) : SecretSet :=
  secrets.foldl (fun set kv => add set kv.1 kv.2) {}

/-! ## The forms of a set -/

/-- No form is shorter than `secretMinBytes`. -/
def Long (set : SecretSet) : Prop :=
  ∀ e ∈ set.entries, ∀ f ∈ e.forms, secretMinBytes ≤ (Utf8.encode f.toList).length

/-- No form is empty. -/
def Proper (set : SecretSet) : Prop := ∀ e ∈ set.entries, ∀ f ∈ e.forms, f.toList ≠ []

variable {set : SecretSet} {p : String × String} {text : String}

theorem Long.proper (h : Long set) : Proper set := by
  intro e he f hf hnil
  have hlen := h e he f hf
  rw [hnil] at hlen
  exact absurd hlen (by decide)

theorem long_add (h : Long set) (kind value : String) :
    Long (add set kind value) := by
  unfold add
  dsimp only
  split
  · exact h
  intro e he f hf
  rcases List.mem_append.1 he with he | he
  · exact h e he f hf
  · rw [List.mem_singleton.1 he] at hf
    dsimp only at hf
    rw [mem_foldl_pushForm] at hf
    rcases hf with hf | hf
    · exact absurd hf List.not_mem_nil
    · exact hf.2

theorem long_addAll (secrets : List (String × String)) :
    ∀ set : SecretSet, Long set →
      Long (secrets.foldl (fun set kv => add set kv.1 kv.2) set) := by
  induction secrets with
  | nil => exact fun _ h => h
  | cons kv secrets ih =>
    intro set h
    rw [List.foldl_cons]
    exact ih _ (long_add h kv.1 kv.2)

theorem long_ofSecrets (secrets : List (String × String)) : Long (ofSecrets secrets) := by
  apply long_addAll
  intro e he
  exact absurd he List.not_mem_nil

/-- The pairs of kind and form, in the order in which they are tried. -/
def pairs (set : SecretSet) : List (String × String) :=
  set.entries.flatMap (fun e => e.forms.map (fun f => (e.kind, f)))

theorem mem_pairs :
    p ∈ pairs set ↔ ∃ e ∈ set.entries, e.kind = p.1 ∧ p.2 ∈ e.forms := by
  simp only [pairs, List.mem_flatMap, List.mem_map]
  constructor
  · rintro ⟨e, he, f, hf, rfl⟩
    exact ⟨e, he, rfl, hf⟩
  · rintro ⟨e, he, hkind, hf⟩
    exact ⟨e, he, p.2, hf, by rw [hkind]⟩

theorem redact_eq_foldl (set : SecretSet) (text : String) :
    redact set text = (pairs set).foldl (fun out p => redactForm text p.1 out p.2) none := by
  simp only [redact, pairs, List.foldl_flatMap, List.foldl_map]

/-! ## Redaction as edits -/

/-- A stored form may be replaced by the placeholder of its kind. -/
def Stored (set : SecretSet) (pat rep : List Char) : Prop :=
  ∃ e ∈ set.entries, ∃ f ∈ e.forms, pat = f.toList ∧ rep = (placeholder e.kind).toList

theorem placeholder_ne_nil (kind : String) : (placeholder kind).toList ≠ [] := by
  simp [placeholder]

theorem Stored.rep_ne_nil (p r : List Char) (h : Stored set p r) :
    r ≠ [] := by
  obtain ⟨e, -, f, -, -, rfl⟩ := h
  exact placeholder_ne_nil e.kind

/-- What holds of the text so far when the forms of `tried` have been tried. -/
structure Redacting (set : SecretSet) (text : String) (tried : List (String × String))
    (out : Option String) : Prop where
  script : ∃ s, Edited (Stored set) (untouched text.toList) s ∧
    new s = (out.getD text).toList ∧ ∀ p ∈ tried, Absent p.2.toList s
  unchanged : out = none ↔ ∀ p ∈ tried, contains text p.2 = false

/-- One form is tried: the forms tried before it stay absent. -/
theorem Redacting.step (hset : Proper set) {tried : List (String × String)} {out : Option String}
    (hp : p ∈ pairs set) (htried : ∀ q ∈ tried, q ∈ pairs set)
    (h : Redacting set text tried out) :
    Redacting set text (tried ++ [p]) (redactForm text p.1 out p.2) := by
  have hproper : ∀ q ∈ pairs set, q.2.toList ≠ [] := by
    intro q hq
    obtain ⟨e, he, -, hf⟩ := mem_pairs.1 hq
    exact hset e he q.2 hf
  obtain ⟨e, he, hkind, hf⟩ := mem_pairs.1 hp
  obtain ⟨s, hedit, hnew, habsent⟩ := h.script
  unfold redactForm
  dsimp only
  cases hc : contains (out.getD text) p.2 with
  | false =>
    have hnot : ¬ p.2.toList <:+: new s := by
      rw [hnew, ← containsList_iff]
      exact ne_true_of_eq_false hc
    refine ⟨⟨s, hedit, hnew, ?_⟩, ?_⟩
    · rw [List.forall_mem_append, List.forall_mem_singleton]
      exact ⟨habsent, absent_of_new hnot⟩
    · rw [List.forall_mem_append, List.forall_mem_singleton]
      show out = none ↔ _
      constructor
      · intro hout
        rw [hout] at hc
        exact ⟨h.unchanged.1 hout, hc⟩
      · exact fun hall => h.unchanged.2 hall.1
  | true =>
    have hrule : Stored set p.2.toList (placeholder p.1).toList :=
      ⟨e, he, p.2, hf, rfl, by rw [hkind]⟩
    obtain ⟨piece, pieces, htext, hrep, hfree⟩ :=
      replaceList_eq_weave (placeholder p.1).toList (hproper p hp) _
        (out.getD text).toList le_rfl
    obtain ⟨s', hedit', hnew', habsent'⟩ :=
      exists_replaceAll hrule (hproper p hp) (placeholder_ne_nil p.1) pieces piece s
        (hnew.trans htext) hfree
    refine ⟨⟨s', hedit.trans hedit', ?_, ?_⟩, ?_⟩
    · rw [hnew', ← hrep]
      exact String.toList_ofList.symm
    · rw [List.forall_mem_append, List.forall_mem_singleton]
      refine ⟨?_, habsent'⟩
      intro q hq
      exact hedit'.absent Stored.rep_ne_nil (hproper q (htried q hq)) (habsent q hq)
    · rw [if_pos rfl, List.forall_mem_append, List.forall_mem_singleton]
      constructor
      · exact nofun
      -- A text that changed had a form tried before, or has this one.
      intro hall
      have hout := h.unchanged.2 hall.1
      rw [hout] at hc
      exact absurd (hc.symm.trans hall.2) (by decide)

theorem Redacting.run (hset : Proper set) :
    ∀ (ps tried : List (String × String)) (out : Option String),
      (∀ p ∈ tried ++ ps, p ∈ pairs set) → Redacting set text tried out →
      Redacting set text (tried ++ ps)
        (ps.foldl (fun out p => redactForm text p.1 out p.2) out) := by
  intro ps
  induction ps with
  | nil =>
    intro tried out _ h
    rwa [List.append_nil]
  | cons p ps ih =>
    intro tried out hmem h
    rw [List.append_cons] at hmem ⊢
    have hsplit := List.forall_mem_append.1 (List.forall_mem_append.1 hmem).1
    apply ih _ _ hmem
    exact h.step hset (hsplit.2 p List.mem_cons_self) hsplit.1

theorem redacting_redact (hset : Proper set) (text : String) :
    Redacting set text (pairs set) (redact set text) := by
  rw [redact_eq_foldl]
  have hstart : Redacting set text [] none :=
    ⟨⟨untouched text.toList, .refl, new_untouched _, by simp⟩, by simp⟩
  exact Redacting.run hset (pairs set) [] none (fun p hp => hp) hstart

theorem exists_entry_ofSecrets {secrets : List (String × String)} (hp : p ∈ secrets)
    {v form : String} (hvalue : secretMinBytes ≤ (Utf8.encode (trim p.2).toList).length)
    (hv : v = trim p.2 ∨ bareBearerToken (trim p.2) = some v) (hform : form ∈ wireForms v)
    (hlen : secretMinBytes ≤ (Utf8.encode form.toList).length) :
    ∃ e ∈ (ofSecrets secrets).entries, form ∈ e.forms := by
  obtain ⟨before, after, rfl⟩ := List.append_of_mem hp
  rw [ofSecrets, List.foldl_append, List.foldl_cons]
  obtain ⟨e, he, hf⟩ := exists_entry_add (ofSecrets before) p.1 hvalue hv hform hlen
  exact ⟨e, mem_addAll after _ he, hf⟩

/-- **Redaction removes every stored secret.**  The output comes from the text by
edits that each replace an occurrence of a stored form by the placeholder of its
kind; no stretch of the original text that is left has a stored form in it, nor a
form of eight bytes or more of a secret that is as long, or of its bare token; and
there is an output exactly when a stored secret is found. -/
theorem redact_spec (secrets : List (String × String)) (text : String) :
    (redact (ofSecrets secrets) text = none ↔ foundIn (ofSecrets secrets) text = none) ∧
      ∃ s : Script Char,
        Edited (Stored (ofSecrets secrets)) (untouched text.toList) s ∧
        old s = text.toList ∧
        new s = ((redact (ofSecrets secrets) text).getD text).toList ∧
        (∀ e ∈ (ofSecrets secrets).entries, ∀ f ∈ e.forms, Absent f.toList s) ∧
        ∀ p ∈ secrets, 8 ≤ (Utf8.encode (trim p.2).toList).length →
          ∀ v, v = trim p.2 ∨ bareBearerToken (trim p.2) = some v →
          ∀ f ∈ [v, percentEncode v, base64StandardUnpadded (Utf8.encode v.toList),
            base64UrlUnpadded (Utf8.encode v.toList)],
          8 ≤ (Utf8.encode f.toList).length → Absent f.toList s := by
  have hred := redacting_redact (long_ofSecrets secrets).proper text
  constructor
  · rw [hred.unchanged, foundIn_eq_none]
    constructor
    · intro h e he f hf
      exact h (e.kind, f) (mem_pairs.2 ⟨e, he, rfl, hf⟩)
    · intro h p hp
      obtain ⟨e, he, -, hf⟩ := mem_pairs.1 hp
      exact h e he p.2 hf
  · obtain ⟨s, hedit, hnew, habsent⟩ := hred.script
    have hstored : ∀ e ∈ (ofSecrets secrets).entries, ∀ f ∈ e.forms, Absent f.toList s :=
      fun e he f hf => habsent (e.kind, f) (mem_pairs.2 ⟨e, he, rfl, hf⟩)
    refine ⟨s, hedit, ?_, hnew, hstored, ?_⟩
    · rw [hedit.old_eq, old_untouched]
    · intro p hp hvalue v hv f hf hlen
      obtain ⟨e, he, hmem⟩ := exists_entry_ofSecrets hp hvalue hv hf hlen
      exact hstored e he f hmem

end EmbraOS.Ports.Secrets
