import Mathlib
import EmbraOS.Verified.Serde
import EmbraOS.Verified.Text

/-!
# The soul at boot

Port of `embra-trustd/src/soul.rs` and of the part of `embrad/src/supervisor.rs`
that acts on its report.  The two programs share one sentence: embrad takes
trustd's report for a first boot exactly when it is `noSoulReport`, and the report
may quote any text the database sends.

`readSoulFromDb_cases` and `bothHashes_eq_ok_iff` say what trustd finds;
`boot_decision` what the boot does with its report.
-/

namespace EmbraOS.Ports.SoulVerify

open Verified.Serde
open Verified.Text

/-- The JSON writer and the digest the seal rests on.  A digest is written in
hexadecimal digits. -/
structure Digest where
  /-- `serde_json::to_string_pretty`. -/
  pretty : Json → Option String
  sha256 : String → String
  hex : ∀ text, sha256 text ≠ "" ∧ (sha256 text).toList.all (fun c => !isWhitespace c) = true

def Digest.hashOf (d : Digest) (soul : Json) : Option String := (d.pretty soul).map d.sha256

/-! ## What trustd sees -/

/-- The answer to the read of the soul document. -/
inductive DbAnswer where
  | unreachable
  /-- The status and the body, when it is JSON. -/
  | response (status : Nat) (body : Option Json)

/-- The state of the seal-hash file. -/
inductive HashFile where
  | absent
  /-- Whether it is there cannot be told. -/
  | unknown (error : String)
  /-- The content, when it can be read as text. -/
  | present (content : Option String)
  deriving DecidableEq, Repr

/-! ## Texts -/

def noSoulError : String := "Soul document not found — no soul exists (first run or data loss)"

def sealedHashWithoutSoulError : String := "Soul document missing but a sealed hash is stored"

def soulFieldMissingError : String :=
  "The stored soul document lacks its soul field; the seal cannot be checked"

/-! ## Verification -/

/-- The document in the envelope of an answer. -/
def readEnvelope (envelope : Json) : Except String Json :=
  if (envelope.index "ok").asBool? ≠ some true then
    .error ("WardSONDB error: " ++
      (((envelope.index "error").index "message").asStr?.getD "unknown error"))
  else if (envelope.index "data").isNull then .error "Soul document is null"
  else .ok (envelope.index "data")

def readSoulFromDb : DbAnswer → Except String (Option Json)
  | .unreachable => .error "Failed to connect to WardSONDB"
  | .response status body =>
    if status = 404 then .ok none
    else match body with
      | none => .error "Failed to parse WardSONDB response"
      | some envelope => (readEnvelope envelope).map some

def computeHash (d : Digest) (doc : Json) : Except String String :=
  match doc.get? "soul" with
  | none => .error soulFieldMissingError
  | some soul =>
    match d.hashOf soul with
    | none =>
      .error "The stored soul document does not serialize; the seal cannot be checked"
    | some hash => .ok hash

/-- `Err` for a file whose presence cannot be told. -/
def storedHashIsPresent : HashFile → Except String Bool
  | .absent => .ok false
  | .unknown e => .error e
  | .present _ => .ok true

def readStoredHash (path : String) : HashFile → Except String String
  | .present none => .error "Failed to read stored soul hash"
  | .present (some content) =>
    if trim content = "" then .error "Stored soul hash is empty" else .ok (trim content)
  | _ => .error ("No stored soul hash at " ++ path ++ " while a soul document exists — " ++
      "restore STATE, or remove the soul with seed-state.sh --wipe data to start over")

/-- The report on a document that is missing. -/
def missingSoul (path : String) (file : HashFile) : String :=
  match storedHashIsPresent file with
  | .ok false => noSoulError
  | .ok true => sealedHashWithoutSoulError ++ " at " ++ path ++
      " — restore DATA, or remove the hash to start over"
  | .error e => "Soul document missing and the seal hash at " ++ path ++
      " could not be checked (" ++ e ++ ") — fix STATE, or remove the hash to start over"

/-- The hash of a document and the one that is stored. -/
def bothHashes (d : Digest) (path : String) (doc : Json) (file : HashFile) :
    Except String (String × String) :=
  match computeHash d doc with
  | .error e => .error e
  | .ok computed =>
    match readStoredHash path file with
    | .error e => .error e
    | .ok stored => .ok (computed, stored)

def verifyInner (d : Digest) (path : String) (answer : DbAnswer) (file : HashFile) :
    Except String (String × String) :=
  match readSoulFromDb answer with
  | .error e => .error e
  | .ok none => .error (missingSoul path file)
  | .ok (some doc) => bothHashes d path doc file

/-- The reply of trustd. -/
structure Report where
  valid : Bool
  computed : String
  stored : String
  error : String

/-- The reply to what the verification found. -/
def reportOf : Except String (String × String) → Report
  | .ok (computed, stored) =>
    if computed = stored then ⟨true, computed, stored, ""⟩
    else ⟨false, computed, stored, "Hash mismatch"⟩
  | .error e => ⟨false, "", "", e⟩

def verify (d : Digest) (path : String) (answer : DbAnswer) (file : HashFile) : Report :=
  reportOf (verifyInner d path answer file)

def applyExpectedHash (expected : String) (r : Report) : Report :=
  if expected ≠ "" ∧ r.computed ≠ expected then
    ⟨false, r.computed, r.stored, "Expected hash " ++ expected ++ " but computed " ++ r.computed⟩
  else r

/-! ## The boot -/

/-- embrad's copy of the sentence. -/
def noSoulReport : String := "Soul document not found — no soul exists (first run or data loss)"

def isFirstRun (reason : String) : Bool := trim reason = noSoulReport

inductive SoulDecision where
  | pass
  | firstRun
  | halt (reason : String)
  deriving DecidableEq, Repr

def soulDecision (r : Report) : SoulDecision :=
  if r.valid then .pass
  else
    let reason :=
      if r.error = "" then
        "Soul hash mismatch: computed=" ++ r.computed ++ ", stored=" ++ r.stored
      else r.error
    if isFirstRun reason then .firstRun else .halt reason

/-- How the call to trustd ends. -/
inductive Rpc where
  | unreachable (cause : String)
  | failed (cause : String)
  | answered

/-- What the boot does once trustd is up. -/
def verifySoul (d : Digest) (path : String) (rpc : Rpc) (answer : DbAnswer) (file : HashFile) :
    SoulDecision :=
  match rpc with
  | .unreachable cause => .halt ("boot failed: Failed to connect to embra-trustd: " ++ cause)
  | .failed cause => .halt ("boot failed: Soul verification RPC failed: " ++ cause)
  | .answered => soulDecision (applyExpectedHash "" (verify d path answer file))

/-! ## Texts that are not the sentence -/

/-- What is left of a text after trimming is its start, past the white space. -/
theorem trim_start (s : String) : (trim s).toList <+: s.toList.dropWhile isWhitespace := by
  rw [trim, trimEnd, trimStart, String.toList_ofList, String.toList_ofList]
  have hsuffix := List.dropWhile_suffix isWhitespace
    (l := (s.toList.dropWhile isWhitespace).reverse)
  exact List.reverse_suffix.1 (by rwa [List.reverse_reverse])

/-- How the sentence begins. -/
def noSoulStart : String := "Soul document n"

theorem noSoulStart_starts : noSoulStart.toList <+: noSoulReport.toList := ⟨_, rfl⟩

/-- Words that the sentence does not begin with, nor they with its own. -/
structure OtherWords (start : String) : Prop where
  white : start.toList.head?.any (fun c => !isWhitespace c) = true
  short : start.toList.isPrefixOf noSoulStart.toList = false
  long : noSoulStart.toList.isPrefixOf start.toList = false

/-- A report that begins with other words. -/
theorem OtherWords.isFirstRun {start s : String} (h : OtherWords start)
    (hstart : start.toList <+: s.toList) : isFirstRun s = false := by
  rw [SoulVerify.isFirstRun, decide_eq_false_iff_not]
  intro heq
  have htrim := trim_start s
  -- the first character stays, so nothing is dropped in front
  have hkeep : s.toList.dropWhile isWhitespace = s.toList := by
    obtain ⟨rest, hrest⟩ := hstart
    obtain ⟨c, hc, hcw⟩ := (Option.any_eq_true _ _).1 h.white
    obtain ⟨cs, hcs⟩ := List.head?_eq_some_iff.1 hc
    rw [← hrest, hcs, List.cons_append, List.dropWhile_cons_of_neg]
    simpa using hcw
  rw [heq, hkeep] at htrim
  rcases List.prefix_or_prefix_of_prefix hstart (noSoulStart_starts.trans htrim) with hpre | hpre
  · have hshort := h.short
    rw [List.isPrefixOf_iff_prefix.2 hpre] at hshort
    cases hshort
  · have hlong := h.long
    rw [List.isPrefixOf_iff_prefix.2 hpre] at hlong
    cases hlong

theorem OtherWords.self {start : String} (h : OtherWords start) :
    SoulVerify.isFirstRun start = false := h.isFirstRun (List.prefix_refl _)

theorem starts_append (start rest : String) : start.toList <+: (start ++ rest).toList := by
  rw [String.toList_append]
  exact List.prefix_append _ _

theorem isFirstRun_noSoulError : isFirstRun noSoulError = true := by decide +kernel

/-! ## The reports -/

variable {doc : Json} {e path stored : String} {file : HashFile} {d : Digest} {answer : DbAnswer}

theorem readEnvelope_eq_ok_iff {envelope : Json} :
    readEnvelope envelope = .ok doc ↔
      (envelope.index "ok").asBool? = some true ∧ envelope.index "data" = doc ∧
        doc.isNull = false := by
  rw [readEnvelope]
  by_cases hok : (envelope.index "ok").asBool? = some true
  · rw [if_neg (not_not.2 hok)]
    cases hnull : (envelope.index "data").isNull with
    | true =>
      rw [if_pos rfl]
      constructor
      · exact nofun
      · rintro ⟨-, rfl, hnot⟩
        rw [hnull] at hnot
        cases hnot
    | false =>
      rw [if_neg Bool.false_ne_true]
      constructor
      · intro h
        obtain rfl := Except.ok.inj h
        exact ⟨hok, rfl, hnull⟩
      · rintro ⟨-, rfl, -⟩
        rfl
  · rw [if_pos hok]
    constructor
    · exact nofun
    · exact fun h => absurd h.1 hok

/-- The reports on an envelope are not the sentence: what is quoted stands after
other words. -/
theorem isFirstRun_readEnvelope {envelope : Json}
    (h : readEnvelope envelope = .error e) : isFirstRun e = false ∧ e ≠ "" := by
  rw [readEnvelope] at h
  split at h
  · obtain rfl := Except.error.inj h
    have hwords : OtherWords "WardSONDB error: " := by constructor <;> decide +kernel
    exact ⟨hwords.isFirstRun (starts_append _ _), by simp⟩
  · split at h
    · obtain rfl := Except.error.inj h
      exact ⟨OtherWords.self (by constructor <;> decide +kernel), by decide⟩
    · cases h

/-- The database answers with a document. -/
def Answered (answer : DbAnswer) (doc : Json) : Prop :=
  ∃ status envelope, answer = .response status (some envelope) ∧ status ≠ 404 ∧
    (envelope.index "ok").asBool? = some true ∧ envelope.index "data" = doc ∧ doc.isNull = false

/-- The three ends of the read. -/
theorem readSoulFromDb_cases (answer : DbAnswer) :
    ((∃ body, answer = .response 404 body) ∧ readSoulFromDb answer = .ok none) ∨
      (∃ doc, Answered answer doc ∧ readSoulFromDb answer = .ok (some doc)) ∨
      (∃ e, readSoulFromDb answer = .error e ∧ isFirstRun e = false ∧ e ≠ "") := by
  cases answer with
  | unreachable =>
    have hwords : OtherWords "Failed to connect to WardSONDB" := by
      constructor <;> decide +kernel
    exact Or.inr (Or.inr ⟨_, rfl, hwords.self, by decide⟩)
  | response status body =>
    by_cases h : status = 404
    · rw [h]
      exact Or.inl ⟨⟨body, rfl⟩, rfl⟩
    simp only [readSoulFromDb, if_neg h]
    cases body with
    | none =>
      have hwords : OtherWords "Failed to parse WardSONDB response" := by
        constructor <;> decide +kernel
      exact Or.inr (Or.inr ⟨_, rfl, hwords.self, by decide⟩)
    | some envelope =>
      dsimp only
      cases henv : readEnvelope envelope with
      | error e => exact Or.inr (Or.inr ⟨e, rfl, isFirstRun_readEnvelope henv⟩)
      | ok doc =>
        obtain ⟨hok, hdoc, hnull⟩ := readEnvelope_eq_ok_iff.1 henv
        exact Or.inr (Or.inl ⟨doc, ⟨status, envelope, rfl, h, hok, hdoc, hnull⟩, rfl⟩)

theorem isFirstRun_missingSoul :
    isFirstRun (missingSoul path file) = true ↔ file = .absent := by
  cases file with
  | absent => simp [missingSoul, storedHashIsPresent, isFirstRun_noSoulError]
  | unknown e =>
    have h : isFirstRun (missingSoul path (.unknown e)) = false := by
      have hwords : OtherWords "Soul document missing and the seal hash at " := by
        constructor <;> decide +kernel
      apply hwords.isFirstRun
      simp only [missingSoul, storedHashIsPresent, String.append_assoc]
      exact starts_append _ _
    simp [h]
  | present content =>
    have h : isFirstRun (missingSoul path (.present content)) = false := by
      have hwords : OtherWords sealedHashWithoutSoulError := by constructor <;> decide +kernel
      apply hwords.isFirstRun
      simp only [missingSoul, storedHashIsPresent, String.append_assoc]
      exact starts_append _ _
    simp [h]

theorem missingSoul_ne_empty : missingSoul path file ≠ "" := by
  cases file with
  | absent => simp [missingSoul, storedHashIsPresent, noSoulError]
  | unknown e => simp [missingSoul, storedHashIsPresent]
  | present content => simp [missingSoul, storedHashIsPresent, sealedHashWithoutSoulError]

theorem isFirstRun_computeHash
    (h : computeHash d doc = .error e) : isFirstRun e = false ∧ e ≠ "" := by
  rw [computeHash] at h
  split at h
  · obtain rfl := Except.error.inj h
    exact ⟨OtherWords.self (by constructor <;> decide +kernel), by decide⟩
  · split at h
    · obtain rfl := Except.error.inj h
      exact ⟨OtherWords.self (by constructor <;> decide +kernel), by decide⟩
    · cases h

theorem computeHash_eq_ok_iff {hash : String} :
    computeHash d doc = .ok hash ↔
      ∃ soul text, doc.get? "soul" = some soul ∧ d.pretty soul = some text ∧
        d.sha256 text = hash := by
  rw [computeHash]
  cases hsoul : doc.get? "soul" with
  | none => simp
  | some soul =>
    cases htext : d.pretty soul with
    | none => simp [Digest.hashOf, htext]
    | some text => simp [Digest.hashOf, htext]

theorem isFirstRun_readStoredHash
    (h : readStoredHash path file = .error e) : isFirstRun e = false ∧ e ≠ "" := by
  have hgone : isFirstRun ("No stored soul hash at " ++ path ++
      " while a soul document exists — " ++
      "restore STATE, or remove the soul with seed-state.sh --wipe data to start over") =
        false := by
    have hwords : OtherWords "No stored soul hash at " := by constructor <;> decide +kernel
    apply hwords.isFirstRun
    simp only [String.append_assoc]
    exact starts_append _ _
  rw [readStoredHash.eq_def] at h
  split at h
  · obtain rfl := Except.error.inj h
    exact ⟨OtherWords.self (by constructor <;> decide +kernel), by decide⟩
  · split at h
    · obtain rfl := Except.error.inj h
      exact ⟨OtherWords.self (by constructor <;> decide +kernel), by decide⟩
    · cases h
  · obtain rfl := Except.error.inj h
    exact ⟨hgone, by simp⟩

theorem readStoredHash_eq_ok_iff :
    readStoredHash path file = .ok stored ↔
      ∃ content, file = .present (some content) ∧ trim content = stored ∧ stored ≠ "" := by
  cases file with
  | absent => simp [readStoredHash]
  | unknown e => simp [readStoredHash]
  | present content =>
    cases content with
    | none => simp [readStoredHash]
    | some content =>
      rw [readStoredHash]
      by_cases hempty : trim content = ""
      · rw [if_pos hempty]
        constructor
        · exact nofun
        · rintro ⟨content', heq, rfl, hne⟩
          rw [← Option.some.inj (HashFile.present.inj heq)] at hne
          exact absurd hempty hne
      · rw [if_neg hempty]
        constructor
        · intro h
          obtain rfl := Except.ok.inj h
          exact ⟨content, rfl, rfl, hempty⟩
        · rintro ⟨content', heq, rfl, -⟩
          rw [Option.some.inj (HashFile.present.inj heq)]

theorem isFirstRun_bothHashes (h : bothHashes d path doc file = .error e) :
    isFirstRun e = false ∧ e ≠ "" := by
  rw [bothHashes] at h
  split at h
  · rename_i hhash
    obtain rfl := Except.error.inj h
    exact isFirstRun_computeHash hhash
  · split at h
    · rename_i hstored
      obtain rfl := Except.error.inj h
      exact isFirstRun_readStoredHash hstored
    · cases h

theorem bothHashes_eq_ok_iff {computed : String} :
    bothHashes d path doc file = .ok (computed, stored) ↔
      computeHash d doc = .ok computed ∧ readStoredHash path file = .ok stored := by
  rw [bothHashes]
  cases computeHash d doc with
  | error e => simp
  | ok hash =>
    cases readStoredHash path file with
    | error e => simp
    | ok content => simp

/-! ## The decision -/

/-- The stored soul matches its hash. -/
def SealHolds (d : Digest) (answer : DbAnswer) (file : HashFile) : Prop :=
  ∃ doc soul text content, Answered answer doc ∧ doc.get? "soul" = some soul ∧
    d.pretty soul = some text ∧ file = .present (some content) ∧ trim content = d.sha256 text

/-- The database has no soul document and no hash is stored. -/
def NothingSealed (answer : DbAnswer) (file : HashFile) : Prop :=
  (∃ body, answer = .response 404 body) ∧ file = .absent

/-- A failed verification with a report of its own. -/
theorem soulDecision_of_report {computed : String} (hfirst : isFirstRun e = false)
    (hne : e ≠ "") : soulDecision ⟨false, computed, stored, e⟩ = .halt e := by
  rw [soulDecision, if_neg Bool.false_ne_true]
  dsimp only
  rw [if_neg hne, hfirst]
  rfl

theorem soulDecision_missingSoul (path : String) (file : HashFile) :
    soulDecision ⟨false, "", "", missingSoul path file⟩ =
      if file = .absent then .firstRun else .halt (missingSoul path file) := by
  by_cases habsent : file = .absent
  · rw [if_pos habsent, soulDecision, if_neg Bool.false_ne_true]
    dsimp only
    rw [if_neg missingSoul_ne_empty, isFirstRun_missingSoul.2 habsent]
    rfl
  · rw [if_neg habsent]
    apply soulDecision_of_report _ missingSoul_ne_empty
    rw [← Bool.not_eq_true]
    exact fun h => habsent (isFirstRun_missingSoul.1 h)

/-- What the boot does with a document that is there. -/
theorem soulDecision_bothHashes (d : Digest) (path : String) (doc : Json) (file : HashFile) :
    (soulDecision (reportOf (bothHashes d path doc file)) = .pass ∧
        ∃ hash, bothHashes d path doc file = .ok (hash, hash)) ∨
      ((∃ reason, soulDecision (reportOf (bothHashes d path doc file)) = .halt reason) ∧
        ¬ ∃ hash, bothHashes d path doc file = .ok (hash, hash)) := by
  cases hboth : bothHashes d path doc file with
  | error e =>
    obtain ⟨hfirst, hne⟩ := isFirstRun_bothHashes hboth
    exact Or.inr ⟨⟨e, soulDecision_of_report hfirst hne⟩, by simp⟩
  | ok hashes =>
    obtain ⟨computed, stored⟩ := hashes
    by_cases hmatch : computed = stored
    · rw [hmatch]
      exact Or.inl ⟨by simp [reportOf, soulDecision], stored, rfl⟩
    · refine Or.inr ⟨⟨"Hash mismatch", ?_⟩, ?_⟩
      · rw [reportOf, if_neg hmatch]
        have hwords : OtherWords "Hash mismatch" := by constructor <;> decide +kernel
        exact soulDecision_of_report hwords.self (by decide)
      · rintro ⟨hash, heq⟩
        obtain ⟨rfl, rfl⟩ := Prod.mk.inj (Except.ok.inj heq)
        exact hmatch rfl

theorem Answered.not_missing (h : Answered answer doc) :
    ¬ ∃ body, answer = .response 404 body := by
  obtain ⟨status, envelope, rfl, hstatus, -⟩ := h
  rintro ⟨body, heq⟩
  exact hstatus (DbAnswer.response.inj heq).1

theorem Answered.readSoulFromDb (h : Answered answer doc) :
    readSoulFromDb answer = .ok (some doc) := by
  obtain ⟨status, envelope, rfl, hstatus, hok, hdoc, hnull⟩ := h
  simp only [SoulVerify.readSoulFromDb, if_neg hstatus,
    readEnvelope_eq_ok_iff.2 ⟨hok, hdoc, hnull⟩]
  rfl

/-- The seal holds when the two hashes of the document that is read are equal.  A
digest is never empty, so the check on the stored one passes. -/
theorem sealHolds_iff (d : Digest) (path : String) (hdoc : Answered answer doc) :
    SealHolds d answer file ↔ ∃ hash, bothHashes d path doc file = .ok (hash, hash) := by
  constructor
  · rintro ⟨doc', soul, text, content, hdoc', hsoul, htext, rfl, hhash⟩
    have hsame : some doc' = some doc :=
      Except.ok.inj (hdoc'.readSoulFromDb.symm.trans hdoc.readSoulFromDb)
    obtain rfl := Option.some.inj hsame
    refine ⟨d.sha256 text, bothHashes_eq_ok_iff.2 ⟨?_, ?_⟩⟩
    · exact computeHash_eq_ok_iff.2 ⟨soul, text, hsoul, htext, rfl⟩
    · exact readStoredHash_eq_ok_iff.2 ⟨content, rfl, hhash, (d.hex text).1⟩
  · rintro ⟨hash, hboth⟩
    obtain ⟨hcomputed, hstored⟩ := bothHashes_eq_ok_iff.1 hboth
    obtain ⟨soul, text, hsoul, htext, rfl⟩ := computeHash_eq_ok_iff.1 hcomputed
    obtain ⟨content, hfile, htrim, -⟩ := readStoredHash_eq_ok_iff.1 hstored
    exact ⟨doc, soul, text, content, hdoc, hsoul, htext, hfile, htrim⟩

/-- embrad sends no expected hash. -/
theorem applyExpectedHash_empty (r : Report) : applyExpectedHash "" r = r := by
  rw [applyExpectedHash, if_neg]
  exact fun h => h.1 rfl

/-- The decision on trustd's reply. -/
theorem soulDecision_verify (d : Digest) (path : String) (answer : DbAnswer) (file : HashFile) :
    (soulDecision (verify d path answer file) = .firstRun ∧ NothingSealed answer file ∧
        ¬ SealHolds d answer file) ∨
      (soulDecision (verify d path answer file) = .pass ∧ SealHolds d answer file ∧
        ¬ NothingSealed answer file) ∨
      ((∃ reason, soulDecision (verify d path answer file) = .halt reason) ∧
        ¬ SealHolds d answer file ∧ ¬ NothingSealed answer file) := by
  rw [verify, verifyInner]
  rcases readSoulFromDb_cases answer with ⟨hmissing, hread⟩ | ⟨doc, hdoc, hread⟩ |
    ⟨e, hread, hfirst, hne⟩
  · -- no document: the stored hash decides
    have hseal : ¬ SealHolds d answer file := by
      rintro ⟨doc, -, -, -, hdoc, -⟩
      exact hdoc.not_missing hmissing
    rw [hread]
    dsimp only [reportOf]
    rw [soulDecision_missingSoul]
    by_cases habsent : file = .absent
    · rw [if_pos habsent]
      exact Or.inl ⟨rfl, ⟨hmissing, habsent⟩, hseal⟩
    · rw [if_neg habsent]
      exact Or.inr (Or.inr ⟨⟨_, rfl⟩, hseal, fun h => habsent h.2⟩)
  · -- a document: the two hashes decide
    have hnothing : ¬ NothingSealed answer file := fun h => hdoc.not_missing h.1
    rw [hread, sealHolds_iff d path hdoc]
    rcases soulDecision_bothHashes d path doc file with ⟨hpass, hseal⟩ | ⟨hhalt, hseal⟩
    · exact Or.inr (Or.inl ⟨hpass, hseal, hnothing⟩)
    · exact Or.inr (Or.inr ⟨hhalt, hseal, hnothing⟩)
  · -- the read failed
    rw [hread]
    refine Or.inr (Or.inr ⟨⟨e, soulDecision_of_report hfirst hne⟩, ?_, ?_⟩)
    · rintro ⟨doc, -, -, -, hdoc, -⟩
      rw [hdoc.readSoulFromDb] at hread
      cases hread
    · rintro ⟨⟨body, rfl⟩, -⟩
      cases hread

theorem verifySoul_answered (d : Digest) (path : String) (answer : DbAnswer) (file : HashFile) :
    verifySoul d path .answered answer file = soulDecision (verify d path answer file) := by
  rw [verifySoul, applyExpectedHash_empty]

/-- The boot enters Learning Mode on an answer that no soul document exists, with no
hash stored, and on nothing else; it goes on where the stored hash is that of the
stored soul, and nowhere else; all other boots halt. -/
theorem boot_decision (d : Digest) (path : String) (rpc : Rpc) (answer : DbAnswer)
    (file : HashFile) :
    (verifySoul d path rpc answer file = .firstRun ↔
        rpc = .answered ∧ NothingSealed answer file) ∧
      (verifySoul d path rpc answer file = .pass ↔
        rpc = .answered ∧ SealHolds d answer file) ∧
      ((∃ reason, verifySoul d path rpc answer file = .halt reason) ↔
        ¬ (rpc = .answered ∧ NothingSealed answer file) ∧
          ¬ (rpc = .answered ∧ SealHolds d answer file)) := by
  cases rpc with
  | unreachable | failed => simp [verifySoul]
  | answered =>
    rw [verifySoul_answered]
    rcases soulDecision_verify d path answer file with ⟨h, hnothing, hseal⟩ |
      ⟨h, hseal, hnothing⟩ | ⟨⟨reason, h⟩, hseal, hnothing⟩
    · simp [h, hnothing, hseal]
    · simp [h, hnothing, hseal]
    · simp [h, hnothing, hseal]

end EmbraOS.Ports.SoulVerify
