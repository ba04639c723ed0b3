import EmbraOS.Verified.Calls
import EmbraOS.Ports.SoulVerify

/-!
# The seal of the soul

Port of `embra-brain/src/learning/soul.rs`: the seal, the probe of the seal with its
memory, and what a turn is built from.  The seal writes a collection and a document
to the database and a hash to STATE; the boot (`SoulVerify`) and the turns read them
later, each with its own test of what sealed means.

`sealSoul_cut_iff` follows every cut of the seal through both; `turn_after_seal_iff`
follows the memory of the probe over a seal.
-/

namespace EmbraOS.Ports.SoulSeal

open Verified.Calls
open Verified.Serde
open Verified.Text
open Ports.SoulVerify

def soulHashPath : String := "/embra/state/soul.sha256"

/-! ## The two stores -/

structure Stores where
  /-- The documents of `soul.invariant`, oldest first; `none` while the collection does
  not exist. -/
  invariant : Option (List Json)
  /-- `soulHashPath` on STATE. -/
  hashFile : HashFile

/-- The document under the well-known id. -/
def isSoulDoc (doc : Json) : Bool := (doc.get? "_id").bind Json.asStr? = some "soul"

def Stores.soulDoc (s : Stores) : Option Json := s.invariant.bind (fun docs => docs.find? isSoulDoc)

inductive SealCall where
  | collectionExists
  | createCollection
  | write (doc : Json)
  | read
  | queryFirst
  /-- `write_soul_hash`: the file is replaced in one step. -/
  | writeSoulHash (hash : String)

@[reducible] def api : Api where
  Call := SealCall
  Ans
    | .collectionExists => Bool
    | .createCollection => Unit
    | .write _ => Unit
    | .read => Option Json
    | .queryFirst => Option Json
    | .writeSoulHash _ => Unit

/-- A create of what is there and a write under an id that is taken are refused (409), and
so are a write to and a query of a collection that does not exist. -/
def server : Server api Stores where
  exec
    | .collectionExists, s => some (s, s.invariant.isSome)
    | .createCollection, s =>
      match s.invariant with
      | none => some ({ s with invariant := some [] }, ())
      | some _ => none
    | .write doc, s =>
      match s.invariant with
      | none => none
      | some docs =>
        if s.soulDoc.isSome && isSoulDoc doc then none
        else some ({ s with invariant := some (docs ++ [doc]) }, ())
    | .read, s => some (s, s.soulDoc)
    | .queryFirst, s => s.invariant.map (fun docs => (s, docs.head?))
    | .writeSoulHash hash, s =>
      match s.hashFile with
      | .unknown _ => none
      | _ => some ({ s with hashFile := .present (some hash) }, ())

/-! ## The seal -/

inductive SealError where
  | db
  | serialize
  /-- "Failed to write soul hash to STATE". -/
  | hashFile
  deriving DecidableEq, Repr

def sealedDoc (soul : Json) (hash sealedAt : String) : Json :=
  .obj [("_id", .str "soul"), ("soul", soul), ("sha256", .str hash),
    ("sealed_at", .str sealedAt), ("sealed", .bool true)]

/-- The seal once the collection is there. -/
def sealInto (d : Digest) (soul : Json) (sealedAt : String) : Prog api (Except SealError Unit) :=
  match d.hashOf soul with
  | none => .done (.error .serialize)
  | some hash =>
    .call (.write (sealedDoc soul hash sealedAt)) fun
      | none => .done (.error .db)
      | some _ => .call (.writeSoulHash hash) fun
          | none => .done (.error .hashFile)
          | some _ => .done (.ok ())

def sealSoul (d : Digest) (soul : Json) (sealedAt : String) : Prog api (Except SealError Unit) :=
  .call .collectionExists fun
    | none => .done (.error .db)
    | some true => sealInto d soul sealedAt
    | some false => .call .createCollection fun
        | none => .done (.error .db)
        | some _ => sealInto d soul sealedAt

/-! ## The probe and the turn -/

/-- `LAST_KNOWN_SEAL`. -/
inductive SealMemory where
  | unknown
  | absent
  | present
  deriving DecidableEq, Repr

def SealMemory.ofProbe (isSealed : Bool) : SealMemory := if isSealed then .present else .absent

inductive SoulForTurn where
  | learning
  | isSealed (soul : Json)
  | refused (text : String)

section Turn

-- the texts of the errors of the calls
variable (cause : SealCall → String)

def isSoulSealedWith (lastKnown : SealMemory) : Prog api (SealMemory × Except String Bool) :=
  .call .collectionExists fun
    | some isSealed => .done (SealMemory.ofProbe isSealed, .ok isSealed)
    | none =>
      match lastKnown with
      | .unknown => .done (.unknown, .error (cause .collectionExists))
      | known => .done (known, .ok (known = .present))

/-- By the well-known id, else the oldest document of the collection. -/
def readSoulDoc : Prog api (Except String (Option Json)) :=
  .call .read fun
    | none => .done (.error (cause .read))
    | some (some doc) => .done (.ok (some doc))
    | some none => .call .queryFirst fun
        | none => .done (.error (cause .queryFirst))
        | some doc => .done (.ok doc)

def loadSealedSoul : Prog api (Except String (Option Json)) :=
  (readSoulDoc cause).map (fun r => r.map (fun doc => doc.bind (fun v => v.get? "soul")))

/-- The turn of a soul that was probed as sealed. -/
def sealedTurn : Except String (Option Json) → SoulForTurn
  | .ok (some soul) => .isSealed soul
  | .ok none => .refused ("The sealed soul document could not be read: the collection is " ++
      "there, the document is not. This turn was not sent; check the database before the " ++
      "next one.")
  | .error e => .refused ("Could not read the sealed soul (storage error: " ++ e ++
      "). This turn was not sent; retry in a moment.")

def soulForTurnWith (lastKnown : SealMemory) : Prog api (SealMemory × SoulForTurn) :=
  (isSoulSealedWith cause lastKnown).bind fun
    | (memory, .ok false) => .done (memory, .learning)
    | (memory, .error e) => .done (memory,
        .refused ("Could not verify the sealed soul (storage error: " ++ e ++
          "). This turn was not sent; retry in a moment."))
    | (memory, .ok true) => (loadSealedSoul cause).map (fun r => (memory, sealedTurn r))

/-! ## The probe and the turn, call by call -/

/-- The memory after a probe with that reply. -/
def SealMemory.after (m : SealMemory) (s : Stores) (r : Reply) : SealMemory :=
  if r = .answered then SealMemory.ofProbe s.invariant.isSome else m

/-- What a probe says to a memory it leaves behind. -/
def probed (m : SealMemory) : Except String Bool :=
  match m with
  | .unknown => .error (cause .collectionExists)
  | .absent => .ok false
  | .present => .ok true

theorem exec_collectionExists (s : Stores) :
    server.exec .collectionExists s = some (s, s.invariant.isSome) := rfl

theorem exec_read (s : Stores) : server.exec .read s = some (s, s.soulDoc) := rfl

/-- A probe leaves the stores, and its answer is what it remembers. -/
theorem run_isSoulSealedWith (reply : SealCall → Reply) (m : SealMemory) (s : Stores) :
    run server reply (isSoulSealedWith cause m) s =
      (s, m.after s (reply .collectionExists),
        probed cause (m.after s (reply .collectionExists))) := by
  unfold isSoulSealedWith
  rw [run_read (exec_collectionExists s), SealMemory.after]
  by_cases h : reply .collectionExists = .answered
  · rw [if_pos h, if_pos h]
    cases s.invariant.isSome with
    | true => rfl
    | false => rfl
  · rw [if_neg h, if_neg h]
    cases m with
    | unknown => rfl
    | absent => rfl
    | present => rfl

/-- The turn that a memory left by its own probe leads to. -/
def turnOf (reply : SealCall → Reply) (s : Stores) (m : SealMemory) : SoulForTurn :=
  match probed cause m with
  | .ok false => .learning
  | .error e => .refused ("Could not verify the sealed soul (storage error: " ++ e ++
      "). This turn was not sent; retry in a moment.")
  | .ok true => sealedTurn (run server reply (loadSealedSoul cause) s).2

theorem run_readSoulDoc_state (reply : SealCall → Reply) (s : Stores) :
    (run server reply (readSoulDoc cause) s).1 = s := by
  rw [readSoulDoc, run_read (exec_read s)]
  split
  · rfl
  · rfl
  cases hquery : s.invariant with
  | none =>
    rw [run_refused (by simp [server, hquery])]
    rfl
  | some docs =>
    rw [run_read (a := docs.head?) (by simp [server, hquery])]
    split
    · rfl
    · rfl

theorem run_soulForTurnWith (reply : SealCall → Reply) (m : SealMemory) (s : Stores) :
    run server reply (soulForTurnWith cause m) s =
      (s, m.after s (reply .collectionExists),
        turnOf cause reply s (m.after s (reply .collectionExists))) := by
  rw [soulForTurnWith, run_bind, run_isSoulSealedWith]
  cases m.after s (reply .collectionExists) with
  | unknown => rfl
  | absent => rfl
  | present =>
    rw [probed]
    rw [run_map]
    have hstate : (run server reply (loadSealedSoul cause) s).1 = s := by
      rw [loadSealedSoul, run_map]
      exact run_readSoulDoc_state cause reply s
    rw [hstate]
    rfl

end Turn

/-! ## What the next boot and the turns after it make of the stores -/

/-- The answer to trustd's read of the document. -/
def Stores.answer (s : Stores) : DbAnswer :=
  match s.soulDoc with
  | none => .response 404 none
  | some doc => .response 200 (some (.obj [("ok", .bool true), ("data", doc), ("meta", .obj [])]))

def nextBoot (d : Digest) (s : Stores) : SoulDecision :=
  verifySoul d soulHashPath .answered s.answer s.hashFile

/-- A turn whose calls are all answered. -/
def turnOn (cause : SealCall → String) (m : SealMemory) (s : Stores) : SoulForTurn :=
  (run server (fun _ => .answered) (soulForTurnWith cause m) s).2.2

/-- Nothing is sealed: the boot is a first run, the turns are of Learning Mode, and sealing
can succeed. -/
structure Unsealed (d : Digest) (cause : SealCall → String) (s : Stores) : Prop where
  boot : nextBoot d s = .firstRun
  turn : ∀ m, turnOn cause m s = .learning
  again : ∀ soul sealedAt, (d.hashOf soul).isSome = true →
    (run server (fun _ => .answered) (sealSoul d soul sealedAt) s).2 = .ok ()

/-- The soul is sealed: the boot verifies it and the turns get it. -/
structure Sealed (d : Digest) (cause : SealCall → String) (s : Stores) (soul : Json) : Prop where
  boot : nextBoot d s = .pass
  turn : ∀ m, turnOn cause m s = .isSealed soul

/-- The boot and the turns agree. -/
def Settled (d : Digest) (cause : SealCall → String) (s : Stores) : Prop :=
  Unsealed d cause s ∨ ∃ soul, Sealed d cause s soul

variable {d : Digest} {cause : SealCall → String} {s : Stores}

theorem turnOn_eq (m : SealMemory) :
    turnOn cause m s =
      turnOf cause (fun _ => .answered) s (SealMemory.ofProbe s.invariant.isSome) := by
  rw [turnOn, run_soulForTurnWith]
  rfl

theorem turnOn_of_none (h : s.invariant = none) (m : SealMemory) :
    turnOn cause m s = .learning := by
  rw [turnOn_eq, h]
  rfl

variable {doc soul : Json} {hash sealedAt : String}

theorem turnOn_of_soulDoc (hdoc : s.soulDoc = some doc)
    (hsoul : doc.get? "soul" = some soul) (m : SealMemory) :
    turnOn cause m s = .isSealed soul := by
  have hsome : s.invariant.isSome = true := by
    obtain ⟨docs, hdocs, -⟩ := Option.bind_eq_some_iff.1 hdoc
    rw [hdocs]
    rfl
  have hload : (run server (fun _ => .answered) (loadSealedSoul cause) s).2 = .ok (some soul) := by
    rw [loadSealedSoul, run_map, readSoulDoc, run_read (exec_read s), if_pos rfl, hdoc]
    show Except.ok (doc.get? "soul") = _
    rw [hsoul]
  rw [turnOn_eq, hsome]
  show sealedTurn _ = _
  rw [hload]
  rfl

/-- The collection is there, the document is not. -/
theorem turnOn_of_empty (cause : SealCall → String) (h : s.invariant = some []) (m : SealMemory) :
    ∃ text, turnOn cause m s = .refused text := by
  have hload : (run server (fun _ => .answered) (loadSealedSoul cause) s).2 = .ok none := by
    have hdoc : s.soulDoc = none := by
      rw [Stores.soulDoc, h]
      rfl
    rw [loadSealedSoul, run_map, readSoulDoc, run_read (exec_read s), if_pos rfl, hdoc]
    rw [run_read (a := none) (by simp [server, h])]
    rfl
  rw [turnOn_eq, h]
  show ∃ text, sealedTurn _ = _
  rw [hload]
  exact ⟨_, rfl⟩

theorem answer_answered (hdoc : s.soulDoc = some doc) : Answered s.answer doc := by
  have hid : isSoulDoc doc = true := by
    obtain ⟨docs, -, hfind⟩ := Option.bind_eq_some_iff.1 hdoc
    exact List.find?_some hfind
  have hnull : doc.isNull = false := by
    cases doc with
    | null => cases hid
    | _ => rfl
  rw [Stores.answer, hdoc]
  exact ⟨200, _, rfl, by decide, rfl, rfl, hnull⟩

theorem answer_missing (hdoc : s.soulDoc = none) : ∃ body, s.answer = .response 404 body := by
  rw [Stores.answer, hdoc]
  exact ⟨none, rfl⟩

theorem nextBoot_eq_firstRun_iff :
    nextBoot d s = .firstRun ↔ s.soulDoc = none ∧ s.hashFile = .absent := by
  have hnothing : NothingSealed s.answer s.hashFile ↔ s.soulDoc = none ∧ s.hashFile = .absent := by
    rw [NothingSealed]
    cases hdoc : s.soulDoc with
    | none => simp [answer_missing hdoc]
    | some doc => simp [(answer_answered hdoc).not_missing]
  rw [← hnothing, nextBoot, verifySoul_answered]
  rcases soulDecision_verify d soulHashPath s.answer s.hashFile with ⟨h, hyes, -⟩ |
    ⟨h, -, hno⟩ | ⟨⟨reason, h⟩, -, hno⟩
  · simp [h, hyes]
  · simp [h, hno]
  · simp [h, hno]

theorem nextBoot_eq_pass_iff : nextBoot d s = .pass ↔ SealHolds d s.answer s.hashFile := by
  rw [nextBoot, verifySoul_answered]
  rcases soulDecision_verify d soulHashPath s.answer s.hashFile with ⟨h, -, hno⟩ |
    ⟨h, hyes, -⟩ | ⟨⟨reason, h⟩, hno, -⟩
  · simp [h, hno]
  · simp [h, hyes]
  · simp [h, hno]

/-! ## The stages of a seal -/

/-- Nothing is there. -/
def fresh : Stores := ⟨none, .absent⟩

/-- The collection is there. -/
def created : Stores := ⟨some [], .absent⟩

/-- The document is there too. -/
def written (doc : Json) : Stores := ⟨some [doc], .absent⟩

/-- And its hash. -/
def hashed (doc : Json) (hash : String) : Stores := ⟨some [doc], .present (some hash)⟩

theorem run_sealSoul_fresh (soul : Json) (sealedAt : String) (hhash : d.hashOf soul = some hash) :
    run server (fun _ => .answered) (sealSoul d soul sealedAt) fresh =
      (hashed (sealedDoc soul hash sealedAt) hash, .ok ()) := by
  rw [sealSoul]
  show run server _ (sealInto d soul sealedAt) created = _
  rw [sealInto, hhash]
  rfl

theorem settled_fresh (d : Digest) (cause : SealCall → String) : Settled d cause fresh := by
  refine Or.inl ⟨nextBoot_eq_firstRun_iff.2 ⟨rfl, rfl⟩, turnOn_of_none rfl, ?_⟩
  intro soul sealedAt hsome
  obtain ⟨hash, hhash⟩ := Option.isSome_iff_exists.1 hsome
  rw [run_sealSoul_fresh soul sealedAt hhash]

/-- The boot is a first run, and every turn is refused. -/
theorem not_settled_created : ¬ Settled d cause created := by
  obtain ⟨text, hrefused⟩ := turnOn_of_empty cause (s := created) rfl .unknown
  rintro (h | ⟨soul, h⟩)
  · have hturn := h.turn .unknown
    rw [hrefused] at hturn
    cases hturn
  · have hturn := h.turn .unknown
    rw [hrefused] at hturn
    cases hturn

/-- The boot halts. -/
theorem not_settled_written (hid : isSoulDoc doc = true) :
    ¬ Settled d cause (written doc) := by
  have hdoc : (written doc).soulDoc = some doc := List.find?_cons_of_pos hid
  rintro (h | ⟨soul, h⟩)
  · have hnone := (nextBoot_eq_firstRun_iff.1 h.boot).1
    rw [hdoc] at hnone
    cases hnone
  · obtain ⟨-, -, -, content, -, -, -, hfile, -⟩ := nextBoot_eq_pass_iff.1 h.boot
    cases hfile

/-- A digest has no white space to trim. -/
theorem trim_sha256 (text : String) : trim (d.sha256 text) = d.sha256 text :=
  trim_eq_self (by simpa using (d.hex text).2)

theorem settled_hashed (hhash : d.hashOf soul = some hash) :
    Settled d cause (hashed (sealedDoc soul hash sealedAt) hash) := by
  obtain ⟨text, htext, rfl⟩ := Option.map_eq_some_iff.1 hhash
  have hdoc : (hashed (sealedDoc soul (d.sha256 text) sealedAt) (d.sha256 text)).soulDoc =
      some (sealedDoc soul (d.sha256 text) sealedAt) := rfl
  refine Or.inr ⟨soul, ?_, turnOn_of_soulDoc hdoc rfl⟩
  apply nextBoot_eq_pass_iff.2
  exact ⟨_, soul, text, _, answer_answered hdoc, rfl, htext, rfl, trim_sha256 text⟩

/-! ## Cuts of the seal -/

/-- The two writes that follow the creation of the collection. -/
theorem sealInto_cut_iff (soul : Json) (sealedAt : String) (reply : SealCall → Reply) (n : Nat) :
    Settled d cause (cut server reply n (sealInto d soul sealedAt) created) ↔
      2 ≤ n ∧ ∃ hash, d.hashOf soul = some hash ∧
        reply (.write (sealedDoc soul hash sealedAt)) = .answered ∧
          reply (.writeSoulHash hash) ≠ .failed := by
  rw [sealInto]
  cases hhash : d.hashOf soul with
  | none =>
    rw [cut_done]
    simp [not_settled_created]
  | some hash =>
    have hwritten : ¬ Settled d cause (written (sealedDoc soul hash sealedAt)) :=
      not_settled_written rfl
    cases n with
    | zero => simp [cut, not_settled_created]
    | succ n =>
      have hexec : server.exec (.write (sealedDoc soul hash sealedAt)) created =
          some (written (sealedDoc soul hash sealedAt), ()) := rfl
      rw [cut_call hexec]
      cases hwrite : reply (.write (sealedDoc soul hash sealedAt)) with
      | failed => simp [cut_done, not_settled_created, hwrite]
      | unanswered => simp [cut_done, hwritten, hwrite]
      | answered =>
        cases n with
        | zero => simp [cut, hwritten]
        | succ n =>
          simp only [if_pos, reduceCtorEq, if_false]
          have hexec' : server.exec (.writeSoulHash hash)
              (written (sealedDoc soul hash sealedAt)) =
                some (hashed (sealedDoc soul hash sealedAt) hash, ()) := rfl
          rw [cut_call hexec']
          cases hfile : reply (.writeSoulHash hash) with
          | failed => simp [cut_done, hwritten, hfile]
          | unanswered | answered => simp [cut_done, settled_hashed hhash, hwrite, hfile]

theorem sealSoul_fresh_cut_iff (soul : Json) (sealedAt : String) (reply : SealCall → Reply)
    (n : Nat) :
    Settled d cause (cut server reply n (sealSoul d soul sealedAt) fresh) ↔
      n < 2 ∨ reply .collectionExists ≠ .answered ∨ reply .createCollection = .failed ∨
        (4 ≤ n ∧ reply .createCollection = .answered ∧ ∃ hash, d.hashOf soul = some hash ∧
          reply (.write (sealedDoc soul hash sealedAt)) = .answered ∧
            reply (.writeSoulHash hash) ≠ .failed) := by
  have hfresh := settled_fresh d cause
  cases n with
  | zero => simp [cut, hfresh]
  | succ n =>
    rw [sealSoul, cut_call (exec_collectionExists fresh), ite_self]
    by_cases hexists : reply .collectionExists = .answered
    · rw [if_pos hexists]
      show Settled d cause (cut server reply n (.call .createCollection _) fresh) ↔ _
      cases n with
      | zero => simp [cut, hfresh]
      | succ n =>
        have hexec : server.exec .createCollection fresh = some (created, ()) := rfl
        rw [cut_call hexec]
        cases hcreate : reply .createCollection with
        | failed => simp [cut_done, hfresh]
        | unanswered => simp [cut_done, not_settled_created, hexists]
        | answered =>
          rw [if_pos rfl, if_neg (by decide)]
          rw [sealInto_cut_iff]
          simp [hexists]
    · rw [if_neg hexists]
      simp [cut_done, hfresh, hexists]

/-- A second seal is refused by the database, at whatever point it is cut off. -/
theorem cut_sealSoul_of_soulDoc (hdoc : s.soulDoc.isSome = true) (soul : Json) (sealedAt : String)
    (reply : SealCall → Reply) (n : Nat) :
    cut server reply n (sealSoul d soul sealedAt) s = s := by
  obtain ⟨doc, hdoc'⟩ := Option.isSome_iff_exists.1 hdoc
  obtain ⟨docs, hdocs, -⟩ := Option.bind_eq_some_iff.1 hdoc'
  have hinto : ∀ n, cut server reply n (sealInto d soul sealedAt) s = s := by
    intro n
    rw [sealInto]
    split
    · rw [cut_done]
    rename_i hash hhash
    cases n with
    | zero => rfl
    | succ n =>
      have hrefused : server.exec (.write (sealedDoc soul hash sealedAt)) s = none := by
        have hid : isSoulDoc (sealedDoc soul hash sealedAt) = true := rfl
        simp [server, hdocs, hdoc, hid]
      rw [cut_refused hrefused]
      exact cut_done _ _ _ _ _
  cases n with
  | zero => rfl
  | succ n =>
    rw [sealSoul, cut_call (exec_collectionExists s), ite_self, hdocs, Option.isSome_some]
    split
    · exact cut_done _ _ _ _ _
    · exact hinto n
    · rename_i heq
      split at heq
      · cases heq
      · cases heq

theorem Unsealed.eq_fresh (h : Unsealed d cause s) : s = fresh := by
  obtain ⟨invariant, hashFile⟩ := s
  have hfile : hashFile = .absent := (nextBoot_eq_firstRun_iff.1 h.boot).2
  cases invariant with
  | none => rw [hfile, fresh]
  | some docs =>
    have hturn := h.turn .unknown
    rw [turnOn_eq] at hturn
    -- the probe says sealed, and no turn of a sealed soul is of Learning Mode
    change sealedTurn _ = _ at hturn
    unfold sealedTurn at hturn
    split at hturn
    · cases hturn
    · cases hturn
    · cases hturn

theorem Sealed.soulDoc (h : Sealed d cause s soul) : s.soulDoc.isSome = true := by
  cases hdoc : s.soulDoc with
  | some doc => rfl
  | none =>
    obtain ⟨doc, -, -, -, hanswered, -⟩ := nextBoot_eq_pass_iff.1 h.boot
    exact absurd (answer_missing hdoc) hanswered.not_missing

/-- Where a seal may be cut off or fail: before it has made the collection, or once the
hash is written.  In between, the boot and the turns do not agree. -/
theorem sealSoul_cut_iff (d : Digest) (cause : SealCall → String) (s : Stores)
    (hs : Settled d cause s) (soul : Json) (sealedAt : String) (reply : SealCall → Reply)
    (n : Nat) :
    Settled d cause (cut server reply n (sealSoul d soul sealedAt) s) ↔
      s.soulDoc.isSome = true ∨ n < 2 ∨ reply .collectionExists ≠ .answered ∨
        reply .createCollection = .failed ∨
          (4 ≤ n ∧ reply .createCollection = .answered ∧ ∃ hash, d.hashOf soul = some hash ∧
            reply (.write (sealedDoc soul hash sealedAt)) = .answered ∧
              reply (.writeSoulHash hash) ≠ .failed) := by
  rcases hs with h | ⟨sealedSoul, h⟩
  · rw [h.eq_fresh, sealSoul_fresh_cut_iff]
    have hnone : fresh.soulDoc.isSome = false := rfl
    simp [hnone]
  · rw [cut_sealSoul_of_soulDoc h.soulDoc]
    simp [h.soulDoc, show Settled d cause s from Or.inr ⟨sealedSoul, h⟩]

def demoSoul : Json := .obj [("name", .str "Embra")]

def demoHash : String := "5579d840aec18ab983c7e4ae2dcb5b93bd87ea5fef1b765660ec2c64868976da"

/-- The digest of `demoSoul`, which is all it prints. -/
def demoDigest : Digest where
  pretty soul :=
    if strField soul "name" = some "Embra" then some "\x7b\n  \"name\": \"Embra\"\n\x7d"
    else none
  sha256 _ := demoHash
  hex _ := by decide +kernel

def demoCause : SealCall → String := fun _ => "HTTP 500"

/-- A first seal cut off after `n` calls that were all answered. -/
def demoCut (n : Nat) : Stores :=
  cut server (fun _ => .answered) n (sealSoul demoDigest demoSoul "2026-01-01T00:00:00+00:00") fresh

theorem sealSoul_cut_iff_demo : Settled demoDigest demoCause (demoCut 4) :=
  (sealSoul_cut_iff demoDigest demoCause fresh (settled_fresh _ _) demoSoul _ _ 4).2
    (Or.inr (Or.inr (Or.inr (Or.inr ⟨by decide, rfl, demoHash, rfl, rfl, by decide⟩))))

/-- Cut off after it made the collection: a first run at the next boot, and every turn
refused.  Cut off after it wrote the document: the next boot halts, and sealing again is
refused. -/
theorem cut_seal_not_settled :
    (¬ Settled demoDigest demoCause (demoCut 2) ∧ nextBoot demoDigest (demoCut 2) = .firstRun ∧
        ∀ m, ∃ text, turnOn demoCause m (demoCut 2) = .refused text) ∧
      ¬ Settled demoDigest demoCause (demoCut 3) ∧
        (∃ reason, nextBoot demoDigest (demoCut 3) = .halt reason) ∧
          (run server (fun _ => .answered) (sealSoul demoDigest demoSoul
            "2026-01-02T00:00:00+00:00") (demoCut 3)).2 = .error .db := by
  refine ⟨⟨?_, ?_, ?_⟩, ?_, ?_, ?_⟩
  · exact not_settled_created
  · exact nextBoot_eq_firstRun_iff.2 ⟨rfl, rfl⟩
  · exact turnOn_of_empty demoCause rfl
  · exact not_settled_written rfl
  · refine ⟨"No stored soul hash at /embra/state/soul.sha256 while a soul document exists — " ++
      "restore STATE, or remove the soul with seed-state.sh --wipe data to start over", ?_⟩
    decide +kernel
  · rfl

/-! ## The memory of the probe over a seal -/

/-- A caller of `is_soul_sealed`, with the replies it gets. -/
inductive Visit where
  | probe (reply : SealCall → Reply)
  | turn (reply : SealCall → Reply)

/-- The visit's probe of the collection was answered. -/
def Visit.answered : Visit → Prop
  | .probe reply => reply .collectionExists = .answered
  | .turn reply => reply .collectionExists = .answered

/-- The stores and the memory, one process. -/
structure Brain where
  stores : Stores
  memory : SealMemory

def Brain.visit (cause : SealCall → String) (b : Brain) : Visit → Brain
  | .probe reply =>
    let r := run server reply (isSoulSealedWith cause b.memory) b.stores
    ⟨r.1, r.2.1⟩
  | .turn reply =>
    let r := run server reply (soulForTurnWith cause b.memory) b.stores
    ⟨r.1, r.2.1⟩

def Brain.visits (cause : SealCall → String) (b : Brain) (vs : List Visit) : Brain :=
  vs.foldl (Brain.visit cause) b

/-- `seal_soul` does not touch the memory. -/
def Brain.seal (b : Brain) (d : Digest) (soul : Json) (sealedAt : String)
    (reply : SealCall → Reply) : Brain :=
  { b with stores := (run server reply (sealSoul d soul sealedAt) b.stores).1 }

/-- What a turn is built from. -/
def Brain.turn (cause : SealCall → String) (b : Brain) (reply : SealCall → Reply) : SoulForTurn :=
  (run server reply (soulForTurnWith cause b.memory) b.stores).2.2

/-- One visit: the stores stay, and the memory follows an answered probe. -/
theorem visit_cases (cause : SealCall → String) (b : Brain) (v : Visit) :
    (v.answered ∧ b.visit cause v = ⟨b.stores, SealMemory.ofProbe b.stores.invariant.isSome⟩) ∨
      (¬ v.answered ∧ b.visit cause v = b) := by
  cases v with
  | probe reply =>
    rw [Visit.answered, Brain.visit, run_isSoulSealedWith, SealMemory.after]
    by_cases h : reply .collectionExists = .answered
    · exact Or.inl ⟨h, by rw [if_pos h]⟩
    · exact Or.inr ⟨h, by rw [if_neg h]⟩
  | turn reply =>
    rw [Visit.answered, Brain.visit, run_soulForTurnWith, SealMemory.after]
    by_cases h : reply .collectionExists = .answered
    · exact Or.inl ⟨h, by rw [if_pos h]⟩
    · exact Or.inr ⟨h, by rw [if_neg h]⟩

/-- Any number of visits. -/
theorem visits_cases (cause : SealCall → String) (vs : List Visit) :
    ∀ b : Brain,
      ((∃ v ∈ vs, v.answered) ∧
          b.visits cause vs = ⟨b.stores, SealMemory.ofProbe b.stores.invariant.isSome⟩) ∨
        ((∀ v ∈ vs, ¬ v.answered) ∧ b.visits cause vs = b) := by
  induction vs with
  | nil => exact fun b => Or.inr ⟨by simp, rfl⟩
  | cons v vs ih =>
    intro b
    have hcons : b.visits cause (v :: vs) = (b.visit cause v).visits cause vs := rfl
    rw [hcons]
    rcases visit_cases cause b v with ⟨hv, heq⟩ | ⟨hv, heq⟩
    · -- whatever comes after it, the memory is that of the stores
      refine Or.inl ⟨⟨v, List.mem_cons_self, hv⟩, ?_⟩
      rcases ih (b.visit cause v) with ⟨-, hrest⟩ | ⟨-, hrest⟩
      · rw [hrest, heq]
      · rw [hrest, heq]
    · rw [heq]
      rcases ih b with ⟨⟨w, hw, hanswered⟩, hrest⟩ | ⟨hnone, hrest⟩
      · exact Or.inl ⟨⟨w, List.mem_cons_of_mem _ hw, hanswered⟩, hrest⟩
      · refine Or.inr ⟨?_, hrest⟩
        intro w hw
        rcases List.mem_cons.1 hw with rfl | hw
        · exact hv
        · exact hnone w hw

theorem soulDoc_of_write (hid : isSoulDoc doc = true) {s' : Stores} {a : Unit}
    (h : server.exec (.write doc) s = some (s', a)) : s'.soulDoc = some doc := by
  simp only [server] at h
  cases hdocs : s.invariant with
  | none =>
    rw [hdocs] at h
    cases h
  | some docs =>
    rw [hdocs] at h
    dsimp only at h
    cases hdoc : s.soulDoc with
    | some old => simp [hdoc, hid] at h
    | none =>
      rw [hdoc, if_neg (by simp)] at h
      obtain ⟨rfl, -⟩ := Prod.mk.inj (Option.some.inj h)
      have hfind : docs.find? isSoulDoc = none := by
        rw [Stores.soulDoc, hdocs] at hdoc
        exact hdoc
      show (docs ++ [doc]).find? isSoulDoc = some doc
      rw [List.find?_append, hfind]
      exact List.find?_cons_of_pos hid

theorem soulDoc_of_writeSoulHash {s' : Stores} {a : Unit}
    (h : server.exec (.writeSoulHash hash) s = some (s', a)) : s'.soulDoc = s.soulDoc := by
  simp only [server] at h
  split at h
  · cases h
  · obtain ⟨rfl, -⟩ := Prod.mk.inj (Option.some.inj h)
    rfl

/-- After a seal that returned Ok its document is there. -/
def DocWritten (soul : Json) (sealedAt : String) (s : Stores) (r : Except SealError Unit) : Prop :=
  r = .ok () → ∃ hash, s.soulDoc = some (sealedDoc soul hash sealedAt)

theorem always_error (soul : Json) (sealedAt : String) (e : SealError) (s : Stores) :
    Always server (fun _ => True) (DocWritten soul sealedAt) (.done (.error e)) s :=
  ⟨trivial, nofun⟩

theorem always_sealInto (soul : Json) (sealedAt : String) (s : Stores) :
    Always server (fun _ => True) (DocWritten soul sealedAt) (sealInto d soul sealedAt) s := by
  rw [sealInto]
  cases d.hashOf soul with
  | none => exact always_error _ _ _ s
  | some hash =>
    refine Always.step (always_error _ _ _ s) ?_
    intro s₁ _ hwrite
    refine ⟨?_, always_error _ _ _ s₁⟩
    have hdoc := soulDoc_of_write rfl hwrite
    refine Always.step (always_error _ _ _ s₁) ?_
    intro s₂ _ hfile
    refine ⟨⟨trivial, fun _ => ⟨hash, ?_⟩⟩, always_error _ _ _ s₂⟩
    rw [soulDoc_of_writeSoulHash hfile, hdoc]

theorem always_sealSoul (soul : Json) (sealedAt : String) (s : Stores) :
    Always server (fun _ => True) (DocWritten soul sealedAt) (sealSoul d soul sealedAt) s := by
  rw [sealSoul]
  refine Always.step (always_error _ _ _ s) ?_
  intro s₁ isThere _
  refine ⟨?_, always_error _ _ _ s₁⟩
  cases isThere with
  | true => exact always_sealInto soul sealedAt s₁
  | false =>
    refine Always.step (always_error _ _ _ s₁) ?_
    exact fun s₂ _ _ => ⟨always_sealInto soul sealedAt s₂, always_error _ _ _ s₂⟩

/-- A turn on a sealed soul is of Learning Mode exactly when its memory says absent. -/
theorem turnOf_of_soulDoc
    (hdoc : s.soulDoc = some (sealedDoc soul hash sealedAt)) (reply : SealCall → Reply)
    (m : SealMemory) :
    (turnOf cause reply s m = .isSealed soul ∨ ∃ text, turnOf cause reply s m = .refused text) ↔
      m ≠ .absent := by
  cases m with
  | unknown => exact ⟨fun _ => by decide, fun _ => Or.inr ⟨_, rfl⟩⟩
  | absent =>
    constructor
    · rintro (h | ⟨text, h⟩)
      · cases h
      · cases h
    · exact fun h => absurd rfl h
  | present =>
    refine ⟨fun _ => by decide, fun _ => ?_⟩
    show sealedTurn _ = _ ∨ ∃ text, sealedTurn _ = _
    rw [loadSealedSoul, run_map, readSoulDoc, run_read (exec_read s), hdoc]
    by_cases hread : reply .read = .answered
    · rw [if_pos hread]
      exact Or.inl rfl
    · rw [if_neg hread]
      exact Or.inr ⟨_, rfl⟩

/-- A turn after any visits, with a sealed soul. -/
theorem turn_after_visits_iff
    (hdoc : s.soulDoc = some (sealedDoc soul hash sealedAt)) (m : SealMemory)
    (after : List Visit) (reply : SealCall → Reply) :
    (((Brain.mk s m).visits cause after).turn cause reply = .isSealed soul ∨
        ∃ text, ((Brain.mk s m).visits cause after).turn cause reply = .refused text) ↔
      reply .collectionExists = .answered ∨ (∃ v ∈ after, v.answered) ∨ m ≠ .absent := by
  have hsome : s.invariant.isSome = true := by
    obtain ⟨docs, hdocs, -⟩ := Option.bind_eq_some_iff.1 hdoc
    rw [hdocs]
    rfl
  have hpresent : SealMemory.ofProbe s.invariant.isSome = .present := by
    rw [hsome]
    rfl
  have hturn : ∀ m', ((Brain.mk s m').turn cause reply = .isSealed soul ∨
      ∃ text, (Brain.mk s m').turn cause reply = .refused text) ↔
        reply .collectionExists = .answered ∨ m' ≠ .absent := by
    intro m'
    rw [Brain.turn, run_soulForTurnWith, turnOf_of_soulDoc hdoc, SealMemory.after]
    by_cases hreply : reply .collectionExists = .answered
    · simp [hreply, hpresent]
    · simp [hreply]
  rcases visits_cases cause after ⟨s, m⟩ with ⟨hanswered, heq⟩ | ⟨hnone, heq⟩
  · rw [heq, hpresent, hturn]
    simp [hanswered]
  · rw [heq, hturn]
    have hno : ¬ ∃ v ∈ after, v.answered := by
      rintro ⟨v, hv, hanswered⟩
      exact hnone v hv hanswered
    simp [hno]

/-- The memory of a process that started on these stores. -/
theorem memory_ne_absent_iff (cause : SealCall → String) (s : Stores) (before : List Visit) :
    ∃ m, (Brain.mk s .unknown).visits cause before = ⟨s, m⟩ ∧
      (m ≠ .absent ↔ (∀ v ∈ before, ¬ v.answered) ∨ s.invariant.isSome = true) := by
  rcases visits_cases cause before ⟨s, .unknown⟩ with ⟨⟨v, hv, hanswered⟩, heq⟩ |
    ⟨hnone, heq⟩
  · refine ⟨_, heq, ?_⟩
    have hsome : ¬ ∀ v ∈ before, ¬ v.answered := fun h => h v hv hanswered
    cases s.invariant.isSome with
    | true => simp [SealMemory.ofProbe]
    | false => simp [SealMemory.ofProbe, hsome]
  · exact ⟨_, heq, fun _ => Or.inl hnone, fun _ => by decide⟩

/-- **A turn after a seal** that returned Ok gets the sealed soul or is refused, unless
a probe before the seal remembered that there was none and no probe since was
answered. -/
theorem turn_after_seal_iff (d : Digest) (cause : SealCall → String) (s : Stores)
    (before : List Visit) (soul : Json) (sealedAt : String) (sealReply : SealCall → Reply)
    (hok : (run server sealReply (sealSoul d soul sealedAt) s).2 = .ok ())
    (after : List Visit) (reply : SealCall → Reply) :
    let b := (((Brain.mk s .unknown).visits cause before).seal d soul sealedAt sealReply).visits
      cause after
    (b.turn cause reply = .isSealed soul ∨ ∃ text, b.turn cause reply = .refused text) ↔
      reply .collectionExists = .answered ∨ (∃ v ∈ after, v.answered) ∨
        (∀ v ∈ before, ¬ v.answered) ∨ s.invariant.isSome = true := by
  intro b
  obtain ⟨m, hm, habsent⟩ := memory_ne_absent_iff cause s before
  obtain ⟨hash, hdoc⟩ := (always_sealSoul (d := d) soul sealedAt s).run sealReply _ _ hok
  have hb : b = (Brain.mk (run server sealReply (sealSoul d soul sealedAt) s).1 m).visits
      cause after := by
    show (Brain.seal _ d soul sealedAt sealReply).visits cause after = _
    rw [hm]
    rfl
  rw [hb, turn_after_visits_iff hdoc, habsent]

theorem turn_after_seal_iff_demo :
    let b := ((((Brain.mk fresh .unknown).visits demoCause [.probe fun _ => .failed]).seal
      demoDigest demoSoul "2026-01-01T00:00:00+00:00" fun _ => .answered).visits demoCause [])
    (b.turn demoCause (fun _ => .failed) = .isSealed demoSoul ∨
      ∃ text, b.turn demoCause (fun _ => .failed) = .refused text) :=
  (turn_after_seal_iff demoDigest demoCause fresh [.probe fun _ => .failed] demoSoul _ _ rfl []
    (fun _ => .failed)).2 (Or.inr (Or.inr (Or.inl (by simp [Visit.answered]))))

/-- Nothing is sealed when the process starts, and its first probe says so.  The soul is
then sealed, and the database does not answer the next turn. -/
theorem learning_turn_after_seal :
    (run server (fun _ => .answered) (sealSoul demoDigest demoSoul "2026-01-01T00:00:00+00:00")
        fresh).2 = .ok () ∧
      (((Brain.mk fresh .unknown).visits demoCause [.probe fun _ => .answered]).seal
        demoDigest demoSoul "2026-01-01T00:00:00+00:00" fun _ => .answered).turn demoCause
          (fun _ => .failed) = .learning :=
  ⟨rfl, rfl⟩

end EmbraOS.Ports.SoulSeal
