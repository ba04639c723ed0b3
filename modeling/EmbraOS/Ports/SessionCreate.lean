import EmbraOS.Verified.Stages
import EmbraOS.Ports.SessionAppend

/-!
# Creations of one session

Any number of `create` calls for one name make their database calls in any order.  The duplicate
guard looks for a meta document and the writes come later, with no lock held: two calls that have
both found none both write their documents.

`created_once`: if no call begins while another is between its beginning and its meta document, and
the guard's read does not fail, at most one succeeds and no second document is written.
-/

namespace EmbraOS.Ports.Sessions

open Verified.Calls
open Verified.Timestamps

variable {Msg : Type}

/-! ## The stages of a creation -/

/-- What a call gives its documents. -/
structure Creator where
  id : String
  now : DateTime

/-- Where a creation is: the call it makes next. -/
inductive CreateStage where
  | start
  | guarding
  | makingMetas
  | checkingHistories
  | makingHistories
  | configuring
  | writingMeta (doc : SessionMeta)
  | writingHistory (doc : SessionMeta)
  | ended (a : Except Failure SessionMeta)

namespace CreateStage

/-- What is left from the check of the history collection on. -/
def historyProg (name : String) (p : Creator) : Op Msg (Except Failure SessionMeta) :=
  orFail (.collectionExists .histories) fun historyExists =>
    ensureCollection .histories historyExists (writeDocs name p.id p.now)

/-- The calls that are left. -/
def prog (name : String) (p : Creator) : CreateStage → Op Msg (Except Failure SessionMeta)
  | start => create name p.id p.now
  | guarding =>
    .call DbCall.queryMeta fun r =>
      if (Option.join r).isSome then
        .done (.error (.message ("session '" ++ name ++ "' already exists")))
      else historyProg name p
  | makingMetas => orFail (.createCollection .metas) fun _ => historyProg name p
  | checkingHistories => historyProg name p
  | makingHistories =>
    orFail (.createCollection .histories) fun _ => writeDocs name p.id p.now
  | configuring => writeDocs name p.id p.now
  | writingMeta doc =>
    orFail (.writeMeta doc) fun _ =>
      orFail (.writeHistory ⟨name, currentSessionFormat, []⟩) fun _ => .done (.ok doc)
  | writingHistory doc =>
    orFail (.writeHistory ⟨name, currentSessionFormat, []⟩) fun _ => .done (.ok doc)
  | ended a => .done a

/-- Begun, and without its meta document. -/
def inside : CreateStage → Bool
  | guarding | makingMetas | checkingHistories | makingHistories | configuring | writingMeta _ =>
    true
  | start | writingHistory _ | ended _ => false

/-- Past the guard, and without its meta document. -/
def passed : CreateStage → Bool
  | makingMetas | checkingHistories | makingHistories | configuring | writingMeta _ => true
  | start | guarding | writingHistory _ | ended _ => false

/-- With its meta document, and not failed since. -/
def committed : CreateStage → Bool
  | writingHistory _ => true
  | ended (.ok _) => true
  | _ => false

theorem inside_of_passed {stage : CreateStage} (h : stage.passed = true) :
    stage.inside = true := by
  cases stage with
  | makingMetas | checkingHistories | makingHistories | configuring | writingMeta => rfl
  | start | guarding | writingHistory | ended => cases h

end CreateStage

/-! ## What a call does -/

def Docs.metaDocs (s : Docs Msg) : List SessionMeta := s.metas.getD []

def Docs.historyDocs (s : Docs Msg) : List (HistoryDoc Msg) := s.histories.getD []

/-- The same meta and history documents. -/
def SameDocs (s s' : Docs Msg) : Prop :=
  s'.metaDocs = s.metaDocs ∧ s'.historyDocs = s.historyDocs

/-- What one call of a creation can do when the guard's read does not fail. -/
inductive CreateMoves : Docs Msg → CreateStage → Docs Msg → CreateStage → Prop where
  | fails (s s' stage e) (hs : SameDocs s s') : CreateMoves s stage s' (.ended (.error e))
  | absent (s) (h : s.metaDocs = []) : CreateMoves s .start s .makingMetas
  | present (s) : CreateMoves s .start s .guarding
  | free (s) (h : s.metaDocs = []) : CreateMoves s .guarding s .checkingHistories
  | metasMade (s s') (hs : SameDocs s s') : CreateMoves s .makingMetas s' .checkingHistories
  | historiesMissing (s) : CreateMoves s .checkingHistories s .makingHistories
  | historiesThere (s) : CreateMoves s .checkingHistories s .configuring
  | historiesMade (s s') (hs : SameDocs s s') : CreateMoves s .makingHistories s' .configuring
  | configured (s doc) : CreateMoves s .configuring s (.writingMeta doc)
  | metaWritten (s s' doc stage) (hmeta : s'.metaDocs = s.metaDocs ++ [doc])
      (hhistory : s'.historyDocs = s.historyDocs)
      (hstage : stage = .writingHistory doc ∨ ∃ e, stage = .ended (.error e)) :
      CreateMoves s (.writingMeta doc) s' stage
  | historyWritten (s s' doc d stage) (hmeta : s'.metaDocs = s.metaDocs)
      (hhistory : s'.historyDocs = s.historyDocs ++ [d])
      (hstage : stage = .ended (.ok doc) ∨ ∃ e, stage = .ended (.error e)) :
      CreateMoves s (.writingHistory doc) s' stage

theorem SameDocs.refl (s : Docs Msg) : SameDocs s s := ⟨rfl, rfl⟩

variable {coll : Coll} {a : Unit} {doc : SessionMeta} {c : DbCall Msg} {p : Creator}

/-- A collection that is made is empty. -/
theorem sameDocs_createCollection {s s' : Docs Msg}
    (h : db.exec (DbCall.createCollection coll) s = some (s', a)) : SameDocs s s' := by
  simp only [db] at h
  split at h
  · cases h
  rename_i hmissing
  cases h
  cases coll with
  | metas =>
    have hnone : s.metas = none := Option.not_isSome_iff_eq_none.1 hmissing
    constructor
    · simp only [Docs.metaDocs, Docs.create, hnone, Option.getD]
    · rfl
  | histories =>
    have hnone : s.histories = none := Option.not_isSome_iff_eq_none.1 hmissing
    constructor
    · rfl
    · simp only [Docs.historyDocs, Docs.create, hnone, Option.getD]
  | summaries => exact ⟨rfl, rfl⟩

theorem docs_writeMeta {s s' : Docs Msg} (h : db.exec (DbCall.writeMeta doc) s = some (s', a)) :
    s'.metaDocs = s.metaDocs ++ [doc] ∧ s'.historyDocs = s.historyDocs := by
  obtain ⟨ms, hms, heq⟩ := Option.map_eq_some_iff.1 h
  cases heq
  constructor
  · simp only [Docs.metaDocs, hms, Option.getD]
  · rfl

theorem docs_writeHistory {doc : SessionHistory Msg} {s s' : Docs Msg}
    (h : db.exec (DbCall.writeHistory doc) s = some (s', a)) :
    s'.metaDocs = s.metaDocs ∧ s'.historyDocs = s.historyDocs ++ [⟨doc, none⟩] := by
  obtain ⟨hs, hhs, heq⟩ := Option.map_eq_some_iff.1 h
  cases heq
  constructor
  · rfl
  · simp only [Docs.historyDocs, hhs, Option.getD]

/-- `?` after a call: it fails, having done something or nothing, or goes on. -/
theorem moves_orFail {s : Docs Msg} {name : String} {stage : CreateStage} (r : Reply)
    {k : (api Msg).Ans c → Op Msg (Except Failure SessionMeta)}
    (hcall : ∀ s' a, db.exec c s = some (s', a) → CreateMoves s stage s' (.ended (.error .db)) ∧
      ∃ stage', k a = stage'.prog name p ∧ CreateMoves s stage s' stage') :
    ∃ stage', (match (db.perform c r s).2 with
        | none => Prog.done (.error .db)
        | some a => k a) = stage'.prog name p ∧
      CreateMoves s stage (db.perform c r s).1 stage' := by
  rcases db.perform_cases c r s with ⟨hnone, _, hs⟩ | ⟨a, ha, hexec⟩
  · rw [hnone]
    refine ⟨.ended (.error .db), rfl, ?_⟩
    rcases hs with hs | ⟨a, hexec⟩
    · rw [hs]
      exact .fails _ _ _ _ (SameDocs.refl s)
    · exact (hcall _ a hexec).1
  · rw [ha]
    exact (hcall _ a hexec).2

theorem exec_collectionExists_eq {s s' : Docs Msg} {b : Bool}
    (h : db.exec (DbCall.collectionExists coll) s = some (s', b)) : s' = s ∧ b = s.has coll := by
  cases h
  exact ⟨rfl, rfl⟩

/-- A step of a creation is one of these moves. -/
theorem createMoves_of_call {name : String} (stage : CreateStage) (s : Docs Msg) (r : Reply)
    (hguard : stage = .guarding → r = .answered ∧ (db.exec DbCall.queryMeta s).isSome = true)
    {k : Option ((api Msg).Ans c) → Op Msg (Except Failure SessionMeta)}
    (h : stage.prog name p = .call c k) :
    ∃ stage', k (db.perform c r s).2 = stage'.prog name p ∧
      CreateMoves s stage (db.perform c r s).1 stage' := by
  cases stage with
  | start =>
    by_cases hvalid : validSessionName name = true
    · simp only [CreateStage.prog, create, hvalid, Bool.not_true, Bool.false_eq_true,
        if_false] at h
      cases h
      refine moves_orFail r fun s' b hexec => ?_
      obtain ⟨rfl, rfl⟩ := exec_collectionExists_eq hexec
      refine ⟨.fails _ _ _ _ (SameDocs.refl _), ?_⟩
      cases hthere : s'.has .metas with
      | true => exact ⟨.guarding, rfl, .present _⟩
      | false =>
        refine ⟨.makingMetas, rfl, .absent _ ?_⟩
        have hnone : s'.metas = none :=
          Option.isNone_iff_eq_none.1 (Option.isSome_eq_false_iff.1 hthere)
        rw [Docs.metaDocs, hnone]
        rfl
    · simp only [CreateStage.prog, create, hvalid, Bool.not_false, if_true] at h
      cases h
  | guarding =>
    cases h
    obtain ⟨rfl, hsome⟩ := hguard rfl
    obtain ⟨⟨s', found⟩, hexec⟩ := Option.isSome_iff_exists.1 hsome
    rw [perform_of_exec hexec]
    obtain ⟨ms, hms, heq⟩ := Option.map_eq_some_iff.1 hexec
    cases heq
    cases ms with
    | nil =>
      refine ⟨.checkingHistories, rfl, .free _ ?_⟩
      rw [Docs.metaDocs, hms]
      rfl
    | cons m ms => exact ⟨.ended (.error _), rfl, .fails _ _ _ _ (SameDocs.refl _)⟩
  | makingMetas =>
    cases h
    refine moves_orFail r fun s' a hexec => ?_
    have hs := sameDocs_createCollection hexec
    exact ⟨.fails _ _ _ _ hs, .checkingHistories, rfl, .metasMade _ _ hs⟩
  | checkingHistories =>
    cases h
    refine moves_orFail r fun s' b hexec => ?_
    obtain ⟨rfl, rfl⟩ := exec_collectionExists_eq hexec
    refine ⟨.fails _ _ _ _ (SameDocs.refl _), ?_⟩
    cases s'.has .histories with
    | true => exact ⟨.configuring, rfl, .historiesThere _⟩
    | false => exact ⟨.makingHistories, rfl, .historiesMissing _⟩
  | makingHistories =>
    cases h
    refine moves_orFail r fun s' a hexec => ?_
    have hs := sameDocs_createCollection hexec
    exact ⟨.fails _ _ _ _ hs, .configuring, rfl, .historiesMade _ _ hs⟩
  | configuring =>
    cases h
    have hstate : (db.perform DbCall.loadConfig r s).1 = s := by
      rcases db.perform_cases DbCall.loadConfig r s with ⟨_, _, hs | ⟨a, hexec⟩⟩ | ⟨a, _, hexec⟩
      · exact hs
      all_goals
        obtain ⟨config, _, heq⟩ := Option.map_eq_some_iff.1 hexec
        exact (congrArg Prod.fst heq).symm
    rw [hstate]
    exact ⟨.writingMeta _, rfl, .configured _ _⟩
  | writingMeta doc =>
    cases h
    refine moves_orFail r fun s' a hexec => ?_
    obtain ⟨hmeta, hhistory⟩ := docs_writeMeta hexec
    exact ⟨.metaWritten _ _ _ _ hmeta hhistory (Or.inr ⟨_, rfl⟩),
      .writingHistory doc, rfl, .metaWritten _ _ _ _ hmeta hhistory (Or.inl rfl)⟩
  | writingHistory doc =>
    cases h
    refine moves_orFail r fun s' a hexec => ?_
    obtain ⟨hmeta, hhistory⟩ := docs_writeHistory hexec
    exact ⟨.historyWritten _ _ _ _ _ hmeta hhistory (Or.inr ⟨_, rfl⟩),
      .ended (.ok doc), rfl, .historyWritten _ _ _ _ _ hmeta hhistory (Or.inl rfl)⟩
  | ended a => cases h

/-! ## One document each -/

/-- One document in each collection at most, and no history without a meta document. -/
structure OneSession (s : Docs Msg) : Prop where
  metas : s.metaDocs.length ≤ 1
  histories : s.historyDocs.length ≤ 1
  whole : s.metaDocs = [] → s.historyDocs = []

theorem OneSession.same {s s' : Docs Msg} (h : OneSession s) (hs : SameDocs s s') :
    OneSession s' := by
  obtain ⟨hmeta, hhistory⟩ := hs
  refine ⟨?_, ?_, ?_⟩
  · rw [hmeta]
    exact h.metas
  · rw [hhistory]
    exact h.histories
  · rw [hmeta, hhistory]
    exact h.whole

variable {ι : Type} {s s' : Docs Msg} {st : ι → CreateStage} {i : ι} {stage : CreateStage}

/-- At most one creation is inside and at most one has its meta document; past the guard there is
none, and with it there is one. -/
structure Creating (s : Docs Msg) (st : ι → CreateStage) : Prop where
  docs : OneSession s
  inside : Only CreateStage.inside st
  committed : Only CreateStage.committed st
  free : ∀ i, (st i).passed = true → s.metaDocs = []
  there : ∀ i, (st i).committed = true → s.metaDocs ≠ []
  unwritten : ∀ i doc, st i = .writingHistory doc → s.historyDocs = []

variable [DecidableEq ι]

/-- A move that leaves the documents, to a stage without a meta document. -/
theorem Creating.same (h : Creating s st) (hs : SameDocs s s')
    (hinside : stage.inside = true → ∀ j, j ≠ i → (st j).inside = false)
    (hpassed : stage.passed = true → s.metaDocs = []) (hcommitted : stage.committed = false) :
    Creating s' (Function.update st i stage) := by
  have hnot : stage.committed ≠ true := Bool.eq_false_iff.1 hcommitted
  refine ⟨h.docs.same hs, h.inside.update hinside,
    h.committed.update fun hc => absurd hc hnot, ?_, ?_, ?_⟩
  · rw [hs.1]
    exact (Function.forall_update_iff st fun _ t => t.passed = true → s.metaDocs = []).2
      ⟨hpassed, fun j _ => h.free j⟩
  · rw [hs.1]
    exact (Function.forall_update_iff st fun _ t => t.committed = true → s.metaDocs ≠ []).2
      ⟨fun hc => absurd hc hnot, fun j _ => h.there j⟩
  · rw [hs.2]
    refine (Function.forall_update_iff st fun _ t => ∀ doc, t = .writingHistory doc →
      s.historyDocs = []).2 ⟨?_, fun j _ => h.unwritten j⟩
    rintro doc rfl
    cases hcommitted

/-- The meta document is written: there was none, and nobody else is past the guard. -/
theorem Creating.writeMeta (h : Creating s st)
    (hstage : st i = .writingMeta doc) (hmeta : s'.metaDocs = s.metaDocs ++ [doc])
    (hhistory : s'.historyDocs = s.historyDocs) (hinside : stage.inside = false) :
    Creating s' (Function.update st i stage) := by
  have hpassed : (st i).passed = true := by rw [hstage]; rfl
  have hfree := h.free i hpassed
  have hempty := h.docs.whole hfree
  have hout : ∀ j, j ≠ i → (st j).passed = false := by
    intro j hne
    by_contra hj
    have hin := CreateStage.inside_of_passed (Bool.eq_true_of_not_eq_false hj)
    rw [h.inside.others (CreateStage.inside_of_passed hpassed) hne] at hin
    cases hin
  have hnone : ∀ j, (st j).committed = false := by
    intro j
    by_contra hj
    exact h.there j (Bool.eq_true_of_not_eq_false hj) hfree
  rw [hfree, List.nil_append] at hmeta
  have hne : s'.metaDocs ≠ [] := by
    rw [hmeta]
    exact List.cons_ne_nil _ _
  have hold : stage.passed ≠ true := by
    intro hnew
    rw [CreateStage.inside_of_passed hnew] at hinside
    cases hinside
  refine ⟨⟨?_, ?_, fun hnil => absurd hnil hne⟩, ?_, ?_, ?_, ?_, ?_⟩
  · rw [hmeta]
    exact le_rfl
  · rw [hhistory]
    exact h.docs.histories
  · exact h.inside.update fun hin => absurd hin (Bool.eq_false_iff.1 hinside)
  · exact h.committed.update fun _ j _ => hnone j
  · refine (Function.forall_update_iff st fun _ t => t.passed = true → s'.metaDocs = []).2
      ⟨fun hnew => absurd hnew hold, ?_⟩
    intro j hji hj
    rw [hout j hji] at hj
    cases hj
  · exact fun _ _ => hne
  · intro j doc' _
    rw [hhistory]
    exact hempty

/-- The history document is written: there was none. -/
theorem Creating.writeHistory (h : Creating s st) {d : HistoryDoc Msg}
    (hstage : st i = .writingHistory doc) (hmeta : s'.metaDocs = s.metaDocs)
    (hhistory : s'.historyDocs = s.historyDocs ++ [d])
    (hended : stage = .ended (.ok doc) ∨ ∃ e, stage = .ended (.error e)) :
    Creating s' (Function.update st i stage) := by
  have hcommitted : (st i).committed = true := by rw [hstage]; rfl
  have hne := h.there i hcommitted
  rw [h.unwritten i doc hstage, List.nil_append] at hhistory
  have hstages : stage.inside = false ∧ stage.passed = false ∧
      ∀ doc', stage ≠ .writingHistory doc' := by
    rcases hended with rfl | ⟨e, rfl⟩
    · exact ⟨rfl, rfl, fun _ => CreateStage.noConfusion⟩
    · exact ⟨rfl, rfl, fun _ => CreateStage.noConfusion⟩
  obtain ⟨hinside, hpassed, hwriting⟩ := hstages
  refine ⟨⟨?_, ?_, fun hnil => absurd (hmeta.symm.trans hnil) hne⟩, ?_, ?_, ?_, ?_, ?_⟩
  · rw [hmeta]
    exact h.docs.metas
  · rw [hhistory]
    exact le_rfl
  · exact h.inside.update fun hin => absurd hin (Bool.eq_false_iff.1 hinside)
  · exact h.committed.update fun _ j hji => h.committed.others hcommitted hji
  · rw [hmeta]
    exact (Function.forall_update_iff st fun _ t => t.passed = true → s.metaDocs = []).2
      ⟨fun hnew => absurd hnew (Bool.eq_false_iff.1 hpassed), fun j _ => h.free j⟩
  · rw [hmeta]
    exact fun _ _ => hne
  · refine (Function.forall_update_iff st fun _ t => ∀ doc, t = .writingHistory doc →
      s'.historyDocs = []).2 ⟨fun doc' hnew => absurd hnew (hwriting doc'), ?_⟩
    intro j hji doc' hj
    -- only one creation has its meta document
    have hother := h.committed.others hcommitted hji
    rw [hj] at hother
    cases hother

/-- What one call keeps. -/
theorem Creating.moves (h : Creating s st)
    (hothers : st i = .start → ∀ j, j ≠ i → (st j).inside = false)
    (hmoves : CreateMoves s (st i) s' stage) : Creating s' (Function.update st i stage) := by
  have hinside : (st i).inside = true → ∀ j, j ≠ i → (st j).inside = false :=
    fun hin j hne => h.inside.others hin hne
  have hfree := h.free i
  generalize hstage : st i = old at hmoves
  rw [hstage] at hothers hinside hfree
  cases hmoves with
  | fails s' old e hs => exact h.same hs nofun nofun rfl
  | absent hnone => exact h.same (.refl s) (fun _ => hothers rfl) (fun _ => hnone) rfl
  | present => exact h.same (.refl s) (fun _ => hothers rfl) nofun rfl
  | free hnone => exact h.same (.refl s) (fun _ => hinside rfl) (fun _ => hnone) rfl
  | metasMade s' hs => exact h.same hs (fun _ => hinside rfl) (fun _ => hfree rfl) rfl
  | historiesMissing | historiesThere | configured =>
    exact h.same (.refl s) (fun _ => hinside rfl) (fun _ => hfree rfl) rfl
  | historiesMade s' hs => exact h.same hs (fun _ => hinside rfl) (fun _ => hfree rfl) rfl
  | metaWritten s' doc stage hmeta hhistory hended =>
    refine h.writeMeta hstage hmeta hhistory ?_
    rcases hended with rfl | ⟨e, rfl⟩
    · rfl
    · rfl
  | historyWritten s' doc d stage hmeta hhistory hended =>
    exact h.writeHistory hstage hmeta hhistory hended

/-! ## Runs -/

variable (name : String) (creators : ι → Creator)

def createProg (i : ι) (stage : CreateStage) : Op Msg (Except Failure SessionMeta) :=
  stage.prog name (creators i)

/-- The creations at their start. -/
def allCreate (s : Docs Msg) : Pool (api Msg) (Docs Msg) (Except Failure SessionMeta) ι :=
  .start s fun i => create name (creators i).id (creators i).now

/-- A creation begins only while no other is between its beginning and its meta document, and the
guard's read is carried out and answered. -/
def InTurn (c : Pool (api Msg) (Docs Msg) (Except Failure SessionMeta) ι) (i : ι) (r : Reply) :
    Prop :=
  (c.tasks i = createProg name creators i .start →
    ∀ j, j ≠ i → ∀ stage : CreateStage, stage.inside = true →
      c.tasks j ≠ createProg name creators j stage) ∧
  (c.tasks i = createProg name creators i .guarding →
    r = .answered ∧ (db.exec DbCall.queryMeta c.state).isSome = true)

omit [DecidableEq ι] in
theorem creating_allStart (h : OneSession s) : Creating s fun _ : ι => .start where
  docs := h
  inside _ _ hin := by cases hin
  committed _ _ hc := by cases hc
  free _ hp := by cases hp
  there _ hc := by cases hc
  unwritten _ _ hw := by cases hw

theorem reaches_creating (h : OneSession s)
    {c : Pool (api Msg) (Docs Msg) (Except Failure SessionMeta) ι}
    (hreaches : Pool.Reaches db (InTurn name creators) (allCreate name creators s) c) :
    ∃ st, c.At (createProg name creators) st ∧ Creating c.state st := by
  refine hreaches.invariant (J := fun c => ∃ st, c.At (createProg name creators) st ∧
    Creating c.state st) ⟨fun _ => .start, fun _ => rfl, creating_allStart h⟩ ?_
  rintro c i r c' ⟨st, hat, hcreating⟩ ⟨halone, hguard⟩ hstep
  have hcall : ∀ cl k, createProg name creators i (st i) = .call cl k → ∃ stage,
      k (db.perform cl r c.state).2 = createProg name creators i stage ∧
        CreateMoves c.state (st i) (db.perform cl r c.state).1 stage := by
    intro cl k
    refine createMoves_of_call (st i) c.state r ?_
    intro hstage
    apply hguard
    rw [hat i, hstage]
  obtain ⟨stage, hat', hmoves⟩ :=
    hat.step (fun stage s' => CreateMoves c.state (st i) s' stage) hstep hcall
  refine ⟨_, hat', hcreating.moves ?_ hmoves⟩
  intro hstage j hne
  by_contra hin
  refine halone ?_ j hne (st j) (Bool.eq_true_of_not_eq_false hin) (hat j)
  rw [hat i, hstage]

theorem committed_of_createProg
    (h : (stage.prog name p : Op Msg (Except Failure SessionMeta)) = .done (.ok doc)) :
    stage.committed = true := by
  cases stage with
  | start =>
    by_cases hvalid : validSessionName name = true
    · simp only [CreateStage.prog, create, hvalid, Bool.not_true, Bool.false_eq_true,
        if_false] at h
      cases h
    · simp only [CreateStage.prog, create, hvalid, Bool.not_false, if_true] at h
      cases h
  | ended a =>
    cases h
    rfl
  | guarding | makingMetas | checkingHistories | makingHistories | configuring | writingMeta
  | writingHistory => cases h

/-- Creations of one session, of which none begins while another is between its beginning and its
meta document and none fails to read for its guard: at most one succeeds, and there is at most one
document of each kind. -/
theorem created_once (s : Docs Msg) (h : OneSession s)
    (c : Pool (api Msg) (Docs Msg) (Except Failure SessionMeta) ι)
    (hreaches : Pool.Reaches db (InTurn name creators) (allCreate name creators s) c) :
    (∀ i j doc doc', c.tasks i = .done (.ok doc) → c.tasks j = .done (.ok doc') → i = j) ∧
      c.state.metaDocs.length ≤ 1 ∧ c.state.historyDocs.length ≤ 1 := by
  obtain ⟨st, hat, hcreating⟩ := reaches_creating name creators h hreaches
  refine ⟨?_, hcreating.docs.metas, hcreating.docs.histories⟩
  intro i j doc doc' hi hj
  exact hcreating.committed i j (committed_of_createProg name ((hat i).symm.trans hi))
    (committed_of_createProg name ((hat j).symm.trans hj))

/-! ## Two creations -/

/-- By the call that comes next: begun, and without its meta document. -/
def insideCreate {α : Type} : Op Msg α → Bool
  | .done _ => false
  | .call (.collectionExists .metas) _ => false
  | .call (.writeHistory _) _ => false
  | .call _ _ => true

theorem insideCreate_of_inside (h : stage.inside = true) :
    insideCreate (stage.prog name p : Op Msg (Except Failure SessionMeta)) = true := by
  cases stage with
  | guarding | makingMetas | checkingHistories | makingHistories | configuring | writingMeta => rfl
  | start | writingHistory | ended => cases h

/-- The next call is carried out if it is the guard's read. -/
def guardReads {α : Type} (s : Docs Msg) (r : Reply) : Op Msg α → Bool
  | .call .queryMeta _ => decide (r = .answered) && (db.exec DbCall.queryMeta s).isSome
  | _ => true

section Demo

def twoCreators : Bool → Creator
  | false => ⟨"a", demoTime⟩
  | true => ⟨"b", demoTime⟩

def noDocs : Docs Unit := { config := some ("anthropic", "default") }

def inTurnStep (c : Pool (api Unit) (Docs Unit) (Except Failure SessionMeta) Bool) (i : Bool)
    (r : Reply) : Bool :=
  !insideCreate (c.tasks !i) && guardReads c.state r (c.tasks i)

theorem inTurn_of_inTurnStep (c : Pool (api Unit) (Docs Unit) (Except Failure SessionMeta) Bool)
    (i : Bool) (r : Reply) (h : inTurnStep c i r = true) :
    InTurn "work" twoCreators c i r := by
  obtain ⟨hother, hguard⟩ := Bool.and_eq_true_iff.1 h
  constructor
  · intro _ j hne stage hinside htask
    obtain rfl : j = !i := Bool.eq_not_of_ne hne
    rw [htask, createProg, insideCreate_of_inside "work" hinside] at hother
    cases hother
  · intro htask
    rw [htask] at hguard
    obtain ⟨hr, hexec⟩ := Bool.and_eq_true_iff.1 hguard
    exact ⟨of_decide_eq_true hr, hexec⟩

/-- The calls of a creation and of one that finds its documents. -/
def oneThenTheOther : List (Bool × Reply) :=
  List.replicate 7 (false, .answered) ++ List.replicate 2 (true, .answered)

/-- The second creation begins when the first has made the meta collection. -/
def bothAtOnce : List (Bool × Reply) :=
  List.replicate 2 (false, .answered) ++ List.replicate 2 (true, .answered) ++
    List.replicate 5 (false, .answered) ++ List.replicate 4 (true, .answered)

theorem created_once_demo :
    ∃ c, Pool.Reaches db (InTurn "work" twoCreators) (allCreate "work" twoCreators noDocs) c ∧
      (∀ i, ∃ a, c.tasks i = .done a) ∧
      (∀ i j doc doc', c.tasks i = .done (.ok doc) → c.tasks j = .done (.ok doc') → i = j) ∧
        c.state.metaDocs.length ≤ 1 ∧ c.state.historyDocs.length ≤ 1 := by
  have hsome : (((allCreate "work" twoCreators noDocs).stepsIf db inTurnStep
      oneThenTheOther).any fun c =>
        (c.tasks false).value?.isSome && (c.tasks true).value?.isSome) = true := by
    decide +kernel
  obtain ⟨c, hc, hended⟩ := (Option.any_eq_true _ _).1 hsome
  obtain ⟨hfalse, htrue⟩ := Bool.and_eq_true_iff.1 hended
  have hreaches := Pool.reaches_of_stepsIf inTurn_of_inTurnStep oneThenTheOther .start hc
  have hstart : OneSession noDocs := ⟨by decide, by decide, fun _ => rfl⟩
  refine ⟨c, hreaches, ?_, created_once "work" twoCreators noDocs hstart c hreaches⟩
  intro i
  cases i with
  | false =>
    obtain ⟨a, ha⟩ := Option.isSome_iff_exists.1 hfalse
    exact ⟨a, Prog.eq_done_of_value? ha⟩
  | true =>
    obtain ⟨a, ha⟩ := Option.isSome_iff_exists.1 htrue
    exact ⟨a, Prog.eq_done_of_value? ha⟩

/-- Both creations have looked for a meta document before either writes one: both succeed, every
call is answered, and there are two documents of each kind. -/
theorem created_twice :
    ∃ c doc doc', Pool.Reaches db (fun _ _ r => r = .answered)
        (allCreate "work" twoCreators noDocs) c ∧
      c.tasks false = .done (.ok doc) ∧ c.tasks true = .done (.ok doc') ∧
      c.state.metaDocs.length = 2 ∧ c.state.historyDocs.length = 2 := by
  have hsome : (((allCreate "work" twoCreators noDocs).stepsIf db
      (fun _ _ r => decide (r = .answered)) bothAtOnce).any fun c =>
        ((c.tasks false).value?.any Except.isOk && (c.tasks true).value?.any Except.isOk) &&
        (decide (c.state.metaDocs.length = 2) && decide (c.state.historyDocs.length = 2))) =
      true := by
    decide +kernel
  obtain ⟨c, hc, hall⟩ := (Option.any_eq_true _ _).1 hsome
  obtain ⟨hoks, hdocs⟩ := Bool.and_eq_true_iff.1 hall
  obtain ⟨hfalse, htrue⟩ := Bool.and_eq_true_iff.1 hoks
  obtain ⟨hmetas, hhistories⟩ := Bool.and_eq_true_iff.1 hdocs
  have hok : ∀ i, (c.tasks i).value?.any Except.isOk = true →
      ∃ doc, c.tasks i = .done (.ok doc) := by
    intro i hi
    obtain ⟨a, ha, hisOk⟩ := (Option.any_eq_true _ _).1 hi
    cases a with
    | error e => cases hisOk
    | ok doc => exact ⟨doc, Prog.eq_done_of_value? ha⟩
  obtain ⟨doc, hdoc⟩ := hok false hfalse
  obtain ⟨doc', hdoc'⟩ := hok true htrue
  exact ⟨c, doc, doc',
    Pool.reaches_of_stepsIf (fun _ _ r hr => of_decide_eq_true hr) bothAtOnce .start hc,
    hdoc, hdoc', of_decide_eq_true hmetas, of_decide_eq_true hhistories⟩

end Demo

end EmbraOS.Ports.Sessions
