import EmbraOS.Ports.SessionAppend

/-!
# Restoring a deleted session

`restore` rewrites the meta document and then takes the stamps off the history and
the summary, each by calls whose failure is skipped.  `run_restore_ok` gives the
documents after an Ok in closed form.

`restore_unstamped` says when they carry no stamp: exactly when the calls for the
documents that were stamped went through (`Clears`), and from then on until the
next `soft_delete`.
-/

namespace EmbraOS.Ports.Sessions

open Verified.Calls
open Verified.Timestamps

variable {Msg : Type}

/-! ## Stamps -/

/-- The session's document in a collection. -/
def first {δ : Type} (coll : Option (List δ)) : Option δ := coll.bind List.head?

/-- None of the session's documents carries a stamp. -/
structure NoStamp (s : Docs Msg) : Prop where
  metas : ∀ m, first s.metas = some m → m.deletedAt = none
  histories : ∀ h, first s.histories = some h → h.deletedAt = none
  summaries : ∀ d, first s.summaries = some d → d.deletedAt = none

def HistoryStamped (s : Docs Msg) : Prop := ∃ h, first s.histories = some h ∧ h.deletedAt ≠ none

def SummaryStamped (s : Docs Msg) : Prop := ∃ d, first s.summaries = some d ∧ d.deletedAt ≠ none

/-- The calls that take the stamp off the history are carried out. -/
def clearsHistory (reply : DbCall Msg → Reply) : Bool :=
  reply .queryHistory = .answered ∧ reply (.patchHistory none) ≠ .failed

def clearsSummary (reply : DbCall Msg → Reply) : Bool :=
  reply (.collectionExists .summaries) = .answered ∧ reply .querySummary = .answered ∧
    reply (.patchSummary none) ≠ .failed

/-- The calls for the documents that are stamped are carried out. -/
def Clears (reply : DbCall Msg → Reply) (s : Docs Msg) : Prop :=
  (HistoryStamped s → clearsHistory reply = true) ∧
    (SummaryStamped s → clearsSummary reply = true)

/-! ## What `restore` leaves -/

/-- The first document changed, if there is one. -/
def mapFirst {δ : Type} (f : δ → δ) : Option (List δ) → Option (List δ)
  | some (d :: ds) => some (f d :: ds)
  | coll => coll

variable {δ : Type} {s : Docs Msg} {reply : DbCall Msg → Reply} {name : String}

theorem first_mapFirst (f : δ → δ) (coll : Option (List δ)) :
    first (mapFirst f coll) = (first coll).map f := by
  cases coll with
  | none => rfl
  | some ds =>
    cases ds with
    | nil => rfl
    | cons d ds => rfl

theorem mapFirst_of_first (f : δ → δ) {coll : Option (List δ)}
    (h : first coll = none) : mapFirst f coll = coll := by
  cases coll with
  | none => rfl
  | some ds =>
    cases ds with
    | nil => rfl
    | cons d ds => cases h

theorem exec_collectionExists (s : Docs Msg) (coll : Coll) :
    db.exec (DbCall.collectionExists coll) s = some (s, s.has coll) := rfl

theorem exec_querySummary {ds : List SummaryDoc}
    (h : s.summaries = some ds) : db.exec DbCall.querySummary s = some (s, ds.head?) := by
  simp only [db, h]
  rfl

theorem exec_patchHistory {d : HistoryDoc Msg} {ds : List (HistoryDoc Msg)}
    (h : s.histories = some (d :: ds)) (stamp : Option String) :
    db.exec (DbCall.patchHistory stamp) s =
      some ({ s with histories := some ({ d with deletedAt := stamp } :: ds) }, ()) := by
  simp only [db, h, replaceFirst]
  rfl

theorem exec_patchSummary {d : SummaryDoc} {ds : List SummaryDoc}
    (h : s.summaries = some (d :: ds)) (stamp : Option String) :
    db.exec (DbCall.patchSummary stamp) s =
      some ({ s with summaries := some ({ d with deletedAt := stamp } :: ds) }, ()) := by
  simp only [db, h, replaceFirst]
  rfl

def clearHistory (reply : DbCall Msg → Reply) (s : Docs Msg) : Docs Msg :=
  if clearsHistory reply then
    { s with histories := mapFirst (fun d => { d with deletedAt := none }) s.histories }
  else s

def clearSummary (reply : DbCall Msg → Reply) (s : Docs Msg) : Docs Msg :=
  if clearsSummary reply then
    { s with summaries := mapFirst (fun d => { d with deletedAt := none }) s.summaries }
  else s

theorem clearHistory_of_first (h : first s.histories = none) : clearHistory reply s = s := by
  obtain ⟨metas, histories, summaries, config⟩ := s
  rw [clearHistory, mapFirst_of_first _ h, ite_self]

theorem clearSummary_of_first (h : first s.summaries = none) : clearSummary reply s = s := by
  obtain ⟨metas, histories, summaries, config⟩ := s
  rw [clearSummary, mapFirst_of_first _ h, ite_self]

theorem run_patchHistoryStamp {α : Type} (reply : DbCall Msg → Reply) (k : Op Msg α)
    (s : Docs Msg) :
    run db reply (patchHistoryStamp none k) s = run db reply k (clearHistory reply s) := by
  rw [patchHistoryStamp]
  cases hhist : s.histories with
  | none =>
    rw [clearHistory_of_first (by rw [hhist]; rfl)]
    exact run_refused (exec_queryHistory_none hhist) reply _
  | some ds =>
    rw [run_read (exec_queryHistory hhist)]
    cases ds with
    | nil =>
      rw [clearHistory_of_first (by rw [hhist]; rfl)]
      split_ifs <;> rfl
    | cons d ds =>
      by_cases hquery : reply DbCall.queryHistory = .answered
      · rw [if_pos hquery]
        refine (run_call (exec_patchHistory hhist none) reply _).trans ?_
        by_cases hpatch : reply (DbCall.patchHistory none) = .failed
        · simp [clearHistory, clearsHistory, hpatch]
        · simp [clearHistory, clearsHistory, hquery, hpatch, hhist, mapFirst]
      · rw [if_neg hquery]
        simp [clearHistory, clearsHistory, hquery]

theorem run_patchSummaryStamp {α : Type} (reply : DbCall Msg → Reply) (k : Op Msg α)
    (s : Docs Msg) :
    run db reply (.call (DbCall.collectionExists .summaries) fun
      | some true => patchSummaryStamp none k
      | _ => k) s = run db reply k (clearSummary reply s) := by
  rw [run_read (exec_collectionExists s .summaries)]
  by_cases hexists : reply (DbCall.collectionExists .summaries) = .answered
  · rw [if_pos hexists]
    cases hsum : s.summaries with
    | none =>
      have hhas : s.has .summaries = false := by rw [Docs.has, hsum]; rfl
      rw [clearSummary_of_first (by rw [hsum]; rfl), hhas]
    | some ds =>
      have hhas : s.has .summaries = true := by rw [Docs.has, hsum]; rfl
      rw [hhas]
      refine (run_read (exec_querySummary hsum) reply _).trans ?_
      cases ds with
      | nil =>
        rw [clearSummary_of_first (by rw [hsum]; rfl)]
        split_ifs <;> rfl
      | cons d ds =>
        by_cases hquery : reply DbCall.querySummary = .answered
        · rw [if_pos hquery]
          refine (run_call (exec_patchSummary hsum none) reply _).trans ?_
          by_cases hpatch : reply (DbCall.patchSummary none) = .failed
          · simp [clearSummary, clearsSummary, hpatch]
          · simp [clearSummary, clearsSummary, hexists, hquery, hpatch, hsum, mapFirst]
        · rw [if_neg hquery]
          simp [clearSummary, clearsSummary, hquery]
  · rw [if_neg hexists]
    simp [clearSummary, clearsSummary, hexists]

/-- What a meta rewrite does when it answers that it found the document. -/
theorem run_rewriteMeta_ok {f : SessionMeta → SessionMeta}
    (h : (run db reply (rewriteMetaLocked f) s).2 = .ok true) :
    (run db reply (rewriteMetaLocked f) s).1 = { s with metas := mapFirst f s.metas } := by
  rw [rewriteMetaLocked] at h ⊢
  cases hmeta : s.metas with
  | none =>
    rw [run_refused (exec_queryMeta_none hmeta)] at h
    cases h
  | some ms =>
    rw [run_read (exec_queryMeta hmeta)] at h ⊢
    by_cases hquery : reply DbCall.queryMeta = .answered
    · rw [if_pos hquery] at h ⊢
      cases ms with
      | nil => cases h
      | cons m ms =>
        dsimp only [List.head?] at h ⊢
        rw [run_call (exec_updateMeta hmeta (f m))] at h ⊢
        by_cases hupdate : reply (DbCall.updateMeta (f m)) = .answered
        · rw [hupdate]
          rfl
        · rw [if_neg hupdate] at h
          cases h
    · rw [if_neg hquery] at h
      cases h

/-- `restore` past its meta rewrite. -/
theorem run_restore_of_found (h : (run db reply (rewriteMetaLocked applyRestore) s).2 = .ok true) :
    (run db reply (restore name) s).1 =
      clearSummary reply
        (clearHistory reply (run db reply (rewriteMetaLocked applyRestore) s).1) := by
  rw [restore, run_bind, h]
  rw [run_patchHistoryStamp]
  have hsummary := run_patchSummaryStamp reply (.done (Except.ok ()) : Op Msg (Except Failure Unit))
    (clearHistory reply (run db reply (rewriteMetaLocked applyRestore) s).1)
  exact congrArg Prod.fst hsummary

/-- **The documents after a restore that answered Ok.** -/
theorem run_restore_ok (h : (run db reply (restore name) s).2 = .ok ()) :
    (run db reply (restore name) s).1 =
      clearSummary reply (clearHistory reply
        { s with metas := mapFirst applyRestore s.metas }) := by
  have hfound : (run db reply (rewriteMetaLocked applyRestore) s).2 = .ok true := by
    rw [restore, run_bind] at h
    cases hmeta : (run db reply (rewriteMetaLocked applyRestore) s).2 with
    | error e =>
      rw [hmeta] at h
      cases h
    | ok found =>
      cases found with
      | false =>
        rw [hmeta] at h
        cases h
      | true => rfl
  rw [run_restore_of_found hfound, run_rewriteMeta_ok hfound]

/-! ## When the stamps are gone -/

/-- A stamp on the first document, which a clearing takes off. -/
theorem unstamped_clear (stamp : δ → Option String) {f : δ → δ}
    (hf : ∀ d, stamp (f d) = none) (coll : Option (List δ)) (b : Bool) :
    (∀ d, first (if b then mapFirst f coll else coll) = some d → stamp d = none) ↔
      ((∃ d, first coll = some d ∧ stamp d ≠ none) → b = true) := by
  cases b with
  | true =>
    simp only [if_true, first_mapFirst, Option.map_eq_some_iff, implies_true, iff_true]
    rintro d ⟨d', -, rfl⟩
    exact hf d'
  | false =>
    simp only [Bool.false_eq_true, if_false, imp_false, not_exists, not_and, not_not]

theorem clearHistory_histories (reply : DbCall Msg → Reply) (s : Docs Msg) :
    (clearHistory reply s).histories =
      if clearsHistory reply then
        mapFirst (fun d => { d with deletedAt := none }) s.histories
      else s.histories := by
  rw [clearHistory]
  split_ifs <;> rfl

theorem clearSummary_summaries (reply : DbCall Msg → Reply) (s : Docs Msg) :
    (clearSummary reply s).summaries =
      if clearsSummary reply then
        mapFirst (fun d => { d with deletedAt := none }) s.summaries
      else s.summaries := by
  rw [clearSummary]
  split_ifs <;> rfl

/-- The other collections of the two clearings. -/
theorem clear_others (reply : DbCall Msg → Reply) (s : Docs Msg) :
    (clearHistory reply s).metas = s.metas ∧ (clearHistory reply s).summaries = s.summaries ∧
      (clearSummary reply s).metas = s.metas ∧
      (clearSummary reply s).histories = s.histories := by
  rw [clearHistory, clearSummary]
  split_ifs <;> exact ⟨rfl, rfl, rfl, rfl⟩

theorem noStamp_restore_iff (h : (run db reply (restore name) s).2 = .ok ()) :
    NoStamp (run db reply (restore name) s).1 ↔ Clears reply s := by
  rw [run_restore_ok h]
  set s₁ : Docs Msg := { s with metas := mapFirst applyRestore s.metas } with hs₁
  obtain ⟨hmetas, hsummaries, -, -⟩ := clear_others reply s₁
  obtain ⟨-, -, hmetas', hhistories⟩ := clear_others reply (clearHistory reply s₁)
  have hhist := unstamped_clear HistoryDoc.deletedAt
    (f := fun d => { d with deletedAt := none }) (fun _ => rfl) s.histories
    (clearsHistory reply)
  have hsum := unstamped_clear SummaryDoc.deletedAt
    (f := fun d => { d with deletedAt := none }) (fun _ => rfl) s.summaries
    (clearsSummary reply)
  constructor
  · intro hno
    constructor
    · apply hhist.1
      have hfield := hno.histories
      rwa [hhistories, clearHistory_histories] at hfield
    · apply hsum.1
      have hfield := hno.summaries
      rwa [clearSummary_summaries, hsummaries] at hfield
  · intro hclears
    refine ⟨?_, ?_, ?_⟩
    · rw [hmetas', hmetas, hs₁, first_mapFirst]
      intro m hm
      obtain ⟨m', -, rfl⟩ := Option.map_eq_some_iff.1 hm
      rfl
    · rw [hhistories, clearHistory_histories]
      exact hhist.2 hclears.1
    · rw [clearSummary_summaries, hsummaries]
      exact hsum.2 hclears.2

/-! ## The steps that follow -/

theorem NoStamp.updateMeta (h : NoStamp s) {m : SessionMeta}
    {ms : List SessionMeta} (hm : m.deletedAt = none) :
    NoStamp { s with metas := some (m :: ms) } where
  metas m' hm' := by
    obtain rfl : m = m' := Option.some.inj hm'
    exact hm
  histories := h.histories
  summaries := h.summaries

theorem always_rewriteMeta_noStamp (h : NoStamp s)
    {f : SessionMeta → SessionMeta} (hf : ∀ m, m.deletedAt = none → (f m).deletedAt = none) :
    Always db NoStamp (fun _ _ => True) (rewriteMetaLocked f) s := by
  apply always_rewriteMeta_keeps h
  intro m ms hmeta
  apply h.updateMeta
  apply hf m
  apply h.metas m
  rw [hmeta]
  rfl

theorem always_appendTurn_noStamp (h : NoStamp s) (name : String)
    (messages : List Msg) (seen : Option DateTime) (now : DateTime) :
    Always db NoStamp (fun _ _ => True) (appendTurn name messages seen now) s := by
  have hstamp : ∀ s' : Docs Msg, NoStamp s' → ∀ count,
      Always db NoStamp (fun _ _ => True) (stampTurn now count seen) s' :=
    fun s' hs' count => Always.map (always_rewriteMeta_noStamp hs' (fun _ hm => hm))
  rw [appendTurn]
  cases hhist : s.histories with
  | none => exact Always.refused (exec_queryHistory_none hhist) h ⟨h, trivial⟩
  | some ds =>
    refine Always.call (exec_queryHistory hhist) h ?_ ⟨h, trivial⟩ ⟨h, trivial⟩
    cases ds with
    | nil => exact hstamp s h none
    | cons d ds =>
      show Always _ _ _ (ite _ _ _) s
      split
      · exact ⟨h, trivial⟩
      -- the rewritten history is stored without a stamp
      have hwritten : ∀ doc : SessionHistory Msg,
          NoStamp { s with histories := some (⟨doc, none⟩ :: ds) } := by
        intro doc
        refine ⟨h.metas, ?_, h.summaries⟩
        intro d' hd'
        obtain rfl := Option.some.inj hd'
        rfl
      exact Always.call (exec_updateHistory hhist _) h (hstamp _ (hwritten _) _)
        ⟨h, trivial⟩ ⟨hwritten _, trivial⟩

theorem NoStamp.clear (h : NoStamp s) (reply : DbCall Msg → Reply) :
    NoStamp (clearSummary reply (clearHistory reply s)) := by
  obtain ⟨hmetas, hsummaries, -, -⟩ := clear_others reply s
  obtain ⟨-, -, hmetas', hhistories⟩ := clear_others reply (clearHistory reply s)
  refine ⟨?_, ?_, ?_⟩
  · rw [hmetas', hmetas]
    exact h.metas
  · rw [hhistories, clearHistory_histories]
    apply (unstamped_clear HistoryDoc.deletedAt (fun _ => rfl) _ _).2
    rintro ⟨d, hd, hstamped⟩
    exact absurd (h.histories d hd) hstamped
  · rw [clearSummary_summaries, hsummaries]
    apply (unstamped_clear SummaryDoc.deletedAt (fun _ => rfl) _ _).2
    rintro ⟨d, hd, hstamped⟩
    exact absurd (h.summaries d hd) hstamped

/-- A later restore, however it ends. -/
theorem noStamp_run_restore (h : NoStamp s) (reply : DbCall Msg → Reply)
    (name : String) : NoStamp (run db reply (restore name) s).1 := by
  have hmeta := Always.run reply _ s
    (Always.withInv _ s (always_rewriteMeta_noStamp h (f := applyRestore) (fun _ _ => rfl)))
  by_cases hfound : (run db reply (rewriteMetaLocked applyRestore) s).2 = .ok true
  · rw [run_restore_of_found hfound]
    exact hmeta.1.clear reply
  · rw [restore, run_bind]
    cases hresult : (run db reply (rewriteMetaLocked applyRestore) s).2 with
    | error e => exact hmeta.1
    | ok found =>
      cases found with
      | false => exact hmeta.1
      | true => exact absurd hresult hfound

/-! ## Sequences of operations -/

inductive SessionOp (Msg : Type) where
  | append (messages : List Msg) (seen : Option DateTime) (now : DateTime)
  | softDelete (reason stamp : String)
  | restore

/-- The documents after an operation with the replies to its calls. -/
def SessionOp.exec (name : String) (reply : DbCall Msg → Reply) (s : Docs Msg) :
    SessionOp Msg → Docs Msg
  | .append messages seen now => (run db reply (appendTurn name messages seen now) s).1
  | .softDelete reason stamp => (run db reply (Sessions.softDelete name reason stamp) s).1
  | .restore => (run db reply (Sessions.restore name) s).1

def runOps (name : String) (s : Docs Msg) : List (SessionOp Msg × (DbCall Msg → Reply)) → Docs Msg
  | [] => s
  | (op, reply) :: ops => runOps name (op.exec name reply s) ops

def SessionOp.isSoftDelete : SessionOp Msg → Bool
  | .softDelete _ _ => true
  | _ => false

theorem noStamp_exec (name : String) (reply : DbCall Msg → Reply)
    {op : SessionOp Msg} (h : NoStamp s) (hop : op.isSoftDelete = false) :
    NoStamp (op.exec name reply s) := by
  cases op with
  | append messages seen now =>
    exact (Always.run reply _ s
      (Always.withInv _ s (always_appendTurn_noStamp h name messages seen now))).1
  | softDelete reason stamp => cases hop
  | restore => exact noStamp_run_restore h reply name

theorem noStamp_runOps (ops : List (SessionOp Msg × (DbCall Msg → Reply))) :
    ∀ s, NoStamp s → (∀ x ∈ ops, x.1.isSoftDelete = false) → NoStamp (runOps name s ops) := by
  induction ops with
  | nil => exact fun _ h _ => h
  | cons x ops ih =>
    intro s h hops
    have hx := noStamp_exec name x.2 h (hops x List.mem_cons_self)
    exact ih _ hx (fun y hy => hops y (List.mem_cons_of_mem _ hy))

/-- **A restored session carries no stamp exactly when the calls for its stamped
documents went through.**  After any operations a restore answers Ok; when the
calls of `Clears` went through then no document is stamped, there and after any
further operations but a soft delete. -/
theorem restore_unstamped (name : String) (s : Docs Msg)
    (before after : List (SessionOp Msg × (DbCall Msg → Reply))) (reply : DbCall Msg → Reply)
    (hok : (run db reply (restore name) (runOps name s before)).2 = .ok ())
    (hafter : ∀ x ∈ after, x.1.isSoftDelete = false) :
    (NoStamp (run db reply (restore name) (runOps name s before)).1 ↔
        Clears reply (runOps name s before)) ∧
      (Clears reply (runOps name s before) →
        NoStamp (runOps name (run db reply (restore name) (runOps name s before)).1 after)) :=
  ⟨noStamp_restore_iff hok, fun hclears =>
    noStamp_runOps after _ ((noStamp_restore_iff hok).2 hclears) hafter⟩

/-- The session after a soft delete in which every call went through. -/
def demoDeleted : Docs String :=
  runOps "s" demoDocs [(.softDelete "spam" "2026-01-01T00:00:00+00:00", fun _ => .answered)]

theorem restore_unstamped_demo :
    NoStamp (runOps "s" (run db (fun _ => .answered) (restore "s") demoDeleted).1
      [(.append ["hello"] none demoTime, fun _ => .answered)]) :=
  (restore_unstamped "s" demoDocs
    [(.softDelete "spam" "2026-01-01T00:00:00+00:00", fun _ => .answered)]
    [(.append ["hello"] none demoTime, fun _ => .answered)] (fun _ => .answered) rfl
    (fun x hx => by rw [List.mem_singleton.1 hx]; rfl)).2 ⟨fun _ => rfl, fun _ => rfl⟩

/-- A restore whose history patch fails answers Ok and leaves the stamp. -/
theorem restore_ok_stamped :
    let restored := run db (fun c => match c with
      | DbCall.patchHistory _ => .failed
      | _ => .answered) (restore "s") demoDeleted
    restored.2 = .ok () ∧
      (first restored.1.histories).map HistoryDoc.deletedAt =
        some (some "2026-01-01T00:00:00+00:00") :=
  ⟨rfl, rfl⟩

end EmbraOS.Ports.Sessions
