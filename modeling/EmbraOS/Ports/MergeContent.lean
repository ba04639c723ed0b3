import Mathlib
import EmbraOS.Verified.Serde
import EmbraOS.Verified.Text

/-!
# Merging the content of two knowledge nodes

`knowledge_merge` of `knowledge/merge.rs`, as far as it touches the two nodes: the arguments
are checked, the target gets the source's tags and, with the strategy `merge_content`, its
content under a marker; at the end the source is deleted.  The steps in between write edges
and entries only; here they are calls that may fail and then abort the run.

The marker is looked for in the target before the content is appended, so that a run that was
aborted can be repeated.  `attempts_keep_text_iff`: over any number of runs of one merge, the
last of which completes, the text of the source is in the target exactly when the target did
not have the marker at first, or had the text already.  The marker of an id is also in the
marker of every longer id (`shorter_id_loses_text`).
-/

namespace EmbraOS.Ports.MergeContent

open Verified
open Verified.Serde
open Verified.Text

/-! ## The arguments -/

inductive MergeStrategy where
  | keepTarget
  | mergeTags
  | mergeContent
deriving DecidableEq, Repr

inductive Collection where
  | semantic
  | procedural
deriving DecidableEq, Repr

def Collection.name : Collection → String
  | semantic => "memory.semantic"
  | procedural => "memory.procedural"

structure KnowledgeMergeArgs where
  sourceCollection : String
  sourceId : String
  targetCollection : String
  targetId : String
  strategy : MergeStrategy := .keepTarget
  dryRun : Bool := false

/-- `lower` is `str::to_lowercase`. -/
def resolveKgCollection (lower : String → String) (name : String) : Except String Collection :=
  let name := lower (trim name)
  if name = "semantic" ∨ name = "memory.semantic" then .ok .semantic
  else if name = "procedural" ∨ name = "memory.procedural" then .ok .procedural
  else .error ("collection '" ++ name ++ "' not supported — only memory.semantic or " ++
    "memory.procedural (identity.graph is projection-managed; use forget for memory.entries)")

def rejected (e : String) : String := "knowledge_merge rejected: " ++ e

/-- Everything that can be checked without the database: the collection, and the ids of the
source and the target. -/
def validateMergeArgs (lower : String → String) (args : KnowledgeMergeArgs) :
    Except String (Collection × String × String) := do
  let srcColl ← (resolveKgCollection lower args.sourceCollection).mapError rejected
  let tgtColl ← (resolveKgCollection lower args.targetCollection).mapError rejected
  if srcColl ≠ tgtColl then
    .error (rejected ("cross-kind merge (" ++ srcColl.name ++ " → " ++ tgtColl.name ++
      ") — semantic and procedural nodes cannot be merged into each other"))
  else
    let srcId := trim args.sourceId
    let tgtId := trim args.targetId
    if srcId = "" ∨ tgtId = "" then
      .error (rejected "source_id and target_id are required")
    else if srcId = tgtId then
      .error (rejected "self-merge (source and target are the same node)")
    else if args.strategy = .mergeContent ∧ srcColl = .procedural then
      .error (rejected ("merge_content is not supported for memory.procedural " ++
        "(structured steps cannot be textually merged) — fold what you need into the target " ++
        "with knowledge_update first, then merge with keep_target"))
    else .ok (srcColl, srcId, tgtId)

/-! ## The plan -/

def mergedFromMarker (sourceId : String) : String := "## Merged from " ++ sourceId

/-- The target's text with the source's behind it. -/
def appended (tgtContent srcContent srcId : String) : String :=
  tgtContent ++ "\n\n" ++ mergedFromMarker srcId ++ "\n\n" ++ srcContent

/-- The new content and a note.  The marker is the guard of a repeated run. -/
def planContent (tgtContent srcContent srcId : String) : Option String × Option String :=
  if contains tgtContent (mergedFromMarker srcId) then
    (none, some ("target already contains \"" ++ mergedFromMarker srcId ++
      "\" — content append skipped (re-run guard)"))
  else (some (appended tgtContent srcContent srcId), none)

/-- The strings of an array field. -/
def stringArray (doc : Json) (key : String) : List String :=
  (((doc.get? key).bind Json.asArray?).getD []).filterMap Json.asStr?

/-- The union in the target's order, and what it adds. -/
def unionTags (tgt src : List String) : List String × List String :=
  src.foldl (fun r t => if t ∈ r.1 then r else (r.1 ++ [t], r.2 ++ [t])) (tgt, [])

def contentOf (doc : Json) : String := ((doc.get? "content").bind Json.asStr?).getD ""

structure MergePlan where
  unionedTags : List String
  tagsToAdd : List String
  newContent : Option String
  warnings : List String

/-- The part of `build_merge_plan` that reads the two nodes; `warnings` are those of its
reads of the edges and entries. -/
def buildMergePlan (strategy : MergeStrategy) (srcId : String) (srcDoc tgtDoc : Json)
    (warnings : List String) : MergePlan :=
  let tags := unionTags (stringArray tgtDoc "tags") (stringArray srcDoc "tags")
  if strategy = .mergeContent then
    let planned := planContent (contentOf tgtDoc) (contentOf srcDoc) srcId
    ⟨tags.1, tags.2, planned.1, warnings ++ planned.2.toList⟩
  else ⟨tags.1, tags.2, none, warnings⟩

/-- The update of the target, empty when nothing changes. -/
def MergePlan.patch (plan : MergePlan) (now : String) : List (String × Json) :=
  let fields :=
    (if plan.tagsToAdd = [] then [] else [("tags", .arr (plan.unionedTags.map .str))]) ++
      (plan.newContent.map fun c => ("content", Json.str c)).toList
  if fields = [] then [] else fields ++ [("updated_at", .str now)]

/-! ## A run -/

/-- The documents of the collection. -/
abbrev Nodes := String → Option Json

def Nodes.patch (nodes : Nodes) (id : String) (updates : List (String × Json)) : Nodes :=
  fun i => if i = id then (nodes i).map (fun doc => doc.merge (.obj updates)) else nodes i

def Nodes.delete (nodes : Nodes) (id : String) : Nodes :=
  fun i => if i = id then none else nodes i

/-- The answer to a write.  One that failed may have been carried out all the same. -/
inductive Reply where
  | done
  | failed (applied : Bool)
deriving DecidableEq, Repr

/-- What a run takes from outside: the answers of the database and the clock. -/
structure Calls where
  /-- The reads that the plan needs, with the warnings they lead to. -/
  reads : Except String (List String)
  target : Reply
  /-- The calls of steps 2 to 6 by the name of their step, and whether each is answered. -/
  between : List (String × Bool)
  delete : Reply
  now : String

inductive Result where
  | refused (message : String)
  | preview (plan : MergePlan)
  | aborted (step : String)
  | merged (contentAppended : Bool) (warnings : List String)

def Result.isMerged : Result → Bool
  | .merged _ _ => true
  | _ => false

/-- The first of the calls between that is not answered. -/
def failedBetween (between : List (String × Bool)) : Option String :=
  (between.find? fun call => !call.2).map Prod.fst

/-- A write, and whether it was answered. -/
def Reply.write (reply : Reply) (before after : Nodes) : Nodes × Bool :=
  match reply with
  | .done => (after, true)
  | .failed applied => (if applied then after else before, false)

/-- Step 1, which is skipped when nothing changes. -/
def updateTarget (plan : MergePlan) (tgt : String) (calls : Calls) (nodes : Nodes) :
    Nodes × Bool :=
  let patch := plan.patch calls.now
  if patch = [] then (nodes, true) else calls.target.write nodes (nodes.patch tgt patch)

def executeMergePlan (plan : MergePlan) (src tgt : String) (calls : Calls) (nodes : Nodes) :
    Nodes × Result :=
  let (nodes, ok) := updateTarget plan tgt calls nodes
  if !ok then (nodes, .aborted "step_1_target_update")
  else
    match failedBetween calls.between with
    | some step => (nodes, .aborted step)
    | none =>
      -- the source goes last
      let (nodes, ok) := calls.delete.write nodes (nodes.delete src)
      if !ok then (nodes, .aborted "step_7_source_delete")
      else (nodes, .merged plan.newContent.isSome plan.warnings)

def runKnowledgeMerge (lower : String → String) (args : KnowledgeMergeArgs) (calls : Calls)
    (nodes : Nodes) : Nodes × Result :=
  match validateMergeArgs lower args with
  | .error e => (nodes, .refused e)
  | .ok (coll, src, tgt) =>
    match nodes src, nodes tgt, calls.reads with
    | none, _, _ =>
      (nodes, .refused (rejected ("source node " ++ coll.name ++ ":" ++ src ++
        " not found — if a previous merge run reported failure only at the final " ++
        "delete step, the merge already completed")))
    | some _, none, _ =>
      (nodes, .refused (rejected ("target node " ++ coll.name ++ ":" ++ tgt ++ " not found")))
    | some _, some _, .error e => (nodes, .refused e)
    | some srcDoc, some tgtDoc, .ok warnings =>
      let plan := buildMergePlan args.strategy src srcDoc tgtDoc warnings
      if args.dryRun then (nodes, .preview plan)
      else executeMergePlan plan src tgt calls nodes

/-- The same merge run again and again. -/
def attempts (lower : String → String) (args : KnowledgeMergeArgs) :
    List Calls → Nodes → Nodes × List Result
  | [], nodes => (nodes, [])
  | calls :: rest, nodes =>
    let (nodes, result) := runKnowledgeMerge lower args calls nodes
    let (nodes, results) := attempts lower args rest nodes
    (nodes, result :: results)

/-! ## What a run leaves of the two texts -/

/-- The text of a node. -/
def textOf (nodes : Nodes) (id : String) : String := ((nodes id).map contentOf).getD ""

theorem contains_appended (tgt src id : String) :
    contains (appended tgt src id) src = true ∧
      contains (appended tgt src id) (mergedFromMarker id) = true := by
  constructor
  · have h := containsList_append (tgt ++ "\n\n" ++ mergedFromMarker id ++ "\n\n").toList
      src.toList []
    simpa [contains, appended] using h
  · have h := containsList_append (tgt ++ "\n\n").toList (mergedFromMarker id).toList
      ("\n\n" ++ src).toList
    simpa [contains, appended] using h

theorem nodup_patch (plan : MergePlan) (now : String) : ((plan.patch now).map Prod.fst).Nodup := by
  unfold MergePlan.patch
  cases plan.newContent <;> by_cases htags : plan.tagsToAdd = [] <;> simp [htags]

/-- The content that the update writes, if any. -/
theorem contentOf_patch (plan : MergePlan) (now : String) (doc : Json) (hne : plan.patch now ≠ []) :
    contentOf (doc.merge (.obj (plan.patch now))) = plan.newContent.getD (contentOf doc) := by
  have hget : (Json.obj (plan.patch now)).get? "content" = plan.newContent.map Json.str := by
    revert hne
    unfold MergePlan.patch
    cases plan.newContent <;> by_cases htags : plan.tagsToAdd = [] <;>
      simp [htags, Json.get?]
  rw [contentOf, Json.get?_merge doc (nodup_patch plan now), hget]
  cases plan.newContent with
  | none => rfl
  | some c => rfl

theorem textOf_patch {plan : MergePlan} {now tgt : String} {nodes : Nodes} {doc : Json}
    (htgt : nodes tgt = some doc) (hne : plan.patch now ≠ []) :
    textOf (nodes.patch tgt (plan.patch now)) tgt = plan.newContent.getD (textOf nodes tgt) := by
  simp [textOf, Nodes.patch, htgt, contentOf_patch plan now doc hne]

/-- A plan that writes nothing has no content to write. -/
theorem newContent_of_patch_nil {plan : MergePlan} {now : String} (h : plan.patch now = []) :
    plan.newContent = none := by
  revert h
  unfold MergePlan.patch
  cases plan.newContent <;> by_cases htags : plan.tagsToAdd = [] <;> simp [htags]

/-! ### One run -/

/-- A write is carried out or not, and is when it is answered. -/
theorem Reply.write_cases (reply : Reply) (before after : Nodes) :
    ((reply.write before after).1 = before ∧ (reply.write before after).2 = false) ∨
      (reply.write before after).1 = after := by
  cases reply with
  | done => exact Or.inr rfl
  | failed applied =>
    cases applied with
    | false => exact Or.inl ⟨rfl, rfl⟩
    | true => exact Or.inr rfl

section Run

variable {plan : MergePlan} {src tgt : String} {calls : Calls} {nodes : Nodes} {doc : Json}

variable (plan calls) in
/-- Step 1 touches the target only, and has written the planned text when it is answered. -/
theorem updateTarget_spec (htgt : nodes tgt = some doc) :
    (∀ i, i ≠ tgt → (updateTarget plan tgt calls nodes).1 i = nodes i) ∧
      (textOf (updateTarget plan tgt calls nodes).1 tgt
          = plan.newContent.getD (textOf nodes tgt) ∨
        textOf (updateTarget plan tgt calls nodes).1 tgt = textOf nodes tgt ∧
          (updateTarget plan tgt calls nodes).2 = false) := by
  unfold updateTarget
  dsimp only
  split
  · rename_i hnil
    exact ⟨fun _ _ => rfl, Or.inl (by rw [newContent_of_patch_nil hnil]; rfl)⟩
  · rename_i hne
    rcases calls.target.write_cases nodes (nodes.patch tgt (plan.patch calls.now)) with
      ⟨hnodes, hreply⟩ | hnodes
    · rw [hnodes, hreply]
      exact ⟨fun _ _ => rfl, Or.inr ⟨rfl, rfl⟩⟩
    · rw [hnodes]
      exact ⟨fun i hi => by simp [Nodes.patch, hi], Or.inl (textOf_patch htgt hne)⟩

theorem textOf_delete (hne : src ≠ tgt) : textOf (nodes.delete src) tgt = textOf nodes tgt := by
  simp [textOf, Nodes.delete, hne.symm]

/-- What an execution leaves: the target's text as planned, or as it was when it does not
complete; the source as it was, or gone, as it is when it completes. -/
theorem executeMergePlan_spec (hne : src ≠ tgt) (htgt : nodes tgt = some doc) {nodes' : Nodes}
    {result : Result} (hrun : executeMergePlan plan src tgt calls nodes = (nodes', result)) :
    (nodes' src = none ∨ nodes' src = nodes src ∧ result.isMerged = false) ∧
      (textOf nodes' tgt = plan.newContent.getD (textOf nodes tgt) ∨
        textOf nodes' tgt = textOf nodes tgt ∧ result.isMerged = false) := by
  obtain ⟨hother, htext⟩ := updateTarget_spec plan calls htgt
  revert hother htext hrun
  unfold executeMergePlan
  generalize updateTarget plan tgt calls nodes = step
  obtain ⟨mid, ok⟩ := step
  intro hrun hother htext
  dsimp only at hrun hother htext
  have hkeep : mid src = nodes src := hother src hne
  cases ok with
  | false =>
    cases hrun
    exact ⟨Or.inr ⟨hkeep, rfl⟩, htext.imp_right fun h => ⟨h.1, rfl⟩⟩
  | true =>
    have hplanned : textOf mid tgt = plan.newContent.getD (textOf nodes tgt) :=
      htext.resolve_right fun h => Bool.noConfusion h.2
    simp only [Bool.not_true, Bool.false_eq_true, if_false] at hrun
    split at hrun
    · cases hrun
      exact ⟨Or.inr ⟨hkeep, rfl⟩, Or.inl hplanned⟩
    rcases calls.delete.write_cases mid (mid.delete src) with ⟨hnodes, hreply⟩ | hnodes
    · rw [hreply, hnodes] at hrun
      cases hrun
      exact ⟨Or.inr ⟨hkeep, rfl⟩, Or.inl hplanned⟩
    · rw [hnodes] at hrun
      have hnodes' : nodes' = mid.delete src := by
        split at hrun <;> exact (Prod.mk.inj hrun).1.symm
      rw [hnodes']
      exact ⟨Or.inl (by simp [Nodes.delete]),
        Or.inl ((textOf_delete hne).trans hplanned)⟩

end Run

/-! ### Run after run -/

section Attempts

variable {lower : String → String} {args : KnowledgeMergeArgs} {src tgt : String}
  {coll : Collection}

theorem validateMergeArgs_ne (h : validateMergeArgs lower args = .ok (coll, src, tgt)) :
    src ≠ tgt := by
  unfold validateMergeArgs at h
  cases hsrc : resolveKgCollection lower args.sourceCollection with
  | error e => simp [hsrc, Except.mapError, bind, Except.bind] at h
  | ok srcColl =>
    cases htgt : resolveKgCollection lower args.targetCollection with
    | error e => simp [hsrc, htgt, Except.mapError, bind, Except.bind] at h
    | ok tgtColl =>
      simp only [hsrc, htgt, Except.mapError, bind, Except.bind] at h
      split_ifs at h with _ _ hne
      simp only [Except.ok.injEq, Prod.mk.injEq] at h
      obtain ⟨-, rfl, rfl⟩ := h
      exact hne

/-- The target's text when the merge has completed. -/
def finalText (tgtText srcText src : String) : String :=
  (planContent tgtText srcText src).1.getD tgtText

/-- Planning again changes nothing more. -/
theorem finalText_finalText (tgtText srcText src : String) :
    finalText (finalText tgtText srcText src) srcText src = finalText tgtText srcText src := by
  unfold finalText planContent
  by_cases hmarker : contains tgtText (mergedFromMarker src) = true
  · simp [hmarker]
  · simp [hmarker, (contains_appended tgtText srcText src).2]

/-- What holds between the runs of one merge: the source is as it was or gone, and the
target's text is the first or the final one. -/
structure Kept (src tgt : String) (before nodes : Nodes) : Prop where
  source : nodes src = before src ∨ nodes src = none
  target : textOf nodes tgt = textOf before tgt ∨
    textOf nodes tgt = finalText (textOf before tgt) (textOf before src) src

/-- The merge has completed. -/
structure Done (src tgt : String) (before nodes : Nodes) : Prop where
  source : nodes src = none
  target : textOf nodes tgt = finalText (textOf before tgt) (textOf before src) src

variable {before nodes : Nodes}

variable (hargs : validateMergeArgs lower args = .ok (coll, src, tgt))
include hargs

/-- A run of the merge keeps this, and when it reports the merge, it is done. -/
theorem runKnowledgeMerge_kept
    (hstrategy : args.strategy = .mergeContent) (calls : Calls) (h : Kept src tgt before nodes)
    {nodes' : Nodes} {result : Result}
    (hrun : runKnowledgeMerge lower args calls nodes = (nodes', result)) :
    Kept src tgt before nodes' ∧ (result.isMerged = true → Done src tgt before nodes') := by
  have hrefused (m : String) (heq : (nodes, Result.refused m) = (nodes', result)) :
      Kept src tgt before nodes' ∧ (result.isMerged = true → Done src tgt before nodes') := by
    cases heq
    exact ⟨h, nofun⟩
  simp only [runKnowledgeMerge, hargs] at hrun
  split at hrun
  · exact hrefused _ hrun
  · exact hrefused _ hrun
  · exact hrefused _ hrun
  rename_i srcDoc tgtDoc warnings hsrc htgt hreads
  split at hrun
  · cases hrun
    exact ⟨h, nofun⟩
  -- the source is there, so it is the one the first run found
  have hsource : nodes src = before src := by
    rcases h.source with hsource | hgone
    · exact hsource
    · rw [hgone] at hsrc
      cases hsrc
  have hplan : (buildMergePlan args.strategy src srcDoc tgtDoc warnings).newContent.getD
      (textOf nodes tgt) = finalText (textOf before tgt) (textOf before src) src := by
    have hsrcText : contentOf srcDoc = textOf before src := by simp [textOf, ← hsource, hsrc]
    have htgtText : contentOf tgtDoc = textOf nodes tgt := by simp [textOf, htgt]
    simp only [buildMergePlan, hstrategy, if_true, hsrcText, htgtText]
    rcases h.target with htext | htext <;> rw [htext]
    · rfl
    · exact finalText_finalText _ _ _
  obtain ⟨hsrc', htgt'⟩ := executeMergePlan_spec (validateMergeArgs_ne hargs) htgt hrun
  rw [hplan] at htgt'
  refine ⟨⟨?_, ?_⟩, fun hmerged => ⟨?_, ?_⟩⟩
  · exact hsrc'.symm.imp_left fun hkeep => hkeep.1.trans hsource
  · rcases htgt' with hfinal | ⟨hsame, -⟩
    · exact Or.inr hfinal
    · rw [hsame]
      exact h.target
  · exact hsrc'.resolve_right fun hno => by simp [hmerged] at hno
  · exact htgt'.resolve_right fun hno => by simp [hmerged] at hno

/-- Without the source a run is refused. -/
theorem runKnowledgeMerge_gone (calls : Calls) (hgone : nodes src = none) :
    (runKnowledgeMerge lower args calls nodes).1 = nodes := by
  simp only [runKnowledgeMerge, hargs, hgone]

theorem attempts_gone (hgone : nodes src = none) (runs : List Calls) :
    (attempts lower args runs nodes).1 = nodes := by
  induction runs with
  | nil => rfl
  | cons calls runs ih =>
    simp only [attempts, runKnowledgeMerge_gone hargs calls hgone]
    exact ih

/-- Over all the runs: once one of them reports the merge, it is done and stays so. -/
theorem attempts_done (hstrategy : args.strategy = .mergeContent) (runs : List Calls) :
    ∀ nodes, Kept src tgt before nodes →
      (∃ r ∈ (attempts lower args runs nodes).2, r.isMerged = true) →
      Done src tgt before (attempts lower args runs nodes).1 := by
  induction runs with
  | nil => simp [attempts]
  | cons calls runs ih =>
    intro nodes h hmerged
    obtain ⟨nodes', result, hrun⟩ : ∃ nodes' result,
        runKnowledgeMerge lower args calls nodes = (nodes', result) := ⟨_, _, rfl⟩
    obtain ⟨hkept, hdone⟩ := runKnowledgeMerge_kept hargs hstrategy calls h hrun
    simp only [attempts, hrun, List.mem_cons] at hmerged ⊢
    obtain ⟨r, rfl | hr, hr'⟩ := hmerged
    · rw [attempts_gone hargs (hdone hr').source]
      exact hdone hr'
    · exact ih nodes' hkept ⟨r, hr, hr'⟩

end Attempts

/-- **No text is lost** by a merge of contents that completes, in whatever run, exactly when
the target did not have the source's marker before, or had its text already. -/
theorem attempts_keep_text_iff (lower : String → String) (args : KnowledgeMergeArgs)
    (coll : Collection) (src tgt : String) (nodes : Nodes) (runs : List Calls)
    (hargs : validateMergeArgs lower args = .ok (coll, src, tgt))
    (hstrategy : args.strategy = .mergeContent)
    (hmerged : ∃ r ∈ (attempts lower args runs nodes).2, r.isMerged = true) :
    contains (textOf (attempts lower args runs nodes).1 tgt) (textOf nodes src) = true ↔
      contains (textOf nodes tgt) (mergedFromMarker src) = false ∨
        contains (textOf nodes tgt) (textOf nodes src) = true := by
  have hdone := attempts_done hargs hstrategy runs nodes ⟨Or.inl rfl, Or.inl rfl⟩ hmerged
  rw [hdone.target]
  unfold finalText planContent
  by_cases hmarker : contains (textOf nodes tgt) (mergedFromMarker src) = true
  · simp [hmarker]
  · simp [hmarker, (contains_appended (textOf nodes tgt) (textOf nodes src) src).1]

/-- Two nodes. -/
def pairOf (src tgt srcText tgtText : String) : Nodes := fun i =>
  if i = src then some (.obj [("content", .str srcText)])
  else if i = tgt then some (.obj [("content", .str tgtText)])
  else none

/-- A run in which every call is answered. -/
def smooth : Calls := ⟨.ok [], .done, [], .done, ""⟩

def mergeInto (src tgt : String) : KnowledgeMergeArgs where
  sourceCollection := "semantic"
  sourceId := src
  targetCollection := "semantic"
  targetId := tgt
  strategy := .mergeContent

/-- A first run that is aborted after the append, and a second that completes. -/
theorem attempts_keep_text_retry :
    contains (textOf (attempts id (mergeInto "n1" "t")
        [{ smooth with between := [("step_3_redirects", false)] }, smooth]
        (pairOf "n1" "t" "text" "T")).1 "t") "text" = true :=
  (attempts_keep_text_iff id (mergeInto "n1" "t") .semantic "n1" "t" (pairOf "n1" "t" "text" "T")
    _ (by decide +kernel) rfl (by decide +kernel)).mpr (Or.inl (by decide +kernel))

/-- A target that once took in `n10` has the marker of `n1` too: nothing is appended, and the
source is deleted with its text. -/
theorem shorter_id_loses_text :
    let before := pairOf "n1" "t" "text" (appended "T" "other" "n10")
    let run := runKnowledgeMerge id (mergeInto "n1" "t") smooth before
    run.2.isMerged = true ∧ run.1 "n1" = none ∧ textOf before "n1" = "text" ∧
      textOf run.1 "t" = appended "T" "other" "n10" ∧
      contains (textOf run.1 "t") "text" = false := by
  decide +kernel

end EmbraOS.Ports.MergeContent
