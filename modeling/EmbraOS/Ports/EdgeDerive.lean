import Mathlib

/-!
# Deriving the edges of a new document

Port of `derive_edges_except`, `push_bidirectional` and `existing_edges`
(`embra-brain/src/knowledge/edges.rs`) from the candidate lists on: three passes plan edges in both
directions, two bounded reads of `memory.edges` say which of them are stored, and the rest is
written in one batch.  The reads and the write go to the server, which cuts a query off at
`ceiling` documents and refuses a batch of more than `maxBulkInsert`.

Weights are in any type with the operations of a double; chrono's reader gives nanoseconds.

`derive_edges_batch` is the main result.
-/

namespace EmbraOS.Ports.EdgeDerive

/-- A document, as `(collection, id)`. -/
abbrev DocRef := String × String

structure Candidate where
  id : String
  collection : String
  createdAt : String
  tags : List String
  deriving DecidableEq, Repr

def Candidate.ref (c : Candidate) : DocRef := (c.collection, c.id)

inductive Metadata where
  | session (session : String)
  | distance (distanceSecs windowSecs : Int)
  | overlap (count : Nat)
  deriving DecidableEq, Repr

structure Edge (F : Type) where
  sourceId : String
  sourceCollection : String
  targetId : String
  targetCollection : String
  edgeType : String
  weight : F
  metadata : Metadata
  createdAt : String
  deriving DecidableEq, Repr

/-- An edge's identity for the duplicate check. -/
abbrev EdgeKey := String × String × String

variable {F : Type}

def Edge.source (e : Edge F) : DocRef := (e.sourceCollection, e.sourceId)

def Edge.target (e : Edge F) : DocRef := (e.targetCollection, e.targetId)

def edgeKey (e : Edge F) : EdgeKey := (e.sourceId, e.targetId, e.edgeType)

/-- What is used of double arithmetic and of chrono. -/
structure Host (F : Type) where
  ofInt : Int → F
  sub : F → F → F
  div : F → F → F
  le : F → F → Bool
  parseTs : String → Option Int

/-- A call, with the candidates it gathered. -/
structure Call where
  newDoc : DocRef
  except : Option DocRef
  session : String
  tags : List String
  createdAt : String
  windowSecs : Int
  sessionCandidates : List Candidate
  temporalCandidates : List Candidate
  tagCandidates : List Candidate

/-! ## Planning -/

def skips (c : Candidate) (newDoc : DocRef) (except : Option DocRef) : Bool :=
  c.ref = newDoc || except = some c.ref

def pushBidirectional (a b : DocRef) (edgeType : String) (weight : F) (metadata : Metadata)
    (now : String) : List (Edge F) :=
  [⟨a.2, a.1, b.2, b.1, edgeType, weight, metadata, now⟩,
    ⟨b.2, b.1, a.2, a.1, edgeType, weight, metadata, now⟩]

/-- The candidates one pass gives an edge to; `weigh` gives none to those it leaves out. -/
def kept (call : Call) (weigh : Candidate → Option (F × Metadata)) (seen : List DocRef) :
    List Candidate → List (DocRef × F × Metadata)
  | [] => []
  | c :: cs =>
    if skips c call.newDoc call.except then kept call weigh seen cs
    else if c.ref ∈ seen then kept call weigh seen cs
    else
      match weigh c with
      | none => kept call weigh (c.ref :: seen) cs
      | some found => (c.ref, found) :: kept call weigh (c.ref :: seen) cs

/-- One pass over the candidates of a kind. -/
def planPass (call : Call) (now edgeType : String) (weigh : Candidate → Option (F × Metadata))
    (cs : List Candidate) : List (Edge F) :=
  (kept call weigh [] cs).flatMap fun k =>
    pushBidirectional call.newDoc k.1 edgeType k.2.1 k.2.2 now

def sessionWeigh (host : Host F) (call : Call) (_ : Candidate) : Option (F × Metadata) :=
  some (host.ofInt 1, .session call.session)

def temporalWeigh (host : Host F) (call : Call) (ts : Int) (c : Candidate) :
    Option (F × Metadata) :=
  match host.parseTs c.createdAt with
  | none => none
  | some other =>
    let dist : Int := ((ts - other).tdiv 1000000000).natAbs
    if dist ≥ call.windowSecs ∨ call.windowSecs = 0 then none
    else
      let weight :=
        host.sub (host.ofInt 1) (host.div (host.ofInt dist) (host.ofInt call.windowSecs))
      if host.le weight (host.ofInt 0) then none
      else some (weight, .distance dist call.windowSecs)

def tagWeigh (host : Host F) (call : Call) (c : Candidate) : Option (F × Metadata) :=
  if c.tags = [] then none
  else
    let newSet := call.tags.dedup
    let otherSet := c.tags.dedup
    let overlap := (newSet.filter (· ∈ otherSet)).length
    if overlap = 0 then none
    else
      some (host.div (host.ofInt overlap) (host.ofInt (max newSet.length otherSet.length)),
        .overlap overlap)

/-- A kind of edge, how it is weighed, and its candidates. -/
abbrev Pass (F : Type) := String × (Candidate → Option (F × Metadata)) × List Candidate

/-- The passes of a call: no temporal one without a readable time, no tag one without a tag. -/
def passes (host : Host F) (call : Call) : List (Pass F) :=
  ("same_session", sessionWeigh host call, call.sessionCandidates) ::
    ((match host.parseTs call.createdAt with
      | some ts => [("temporal", temporalWeigh host call ts, call.temporalCandidates)]
      | none => []) ++
    if call.tags = [] then [] else [("tag_overlap", tagWeigh host call, call.tagCandidates)])

def edgesToInsert (host : Host F) (call : Call) (now : String) : List (Edge F) :=
  (passes host call).flatMap fun pass => planPass call now pass.1 pass.2.1 pass.2.2

/-! ## The stored edges -/

/-- The server's answer to a query: the documents of the filter, cut off at the limit and at the
server's own. -/
def query (ceiling : Nat) (stored : List (Edge F)) (filter : Edge F → Bool) (limit : Nat) :
    List (Edge F) :=
  (stored.filter filter).take (min limit ceiling)

/-- The ids on the other end of the planned edges. -/
def otherIds (docId : String) (planned : List (Edge F)) : List String :=
  ((planned.map fun e =>
    if e.sourceId = docId then e.targetId else e.sourceId).insertionSort (· ≤ ·)).dedup

def outArm (docId : String) (others : List String) (e : Edge F) : Bool :=
  e.sourceId = docId && others.contains e.targetId

def inArm (docId : String) (others : List String) (e : Edge F) : Bool :=
  others.contains e.sourceId && e.targetId = docId

def existingEdges (ceiling : Nat) (stored : List (Edge F)) (docId : String) (others : List String)
    (planned : Nat) : Except String (List EdgeKey) :=
  let limit := planned + 1
  let out := query ceiling stored (outArm docId others) limit
  if out.length ≥ limit then
    .error s!"the window of {limit} stored edges filled on the out arm"
  else
    let into := query ceiling stored (inArm docId others) limit
    if into.length ≥ limit then
      .error s!"the window of {limit} stored edges filled on the in arm"
    else .ok (out.map edgeKey ++ into.map edgeKey)

def maxBulkInsert : Nat := 10000

/-- The documents a bulk write stores. -/
def bulkWrite (documents : List (Edge F)) : List (Edge F) :=
  if documents.length ≤ maxBulkInsert then documents else []

/-- The batch `derive_edges_except` writes. -/
def deriveEdges (host : Host F) (ceiling : Nat) (call : Call) (now : String)
    (stored : List (Edge F)) : List (Edge F) :=
  let planned := edgesToInsert host call now
  if planned = [] then []
  else
    match existingEdges ceiling stored call.newDoc.2 (otherIds call.newDoc.2 planned)
        planned.length with
    | .error _ => []
    | .ok keys => bulkWrite (planned.filter fun e => !keys.contains (edgeKey e))

/-! ## What is planned -/

/-- The documents of a call. -/
def Call.docs (call : Call) : List DocRef :=
  call.newDoc :: (call.sessionCandidates ++ call.temporalCandidates ++ call.tagCandidates).map
    Candidate.ref

/-- An id names one document, whatever its collection. -/
def UniqueIds (docs : List DocRef) : Prop := ∀ a ∈ docs, ∀ b ∈ docs, a.2 = b.2 → a = b

/-- The same edge the other way round. -/
def Reverses (r e : Edge F) : Prop :=
  r.source = e.target ∧ r.target = e.source ∧ r.edgeType = e.edgeType ∧ r.weight = e.weight

/-- An edge between the new document and one that is neither it nor the excepted one. -/
def Touches (call : Call) (e : Edge F) : Prop :=
  ∃ other ∈ call.docs, other ≠ call.newDoc ∧ call.except ≠ some other ∧
    (e.source = call.newDoc ∧ e.target = other ∨ e.source = other ∧ e.target = call.newDoc)

section Pass

variable {call : Call} {now edgeType : String} {weigh : Candidate → Option (F × Metadata)}
  {seen : List DocRef} {cs : List Candidate} {e : Edge F}

theorem mem_kept {k : DocRef × F × Metadata} (h : k ∈ kept call weigh seen cs) :
    k.1 ∉ seen ∧ ∃ c ∈ cs, c.ref = k.1 ∧ k.1 ≠ call.newDoc ∧ call.except ≠ some k.1 := by
  induction cs generalizing seen with
  | nil => cases h
  | cons c cs ih =>
    -- one of a later candidate
    have later : k ∈ kept call weigh seen cs ∨ k ∈ kept call weigh (c.ref :: seen) cs →
        k.1 ∉ seen ∧ ∃ d ∈ c :: cs, d.ref = k.1 ∧ k.1 ≠ call.newDoc ∧ call.except ≠ some k.1 := by
      rintro (hk | hk)
      · obtain ⟨hnew, d, hd, hrest⟩ := ih hk
        exact ⟨hnew, d, List.mem_cons_of_mem c hd, hrest⟩
      · obtain ⟨hnew, d, hd, hrest⟩ := ih hk
        exact ⟨fun hmem => hnew (List.mem_cons_of_mem _ hmem), d, List.mem_cons_of_mem c hd, hrest⟩
    rw [kept] at h
    split at h
    · exact later (.inl h)
    split at h
    · exact later (.inl h)
    split at h
    · exact later (.inr h)
    rename_i hskips hseen _ found _
    rcases List.mem_cons.1 h with rfl | h
    · have hne : c.ref ≠ call.newDoc ∧ call.except ≠ some c.ref := by simpa [skips] using hskips
      exact ⟨hseen, c, List.mem_cons_self, rfl, hne⟩
    · exact later (.inr h)

theorem nodup_kept : ((kept call weigh seen cs).map Prod.fst).Nodup := by
  induction cs generalizing seen with
  | nil => exact List.nodup_nil
  | cons c cs ih =>
    rw [kept]
    split
    · exact ih
    split
    · exact ih
    split
    · exact ih
    rw [List.map_cons]
    refine List.nodup_cons.2 ⟨?_, ih⟩
    intro hmem
    obtain ⟨k, hk, heq⟩ := List.mem_map.1 hmem
    exact (mem_kept hk).1 (heq ▸ List.mem_cons_self)

/-- A planned edge has its reverse planned. -/
theorem reverse_planPass (h : e ∈ planPass call now edgeType weigh cs) :
    ∃ r ∈ planPass call now edgeType weigh cs, Reverses r e := by
  obtain ⟨k, hk, he⟩ := List.mem_flatMap.1 h
  have hpair : ∀ r ∈ pushBidirectional call.newDoc k.1 edgeType k.2.1 k.2.2 now,
      r ∈ planPass call now edgeType weigh cs := fun r hr => List.mem_flatMap.2 ⟨k, hk, hr⟩
  simp only [pushBidirectional, List.mem_cons, List.not_mem_nil, or_false] at he hpair
  rcases he with rfl | rfl
  · exact ⟨_, hpair _ (.inr rfl), rfl, rfl, rfl, rfl⟩
  · exact ⟨_, hpair _ (.inl rfl), rfl, rfl, rfl, rfl⟩

theorem touches_planPass (hcs : ∀ c ∈ cs, c.ref ∈ call.docs)
    (h : e ∈ planPass call now edgeType weigh cs) : Touches call e := by
  obtain ⟨k, hk, he⟩ := List.mem_flatMap.1 h
  obtain ⟨-, c, hc, hcref, hne, hexcept⟩ := mem_kept hk
  refine ⟨k.1, hcref ▸ hcs c hc, hne, hexcept, ?_⟩
  simp only [pushBidirectional, List.mem_cons, List.not_mem_nil, or_false] at he
  rcases he with rfl | rfl
  · exact .inl ⟨rfl, rfl⟩
  · exact .inr ⟨rfl, rfl⟩

theorem edgeType_planPass (h : e ∈ planPass call now edgeType weigh cs) :
    e.edgeType = edgeType := by
  obtain ⟨k, -, he⟩ := List.mem_flatMap.1 h
  simp only [pushBidirectional, List.mem_cons, List.not_mem_nil, or_false] at he
  rcases he with rfl | rfl <;> rfl

/-- The two keys of a planned pair. -/
def pairKeys (call : Call) (edgeType : String) (k : DocRef × F × Metadata) : List EdgeKey :=
  [(call.newDoc.2, k.1.2, edgeType), (k.1.2, call.newDoc.2, edgeType)]

theorem keys_planPass : (planPass call now edgeType weigh cs).map edgeKey =
    (kept call weigh [] cs).flatMap (pairKeys call edgeType) := List.map_flatMap

/-- No two edges of a pass have one key. -/
theorem nodup_planPass (hunique : UniqueIds call.docs) (hcs : ∀ c ∈ cs, c.ref ∈ call.docs) :
    ((planPass call now edgeType weigh cs).map edgeKey).Nodup := by
  rw [keys_planPass]
  have hdoc : ∀ k ∈ kept call weigh [] cs, k.1.2 ≠ call.newDoc.2 ∧ k.1 ∈ call.docs := by
    intro k hk
    obtain ⟨-, c, hc, hcref, hne, -⟩ := mem_kept hk
    have hmem : k.1 ∈ call.docs := hcref ▸ hcs c hc
    exact ⟨fun heq => hne (hunique _ hmem _ List.mem_cons_self heq), hmem⟩
  have hnodup : ((kept call weigh [] cs).map Prod.fst).Nodup := nodup_kept
  refine List.nodup_flatMap.2 ⟨fun k hk => ?_, ?_⟩
  · simp [pairKeys, (hdoc k hk).1, (hdoc k hk).1.symm]
  refine (List.pairwise_map.1 hnodup).imp_of_mem ?_
  intro k k' hk hk' hne key hkey hkey'
  have hids : k.1.2 ≠ k'.1.2 := fun heq => hne (hunique _ (hdoc k hk).2 _ (hdoc k' hk').2 heq)
  simp only [pairKeys, List.mem_cons, List.not_mem_nil, or_false] at hkey hkey'
  rcases hkey with rfl | rfl <;> rcases hkey' with heq | heq
  · exact hids (congrArg (·.2.1) heq)
  · exact (hdoc k' hk').1 (congrArg (·.1) heq).symm
  · exact (hdoc k hk).1 (congrArg (·.1) heq)
  · exact hids (congrArg (·.1) heq)

end Pass

section Planned

variable {host : Host F} {call : Call} {now : String} {e : Edge F}

theorem docs_of_mem_passes {pass : Pass F} (h : pass ∈ passes host call) :
    ∀ c ∈ pass.2.2, c.ref ∈ call.docs := by
  have hsub : ∀ c ∈ pass.2.2,
      c ∈ call.sessionCandidates ++ call.temporalCandidates ++ call.tagCandidates := by
    intro c hc
    simp only [passes, List.mem_cons, List.mem_append] at h ⊢
    rcases h with rfl | h | h
    · exact .inl (.inl hc)
    · cases hts : host.parseTs call.createdAt with
      | none => simp [hts] at h
      | some ts =>
        simp only [hts, List.mem_singleton] at h
        subst h
        exact .inl (.inr hc)
    · split at h
      · cases h
      · rw [List.mem_singleton] at h
        subst h
        exact .inr hc
  exact fun c hc => List.mem_cons_of_mem _ (List.mem_map_of_mem (hsub c hc))

/-- The passes are of different types. -/
theorem nodup_passes (host : Host F) (call : Call) : ((passes host call).map Prod.fst).Nodup := by
  cases hts : host.parseTs call.createdAt <;> by_cases htags : call.tags = [] <;>
    simp [passes, hts, htags]

theorem reverse_edgesToInsert (h : e ∈ edgesToInsert host call now) :
    ∃ r ∈ edgesToInsert host call now, Reverses r e := by
  obtain ⟨pass, hpass, he⟩ := List.mem_flatMap.1 h
  obtain ⟨r, hr, hrev⟩ := reverse_planPass he
  exact ⟨r, List.mem_flatMap.2 ⟨pass, hpass, hr⟩, hrev⟩

theorem touches_edgesToInsert (h : e ∈ edgesToInsert host call now) : Touches call e := by
  obtain ⟨pass, hpass, he⟩ := List.mem_flatMap.1 h
  exact touches_planPass (docs_of_mem_passes hpass) he

theorem keys_edgesToInsert : (edgesToInsert host call now).map edgeKey =
    (passes host call).flatMap fun pass =>
      (kept call pass.2.1 [] pass.2.2).flatMap (pairKeys call pass.1) := by
  rw [edgesToInsert, List.map_flatMap]
  simp only [keys_planPass]

/-- No two planned edges have one key. -/
theorem nodup_edgesToInsert (hunique : UniqueIds call.docs) :
    ((edgesToInsert host call now).map edgeKey).Nodup := by
  rw [edgesToInsert, List.map_flatMap]
  refine List.nodup_flatMap.2 ⟨fun pass hpass => ?_, ?_⟩
  · exact nodup_planPass hunique (docs_of_mem_passes hpass)
  · refine (List.pairwise_map.1 (nodup_passes host call)).imp ?_
    intro pass pass' hne k hk hk'
    obtain ⟨e, he, rfl⟩ := List.mem_map.1 hk
    obtain ⟨e', he', heq⟩ := List.mem_map.1 hk'
    have htypes : e'.edgeType = e.edgeType := congrArg (·.2.2) heq
    exact hne (by rw [← edgeType_planPass he, ← edgeType_planPass he', htypes])

end Planned

/-! ## What is written -/

section Stored

variable {ceiling planned : Nat} {stored stored' : List (Edge F)} {docId : String}
  {others : List String} {keys keys' : List EdgeKey}

/-- A window below the ceiling that did not fill holds every document of the filter. -/
theorem query_of_length_lt {filter : Edge F → Bool} {limit : Nat} (hceiling : limit ≤ ceiling)
    (h : (query ceiling stored filter limit).length < limit) :
    query ceiling stored filter limit = stored.filter filter ∧
      (stored.filter filter).length < limit := by
  rw [query, Nat.min_eq_left hceiling, List.length_take] at h
  have hlength : (stored.filter filter).length < limit := by omega
  rw [query, Nat.min_eq_left hceiling, List.take_of_length_le hlength.le]
  exact ⟨rfl, hlength⟩

theorem length_query_lt {filter : Edge F → Bool} {limit : Nat}
    (h : (stored.filter filter).length < limit) :
    (query ceiling stored filter limit).length < limit :=
  ((List.take_sublist _ _).length_le).trans_lt h

/-- Below the ceiling, a read that answers gives the keys of all stored edges of its arms. -/
theorem existingEdges_spec (hceiling : planned < ceiling)
    (h : existingEdges ceiling stored docId others planned = .ok keys) :
    (stored.filter (outArm docId others)).length ≤ planned ∧
      (stored.filter (inArm docId others)).length ≤ planned ∧
      keys = (stored.filter (outArm docId others)).map edgeKey ++
        (stored.filter (inArm docId others)).map edgeKey := by
  simp only [existingEdges] at h
  split at h
  · cases h
  rename_i hout
  split at h
  · cases h
  rename_i hinto
  obtain ⟨houtAll, houtLength⟩ := query_of_length_lt hceiling (Nat.not_le.1 hout)
  obtain ⟨hintoAll, hintoLength⟩ := query_of_length_lt hceiling (Nat.not_le.1 hinto)
  rw [houtAll, hintoAll] at h
  cases h
  exact ⟨Nat.le_of_lt_succ houtLength, Nat.le_of_lt_succ hintoLength, rfl⟩

/-- A read that answers also answers where fewer edges are stored. -/
theorem existingEdges_of_subperm (hceiling : planned < ceiling) (hsub : stored.Subperm stored')
    (h : existingEdges ceiling stored' docId others planned = .ok keys') :
    ∃ keys, existingEdges ceiling stored docId others planned = .ok keys := by
  obtain ⟨hout, hinto, -⟩ := existingEdges_spec hceiling h
  have hfewer : ∀ arm : Edge F → Bool, (stored'.filter arm).length ≤ planned →
      (query ceiling stored arm (planned + 1)).length < planned + 1 := fun arm hlength =>
    length_query_lt (((hsub.filter arm).length_le.trans hlength).trans_lt planned.lt_succ_self)
  simp only [existingEdges]
  rw [if_neg (Nat.not_le.2 (hfewer _ hout)), if_neg (Nat.not_le.2 (hfewer _ hinto))]
  exact ⟨_, rfl⟩

end Stored

section Batch

variable {host : Host F} {ceiling : Nat} {call : Call} {now now' : String}
  {stored : List (Edge F)} {keys : List EdgeKey}

/-- The keys that a read of the stored edges gives, if it answers. -/
def storedKeys (host : Host F) (ceiling : Nat) (call : Call) (now : String)
    (stored : List (Edge F)) : Except String (List EdgeKey) :=
  existingEdges ceiling stored call.newDoc.2
    (otherIds call.newDoc.2 (edgesToInsert host call now)) (edgesToInsert host call now).length

/-- The planned edges the read did not give. -/
def unread (host : Host F) (call : Call) (now : String) (keys : List EdgeKey) : List (Edge F) :=
  (edgesToInsert host call now).filter fun e => !keys.contains (edgeKey e)

theorem deriveEdges_eq : deriveEdges host ceiling call now stored =
    match storedKeys host ceiling call now stored with
    | .error _ => []
    | .ok keys => bulkWrite (unread host call now keys) := by
  rw [deriveEdges]
  split
  · rename_i hnone
    cases storedKeys host ceiling call now stored with
    | error e => rfl
    | ok keys => simp [unread, hnone, bulkWrite]
  · rfl

/-- The read does not depend on the time of the call. -/
theorem storedKeys_now : storedKeys host ceiling call now stored =
    storedKeys host ceiling call now' stored := by
  have hkeys : (edgesToInsert host call now).map edgeKey =
      (edgesToInsert host call now').map edgeKey := by
    rw [keys_edgesToInsert, keys_edgesToInsert]
  have hlength := congrArg List.length hkeys
  rw [List.length_map, List.length_map] at hlength
  have hothers : ∀ t, (edgesToInsert host call t).map (fun e =>
      if e.sourceId = call.newDoc.2 then e.targetId else e.sourceId) =
      ((edgesToInsert host call t).map edgeKey).map (fun k =>
        if k.1 = call.newDoc.2 then k.2.1 else k.1) := by
    intro t
    rw [List.map_map]
    rfl
  rw [storedKeys, storedKeys, otherIds, otherIds, hothers, hothers, hkeys, hlength]

/-- Below the ceiling, a planned edge is read exactly if one with its key is stored. -/
theorem mem_storedKeys (hunique : UniqueIds call.docs)
    (hceiling : (edgesToInsert host call now).length < ceiling)
    (h : storedKeys host ceiling call now stored = .ok keys) {e : Edge F}
    (he : e ∈ edgesToInsert host call now) :
    edgeKey e ∈ keys ↔ edgeKey e ∈ stored.map edgeKey := by
  obtain ⟨-, -, rfl⟩ := existingEdges_spec hceiling h
  have hother : ∀ id, (if e.sourceId = call.newDoc.2 then e.targetId else e.sourceId) = id →
      id ∈ otherIds call.newDoc.2 (edgesToInsert host call now) := by
    rintro id rfl
    rw [otherIds, List.mem_dedup, List.mem_insertionSort]
    exact List.mem_map_of_mem he
  refine ⟨fun hmem => ?_, fun hmem => ?_⟩
  · rcases List.mem_append.1 hmem with hmem | hmem <;>
      exact List.map_subset _ (List.filter_subset_self _) hmem
  obtain ⟨st, hst, hkey⟩ := List.mem_map.1 hmem
  obtain ⟨hsource, htarget, -⟩ : st.sourceId = e.sourceId ∧ st.targetId = e.targetId ∧
      st.edgeType = e.edgeType := by simpa [edgeKey] using hkey
  obtain ⟨other, hdoc, hne, -, hends⟩ := touches_edgesToInsert he
  have hids : other.2 ≠ call.newDoc.2 := fun heq =>
    hne (hunique _ hdoc _ List.mem_cons_self heq)
  rw [← hkey]
  rcases hends with ⟨hs, ht⟩ | ⟨hs, ht⟩
  · have hsid : e.sourceId = call.newDoc.2 := congrArg Prod.snd hs
    refine List.mem_append_left _ (List.mem_map_of_mem (List.mem_filter.2 ⟨hst, ?_⟩))
    simp [outArm, hsource, htarget, hsid, hother e.targetId (if_pos hsid)]
  · have htid : e.targetId = call.newDoc.2 := congrArg Prod.snd ht
    have hsid : e.sourceId ≠ call.newDoc.2 := fun heq => hids ((congrArg Prod.snd hs) ▸ heq)
    refine List.mem_append_right _ (List.mem_map_of_mem (List.mem_filter.2 ⟨hst, ?_⟩))
    simp [inArm, hsource, htarget, htid, hother e.sourceId (if_neg hsid)]

/-- What the read leaves, counted by keys. -/
theorem length_unread : (unread host call now keys).length =
    (((edgesToInsert host call now).map edgeKey).filter fun k => !keys.contains k).length := by
  rw [List.filter_map, List.length_map]
  rfl

theorem mem_of_mem_deriveEdges {e : Edge F} (h : e ∈ deriveEdges host ceiling call now stored) :
    ∃ keys, storedKeys host ceiling call now stored = .ok keys ∧
      deriveEdges host ceiling call now stored = unread host call now keys ∧
      e ∈ edgesToInsert host call now ∧ edgeKey e ∉ keys := by
  have heq : deriveEdges host ceiling call now stored = _ := deriveEdges_eq
  cases hkeys : storedKeys host ceiling call now stored with
  | error e =>
    rw [heq, hkeys] at h
    cases h
  | ok keys =>
    simp only [hkeys, bulkWrite] at heq
    split at heq
    · rw [heq] at h
      obtain ⟨hplanned, hnew⟩ := List.mem_filter.1 h
      exact ⟨keys, rfl, heq, hplanned, by simpa using hnew⟩
    · rw [heq] at h
      cases h

theorem deriveEdges_sublist :
    (deriveEdges host ceiling call now stored).Sublist (edgesToInsert host call now) := by
  rw [deriveEdges_eq]
  cases storedKeys host ceiling call now stored with
  | error e => exact List.nil_sublist _
  | ok keys =>
    simp only [bulkWrite]
    split
    · exact List.filter_sublist
    · exact List.nil_sublist _

/-- Deriving again, at any later time, finds every planned edge stored, or the same refusal. -/
theorem deriveEdges_again (hunique : UniqueIds call.docs)
    (hceiling : (edgesToInsert host call now).length < ceiling) {stored' : List (Edge F)}
    (hstored : stored'.Perm (stored ++ deriveEdges host ceiling call now stored)) (now' : String) :
    deriveEdges host ceiling call now' stored' = [] := by
  have hkeys : (edgesToInsert host call now).map edgeKey =
      (edgesToInsert host call now').map edgeKey := by
    rw [keys_edgesToInsert, keys_edgesToInsert]
  have hsame : storedKeys host ceiling call now' stored' =
      storedKeys host ceiling call now stored' := storedKeys_now
  rw [deriveEdges_eq, hsame]
  cases hagain : storedKeys host ceiling call now stored' with
  | error e => rfl
  | ok keys' =>
    have hsub : stored.Subperm stored' :=
      (List.sublist_append_left _ _).subperm.trans hstored.symm.subperm
    obtain ⟨keys, hfirst⟩ := existingEdges_of_subperm hceiling hsub hagain
    have hread : ∀ e ∈ edgesToInsert host call now,
        (edgeKey e ∈ keys ↔ edgeKey e ∈ stored.map edgeKey) :=
      fun e he => mem_storedKeys hunique hceiling hfirst he
    have hread' : ∀ e ∈ edgesToInsert host call now,
        (edgeKey e ∈ keys' ↔ edgeKey e ∈ stored'.map edgeKey) :=
      fun e he => mem_storedKeys hunique hceiling hagain he
    have hbatch : deriveEdges host ceiling call now stored =
        bulkWrite (unread host call now keys) := by
      rw [deriveEdges_eq, storedKeys, hfirst]
    by_cases hsize : (unread host call now keys).length ≤ maxBulkInsert
    · -- the first batch was written: nothing is left
      have hnone : unread host call now' keys' = [] := by
        rw [← List.length_eq_zero_iff, length_unread, ← hkeys, List.length_eq_zero_iff,
          List.filter_eq_nil_iff]
        intro k hk
        obtain ⟨e, he, rfl⟩ := List.mem_map.1 hk
        have hmem : edgeKey e ∈ stored'.map edgeKey := by
          rw [(hstored.map edgeKey).mem_iff, List.map_append, List.mem_append]
          by_cases hold : edgeKey e ∈ keys
          · exact .inl ((hread e he).1 hold)
          · rw [hbatch, bulkWrite, if_pos hsize]
            exact .inr (List.mem_map_of_mem (List.mem_filter.2 ⟨he, by simpa using hold⟩))
        simpa using (hread' e he).2 hmem
      simp [hnone, bulkWrite]
    · -- it was refused: so is the second
      rw [hbatch, bulkWrite, if_neg hsize, List.append_nil] at hstored
      have hcount : (unread host call now' keys').length = (unread host call now keys).length := by
        rw [length_unread, length_unread, ← hkeys]
        refine congrArg List.length (List.filter_congr ?_)
        intro k hk
        obtain ⟨e, he, rfl⟩ := List.mem_map.1 hk
        have hiff : edgeKey e ∈ keys' ↔ edgeKey e ∈ keys := by
          rw [hread e he, hread' e he, (hstored.map edgeKey).mem_iff]
        simp [hiff]
      simp only [bulkWrite]
      rw [if_neg (hcount ▸ hsize)]

end Batch

/-- **What one derivation writes.**  With ids that name one document, and fewer planned edges than
the server's ceiling on a query: no two written edges have the same source, target and type, none
is stored, each is between the new document and one that is neither it nor the excepted one, each
has its reverse of the same type and weight written or one with the reverse's source, target and
type stored, and deriving again writes nothing. -/
theorem derive_edges_batch (host : Host F) (ceiling : Nat) (call : Call) (now : String)
    (stored : List (Edge F)) (hunique : UniqueIds call.docs)
    (hceiling : (edgesToInsert host call now).length < ceiling) :
    ((deriveEdges host ceiling call now stored).map edgeKey).Nodup ∧
      (∀ e ∈ deriveEdges host ceiling call now stored, edgeKey e ∉ stored.map edgeKey) ∧
      (∀ e ∈ deriveEdges host ceiling call now stored, Touches call e) ∧
      (∀ e ∈ deriveEdges host ceiling call now stored,
        (∃ r ∈ deriveEdges host ceiling call now stored, Reverses r e) ∨
          (e.targetId, e.sourceId, e.edgeType) ∈ stored.map edgeKey) ∧
      ∀ stored' now', stored'.Perm (stored ++ deriveEdges host ceiling call now stored) →
        deriveEdges host ceiling call now' stored' = [] := by
  refine ⟨?_, ?_, ?_, ?_, fun stored' now' h => deriveEdges_again hunique hceiling h now'⟩
  · exact (nodup_edgesToInsert hunique).sublist (deriveEdges_sublist.map edgeKey)
  · intro e he hmem
    obtain ⟨keys, hkeys, -, hplanned, hnew⟩ := mem_of_mem_deriveEdges he
    exact hnew ((mem_storedKeys hunique hceiling hkeys hplanned).2 hmem)
  · intro e he
    obtain ⟨-, -, -, hplanned, -⟩ := mem_of_mem_deriveEdges he
    exact touches_edgesToInsert hplanned
  · intro e he
    obtain ⟨keys, hkeys, heq, hplanned, -⟩ := mem_of_mem_deriveEdges he
    obtain ⟨r, hr, hrev⟩ := reverse_edgesToInsert hplanned
    have hkey : edgeKey r = (e.targetId, e.sourceId, e.edgeType) := by
      obtain ⟨hsource, htarget, htype, -⟩ := hrev
      have hsid : r.sourceId = e.targetId := congrArg Prod.snd hsource
      have htid : r.targetId = e.sourceId := congrArg Prod.snd htarget
      rw [edgeKey, hsid, htid, htype]
    by_cases hold : edgeKey r ∈ keys
    · exact .inr (hkey ▸ (mem_storedKeys hunique hceiling hkeys hr).1 hold)
    · exact .inl ⟨r, heq ▸ List.mem_filter.2 ⟨hr, by simpa using hold⟩, hrev⟩

/-! ## Where the stored edges stand in the way -/

def newYear : String := "2026-01-01T00:00:00+00:00"

/-- Exact arithmetic, and two times. -/
def exactHost : Host Rat where
  ofInt := fun n => n
  sub := (· - ·)
  div := (· / ·)
  le := fun x y => decide (x ≤ y)
  parseTs := fun s =>
    if s = newYear then some 1767225600000000000
    else if s = "2026-01-01T00:00:01+00:00" then some 1767225601000000000 else none

/-- A call for the entry `n`. -/
def entryCall (session temporal : List Candidate) : Call :=
  { newDoc := ("memory.entries", "n")
    except := none
    session := "s"
    tags := []
    createdAt := newYear
    windowSecs := 4
    sessionCandidates := session
    temporalCandidates := temporal
    tagCandidates := [] }

/-- A node written one second after the entry. -/
def nearNode : Candidate := ⟨"c", "memory.semantic", "2026-01-01T00:00:01+00:00", []⟩

/-- The edge back from the node, of a time when the window was two seconds. -/
def olderEdge : Edge Rat :=
  ⟨"c", "memory.semantic", "n", "memory.entries", "temporal", 1 / 2, .distance 1 2, ""⟩

/-- A pair is written, and nothing the second time. -/
theorem derive_edges_batch_near :
    (deriveEdges exactHost 100000 (entryCall [] [nearNode]) "" []).length = 2 ∧
      ∀ stored' now', stored'.Perm
        ([] ++ deriveEdges exactHost 100000 (entryCall [] [nearNode]) "" []) →
        deriveEdges exactHost 100000 (entryCall [] [nearNode]) now' stored' = [] := by
  have hunique : UniqueIds (entryCall [] [nearNode]).docs := by
    unfold UniqueIds
    decide
  have hplanned : (edgesToInsert exactHost (entryCall [] [nearNode]) "").length < 100000 := by
    decide +kernel
  exact ⟨by decide +kernel,
    (derive_edges_batch exactHost 100000 _ "" [] hunique hplanned).2.2.2.2⟩

/-- A node of a session. -/
def member (i : Nat) : Candidate :=
  ⟨String.ofList (List.replicate (i + 1) 'c'), "memory.semantic", newYear, []⟩

/-- The entry is in a session of `n + 1` nodes. -/
def crowdCall (n : Nat) : Call := entryCall ((List.range (n + 1)).map member) []

def outOf (i : Nat) : Edge Rat :=
  ⟨"n", "memory.entries", (member i).id, "memory.semantic", "same_session", 1, .session "s", ""⟩

def into (i : Nat) : Edge Rat :=
  ⟨(member i).id, "memory.semantic", "n", "memory.entries", "same_session", 1, .session "s", ""⟩

/-- All edges between the entry and the first `n` nodes. -/
def crowdEdges (n : Nat) : List (Edge Rat) := (List.range n).flatMap fun i => [outOf i, into i]

theorem member_id_inj {i j : Nat} (h : (member i).id = (member j).id) : i = j := by
  have hlengths := congrArg (fun s => s.toList.length) h
  simpa [member] using hlengths

theorem member_id_ne (i : Nat) : (member i).id ≠ "n" := by
  intro h
  have hchars := congrArg String.toList h
  simp [member, List.replicate_succ] at hchars

theorem uniqueIds_crowd (n : Nat) : UniqueIds (crowdCall n).docs := by
  have hmember : ∀ d ∈ (crowdCall n).docs, d = ("memory.entries", "n") ∨
      ∃ i, d = ("memory.semantic", (member i).id) := by
    intro d hd
    rcases List.mem_cons.1 hd with rfl | hd
    · exact .inl rfl
    · simp only [crowdCall, entryCall, List.append_nil, List.map_map, List.mem_map] at hd
      obtain ⟨i, -, rfl⟩ := hd
      exact .inr ⟨i, rfl⟩
  intro a ha b hb hids
  rcases hmember a ha with rfl | ⟨i, rfl⟩ <;> rcases hmember b hb with rfl | ⟨j, rfl⟩
  · rfl
  · exact absurd hids.symm (member_id_ne j)
  · exact absurd hids (member_id_ne i)
  · rw [member_id_inj hids]

theorem kept_members (call : Call) (hcall : call.newDoc = ("memory.entries", "n"))
    (hexcept : call.except = none) (l : List Nat) :
    ∀ seen, l.Nodup → (∀ i ∈ l, (member i).ref ∉ seen) →
      kept call (sessionWeigh exactHost call) seen (l.map member) =
        l.map fun i => ((member i).ref, 1, .session call.session) := by
  induction l with
  | nil => simp [kept]
  | cons i l ih =>
    intro seen hnodup hseen
    obtain ⟨hi, hl⟩ := List.nodup_cons.1 hnodup
    have hskips : skips (member i) call.newDoc call.except = false := by
      simp [skips, hcall, hexcept, member, Candidate.ref]
    have hrest : ∀ j ∈ l, (member j).ref ∉ (member i).ref :: seen := by
      intro j hj hmem
      rcases List.mem_cons.1 hmem with heq | hmem
      · exact hi (member_id_inj (congrArg Prod.snd heq) ▸ hj)
      · exact hseen j (List.mem_cons_of_mem i hj) hmem
    rw [List.map_cons, kept, hskips, if_neg (hseen i List.mem_cons_self)]
    simp only [sessionWeigh, Bool.false_eq_true, if_false]
    rw [ih _ hl hrest]
    rfl

theorem edgesToInsert_crowd (n : Nat) :
    edgesToInsert exactHost (crowdCall n) "" = crowdEdges (n + 1) := by
  have hkept := kept_members (crowdCall n) rfl rfl (List.range (n + 1)) [] List.nodup_range
    (fun _ _ => List.not_mem_nil)
  have hpasses : passes exactHost (crowdCall n) =
      [("same_session", sessionWeigh exactHost (crowdCall n), (List.range (n + 1)).map member),
        ("temporal", temporalWeigh exactHost (crowdCall n) 1767225600000000000, [])] := rfl
  rw [edgesToInsert, hpasses]
  simp only [List.flatMap_cons, List.flatMap_nil, planPass, hkept, kept, List.append_nil,
    List.flatMap_map]
  rfl

theorem filter_crowdEdges {arm : Edge Rat → Bool} {side : Nat → Edge Rat} {n : Nat}
    (h : ∀ i < n, [outOf i, into i].filter arm = [side i]) :
    (crowdEdges n).filter arm = (List.range n).map side := by
  rw [crowdEdges, List.filter_flatMap, List.map_eq_flatMap]
  exact List.flatMap_congr fun i hi => h i (List.mem_range.1 hi)

/-- With everything stored and a server that answers with `n` documents at most, the last pair is
written again. -/
theorem deriveEdges_crowd (n : Nat) :
    deriveEdges exactHost n (crowdCall n) "" (crowdEdges (n + 1)) = [outOf n, into n] := by
  have hother : ∀ i < n + 1, (member i).id ∈ otherIds "n" (crowdEdges (n + 1)) := by
    intro i hi
    rw [otherIds, List.mem_dedup, List.mem_insertionSort, List.mem_map]
    exact ⟨outOf i, List.mem_flatMap.2 ⟨i, List.mem_range.2 hi, List.mem_cons_self⟩, rfl⟩
  have hout : (crowdEdges (n + 1)).filter (outArm "n" (otherIds "n" (crowdEdges (n + 1)))) =
      (List.range (n + 1)).map outOf := by
    refine filter_crowdEdges fun i hi => ?_
    have hkept : outArm "n" (otherIds "n" (crowdEdges (n + 1))) (outOf i) = true := by
      simp [outArm, outOf, hother i hi]
    have hleft : outArm "n" (otherIds "n" (crowdEdges (n + 1))) (into i) = false := by
      simp [outArm, into, member_id_ne]
    rw [List.filter_cons_of_pos hkept, List.filter_cons_of_neg (by simp [hleft]), List.filter_nil]
  have hinto : (crowdEdges (n + 1)).filter (inArm "n" (otherIds "n" (crowdEdges (n + 1)))) =
      (List.range (n + 1)).map into := by
    refine filter_crowdEdges fun i hi => ?_
    have hkept : inArm "n" (otherIds "n" (crowdEdges (n + 1))) (into i) = true := by
      simp [inArm, into, hother i hi]
    have hleft : inArm "n" (otherIds "n" (crowdEdges (n + 1))) (outOf i) = false := by
      simp [inArm, outOf, member_id_ne]
    rw [List.filter_cons_of_neg (by simp [hleft]), List.filter_cons_of_pos hkept, List.filter_nil]
  have hlength : (crowdEdges (n + 1)).length = 2 * (n + 1) := by
    simp [crowdEdges, List.length_flatMap, Nat.mul_comm]
  -- a window is cut off at `n`, which does not fill it
  have hwindow : ∀ side : Nat → Edge Rat, ((List.range (n + 1)).map side).take
      (min ((crowdEdges (n + 1)).length + 1) n) = (List.range n).map side := by
    intro side
    rw [hlength, Nat.min_eq_right (by omega), ← List.map_take, List.take_range,
      Nat.min_eq_left n.le_succ]
  have hkeys : storedKeys exactHost n (crowdCall n) "" (crowdEdges (n + 1)) =
      .ok (((List.range n).map outOf).map edgeKey ++ ((List.range n).map into).map edgeKey) := by
    have hdoc : (crowdCall n).newDoc.2 = "n" := rfl
    rw [storedKeys, edgesToInsert_crowd, hdoc]
    simp only [existingEdges, query, hout, hinto, hwindow]
    rw [if_neg, if_neg]
    all_goals
      rw [List.length_map, List.length_range, hlength]
      omega
  have hlast : unread exactHost (crowdCall n) "" (((List.range n).map outOf).map edgeKey ++
      ((List.range n).map into).map edgeKey) = [outOf n, into n] := by
    rw [unread, edgesToInsert_crowd, crowdEdges, List.range_succ, List.flatMap_append,
      List.filter_append]
    have hread : ((List.range n).flatMap fun i => [outOf i, into i]).filter (fun e =>
        !(((List.range n).map outOf).map edgeKey ++
          ((List.range n).map into).map edgeKey).contains (edgeKey e)) = [] := by
      rw [List.filter_eq_nil_iff]
      intro e he
      obtain ⟨i, hi, he⟩ := List.mem_flatMap.1 he
      simp only [List.mem_cons, List.not_mem_nil, or_false] at he
      rcases he with rfl | rfl
      · have hmem := List.mem_map_of_mem (f := edgeKey) (List.mem_map_of_mem (f := outOf) hi)
        rw [List.contains_iff_mem.2 (List.mem_append_left _ hmem)]
        decide
      · have hmem := List.mem_map_of_mem (f := edgeKey) (List.mem_map_of_mem (f := into) hi)
        rw [List.contains_iff_mem.2 (List.mem_append_right _ hmem)]
        decide
    rw [hread, List.nil_append]
    have hfar : ∀ i < n, (member i).id ≠ (member n).id :=
      fun i hi heq => Nat.ne_of_lt hi (member_id_inj heq)
    simp only [List.flatMap_cons, List.flatMap_nil, List.append_nil]
    rw [List.filter_eq_self]
    intro e he
    simp only [List.mem_cons, List.not_mem_nil, or_false] at he
    rcases he with rfl | rfl
    · simp [edgeKey, outOf, into, member_id_ne]
      exact hfar
    · simp [edgeKey, outOf, into, member_id_ne]
      exact hfar
  rw [deriveEdges_eq, hkeys]
  simp only [hlast]
  rfl

/-- **Where it is less.**  The edge back may be stored with the weight of another window; and of
100,001 pairs that are all stored, the server's ceiling hides the last one, which is written
again. -/
theorem stored_edges_differ :
    (UniqueIds (entryCall [] [nearNode]).docs ∧
      ∃ e ∈ deriveEdges exactHost 100000 (entryCall [] [nearNode]) "" [olderEdge],
        ∀ r ∈ deriveEdges exactHost 100000 (entryCall [] [nearNode]) "" [olderEdge] ++ [olderEdge],
          ¬ Reverses r e) ∧
      UniqueIds (crowdCall 100000).docs ∧
        ∃ e ∈ deriveEdges exactHost 100000 (crowdCall 100000) "" (crowdEdges 100001),
          e ∈ crowdEdges 100001 := by
  refine ⟨⟨?_, ?_⟩, ?_, outOf 100000, ?_, ?_⟩
  · unfold UniqueIds
    decide
  · unfold Reverses
    decide +kernel
  · exact uniqueIds_crowd 100000
  · rw [deriveEdges_crowd]
    exact List.mem_cons_self
  · exact List.mem_flatMap.2 ⟨100000, List.mem_range.2 (Nat.lt_succ_self _), List.mem_cons_self⟩

end EmbraOS.Ports.EdgeDerive
