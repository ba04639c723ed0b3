import EmbraOS.Verified.Serde
import EmbraOS.Verified.SortedForm
import EmbraOS.Verified.Text

/-!
# The identity graph format

Port of `embra-brain/src/identity_graph/format.rs`: reading a file to import and
validating it, the canonical value that is sealed, and reading a sealed value back.
The reader of JSON text is a parameter.

Texts are ordered by their characters, which is the order of their bytes in UTF-8.

`validate_eq_nil_iff` says what a graph without violations is, and
`parseValue_eq_ok_iff` what an import accepts.
-/

namespace EmbraOS.Ports.GraphFormat

open Verified.Serde
open Verified.SortedForm
open Verified.Text

structure GraphNode where
  id : String
  nodeType : String
  text : String
  deriving DecidableEq, Repr

structure GraphEdge where
  src : String
  dst : String
  relation : String
  deriving DecidableEq, Repr

structure IdentityGraph where
  name : Option String
  nodes : List GraphNode
  edges : List GraphEdge
  deriving DecidableEq, Repr

def formatGraphV1 : String := "graph.v1"

def userIdPrefix : String := "user_"

def isGraphSoul (inner : Json) : Bool :=
  (match (inner.get? "format").bind Json.asStr? with
    | some f => f == formatGraphV1
    | none => false) &&
  (match inner.get? "nodes" with
    | some (.arr _) => true
    | _ => false)

/-- What the database would refuse a document id for. -/
def idViolation (id : String) : Option String :=
  if id = "" then some "empty id"
  else if 512 < id.utf8ByteSize then
    some ("id longer than 512 bytes (" ++ toString id.utf8ByteSize ++ " bytes)")
  else if startsWith id "_" then some ("id '" ++ id ++ "' starts with '_' (reserved)")
  else if id.toList.contains (Char.ofNat 0) then some "id contains a NUL byte"
  else none

/-! ## Validation -/

/-- The violations of one node, given the ids of those before it. -/
def nodeErrors (seen : List String) (node : GraphNode) : List String :=
  (match idViolation node.id with
    | some v => ["node '" ++ node.id ++ "': " ++ v]
    | none => []) ++
  (if startsWith node.id userIdPrefix then
    ["node '" ++ node.id ++ "': the '" ++ userIdPrefix ++ "' id prefix is reserved for the " ++
      "locally-generated operator subgraph"]
    else []) ++
  (if node.id ∈ seen then ["duplicate node id '" ++ node.id ++ "'"] else [])

def checkNodes (seen : List String) : List GraphNode → List String
  | [] => []
  | node :: nodes => nodeErrors seen node ++ checkNodes (seen.insert node.id) nodes

/-- The violations of one edge, given the edges before it. -/
def edgeErrors (ids : List String) (seen : List GraphEdge) (edge : GraphEdge) : List String :=
  (if edge.src ∈ ids then []
    else ["edge '" ++ edge.src ++ "' -> '" ++ edge.dst ++ "': src references a missing node"]) ++
  (if edge.dst ∈ ids then []
    else ["edge '" ++ edge.src ++ "' -> '" ++ edge.dst ++ "': dst references a missing node"]) ++
  (if trim edge.relation = "" then
    ["edge '" ++ edge.src ++ "' -> '" ++ edge.dst ++ "': empty relation"] else []) ++
  (if edge ∈ seen then
    ["duplicate edge (" ++ edge.src ++ ", " ++ edge.dst ++ ", " ++ edge.relation ++ ")"] else [])

def checkEdges (ids : List String) (seen : List GraphEdge) : List GraphEdge → List String
  | [] => []
  | edge :: edges => edgeErrors ids seen edge ++ checkEdges ids (seen.insert edge) edges

/-- Exactly one node of type self. -/
def selfErrors (nodes : List GraphNode) : List String :=
  match (nodes.filter (fun n => n.nodeType = "self")).length with
  | 1 => []
  | 0 => ["no node with type \"self\" (exactly one required)"]
  | n => [toString n ++ " nodes with type \"self\" (exactly one required)"]

def validate (graph : IdentityGraph) : List String :=
  selfErrors graph.nodes ++ checkNodes [] graph.nodes ++
    checkEdges (graph.nodes.map GraphNode.id) [] graph.edges

/-- A graph without violations. -/
structure Valid (graph : IdentityGraph) : Prop where
  self : (graph.nodes.filter (fun n => n.nodeType = "self")).length = 1
  ids : ∀ n ∈ graph.nodes, idViolation n.id = none ∧ startsWith n.id userIdPrefix = false
  nodup : (graph.nodes.map GraphNode.id).Nodup
  closed : ∀ e ∈ graph.edges,
    e.src ∈ graph.nodes.map GraphNode.id ∧ e.dst ∈ graph.nodes.map GraphNode.id
  relations : ∀ e ∈ graph.edges, trim e.relation ≠ ""
  triples : graph.edges.Nodup

theorem nodeErrors_eq_nil_iff {seen : List String} {node : GraphNode} :
    nodeErrors seen node = [] ↔
      (idViolation node.id = none ∧ startsWith node.id userIdPrefix = false) ∧
        node.id ∉ seen := by
  rw [nodeErrors, List.append_eq_nil_iff, List.append_eq_nil_iff]
  refine and_congr (and_congr ?_ ?_) ?_
  · cases idViolation node.id with
    | none => simp
    | some v => simp
  · cases startsWith node.id userIdPrefix with
    | false => simp
    | true => simp
  · by_cases h : node.id ∈ seen
    · simp [h]
    · simp [h]

/-- The ids seen so far are those of the nodes before, so each is new. -/
theorem checkNodes_eq_nil_iff (nodes : List GraphNode) :
    ∀ seen, checkNodes seen nodes = [] ↔
      (∀ n ∈ nodes, idViolation n.id = none ∧ startsWith n.id userIdPrefix = false) ∧
        (nodes.map GraphNode.id).Nodup ∧ ∀ n ∈ nodes, n.id ∉ seen := by
  induction nodes with
  | nil => simp [checkNodes]
  | cons node nodes ih =>
    intro seen
    rw [checkNodes, List.append_eq_nil_iff, nodeErrors_eq_nil_iff, ih]
    simp only [List.forall_mem_cons, List.map_cons, List.nodup_cons, List.mem_insert_iff,
      not_or, List.mem_map, not_exists, not_and]
    constructor
    · rintro ⟨⟨hid, hnew⟩, hids, hnodup, hseen⟩
      exact ⟨⟨hid, hids⟩, ⟨fun n hn => (hseen n hn).1, hnodup⟩, hnew,
        fun n hn => (hseen n hn).2⟩
    · rintro ⟨⟨hid, hids⟩, ⟨hne, hnodup⟩, hnew, hseen⟩
      exact ⟨⟨hid, hnew⟩, hids, hnodup, fun n hn => ⟨hne n hn, hseen n hn⟩⟩

theorem edgeErrors_eq_nil_iff {ids : List String} {seen : List GraphEdge} {edge : GraphEdge} :
    edgeErrors ids seen edge = [] ↔
      (edge.src ∈ ids ∧ edge.dst ∈ ids) ∧ trim edge.relation ≠ "" ∧ edge ∉ seen := by
  rw [edgeErrors, List.append_eq_nil_iff, List.append_eq_nil_iff, List.append_eq_nil_iff,
    and_assoc (b := _ = [])]
  refine and_congr (and_congr ?_ ?_) (and_congr ?_ ?_)
  · by_cases h : edge.src ∈ ids
    · simp [h]
    · simp [h]
  · by_cases h : edge.dst ∈ ids
    · simp [h]
    · simp [h]
  · by_cases h : trim edge.relation = ""
    · simp [h]
    · simp [h]
  · by_cases h : edge ∈ seen
    · simp [h]
    · simp [h]

theorem checkEdges_eq_nil_iff {ids : List String} (edges : List GraphEdge) :
    ∀ seen, checkEdges ids seen edges = [] ↔
      (∀ e ∈ edges, e.src ∈ ids ∧ e.dst ∈ ids) ∧ (∀ e ∈ edges, trim e.relation ≠ "") ∧
        edges.Nodup ∧ ∀ e ∈ edges, e ∉ seen := by
  induction edges with
  | nil => simp [checkEdges]
  | cons edge edges ih =>
    intro seen
    rw [checkEdges, List.append_eq_nil_iff, edgeErrors_eq_nil_iff, ih]
    simp only [List.forall_mem_cons, List.nodup_cons, List.mem_insert_iff, not_or]
    constructor
    · rintro ⟨⟨hends, hrel, hnew⟩, hclosed, hrels, hnodup, hseen⟩
      exact ⟨⟨hends, hclosed⟩, ⟨hrel, hrels⟩,
        ⟨fun hin => (hseen edge hin).1 rfl, hnodup⟩, hnew, fun e he => (hseen e he).2⟩
    · rintro ⟨⟨hends, hclosed⟩, ⟨hrel, hrels⟩, ⟨hnotin, hnodup⟩, hnew, hseen⟩
      exact ⟨⟨hends, hrel, hnew⟩, hclosed, hrels, hnodup,
        fun e he => ⟨fun heq => hnotin (heq ▸ he), hseen e he⟩⟩

theorem selfErrors_eq_nil_iff (nodes : List GraphNode) :
    selfErrors nodes = [] ↔ (nodes.filter (fun n => n.nodeType = "self")).length = 1 := by
  rw [selfErrors]
  split
  · rename_i h
    simp [h]
  · rename_i h
    simp [h]
  · rename_i h _
    simpa using h

theorem validate_eq_nil_iff (graph : IdentityGraph) : validate graph = [] ↔ Valid graph := by
  rw [validate, List.append_eq_nil_iff, List.append_eq_nil_iff, selfErrors_eq_nil_iff,
    checkNodes_eq_nil_iff, checkEdges_eq_nil_iff]
  constructor
  · rintro ⟨⟨hself, hids, hnodup, -⟩, hclosed, hrels, htriples, -⟩
    exact ⟨hself, hids, hnodup, hclosed, hrels, htriples⟩
  · intro h
    exact ⟨⟨h.self, h.ids, h.nodup, fun _ _ => List.not_mem_nil⟩, h.closed, h.relations,
      h.triples, fun _ _ => List.not_mem_nil⟩

variable {g g' : IdentityGraph} {α : Type} {key : String} {complaint : Nat → String} {value : Json}

/-- Validity does not depend on the order of the arrays. -/
theorem Valid.perm (h : Valid g) (hnodes : g'.nodes.Perm g.nodes)
    (hedges : g'.edges.Perm g.edges) : Valid g' := by
  have hids := hnodes.map GraphNode.id
  refine ⟨?_, ?_, ?_, ?_, ?_, ?_⟩
  · rw [(hnodes.filter _).length_eq]
    exact h.self
  · exact fun n hn => h.ids n (hnodes.subset hn)
  · exact hids.nodup_iff.2 h.nodup
  · intro e he
    obtain ⟨hsrc, hdst⟩ := h.closed e (hedges.subset he)
    exact ⟨hids.symm.subset hsrc, hids.symm.subset hdst⟩
  · exact fun e he => h.relations e (hedges.subset he)
  · exact hedges.nodup_iff.2 h.triples

/-! ## Import files -/

/-- The node of an array element; `none` when a member is missing or no text. -/
def nodeOf (entry : Json) : Option GraphNode := do
  let id ← (entry.get? "id").bind Json.asStr?
  let nodeType ← (entry.get? "type").bind Json.asStr?
  let text ← (entry.get? "text").bind Json.asStr?
  pure ⟨id, nodeType, text⟩

def edgeOf (entry : Json) : Option GraphEdge := do
  let src ← (entry.get? "src").bind Json.asStr?
  let dst ← (entry.get? "dst").bind Json.asStr?
  let relation ← (entry.get? "relation").bind Json.asStr?
  pure ⟨src, dst, relation⟩

/-- The items of an array and the complaints about it.  An element without `key`
(a comment, or no object) is skipped. -/
def readItems {α : Type} (key : String) (read : Json → Option α) (complaint : Nat → String) :
    Nat → List Json → List α × List String
  | _, [] => ([], [])
  | i, entry :: entries =>
    let rest := readItems key read complaint (i + 1) entries
    if (entry.get? key).isNone then rest
    else match read entry with
      | some item => (item :: rest.1, rest.2)
      | none => (rest.1, complaint i :: rest.2)

def readArray {α : Type} (value : Json) (field key : String) (read : Json → Option α)
    (complaint : Nat → String) : List α × List String :=
  match (value.get? field).bind Json.asArray? with
  | none => ([], ["missing '" ++ field ++ "' array"])
  | some entries => readItems key read complaint 0 entries

def readNodes (value : Json) : List GraphNode × List String :=
  readArray value "nodes" "id" nodeOf (fun i =>
    "nodes[" ++ toString i ++ "]: 'id', 'type', and 'text' must all be strings")

def readEdges (value : Json) : List GraphEdge × List String :=
  readArray value "edges" "src" edgeOf (fun i =>
    "edges[" ++ toString i ++ "]: 'src', 'dst', and 'relation' must all be strings")

def readName (value : Json) : Option String × List String :=
  match value.get? "name" with
  | none => (none, [])
  | some .null => (none, [])
  | some (.str s) => (if trim s = "" then none else some (trim s), [])
  | some _ => (none, ["top-level 'name' must be a string"])

/-- `parse_import` past the JSON reader.  Every error is collected. -/
def parseValue (value : Json) : Except (List String) IdentityGraph :=
  let graph : IdentityGraph := ⟨(readName value).1, (readNodes value).1, (readEdges value).1⟩
  let errors := (readName value).2 ++ (readNodes value).2 ++ (readEdges value).2 ++
    validate graph
  if errors = [] then .ok graph else .error errors

/-- `fromStr` is the JSON reader, with the text of its error. -/
def parseImport (fromStr : String → Except String Json) (raw : String) :
    Except (List String) IdentityGraph :=
  match fromStr raw with
  | .error e => .error ["not valid JSON: " ++ e]
  | .ok value => parseValue value

/-! ## The canonical value -/

def edgeKey (e : GraphEdge) : Lex (String × Lex (String × String)) :=
  toLex (e.src, toLex (e.dst, e.relation))

def nodeValue (n : GraphNode) : Json :=
  .obj [("id", .str n.id), ("text", .str n.text), ("type", .str n.nodeType)]

def edgeValue (e : GraphEdge) : Json :=
  .obj [("dst", .str e.dst), ("relation", .str e.relation), ("src", .str e.src)]

/-- The members of an object are in the order of their keys, as the map of the JSON
library keeps them. -/
def IdentityGraph.canonicalize (graph : IdentityGraph) (resolvedName : String) : Json :=
  .obj [("edges", .arr ((sortBy edgeKey graph.edges).map edgeValue)),
    ("format", .str formatGraphV1),
    ("name", .str resolvedName),
    ("nodes", .arr ((sortBy GraphNode.id graph.nodes).map nodeValue))]

/-- Read a sealed value back. -/
def parseSealed (inner : Json) : Option IdentityGraph :=
  if isGraphSoul inner then do
    let entries ← (← inner.get? "nodes").asArray?
    pure {
      name := ((inner.get? "name").bind Json.asStr?).filter (fun n => n ≠ "")
      nodes := entries.filterMap nodeOf
      edges := (((inner.get? "edges").bind Json.asArray?).getD []).filterMap edgeOf }
  else none

/-! ## What an import accepts -/

theorem readItems_spec {read : Json → Option α} (entries : List Json) :
    ∀ i, (readItems key read complaint i entries).1 =
        (entries.filter (fun entry => (entry.get? key).isSome)).filterMap read ∧
      ((readItems key read complaint i entries).2 = [] ↔
        ∀ entry ∈ entries, (entry.get? key).isSome → (read entry).isSome) := by
  induction entries with
  | nil => simp [readItems]
  | cons entry entries ih =>
    intro i
    rw [readItems]
    cases hkey : entry.get? key with
    | none => simp [hkey, ih]
    | some v =>
      cases hread : read entry with
      | none => simp [hkey, hread, ih]
      | some item => simp [hkey, hread, ih]

theorem parseValue_eq_ok_iff :
    parseValue value = .ok g ↔
      ((readName value).2 = [] ∧ (readNodes value).2 = [] ∧ (readEdges value).2 = []) ∧
        g = ⟨(readName value).1, (readNodes value).1, (readEdges value).1⟩ ∧ Valid g := by
  rw [parseValue]
  constructor
  · intro h
    split at h
    · rename_i herrors
      obtain rfl := Except.ok.inj h
      rw [List.append_eq_nil_iff, List.append_eq_nil_iff, List.append_eq_nil_iff,
        validate_eq_nil_iff] at herrors
      obtain ⟨⟨⟨hname, hnodes⟩, hedges⟩, hvalid⟩ := herrors
      exact ⟨⟨hname, hnodes, hedges⟩, rfl, hvalid⟩
    · cases h
  · rintro ⟨⟨hname, hnodes, hedges⟩, rfl, hvalid⟩
    apply if_pos
    rw [hname, hnodes, hedges, (validate_eq_nil_iff _).2 hvalid]
    rfl

theorem parseImport_eq_ok {fromStr : String → Except String Json} {raw : String}
    (h : parseImport fromStr raw = .ok g) :
    ∃ value, fromStr raw = .ok value ∧ parseValue value = .ok g := by
  rw [parseImport] at h
  split at h
  · cases h
  · rename_i value hvalue
    exact ⟨value, hvalue, h⟩

theorem valid_of_parseImport {fromStr : String → Except String Json} {raw : String}
    (h : parseImport fromStr raw = .ok g) : Valid g := by
  obtain ⟨value, -, hg⟩ := parseImport_eq_ok h
  exact (parseValue_eq_ok_iff.1 hg).2.2

/-! ## Reordered files -/

/-- The file with its arrays in another order, comments among them. -/
structure Reordered (value value' : Json) : Prop where
  name : value'.get? "name" = value.get? "name"
  nodes : ∃ entries entries', value.get? "nodes" = some (.arr entries) ∧
    value'.get? "nodes" = some (.arr entries') ∧ entries'.Perm entries
  edges : ∃ entries entries', value.get? "edges" = some (.arr entries) ∧
    value'.get? "edges" = some (.arr entries') ∧ entries'.Perm entries

theorem readArray_perm {value' : Json} {field : String}
    {read : Json → Option α} {entries entries' : List Json}
    (h : value.get? field = some (.arr entries))
    (h' : value'.get? field = some (.arr entries')) (hperm : entries'.Perm entries) :
    (readArray value' field key read complaint).1.Perm
        (readArray value field key read complaint).1 ∧
      ((readArray value field key read complaint).2 = [] →
        (readArray value' field key read complaint).2 = []) := by
  simp only [readArray, h, h', Option.bind_some, Json.asArray?]
  constructor
  · rw [(readItems_spec _ _).1, (readItems_spec _ _).1]
    exact (hperm.filter _).filterMap read
  · rw [(readItems_spec _ _).2, (readItems_spec _ _).2]
    exact fun hall entry hentry => hall entry (hperm.subset hentry)

/-- A reordered file is accepted too, with the same name and the same graph up to
order. -/
theorem parseValue_reordered {value' : Json}
    (h : Reordered value value') (hg : parseValue value = .ok g) :
    ∃ g', parseValue value' = .ok g' ∧ g'.name = g.name ∧ g'.nodes.Perm g.nodes ∧
      g'.edges.Perm g.edges := by
  obtain ⟨⟨hname, hnodes, hedges⟩, rfl, hvalid⟩ := parseValue_eq_ok_iff.1 hg
  obtain ⟨ns, ns', hns, hns', hnperm⟩ := h.nodes
  obtain ⟨es, es', hes, hes', heperm⟩ := h.edges
  have hsame : readName value' = readName value := by
    rw [readName, readName, h.name]
  have hnodes' : (readNodes value').1.Perm (readNodes value).1 ∧
      ((readNodes value).2 = [] → (readNodes value').2 = []) :=
    readArray_perm hns hns' hnperm
  have hedges' : (readEdges value').1.Perm (readEdges value).1 ∧
      ((readEdges value).2 = [] → (readEdges value').2 = []) :=
    readArray_perm hes hes' heperm
  refine ⟨⟨(readName value').1, (readNodes value').1, (readEdges value').1⟩, ?_, ?_,
    hnodes'.1, hedges'.1⟩
  · apply parseValue_eq_ok_iff.2
    refine ⟨⟨?_, hnodes'.2 hnodes, hedges'.2 hedges⟩, rfl, ?_⟩
    · rw [hsame]
      exact hname
    · exact hvalid.perm hnodes'.1 hedges'.1
  · show (readName value').1 = (readName value).1
    rw [hsame]

/-! ## The canonical value is a normal form -/

theorem edgeKey_injective : Function.Injective edgeKey := by
  intro e e' h
  obtain ⟨hsrc, hrest⟩ := Prod.mk.inj (toLex.injective h)
  obtain ⟨hdst, hrel⟩ := Prod.mk.inj (toLex.injective hrest)
  cases e
  cases e'
  exact GraphEdge.mk.injEq .. ▸ ⟨hsrc, hdst, hrel⟩

theorem Valid.edgeKeys_nodup (h : Valid g) :
    (g.edges.map edgeKey).Nodup := h.triples.map edgeKey_injective

theorem canonicalize_eq_of_perm (h : Valid g)
    (hnodes : g'.nodes.Perm g.nodes) (hedges : g'.edges.Perm g.edges) (name : String) :
    g'.canonicalize name = g.canonicalize name := by
  rw [IdentityGraph.canonicalize, IdentityGraph.canonicalize,
    sortBy_eq_of_perm h.nodup hnodes, sortBy_eq_of_perm h.edgeKeys_nodup hedges]

theorem nodeOf_nodeValue (n : GraphNode) : nodeOf (nodeValue n) = some n := by
  simp [nodeOf, nodeValue, Json.get?, Json.asStr?]

theorem edgeOf_edgeValue (e : GraphEdge) : edgeOf (edgeValue e) = some e := by
  simp [edgeOf, edgeValue, Json.get?, Json.asStr?]

/-- A list written element by element reads back. -/
theorem filterMap_map_of_inverse {β : Type} {write : α → β} {read : β → Option α}
    (h : ∀ a, read (write a) = some a) (xs : List α) :
    (xs.map write).filterMap read = xs := by
  rw [List.filterMap_map]
  have hid : read ∘ write = some := funext h
  rw [hid, List.filterMap_some]

/-- The sealed value reads back as the sorted graph.  An empty name is no name. -/
theorem parseSealed_canonicalize (g : IdentityGraph) (name : String) :
    parseSealed (g.canonicalize name) =
      some ⟨if name = "" then none else some name, sortBy GraphNode.id g.nodes,
        sortBy edgeKey g.edges⟩ := by
  have hsoul : isGraphSoul (g.canonicalize name) = true := by
    simp [isGraphSoul, IdentityGraph.canonicalize, Json.get?, Json.asStr?]
  rw [parseSealed, if_pos hsoul]
  simp only [IdentityGraph.canonicalize, Json.get?]
  simp [Json.asArray?, Json.asStr?, Option.filter, filterMap_map_of_inverse nodeOf_nodeValue,
    filterMap_map_of_inverse edgeOf_edgeValue]

theorem canonicalize_injective {name : String} (h : g'.canonicalize name = g.canonicalize name) :
    g'.nodes.Perm g.nodes ∧ g'.edges.Perm g.edges := by
  have hback := congrArg parseSealed h
  rw [parseSealed_canonicalize, parseSealed_canonicalize] at hback
  obtain ⟨-, hnodes, hedges⟩ := IdentityGraph.mk.inj (Option.some.inj hback)
  exact ⟨perm_of_sortBy_eq hnodes, perm_of_sortBy_eq hedges⟩

/-- **The canonical value is a normal form of accepted graphs.**  The order of the
arrays does not matter, in the graph or in the file; the value reads back as the
sorted graph, whose canonical value it is; and it determines the nodes and the
edges. -/
theorem canonicalize_normal_form (fromStr : String → Except String Json) (raw : String)
    (g : IdentityGraph) (name : String) (hg : parseImport fromStr raw = .ok g) :
    (∀ g' : IdentityGraph, g'.nodes.Perm g.nodes → g'.edges.Perm g.edges →
      g'.canonicalize name = g.canonicalize name) ∧
    (∀ raw' value value', fromStr raw = .ok value → fromStr raw' = .ok value' →
      Reordered value value' → ∃ g', parseImport fromStr raw' = .ok g' ∧
        g'.canonicalize name = g.canonicalize name) ∧
    (∃ back, parseSealed (g.canonicalize name) = some back ∧
      back.name = (if name = "" then none else some name) ∧
      back.nodes.Perm g.nodes ∧ back.nodes.Pairwise (fun a b => a.id < b.id) ∧
      back.edges.Perm g.edges ∧ back.edges.Pairwise (fun a b => edgeKey a < edgeKey b) ∧
      back.canonicalize name = g.canonicalize name) ∧
    (∀ raw₂ g₂, parseImport fromStr raw₂ = .ok g₂ →
      g₂.canonicalize name = g.canonicalize name →
      (∀ n, n ∈ g₂.nodes ↔ n ∈ g.nodes) ∧ (∀ e, e ∈ g₂.edges ↔ e ∈ g.edges)) := by
  have hvalid := valid_of_parseImport hg
  refine ⟨?_, ?_, ?_, ?_⟩
  · exact fun g' hnodes hedges => canonicalize_eq_of_perm hvalid hnodes hedges name
  · intro raw' value value' hvalue hvalue' hreordered
    rw [parseImport, hvalue] at hg
    obtain ⟨g', hg', -, hnodes, hedges⟩ := parseValue_reordered hreordered hg
    refine ⟨g', ?_, canonicalize_eq_of_perm hvalid hnodes hedges name⟩
    rw [parseImport, hvalue']
    exact hg'
  · refine ⟨_, parseSealed_canonicalize g name, rfl, sortBy_perm _ _,
      sortBy_strict hvalid.nodup, sortBy_perm _ _, sortBy_strict hvalid.edgeKeys_nodup, ?_⟩
    exact canonicalize_eq_of_perm hvalid (sortBy_perm _ _) (sortBy_perm _ _) name
  · intro raw₂ g₂ _ heq
    obtain ⟨hnodes, hedges⟩ := canonicalize_injective heq
    exact ⟨fun n => hnodes.mem_iff, fun e => hedges.mem_iff⟩

/-- Two nodes with a comment between them, as texts and as values. -/
def demoNodes : List (String × Json) :=
  [("\x7b\"id\":\"zoe\",\"type\":\"self\",\"text\":\"I.\"\x7d",
      .obj [("id", .str "zoe"), ("text", .str "I."), ("type", .str "self")]),
    ("\x7b\"_comment\":\"values\"\x7d", .obj [("_comment", .str "values")]),
    ("\x7b\"id\":\"ada\",\"type\":\"value\",\"text\":\"A.\"\x7d",
      .obj [("id", .str "ada"), ("text", .str "A."), ("type", .str "value")])]

/-- A file with these nodes and an edge. -/
def demoRaw (nodes : List (String × Json)) : String :=
  "\x7b\"nodes\":[" ++ join "," (nodes.map Prod.fst) ++
    "],\"edges\":[\x7b\"src\":\"zoe\",\"dst\":\"ada\",\"relation\":\"knows\"\x7d]\x7d"

def demoFile (nodes : List (String × Json)) : Json :=
  .obj [("edges", .arr [.obj [("dst", .str "ada"), ("relation", .str "knows"),
    ("src", .str "zoe")]]), ("nodes", .arr (nodes.map Prod.snd))]

/-- Reads the file with the nodes in either order. -/
def demoRead (raw : String) : Except String Json :=
  if raw = demoRaw demoNodes then .ok (demoFile demoNodes)
  else if raw = demoRaw demoNodes.reverse then .ok (demoFile demoNodes.reverse)
  else .error "expected value at line 1 column 1"

def demoGraph : IdentityGraph :=
  ⟨none, [⟨"zoe", "self", "I."⟩, ⟨"ada", "value", "A."⟩], [⟨"zoe", "ada", "knows"⟩]⟩

theorem canonicalize_normal_form_demo :
    parseImport demoRead (demoRaw demoNodes) = .ok demoGraph ∧
      (∃ g', parseImport demoRead (demoRaw demoNodes.reverse) = .ok g' ∧
        g'.canonicalize "Zoe" = demoGraph.canonicalize "Zoe") ∧
      ∃ back, parseSealed (demoGraph.canonicalize "Zoe") = some back ∧
        back.name = some "Zoe" := by
  have hg : parseImport demoRead (demoRaw demoNodes) = .ok demoGraph := by decide +kernel
  obtain ⟨-, hother, ⟨back, hback, hname, -⟩, -⟩ :=
    canonicalize_normal_form demoRead (demoRaw demoNodes) demoGraph "Zoe" hg
  have hreordered : Reordered (demoFile demoNodes) (demoFile demoNodes.reverse) :=
    ⟨rfl, ⟨_, _, rfl, rfl, (List.reverse_perm _).map Prod.snd⟩, _, _, rfl, rfl, .refl _⟩
  have hne : demoRaw demoNodes.reverse ≠ demoRaw demoNodes := by decide +kernel
  exact ⟨hg, hother _ _ _ (if_pos rfl) ((if_neg hne).trans (if_pos rfl)) hreordered, back, hback,
    hname.trans (if_neg (by decide))⟩

end EmbraOS.Ports.GraphFormat
