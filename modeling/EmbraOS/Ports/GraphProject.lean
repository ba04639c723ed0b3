import EmbraOS.Verified.Calls
import EmbraOS.Verified.InsertMissing
import EmbraOS.Ports.GraphFormat

/-!
# The projection of the identity graphs

Port of `embra-brain/src/identity_graph/project.rs`: the reconcile that runs at
every boot, as a program of database calls.  The sealed graph and the operator's
graph are both projected into one collection of nodes and one of edges.

`ensure_keeps` says what holds whatever calls fail: no document is changed and
none is inserted for what is there.
-/

namespace EmbraOS.Ports.GraphProject

open Verified.Calls
open Verified.InsertMissing
open Verified.Serde
open Verified.Text
open Ports.GraphFormat

def identityCollection : String := "identity.graph"

def originImport : String := "import"
def originUser : String := "user"

def edgeOriginIdentity : String := "identity_import"
def edgeOriginUser : String := "user_profile"

/-! ## Documents -/

def identityNodeDoc (origin now : String) (node : GraphNode) : Json :=
  .obj [("_id", .str node.id), ("access_count", .num (.posInt 0)), ("content", .str node.text),
    ("created_at", .str now), ("last_accessed", .null), ("node_type", .str node.nodeType),
    ("origin", .str origin), ("tags", .arr []), ("updated_at", .str now)]

/-- The bits of the double 1.0. -/
def oneBits : Nat := 0x3FF0000000000000

def identityEdgeDoc (edgeOrigin now : String) (edge : GraphEdge) : Json :=
  .obj [("created_at", .str now), ("edge_type", .str edge.relation),
    ("metadata", .obj [("origin", .str edgeOrigin)]),
    ("source_collection", .str identityCollection), ("source_id", .str edge.src),
    ("target_collection", .str identityCollection), ("target_id", .str edge.dst),
    ("weight", .num (.float oneBits))]

/-- A member of a document as text. -/
def field (doc : Json) (key : String) : Option String := (doc.get? key).bind Json.asStr?

/-- The document of a node. -/
def hasId (node : GraphNode) (doc : Json) : Bool := field doc "_id" = some node.id

/-- The filter of the existence probe. -/
def joins (edge : GraphEdge) (doc : Json) : Bool :=
  field doc "source_id" = some edge.src && field doc "target_id" = some edge.dst &&
    field doc "edge_type" = some edge.relation

/-- `identity_edge_count_filter`. -/
def hasOrigin (origin : String) (doc : Json) : Bool :=
  (doc.get? "metadata").bind (fun m => field m "origin") = some origin

/-! ## The database -/

/-- The documents the reconcile works on. -/
structure Store where
  /-- The document of `soul.invariant`. -/
  soul : Option Json
  /-- The document of `memory.user`. -/
  user : Option Json
  /-- The collection `identity.graph`. -/
  nodes : List Json
  /-- The collection `memory.edges`. -/
  edges : List Json

inductive GraphCall where
  | loadSoul
  | readUser
  | countNodes
  | readNode (node : GraphNode)
  | writeNode (node : GraphNode) (origin now : String)
  | countEdges (origin : String)
  | probeEdge (edge : GraphEdge)
  | writeEdge (doc : Json)

@[reducible]
def api : Api where
  Call := GraphCall
  Ans
    | .loadSoul => Option Json
    | .readUser => Json
    | .countNodes => Nat
    | .readNode _ => Json
    | .countEdges _ => Nat
    | .probeEdge _ => List Json
    | _ => Unit

/-- `char::is_control`. -/
def isControl (c : Char) : Bool := c.toNat < 0x20 || (0x7F ≤ c.toNat && c.toNat < 0xA0)

/-- `segment_ok` for a document id: what the client puts in a path. -/
def segmentOk (id : String) : Bool :=
  id ≠ "" && id.utf8ByteSize ≤ 512 && id ≠ "." && id ≠ ".." &&
    id.toList.all (fun c => c ≠ '/' && c ≠ '\\' && c ≠ '?' && c ≠ '#' && c ≠ '%') &&
    id.toList.all (fun c => !(isWhitespace c || isControl c))

/-- `segment_fault` of the server: why a text cannot name a document. -/
def segmentFault (value : String) : Option String :=
  if value = "" then some "cannot be empty"
  else if value = "." ∨ value = ".." then some "cannot be '.' or '..'"
  else if value.toList.any (fun c => c = '/' || c = '\\') then
    some "cannot contain a path separator"
  else if value.toList.any isControl then some "cannot contain a control character"
  else none

/-- `validate_custom_id` of the server. -/
def validateCustomId (id : String) : Except String String :=
  if id = "" then .error "_id must be a non-empty string"
  else if 512 < id.utf8ByteSize then .error "_id exceeds maximum length of 512 bytes"
  else if startsWith id "_" then .error "_id must not start with underscore"
  else if id.toList.contains (Char.ofNat 0) then .error "_id contains invalid characters"
  else
    match segmentFault id with
    | some why => .error ("_id " ++ why)
    | none => .ok id

/-- The server takes a document id. -/
def idOk (node : GraphNode) : Bool := (validateCustomId node.id).isOk

-- `id_violation`, which mirrors the server's check, lets more through
example : idViolation "a/b" = none ∧ (validateCustomId "a/b").isOk = false := by decide +kernel

def db : Server api Store where
  exec
    | .loadSoul, s => some (s, s.soul.bind (fun doc => doc.get? "soul"))
    | .readUser, s => s.user.map (fun doc => (s, doc))
    | .countNodes, s => some (s, s.nodes.length)
    | .readNode node, s =>
      if segmentOk node.id then (s.nodes.find? (hasId node)).map (fun doc => (s, doc))
      else none
    | .writeNode node origin now, s =>
      if idOk node && !s.nodes.any (hasId node) then
        some ({ s with nodes := s.nodes ++ [identityNodeDoc origin now node] }, ())
      else none
    | .countEdges origin, s => some (s, s.edges.countP (hasOrigin origin))
    | .probeEdge edge, s => some (s, (s.edges.filter (joins edge)).take 1)
    | .writeEdge doc, s => some ({ s with edges := s.edges ++ [doc] }, ())

/-! ## The reconcile -/

abbrev Op (α : Type) := Prog api α

/-- Whether every node is read: the first one is not found, or there are fewer
documents than nodes. -/
def needsWalk (graph : IdentityGraph) (total : Nat) : Op Bool :=
  match graph.nodes with
  | [] => .done false
  | first :: _ => .call (GraphCall.readNode first) fun r =>
    .done (r.isNone || total < graph.nodes.length)

def walkNodes (origin now : String) : Nat → List GraphNode → Op Nat
  | healed, [] => .done healed
  | healed, node :: nodes =>
    .call (GraphCall.readNode node) fun
      | some _ => walkNodes origin now healed nodes
      | none => .call (GraphCall.writeNode node origin now) fun
          | some _ => walkNodes origin now (healed + 1) nodes
          | none => walkNodes origin now healed nodes

def reconcileNodes (graph : IdentityGraph) (origin now : String) : Op Nat :=
  .call GraphCall.countNodes fun total =>
    (needsWalk graph (total.getD 0)).bind fun walk =>
      if walk then walkNodes origin now 0 graph.nodes else .done 0

/-- A probe that fails counts as found. -/
def walkEdges (origin now : String) : Nat → List GraphEdge → Op Nat
  | healed, [] => .done healed
  | healed, edge :: edges =>
    .call (GraphCall.probeEdge edge) fun
      | some [] => .call (GraphCall.writeEdge (identityEdgeDoc origin now edge)) fun
          | some _ => walkEdges origin now (healed + 1) edges
          | none => walkEdges origin now healed edges
      | _ => walkEdges origin now healed edges

def reconcileEdges (graph : IdentityGraph) (origin now : String) : Op Nat :=
  .call (GraphCall.countEdges origin) fun actual =>
    if actual.getD 0 < graph.edges.length then walkEdges origin now 0 graph.edges
    else .done 0

/-- The numbers of nodes and edges that were healed. -/
def reconcileGraph (graph : IdentityGraph) (nodeOrigin edgeOrigin now : String) :
    Op (Nat × Nat) :=
  (reconcileNodes graph nodeOrigin now).bind fun nodes =>
    (reconcileEdges graph edgeOrigin now).map fun edges => (nodes, edges)

/-- The operator's graph in the answer of `memory.user`. -/
def operatorGraph (doc : Option Json) : Option IdentityGraph :=
  (doc.filter isGraphSoul).bind parseSealed

def reconcileUser (now : String) : Op Unit :=
  .call GraphCall.readUser fun doc =>
    match operatorGraph doc with
    | some graph => (reconcileGraph graph originUser edgeOriginUser now).map fun _ => ()
    | none => .done ()

def ensureIdentityProjection (nowSealed nowUser : String) : Op Unit :=
  .call GraphCall.loadSoul fun soul =>
    match soul.join.bind parseSealed with
    | some graph =>
      (reconcileGraph graph originImport edgeOriginIdentity nowSealed).bind fun _ =>
        reconcileUser nowUser
    | none => .done ()

/-! ## Whatever fails -/

theorem hasId_doc (node other : GraphNode) (origin now : String) :
    hasId node (identityNodeDoc origin now other) = decide (other.id = node.id) := by
  simp [hasId, field, identityNodeDoc, Json.get?, Json.asStr?]

theorem joins_doc (edge other : GraphEdge) (origin now : String) :
    joins edge (identityEdgeDoc origin now other) = decide (other = edge) := by
  obtain ⟨src, dst, relation⟩ := edge
  obtain ⟨src', dst', relation'⟩ := other
  simp [joins, field, identityEdgeDoc, Json.get?, Json.asStr?, Bool.and_assoc]

theorem makes_nodes (origin now : String) : Makes hasId (identityNodeDoc origin now) where
  covers_mk node := by
    rw [hasId_doc]
    exact decide_eq_true rfl
  covers_eq node other h := by
    rw [hasId_doc] at h
    funext doc
    rw [hasId, hasId, of_decide_eq_true h]

theorem makes_edges (origin now : String) : Makes joins (identityEdgeDoc origin now) where
  covers_mk edge := by
    rw [joins_doc]
    exact decide_eq_true rfl
  covers_eq edge other h := by
    rw [joins_doc] at h
    rw [of_decide_eq_true h]

/-- What was stored is there, and nothing is there twice that was not. -/
structure Kept (s s' : Store) : Prop where
  soul : s'.soul = s.soul
  user : s'.user = s.user
  nodes : Grown hasId s.nodes s'.nodes
  edges : Grown joins s.edges s'.edges

theorem Kept.refl (s : Store) : Kept s s := ⟨rfl, rfl, Grown.refl _, Grown.refl _⟩

theorem Kept.addNode {s₀ s : Store} (h : Kept s₀ s) {node : GraphNode}
    (hnew : s.nodes.any (hasId node) = false) (origin now : String) :
    Kept s₀ { s with nodes := s.nodes ++ [identityNodeDoc origin now node] } :=
  ⟨h.soul, h.user, h.nodes.trans (Grown.insert (makes_nodes origin now) hnew), h.edges⟩

theorem Kept.addEdge {s₀ s : Store} (h : Kept s₀ s) {edge : GraphEdge}
    (hnew : s.edges.any (joins edge) = false) (origin now : String) :
    Kept s₀ { s with edges := s.edges ++ [identityEdgeDoc origin now edge] } :=
  ⟨h.soul, h.user, h.nodes, h.edges.trans (Grown.insert (makes_edges origin now) hnew)⟩

/-- The server keeps the state on a read. -/
theorem exec_readNode {node : GraphNode} {s s' : Store} {doc : Json}
    (h : db.exec (GraphCall.readNode node) s = some (s', doc)) :
    s' = s ∧ segmentOk node.id = true ∧ s.nodes.any (hasId node) = true := by
  simp only [db] at h
  split at h
  · rename_i hseg
    obtain ⟨found, hfound, heq⟩ := Option.map_eq_some_iff.1 h
    obtain ⟨rfl, -⟩ := Prod.mk.inj heq
    exact ⟨rfl, hseg, List.any_eq_true.2
      ⟨found, List.mem_of_find?_eq_some hfound, List.find?_some hfound⟩⟩
  · cases h

theorem exec_writeNode {node : GraphNode} {origin now : String} {s s' : Store} {u : Unit}
    (h : db.exec (GraphCall.writeNode node origin now) s = some (s', u)) :
    s' = { s with nodes := s.nodes ++ [identityNodeDoc origin now node] } ∧
      s.nodes.any (hasId node) = false := by
  simp only [db] at h
  split at h
  · rename_i hcond
    obtain ⟨rfl, -⟩ := Prod.mk.inj (Option.some.inj h)
    exact ⟨rfl, by simpa using (Bool.and_eq_true_iff.1 hcond).2⟩
  · cases h

variable {s₀ : Store}

theorem always_walkNodes (origin now : String) (nodes : List GraphNode) :
    ∀ healed s, Kept s₀ s →
      Always db (Kept s₀) (fun _ _ => True) (walkNodes origin now healed nodes) s := by
  induction nodes with
  | nil => exact fun _ _ h => ⟨h, trivial⟩
  | cons node nodes ih =>
    intro healed s h
    -- a read that fails is followed by a write, which the server may refuse
    have hwrite : Always db (Kept s₀) (fun _ _ => True)
        (.call (GraphCall.writeNode node origin now) fun
          | some _ => walkNodes origin now (healed + 1) nodes
          | none => walkNodes origin now healed nodes) s := by
      apply Always.step (ih healed s h)
      intro s' u hexec
      obtain ⟨rfl, hnew⟩ := exec_writeNode hexec
      have hadd := h.addNode hnew origin now
      exact ⟨ih _ _ hadd, ih _ _ hadd⟩
    apply Always.step hwrite
    intro s' doc hexec
    obtain ⟨rfl, -, -⟩ := exec_readNode hexec
    exact ⟨ih healed _ h, hwrite⟩

theorem always_walkEdges (origin now : String) (edges : List GraphEdge) :
    ∀ healed s, Kept s₀ s →
      Always db (Kept s₀) (fun _ _ => True) (walkEdges origin now healed edges) s := by
  induction edges with
  | nil => exact fun _ _ h => ⟨h, trivial⟩
  | cons edge edges ih =>
    intro healed s h
    refine Always.call rfl h ?_ (ih healed s h) (ih healed s h)
    cases hprobe : s.edges.filter (joins edge) with
    | cons doc docs => exact ih healed s h
    | nil =>
      have hnew : s.edges.any (joins edge) = false := by
        rw [List.any_eq_false]
        exact List.filter_eq_nil_iff.1 hprobe
      have hadd := h.addEdge hnew origin now
      exact Always.call rfl h (ih _ _ hadd) (ih _ _ h) (ih _ _ hadd)

theorem always_reconcileNodes (graph : IdentityGraph) (origin now : String) {s : Store}
    (h : Kept s₀ s) :
    Always db (Kept s₀) (fun s' _ => Kept s₀ s') (reconcileNodes graph origin now) s := by
  have hwalk : ∀ (walk : Bool) s', Kept s₀ s' → Always db (Kept s₀) (fun s' _ => Kept s₀ s')
      (if walk then walkNodes origin now 0 graph.nodes else .done 0) s' := by
    intro walk s' h'
    cases walk with
    | false => exact ⟨h', h'⟩
    | true =>
      have hall := Always.withInv _ s' (always_walkNodes origin now graph.nodes 0 s' h')
      exact Always.mono (fun _ hI => hI) (fun _ _ hQ => hQ.1) _ s' hall
  have hneeds : ∀ total, Always db (Kept s₀) (fun s' _ => Kept s₀ s')
      (needsWalk graph total) s := by
    intro total
    rw [needsWalk]
    split
    · exact ⟨h, h⟩
    · refine Always.step ?_ ?_
      · exact ⟨h, h⟩
      · intro s' doc hexec
        obtain ⟨rfl, -, -⟩ := exec_readNode hexec
        exact ⟨⟨h, h⟩, ⟨h, h⟩⟩
  have hbind : ∀ total, Always db (Kept s₀) (fun s' _ => Kept s₀ s')
      ((needsWalk graph total).bind fun walk =>
        if walk then walkNodes origin now 0 graph.nodes else .done 0) s :=
    fun total => Always.bind _ (fun s' walk h' => hwalk walk s' h') s (hneeds total)
  exact Always.call rfl h (hbind _) (hbind _) (hbind _)

theorem always_reconcileEdges (graph : IdentityGraph) (origin now : String) {s : Store}
    (h : Kept s₀ s) :
    Always db (Kept s₀) (fun s' _ => Kept s₀ s') (reconcileEdges graph origin now) s := by
  have hwalk : ∀ actual : Nat, Always db (Kept s₀) (fun s' _ => Kept s₀ s')
      (if actual < graph.edges.length then walkEdges origin now 0 graph.edges
        else .done 0) s := by
    intro actual
    split
    · have hall := Always.withInv _ s (always_walkEdges origin now graph.edges 0 s h)
      exact Always.mono (fun _ hI => hI) (fun _ _ hQ => hQ.1) _ s hall
    · exact ⟨h, h⟩
  exact Always.call rfl h (hwalk _) (hwalk _) (hwalk _)

theorem always_reconcileGraph (graph : IdentityGraph) (nodeOrigin edgeOrigin now : String)
    {s : Store} (h : Kept s₀ s) :
    Always db (Kept s₀) (fun s' _ => Kept s₀ s')
      (reconcileGraph graph nodeOrigin edgeOrigin now) s := by
  apply Always.bind _ _ s (always_reconcileNodes graph nodeOrigin now h)
  exact fun s' _ h' => Always.map (always_reconcileEdges graph edgeOrigin now h')

/-- **The boot reconcile only adds what is missing**, whatever calls fail and
however they fail. -/
theorem ensure_keeps (nowSealed nowUser : String) (s : Store) :
    Always db (Kept s) (fun s' _ => Kept s s') (ensureIdentityProjection nowSealed nowUser) s := by
  have huser : ∀ s', Kept s s' →
      Always db (Kept s) (fun s' _ => Kept s s') (reconcileUser nowUser) s' := by
    intro s' h'
    have hgraph : ∀ doc, Always db (Kept s) (fun s' _ => Kept s s')
        (match operatorGraph doc with
          | some graph => (reconcileGraph graph originUser edgeOriginUser nowUser).map fun _ => ()
          | none => .done ()) s' := by
      intro doc
      cases operatorGraph doc with
      | none => exact ⟨h', h'⟩
      | some graph => exact Always.map (always_reconcileGraph graph _ _ _ h')
    cases hdoc : s'.user with
    | none =>
      have hrefused : db.exec GraphCall.readUser s' = none := by
        simp only [db, hdoc]
        rfl
      exact Always.refused hrefused h' (hgraph none)
    | some doc =>
      have hexec : db.exec GraphCall.readUser s' = some (s', doc) := by
        simp only [db, hdoc]
        rfl
      exact Always.call hexec h' (hgraph _) (hgraph none) (hgraph none)
  have hsoul : ∀ soul : Option (Option Json), Always db (Kept s) (fun s' _ => Kept s s')
      (match soul.join.bind parseSealed with
        | some graph =>
          (reconcileGraph graph originImport edgeOriginIdentity nowSealed).bind fun _ =>
            reconcileUser nowUser
        | none => .done ()) s := by
    intro soul
    cases soul.join.bind parseSealed with
    | none => exact ⟨Kept.refl s, Kept.refl s⟩
    | some graph =>
      exact Always.bind _ (fun s' _ h' => huser s' h') s
        (always_reconcileGraph graph _ _ _ (Kept.refl s))
  exact Always.call rfl (Kept.refl s) (hsoul _) (hsoul none) (hsoul none)

end EmbraOS.Ports.GraphProject
