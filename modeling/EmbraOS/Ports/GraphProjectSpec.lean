import EmbraOS.Ports.GraphProject

/-!
# When the projection is complete

With every call answered the two walks are passes of `insertMissing`
(`run_walkNodes`, `run_walkEdges`), so a reconcile has a closed form
(`run_reconcileGraph`).

The walks are skipped on the word of a count and of one read, and the count of
nodes is that of a collection which two graphs share.  `complete_reconcile_iff`
says exactly when a graph is complete after its reconcile; `ensure_complete_iff`
says it of a boot.
-/

namespace EmbraOS.Ports.GraphProject

open Verified.Calls
open Verified.InsertMissing
open Verified.Serde
open Ports.GraphFormat

/-- No call fails. -/
def answered : GraphCall → Reply := fun _ => .answered

variable {s s' : Store} {graph : IdentityGraph} {nodeOrigin edgeOrigin now : String}

theorem run_answered {α : Type} {c : GraphCall} {a : api.Ans c}
    (h : db.exec c s = some (s', a)) (k : Option (api.Ans c) → Op α) :
    run db answered (.call c k) s = run db answered (k (some a)) s' :=
  run_call h answered k

/-! ## The walks -/

theorem run_writeNode (node : GraphNode) (origin now : String) (k : Option Unit → Op Nat)
    (s : Store) :
    run db answered (.call (GraphCall.writeNode node origin now) k) s =
      run db answered
        (k (if idOk node && !s.nodes.any (hasId node) then some () else none))
        { s with nodes := addMissing hasId idOk (identityNodeDoc origin now) node s.nodes } := by
  by_cases h : (idOk node && !s.nodes.any (hasId node)) = true
  · have hexec : db.exec (GraphCall.writeNode node origin now) s =
        some ({ s with nodes := s.nodes ++ [identityNodeDoc origin now node] }, ()) := by
      simp only [db, if_pos h]
    rw [run_answered hexec, addMissing, if_pos h, if_pos h]
  · have hexec : db.exec (GraphCall.writeNode node origin now) s = none := by
      simp only [db, if_neg h]
    rw [run_refused hexec, addMissing, if_neg h, if_neg h]

/-- The documents after the walk over the nodes. -/
theorem run_walkNodes (origin now : String) (nodes : List GraphNode) :
    ∀ healed s, (run db answered (walkNodes origin now healed nodes) s).1 =
      { s with nodes := insertMissing hasId idOk (identityNodeDoc origin now) nodes s.nodes } := by
  induction nodes with
  | nil => exact fun _ _ => rfl
  | cons node nodes ih =>
    intro healed s
    rw [walkNodes, insertMissing]
    cases hexec : db.exec (GraphCall.readNode node) s with
    | none =>
      rw [run_refused hexec]
      refine (congrArg Prod.fst (run_writeNode node origin now _ s)).trans ?_
      split
      · exact ih _ _
      · exact ih _ _
    | some found =>
      -- what is read is there, so nothing is added for it
      obtain ⟨s', doc⟩ := found
      obtain ⟨rfl, -, hany⟩ := exec_readNode hexec
      rw [run_answered hexec, addMissing_of_any hany]
      exact ih _ _

/-- The documents after the walk over the edges. -/
theorem run_walkEdges (origin now : String) (edges : List GraphEdge) :
    ∀ healed s, (run db answered (walkEdges origin now healed edges) s).1 =
      { s with edges :=
        insertMissing joins (fun _ => true) (identityEdgeDoc origin now) edges s.edges } := by
  induction edges with
  | nil => exact fun _ _ => rfl
  | cons edge edges ih =>
    intro healed s
    have hexec : db.exec (GraphCall.probeEdge edge) s =
        some (s, (s.edges.filter (joins edge)).take 1) := rfl
    rw [walkEdges, insertMissing, run_answered hexec]
    cases hprobe : s.edges.filter (joins edge) with
    | nil =>
      have hnew : s.edges.any (joins edge) = false := by
        rw [List.any_eq_false]
        exact List.filter_eq_nil_iff.1 hprobe
      rw [addMissing_of_missing rfl hnew]
      exact ih (healed + 1) _
    | cons doc docs =>
      have hany : s.edges.any (joins edge) = true := by
        have hmem : doc ∈ s.edges.filter (joins edge) := hprobe ▸ List.mem_cons_self
        exact List.any_eq_true.2 ⟨doc, List.mem_filter.1 hmem⟩
      rw [addMissing_of_any hany]
      exact ih healed s

/-! ## One reconcile -/

/-- Whether the nodes are walked: the first one cannot be read, or there are fewer
documents than nodes. -/
def walksNodes (graph : IdentityGraph) (s : Store) : Bool :=
  graph.nodes.head?.any (fun first => !(segmentOk first.id && s.nodes.any (hasId first))) ||
    s.nodes.length < graph.nodes.length

def walksEdges (graph : IdentityGraph) (origin : String) (s : Store) : Bool :=
  s.edges.countP (hasOrigin origin) < graph.edges.length

theorem exec_readNode_isSome (node : GraphNode) (s : Store) :
    (db.exec (GraphCall.readNode node) s).isSome =
      (segmentOk node.id && s.nodes.any (hasId node)) := by
  simp only [db]
  cases segmentOk node.id with
  | false => rfl
  | true =>
    rw [if_pos rfl, Option.isSome_map, Bool.true_and, Bool.eq_iff_iff, List.find?_isSome,
      List.any_eq_true]

theorem run_needsWalk (graph : IdentityGraph) (s : Store) :
    run db answered (needsWalk graph s.nodes.length) s = (s, walksNodes graph s) := by
  rw [needsWalk, walksNodes]
  cases hnodes : graph.nodes with
  | nil => simp [run]
  | cons first rest =>
    have hsome := exec_readNode_isSome first s
    cases hexec : db.exec (GraphCall.readNode first) s with
    | none =>
      rw [hexec] at hsome
      rw [run_refused hexec]
      simp only [run, List.head?_cons, Option.any_some, ← hsome]
      rfl
    | some found =>
      obtain ⟨s', doc⟩ := found
      obtain ⟨rfl, -, -⟩ := exec_readNode hexec
      rw [hexec] at hsome
      rw [run_answered hexec]
      simp only [run, List.head?_cons, Option.any_some, ← hsome]
      rfl

theorem run_reconcileNodes (graph : IdentityGraph) (origin now : String) (s : Store) :
    (run db answered (reconcileNodes graph origin now) s).1 =
      if walksNodes graph s then
        { s with nodes :=
          insertMissing hasId idOk (identityNodeDoc origin now) graph.nodes s.nodes }
      else s := by
  have hcount : db.exec GraphCall.countNodes s = some (s, s.nodes.length) := rfl
  rw [reconcileNodes, run_answered hcount, Option.getD_some, run_bind, run_needsWalk]
  cases walksNodes graph s with
  | false => rfl
  | true => exact run_walkNodes origin now graph.nodes 0 s

theorem run_reconcileEdges (graph : IdentityGraph) (origin now : String) (s : Store) :
    (run db answered (reconcileEdges graph origin now) s).1 =
      if walksEdges graph origin s then
        { s with edges :=
          insertMissing joins (fun _ => true) (identityEdgeDoc origin now) graph.edges s.edges }
      else s := by
  have hcount : db.exec (GraphCall.countEdges origin) s =
      some (s, s.edges.countP (hasOrigin origin)) := rfl
  rw [reconcileEdges, run_answered hcount, Option.getD_some, walksEdges]
  by_cases h : s.edges.countP (hasOrigin origin) < graph.edges.length
  · rw [if_pos h, if_pos (decide_eq_true h)]
    exact run_walkEdges origin now graph.edges 0 s
  · rw [if_neg h, if_neg (by simpa using h)]
    rfl

/-- The store after a reconcile of one graph. -/
def reconciled (graph : IdentityGraph) (nodeOrigin edgeOrigin now : String) (s : Store) : Store :=
  (run db answered (reconcileGraph graph nodeOrigin edgeOrigin now) s).1

theorem run_reconcileGraph (graph : IdentityGraph) (nodeOrigin edgeOrigin now : String)
    (s : Store) :
    (reconciled graph nodeOrigin edgeOrigin now s).nodes =
        (if walksNodes graph s then
          insertMissing hasId idOk (identityNodeDoc nodeOrigin now) graph.nodes s.nodes
        else s.nodes) ∧
      (reconciled graph nodeOrigin edgeOrigin now s).edges =
        (if walksEdges graph edgeOrigin s then
          insertMissing joins (fun _ => true) (identityEdgeDoc edgeOrigin now) graph.edges s.edges
        else s.edges) := by
  rw [reconciled, reconcileGraph, run_bind, Prog.map, run_bind]
  simp only [run]
  rw [run_reconcileEdges, run_reconcileNodes]
  have hedges : walksEdges graph edgeOrigin
      (if walksNodes graph s then
        { s with nodes :=
          insertMissing hasId idOk (identityNodeDoc nodeOrigin now) graph.nodes s.nodes }
      else s) = walksEdges graph edgeOrigin s := by
    cases walksNodes graph s with
    | false => rfl
    | true => rfl
  rw [hedges]
  cases walksNodes graph s with
  | false | true =>
    cases walksEdges graph edgeOrigin s with
    | false => exact ⟨rfl, rfl⟩
    | true => exact ⟨rfl, rfl⟩

/-! ## Completeness -/

/-- The document of an edge, between nodes of the projection. -/
def stores (edge : GraphEdge) (doc : Json) : Bool :=
  joins edge doc && field doc "source_collection" = some identityCollection &&
    field doc "target_collection" = some identityCollection

/-- Every node and every edge of the graph is projected. -/
structure Complete (graph : IdentityGraph) (s : Store) : Prop where
  nodes : ∀ n ∈ graph.nodes, s.nodes.any (hasId n) = true
  edges : ∀ e ∈ graph.edges, s.edges.any (stores e) = true

/-- What the store must be before a reconcile for it to complete the graph.  When a
node is missing, the first node must not be readable or the collection must be
smaller than the graph, and the server must take the id; when an edge is missing,
there must be fewer edges of that origin than the graph has, and none between
other collections in its place. -/
structure Heals (graph : IdentityGraph) (edgeOrigin : String) (s : Store) : Prop where
  nodes : ∀ n ∈ graph.nodes, s.nodes.any (hasId n) = false →
    idOk n = true ∧
      ((∃ first, graph.nodes.head? = some first ∧
          (segmentOk first.id = false ∨ s.nodes.any (hasId first) = false)) ∨
        s.nodes.length < graph.nodes.length)
  edges : ∀ e ∈ graph.edges, s.edges.any (stores e) = false →
    s.edges.any (joins e) = false ∧ s.edges.countP (hasOrigin edgeOrigin) < graph.edges.length

theorem walksNodes_iff :
    walksNodes graph s = true ↔
      (∃ first, graph.nodes.head? = some first ∧
          (segmentOk first.id = false ∨ s.nodes.any (hasId first) = false)) ∨
        s.nodes.length < graph.nodes.length := by
  rw [walksNodes, Bool.or_eq_true_iff, decide_eq_true_iff, Option.any_eq_true]
  simp only [Bool.not_eq_true', Bool.and_eq_false_iff]

theorem idOk_of_hasId_eq (n m : GraphNode) (h : hasId n = hasId m) : idOk n = idOk m := by
  have hdoc := congrFun h (identityNodeDoc "" "" n)
  rw [hasId_doc, hasId_doc, decide_eq_true rfl] at hdoc
  rw [idOk, idOk, of_decide_eq_true hdoc.symm]

/-- A node after a reconcile: it was there, or the walk inserts it. -/
theorem any_nodes_reconciled {n : GraphNode} (hn : n ∈ graph.nodes) :
    (reconciled graph nodeOrigin edgeOrigin now s).nodes.any (hasId n) = true ↔
      s.nodes.any (hasId n) = true ∨ (walksNodes graph s = true ∧ idOk n = true) := by
  rw [(run_reconcileGraph graph nodeOrigin edgeOrigin now s).1]
  cases walksNodes graph s with
  | false => simp
  | true =>
    rw [if_pos rfl, any_insertMissing_iff (makes_nodes nodeOrigin now) idOk_of_hasId_eq hn]
    simp

theorem stores_doc (edge other : GraphEdge) (origin now : String) :
    stores edge (identityEdgeDoc origin now other) = decide (other = edge) := by
  rw [stores, joins_doc]
  simp [field, identityEdgeDoc, Json.get?, Json.asStr?]

/-- An edge after a reconcile: it was there, or the walk inserts it, which a document
between other collections prevents. -/
theorem any_edges_reconciled {e : GraphEdge} (he : e ∈ graph.edges) :
    (reconciled graph nodeOrigin edgeOrigin now s).edges.any (stores e) = true ↔
      s.edges.any (stores e) = true ∨
        (walksEdges graph edgeOrigin s = true ∧ s.edges.any (joins e) = false) := by
  rw [(run_reconcileGraph graph nodeOrigin edgeOrigin now s).2]
  cases walksEdges graph edgeOrigin s with
  | false => simp
  | true =>
    rw [if_pos rfl]
    have hmk := makes_edges edgeOrigin now
    constructor
    · intro h
      obtain ⟨d, hd, hstores⟩ := List.any_eq_true.1 h
      rcases mem_insertMissing hmk graph.edges s.edges d hd with hin | ⟨y, -, rfl, -, hnew⟩
      · exact Or.inl (List.any_eq_true.2 ⟨d, hin, hstores⟩)
      · rw [stores_doc] at hstores
        rw [← of_decide_eq_true hstores]
        exact Or.inr ⟨rfl, hnew⟩
    · rintro (h | ⟨-, hnew⟩)
      · exact (grown_insertMissing hmk graph.edges s.edges).any h
      have hany : (insertMissing joins (fun _ => true) (identityEdgeDoc edgeOrigin now)
          graph.edges s.edges).any (joins e) = true :=
        any_insertMissing_of_ok hmk rfl graph.edges s.edges he
      obtain ⟨d, hd, hjoins⟩ := List.any_eq_true.1 hany
      rcases mem_insertMissing hmk graph.edges s.edges d hd with hin | ⟨y, -, rfl, -, -⟩
      · have hfalse := List.any_eq_false.1 hnew d hin
        exact absurd hjoins hfalse
      · refine List.any_eq_true.2 ⟨_, hd, ?_⟩
        rw [joins_doc] at hjoins
        rw [stores_doc]
        exact hjoins

/-- **A reconcile completes its graph exactly when it looks.** -/
theorem complete_reconcile_iff (graph : IdentityGraph) (nodeOrigin edgeOrigin now : String)
    (s : Store) :
    Complete graph (reconciled graph nodeOrigin edgeOrigin now s) ↔
      Heals graph edgeOrigin s := by
  constructor
  · intro h
    refine ⟨fun n hn hmissing => ?_, fun e he hmissing => ?_⟩
    · rcases (any_nodes_reconciled hn).1 (h.nodes n hn) with hthere | ⟨hwalks, hok⟩
      · rw [hthere] at hmissing
        cases hmissing
      · exact ⟨hok, walksNodes_iff.1 hwalks⟩
    · rcases (any_edges_reconciled he).1 (h.edges e he) with hthere | ⟨hwalks, hnew⟩
      · rw [hthere] at hmissing
        cases hmissing
      · exact ⟨hnew, of_decide_eq_true hwalks⟩
  · intro h
    refine ⟨fun n hn => (any_nodes_reconciled hn).2 ?_,
      fun e he => (any_edges_reconciled he).2 ?_⟩
    · cases hthere : s.nodes.any (hasId n) with
      | true => exact Or.inl rfl
      | false =>
        obtain ⟨hok, hwalks⟩ := h.nodes n hn hthere
        exact Or.inr ⟨walksNodes_iff.2 hwalks, hok⟩
    · cases hthere : s.edges.any (stores e) with
      | true => exact Or.inl rfl
      | false =>
        obtain ⟨hnew, hcount⟩ := h.edges e he hthere
        exact Or.inr ⟨decide_eq_true hcount, hnew⟩

/-! ## The boot -/

/-- The graph of the sealed soul. -/
def Store.sealedGraph (s : Store) : Option IdentityGraph :=
  (s.soul.bind (fun doc => doc.get? "soul")).bind parseSealed

/-- The store after the boot reconcile. -/
def ensured (nowSealed nowUser : String) (s : Store) : Store :=
  (run db answered (ensureIdentityProjection nowSealed nowUser) s).1

theorem kept_reconciled (graph : IdentityGraph) (nodeOrigin edgeOrigin now : String)
    (s : Store) : Kept s (reconciled graph nodeOrigin edgeOrigin now s) := by
  rw [reconciled]
  exact Always.run answered _ s
    (always_reconcileGraph graph nodeOrigin edgeOrigin now (Kept.refl s))

theorem Complete.kept (h : Complete graph s) (hkept : Kept s s') : Complete graph s' :=
  ⟨fun n hn => hkept.nodes.any (h.nodes n hn), fun e he => hkept.edges.any (h.edges e he)⟩

/-- A boot is a reconcile of the sealed graph and then one of the operator's. -/
theorem ensured_eq (nowSealed nowUser : String) {user : IdentityGraph}
    (hsealed : s.sealedGraph = some graph) (huser : operatorGraph s.user = some user) :
    ensured nowSealed nowUser s =
      reconciled user originUser edgeOriginUser nowUser
        (reconciled graph originImport edgeOriginIdentity nowSealed s) := by
  have hsoul : db.exec GraphCall.loadSoul s =
      some (s, s.soul.bind (fun doc => doc.get? "soul")) := rfl
  have hkept := kept_reconciled graph originImport edgeOriginIdentity nowSealed s
  set s₁ := reconciled graph originImport edgeOriginIdentity nowSealed s with hs₁
  rw [ensured, ensureIdentityProjection, run_answered hsoul, Option.join_some]
  rw [Store.sealedGraph] at hsealed
  rw [hsealed]
  rw [run_bind, reconcileUser]
  cases hdoc : s.user with
  | none =>
    rw [hdoc] at huser
    cases huser
  | some doc =>
    have hread : db.exec GraphCall.readUser s₁ = some (s₁, doc) := by
      simp only [db, hkept.user, hdoc]
      rfl
    refine (congrArg Prod.fst (run_answered hread _)).trans ?_
    rw [hdoc] at huser
    rw [huser]
    dsimp only
    rw [Prog.map, run_bind]
    rfl

/-- **A boot completes both graphs when each reconcile looks**, and only adds.  Each
graph is complete after its reconcile exactly when `Heals` held before it, and
what is complete stays so. -/
theorem ensure_complete_iff (nowSealed nowUser : String) (s : Store)
    (graph user : IdentityGraph) (hsealed : s.sealedGraph = some graph)
    (huser : operatorGraph s.user = some user) :
    Kept s (ensured nowSealed nowUser s) ∧
      (Complete graph (reconciled graph originImport edgeOriginIdentity nowSealed s) ↔
        Heals graph edgeOriginIdentity s) ∧
      (Complete user (ensured nowSealed nowUser s) ↔
        Heals user edgeOriginUser
          (reconciled graph originImport edgeOriginIdentity nowSealed s)) ∧
      (Heals graph edgeOriginIdentity s →
        Complete graph (ensured nowSealed nowUser s)) := by
  have hkept : Kept s (ensured nowSealed nowUser s) := by
    rw [ensured]
    exact Always.run answered _ s (ensure_keeps nowSealed nowUser s)
  have hboot := ensured_eq nowSealed nowUser hsealed huser
  refine ⟨hkept, complete_reconcile_iff _ _ _ _ _, ?_, ?_⟩
  · rw [hboot]
    exact complete_reconcile_iff _ _ _ _ _
  · intro hheals
    rw [hboot]
    exact ((complete_reconcile_iff _ _ _ _ _).2 hheals).kept (kept_reconciled _ _ _ _ _)

/-! A sealed graph of two nodes and an operator's graph of one. -/

def demoSealed : IdentityGraph :=
  ⟨some "Zoe", [⟨"ada", "value", "A."⟩, ⟨"zoe", "self", "I."⟩], [⟨"zoe", "ada", "knows"⟩]⟩

def demoUser : IdentityGraph := ⟨some "Op", [⟨"user_operator", "operator", "Op"⟩], []⟩

def demoStore (nodes edges : List Json) : Store where
  soul := some (.obj [("soul", demoSealed.canonicalize "Zoe")])
  user := some (demoUser.canonicalize "Op")
  nodes := nodes
  edges := edges

theorem demo_graphs (nodes edges : List Json) :
    (demoStore nodes edges).sealedGraph = some demoSealed ∧
      operatorGraph (demoStore nodes edges).user = some demoUser := by
  have hsealed : parseSealed (demoSealed.canonicalize "Zoe") = some demoSealed := by
    decide +kernel
  have huser : operatorGraph (some (demoUser.canonicalize "Op")) = some demoUser := by
    decide +kernel
  exact ⟨hsealed, huser⟩

theorem ensure_complete_iff_demo : Complete demoSealed (ensured "t" "t" (demoStore [] [])) := by
  obtain ⟨hsealed, huser⟩ := demo_graphs [] []
  apply (ensure_complete_iff "t" "t" (demoStore [] []) demoSealed demoUser hsealed huser).2.2.2
  have hids : ∀ n ∈ demoSealed.nodes, idOk n = true := by decide +kernel
  exact ⟨fun n hn _ => ⟨hids n hn, Or.inr (by decide)⟩, fun e _ _ => ⟨rfl, by decide⟩⟩

/-- The self node is missing; the first node is there, and with the operator's node
there are as many documents as the sealed graph has nodes. -/
theorem ensure_leaves_missing :
    let s := demoStore
      [identityNodeDoc originImport "t" ⟨"ada", "value", "A."⟩,
        identityNodeDoc originUser "t" ⟨"user_operator", "operator", "Op"⟩]
      [identityEdgeDoc edgeOriginIdentity "t" ⟨"zoe", "ada", "knows"⟩]
    s.sealedGraph = some demoSealed ∧ operatorGraph s.user = some demoUser ∧
      ⟨"zoe", "self", "I."⟩ ∈ demoSealed.nodes ∧
      (ensured "t" "t" s).nodes.any (hasId ⟨"zoe", "self", "I."⟩) = false := by
  decide +kernel

end EmbraOS.Ports.GraphProject
