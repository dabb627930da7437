import Mathlib.Data.List.Find
import Typestate.Document.Graph

/-!
Node indices of graph documents. An index is taken as a node number by its low 32 bits before it is
looked at, so an index is refused if its low bits belong to no node: one that is large enough
passes for another node.
-/

namespace Typestate

namespace Graph

theorem foldl_addNode (g : Graph) (ns : List NodeDocument) :
    ns.foldl (fun g n => g.addNode n.node) g =
      { g with
        nodes := g.nodes ++ (ns.map NodeDocument.node).toArray
        entry := g.entry <|> ns.head?.map fun _ => g.size } := by
  induction ns generalizing g with
  | nil => simp
  | cons n ns ih =>
      rw [List.foldl_cons, ih]
      cases hentry : g.entry <;> simp [addNode, size, hentry]

theorem addEdge_eq (g : Graph) (e : Edge) :
    g.addEdge e =
      match [e.source, e.target].find? (g.size ≤ ·) with
      | some n => .error (.unknownNode n g.size)
      | none => .ok { g with edges := g.edges.push e } := by
  by_cases hsource : e.source < g.size
  · by_cases htarget : e.target < g.size
    · simp [addEdge, checkNode, hsource, htarget, Nat.not_le.2, bind, Except.bind, pure,
        Except.pure]
    · simp [addEdge, checkNode, hsource, htarget, Nat.not_lt.1, bind, Except.bind]
  · simp [addEdge, checkNode, hsource, Nat.not_lt.1, bind, Except.bind]

theorem setEntry_eq (g : Graph) (n : Nat) :
    g.setEntry n =
      if g.size ≤ n then .error (.unknownNode n g.size) else .ok { g with entry := some n } := by
  by_cases hn : n < g.size
  · simp [setEntry, checkNode, hn, bind, Except.bind, pure, Except.pure]
  · simp [setEntry, checkNode, hn, Nat.not_lt.1 hn, bind, Except.bind]

end Graph

namespace GraphDocument

/-- The indices of a document, in the order in which they are looked at. -/
def indices (d : GraphDocument) : List Nat :=
  d.edges.flatMap (fun e => [e.source, e.target]) ++ d.entry.toList

theorem foldlM_addEdge (g : Graph) (es : List EdgeDocument) :
    es.foldlM (fun g e => g.addEdge e.edge) g =
      match (es.flatMap fun e => [e.source, e.target]).find? (g.size ≤ Graph.nodeNumber ·) with
      | some n => .error (.unknownNode (Graph.nodeNumber n) g.size)
      | none => .ok { g with edges := g.edges ++ (es.map EdgeDocument.edge).toArray } := by
  induction es generalizing g with
  | nil => simp [pure, Except.pure]
  | cons e es ih =>
      -- An edge that is added changes nothing about the nodes, so the bound stays the same.
      rw [List.foldlM_cons, Graph.addEdge_eq, List.flatMap_cons, List.find?_append]
      by_cases hsource : g.size ≤ Graph.nodeNumber e.source
      · simp [EdgeDocument.edge, hsource, bind, Except.bind]
      · by_cases htarget : g.size ≤ Graph.nodeNumber e.target
        · simp [EdgeDocument.edge, hsource, htarget, bind, Except.bind]
        · have hnone : [e.source, e.target].find? (g.size ≤ Graph.nodeNumber ·) = none := by
            simp [hsource, htarget]
          have hedge : [e.edge.source, e.edge.target].find? (g.size ≤ ·) = none := by
            simp [EdgeDocument.edge, hsource, htarget]
          have hpush : g.edges.push e.edge ++ (es.map EdgeDocument.edge).toArray =
              g.edges ++ ((e :: es).map EdgeDocument.edge).toArray := by simp
          simp only [hnone, hedge, bind, Except.bind, ih, Option.none_or, hpush]
          rfl

/-- The graph of a document whose indices all belong to nodes. -/
def plainGraph (d : GraphDocument) : Graph where
  name := d.name
  file := d.file
  nodes := (d.nodes.map NodeDocument.node).toArray
  edges := (d.edges.map EdgeDocument.edge).toArray
  entry := d.entry.map Graph.nodeNumber <|> d.nodes.head?.map fun _ => 0

theorem toGraph_eq (d : GraphDocument) :
    d.toGraph =
      match d.indices.find? (d.nodes.length ≤ Graph.nodeNumber ·) with
      | some n => .error (.unknownNode (Graph.nodeNumber n) d.nodes.length)
      | none => .ok d.plainGraph := by
  let bare : Graph := { Graph.empty d.name with file := d.file }
  let loaded := d.nodes.foldl (fun g n => g.addNode n.node) bare
  have hloaded : loaded = ⟨d.name, d.file, (d.nodes.map NodeDocument.node).toArray, #[],
      d.nodes.head?.map fun _ => 0⟩ := by
    simp [loaded, bare, Graph.foldl_addNode, Graph.empty, Graph.size]
  have hsize : loaded.size = d.nodes.length := by simp [hloaded, Graph.size]
  have htoGraph : d.toGraph =
      (d.edges.foldlM (fun (g : Graph) e => g.addEdge e.edge) loaded).bind fun g =>
        d.entry.elim (.ok g) fun n => g.setEntry (Graph.nodeNumber n) := by
    unfold toGraph
    cases d.entry <;> rfl
  rw [htoGraph, foldlM_addEdge, hsize, indices, List.find?_append]
  cases (d.edges.flatMap fun e => [e.source, e.target]).find?
      (d.nodes.length ≤ Graph.nodeNumber ·) with
  | some n => rfl
  | none =>
      cases hentry : d.entry with
      | none => simp [Except.bind, hloaded, plainGraph, hentry]
      | some n =>
          simp only [Except.bind, Graph.setEntry_eq]
          by_cases hn : d.nodes.length ≤ Graph.nodeNumber n
          · simp [hloaded, Graph.size, hn]
          · simp [hloaded, Graph.size, hn, plainGraph, hentry]

theorem toGraph_eq_ok_iff (d : GraphDocument) (g : Graph) :
    d.toGraph = .ok g ↔
      (∀ n ∈ d.indices, Graph.nodeNumber n < d.nodes.length) ∧ g = d.plainGraph := by
  have hnone : d.indices.find? (d.nodes.length ≤ Graph.nodeNumber ·) = none ↔
      ∀ n ∈ d.indices, Graph.nodeNumber n < d.nodes.length := by
    simp [List.find?_eq_none]
  rw [toGraph_eq, ← hnone]
  cases d.indices.find? (d.nodes.length ≤ Graph.nodeNumber ·) with
  | none => simp [eq_comm]
  | some n => simp

theorem toGraph_eq_error_iff (d : GraphDocument) (f : GraphFault) :
    d.toGraph = .error f ↔
      ∃ n, d.indices.find? (d.nodes.length ≤ Graph.nodeNumber ·) = some n ∧
        f = .unknownNode (Graph.nodeNumber n) d.nodes.length := by
  rw [toGraph_eq]
  cases d.indices.find? (d.nodes.length ≤ Graph.nodeNumber ·) with
  | none => simp
  | some n => simp [eq_comm]

/-- A document is a graph if the low 32 bits of its indices belong to nodes. Else the fault names
the low bits of the first index whose do not. Where every index has 32 bits, an index that belongs
to no node is never accepted. -/
theorem toGraph_exact (d : GraphDocument) :
    (∀ g, d.toGraph = .ok g ↔
      (∀ n ∈ d.indices, n % Nat.pow 2 32 < d.nodes.length) ∧ g = d.plainGraph) ∧
    (∀ f, d.toGraph = .error f ↔
      ∃ n, d.indices.find? (d.nodes.length ≤ · % Nat.pow 2 32) = some n ∧
        f = .unknownNode (n % Nat.pow 2 32) d.nodes.length) ∧
    ((∀ n ∈ d.indices, n < Nat.pow 2 32) →
      ((∃ g, d.toGraph = .ok g) ↔ ∀ n ∈ d.indices, n < d.nodes.length) ∧
      ∀ f, d.toGraph = .error f ↔
        ∃ n, d.indices.find? (d.nodes.length ≤ ·) = some n ∧
          f = .unknownNode n d.nodes.length) := by
  refine ⟨d.toGraph_eq_ok_iff, d.toGraph_eq_error_iff, fun hsmall => ?_⟩
  have hself : ∀ n ∈ d.indices, Graph.nodeNumber n = n := fun n hn => Nat.mod_eq_of_lt (hsmall n hn)
  have hfind : d.indices.find? (d.nodes.length ≤ Graph.nodeNumber ·) =
      d.indices.find? (d.nodes.length ≤ ·) :=
    List.find?_congr fun n hn => by rw [hself n hn]
  constructor
  · simp only [toGraph_eq_ok_iff, exists_and_left, exists_eq, and_true]
    exact forall₂_congr fun n hn => by rw [hself n hn]
  · intro f
    rw [toGraph_eq_error_iff, hfind]
    refine exists_congr fun n => and_congr_right fun hn => ?_
    rw [hself n (List.mem_of_find?_eq_some hn)]

/-- A node that does nothing, with an edge to a node that is not there. -/
theorem toGraph_exact_dangling :
    let d : GraphDocument := ⟨"f", none, none, [⟨.nop, none, none⟩], [⟨0, 1, .sequential⟩]⟩
    (∀ n ∈ d.indices, n < Nat.pow 2 32) ∧ d.toGraph = .error (.unknownNode 1 1) := by
  intro d
  have hsmall : ∀ n ∈ d.indices, n < Nat.pow 2 32 := by decide
  exact ⟨hsmall, ((toGraph_exact d).2.2 hsmall).2 _ |>.2 ⟨1, rfl, rfl⟩⟩

/-- An edge from the node number 2^32 of a graph with one node is accepted. -/
theorem toGraph_accepts_dangling :
    ¬ ∀ d : GraphDocument, d.nodes.length < Nat.pow 2 32 → (∀ n ∈ d.indices, n < Nat.pow 2 64) →
      ((∃ g, d.toGraph = .ok g) ↔ ∀ n ∈ d.indices, n < d.nodes.length) := by
  intro h
  let d : GraphDocument := ⟨"f", none, none, [⟨.nop, none, none⟩], [⟨Nat.pow 2 32, 0, .sequential⟩]⟩
  have hok : d.toGraph = .ok d.plainGraph :=
    (d.toGraph_eq_ok_iff _).2 ⟨by decide, rfl⟩
  exact absurd ((h d (by decide) (by decide)).1 ⟨_, hok⟩) (by decide)

end GraphDocument

end Typestate
