import Mathlib.Data.List.Induction
import Typestate.Proofs.Construction
import Typestate.Proofs.Reach

/-!
Graphs by the calls that made them. A call is refused exactly if it refers to a number that belongs
to no node yet, and then it leaves no trace: all that can be read out of a graph is determined by
the calls that were accepted (`Graph.Records`). So nodes and edges stand in the order of their
calls, the entry is the one that was set last or else the first node, and the two lists of
neighbours of a node are what the accepted edges say.
-/

namespace Typestate.Graph

/-- A call that changes a graph, unless it is refused. -/
inductive Edit where
  | addNode (node : Node)
  | addEdge (edge : Edge)
  | setEntry (n : Nat)

namespace Edit

def apply (g : Graph) : Edit → Except GraphFault Graph
  | addNode node => .ok (g.addNode node)
  | addEdge edge => g.addEdge edge
  | setEntry n => g.setEntry n

/-- The call on a graph that is changed in place: what is done before a fault stays done. -/
def execute : Edit → ExceptT GraphFault (StateM Graph) Unit
  | addNode node => modify (·.addNode node)
  | addEdge edge => do
    look edge.source
    look edge.target
    modify fun g => { g with edges := g.edges.push edge }
  | setEntry n => do
    look n
    modify fun g => { g with entry := some n }
where
  /-- Stops with a fault if the number belongs to no node. -/
  look (n : Nat) : ExceptT GraphFault (StateM Graph) Unit := do
    let g ← get
    ExceptT.mk (pure (g.checkNode n))

/-- What a graph answers to a call that changes it in place, and the graph that is left. -/
def inPlace (e : Edit) (g : Graph) : Except GraphFault Unit × Graph :=
  (e.execute.run.run g).run

/-- The numbers that a call refers to, in the order in which they are looked up. -/
def numbers : Edit → List Nat
  | addNode _ => []
  | addEdge edge => [edge.source, edge.target]
  | setEntry n => [n]

def node? : Edit → Option Node
  | addNode node => some node
  | addEdge _ | setEntry _ => none

def edge? : Edit → Option Edge
  | addEdge edge => some edge
  | addNode _ | setEntry _ => none

def entry? : Edit → Option Nat
  | setEntry n => some n
  | addNode _ | addEdge _ => none

end Edit

/-- A graph with the calls that it accepted, in order. -/
structure Log where
  graph : Graph
  accepted : List Edit

namespace Log

/-- Makes a call, whether or not it is refused. -/
def perform (l : Log) (e : Edit) : Log :=
  match e.inPlace l.graph with
  | (.ok _, g) => ⟨g, l.accepted ++ [e]⟩
  | (.error _, g) => ⟨g, l.accepted⟩

/-- Makes calls one after the other, on a graph without nodes. -/
def ofEdits (name : String) (edits : List Edit) : Log :=
  edits.foldl perform ⟨empty name, []⟩

end Log

variable {g g' : Graph} {e : Edit} {accepted : List Edit} {l : Log} {name : String}

/-! ### One call -/

theorem apply_eq_error_iff {f : GraphFault} :
    e.apply g = .error f ↔
      ∃ n, e.numbers.find? (g.size ≤ ·) = some n ∧ f = .unknownNode n g.size := by
  cases e with
  | addNode node => simp [Edit.apply, Edit.numbers]
  | addEdge edge =>
      simp only [Edit.apply, Edit.numbers, addEdge_eq]
      cases [edge.source, edge.target].find? (g.size ≤ ·) with
      | none => simp
      | some n => simp [eq_comm]
  | setEntry n =>
      simp only [Edit.apply, Edit.numbers, setEntry_eq]
      by_cases hn : g.size ≤ n
      · simp [hn, eq_comm]
      · simp [hn]

theorem run_look_bind (n : Nat) (k : ExceptT GraphFault (StateM Graph) Unit) (g : Graph) :
    ((do Edit.execute.look n; k).run.run g).run =
      match g.checkNode n with
      | .ok _ => (k.run.run g).run
      | .error f => (.error f, g) := by
  change ExceptT.bindCont (fun _ => k) (g.checkNode n) g = _
  cases g.checkNode n <;> rfl

/-- A call looks up all numbers before it changes anything, so a fault finds the graph as it was. -/
theorem inPlace_eq (e : Edit) (g : Graph) :
    e.inPlace g =
      match e.apply g with
      | .ok g' => (.ok (), g')
      | .error f => (.error f, g) := by
  cases e with
  | addNode node => rfl
  | addEdge edge =>
      simp only [Edit.inPlace, Edit.execute, run_look_bind, Edit.apply, addEdge]
      cases g.checkNode edge.source with
      | error f => rfl
      | ok _ =>
          cases g.checkNode edge.target with
          | error f => rfl
          | ok _ => rfl
  | setEntry n =>
      simp only [Edit.inPlace, Edit.execute, run_look_bind, Edit.apply, setEntry]
      cases g.checkNode n with
      | error f => rfl
      | ok _ => rfl

theorem inPlace_of_ok (he : e.apply g = .ok g') : e.inPlace g = (.ok (), g') := by
  rw [inPlace_eq, he]

theorem inPlace_of_error {f : GraphFault} (he : e.apply g = .error f) :
    e.inPlace g = (.error f, g) := by
  rw [inPlace_eq, he]

theorem Built.apply (hg : g.Built) (he : e.apply g = .ok g') : g'.Built := by
  cases e with
  | addNode node =>
      obtain rfl : g.addNode node = g' := by simpa [Edit.apply] using he
      exact .addNode node hg
  | addEdge edge => exact .addEdge hg he
  | setEntry n => exact .setEntry hg he

/-- What is stored of a graph is what the calls say that it accepted. -/
structure Records (g : Graph) (accepted : List Edit) : Prop where
  nodes : g.nodes.toList = accepted.filterMap Edit.node?
  edges : g.edges.toList = accepted.filterMap Edit.edge?
  entry : g.entry =
    ((accepted.filterMap Edit.entry?).getLast? <|> if g.size = 0 then none else some 0)

theorem records_empty (name : String) : (empty name).Records [] :=
  ⟨rfl, rfl, rfl⟩

theorem Records.apply (hg : g.Records accepted) (he : e.apply g = .ok g') :
    g'.Records (accepted ++ [e]) := by
  cases e with
  | addNode node =>
      obtain rfl : g.addNode node = g' := by simpa [Edit.apply] using he
      refine ⟨?_, ?_, ?_⟩
      · simp [addNode, hg.nodes, Edit.node?]
      · simp [addNode, hg.edges, Edit.edge?]
      · -- The new node is the entry only if it is the first one and none was set.
        have hsize : (g.addNode node).size ≠ 0 := by simp
        have hset : (accepted ++ [Edit.addNode node]).filterMap Edit.entry? =
            accepted.filterMap Edit.entry? := by simp [Edit.entry?]
        rw [if_neg hsize, hset]
        simp only [addNode, hg.entry]
        cases (accepted.filterMap Edit.entry?).getLast? with
        | none => by_cases hzero : g.size = 0 <;> simp [hzero]
        | some n => rfl
  | addEdge edge =>
      obtain ⟨-, rfl⟩ := addEdge_eq_ok_iff.1 he
      refine ⟨?_, ?_, ?_⟩
      · simp [hg.nodes, Edit.node?]
      · simp [hg.edges, Edit.edge?]
      · have hset : (accepted ++ [Edit.addEdge edge]).filterMap Edit.entry? =
            accepted.filterMap Edit.entry? := by simp [Edit.entry?]
        rw [hset]
        exact hg.entry
  | setEntry n =>
      obtain ⟨-, rfl⟩ := setEntry_eq_ok_iff.1 he
      refine ⟨?_, ?_, ?_⟩
      · simp [hg.nodes, Edit.node?]
      · simp [hg.edges, Edit.edge?]
      · simp [Edit.entry?]

/-! ### All calls -/

namespace Log

theorem perform_of_ok (he : e.apply l.graph = .ok g) : l.perform e = ⟨g, l.accepted ++ [e]⟩ := by
  rw [perform, inPlace_of_ok he]

theorem perform_of_error {f : GraphFault} (he : e.apply l.graph = .error f) : l.perform e = l := by
  rw [perform, inPlace_of_error he]

theorem ofEdits_append (name : String) (edits edits' : List Edit) :
    ofEdits name (edits ++ edits') = edits'.foldl perform (ofEdits name edits) :=
  List.foldl_append

/-- What holds of an empty graph and is kept by accepted calls holds after any calls. -/
theorem ofEdits_induction {Q : Log → Prop} (hempty : Q ⟨empty name, []⟩)
    (haccept : ∀ l e g, Q l → e.apply l.graph = .ok g → Q ⟨g, l.accepted ++ [e]⟩)
    (edits : List Edit) : Q (ofEdits name edits) := by
  induction edits using List.reverseRecOn with
  | nil => exact hempty
  | append_singleton edits e ih =>
      rw [ofEdits_append, List.foldl_cons, List.foldl_nil]
      cases he : e.apply (ofEdits name edits).graph with
      | ok g =>
          rw [perform_of_ok he]
          exact haccept _ e g ih he
      | error f => rwa [perform_of_error he]

theorem built_ofEdits (name : String) (edits : List Edit) : (ofEdits name edits).graph.Built :=
  ofEdits_induction (Q := fun l => l.graph.Built) (.empty name) (fun _ _ _ hl he => hl.apply he) edits

theorem records_ofEdits (name : String) (edits : List Edit) :
    (ofEdits name edits).graph.Records (ofEdits name edits).accepted :=
  ofEdits_induction (Q := fun l => l.graph.Records l.accepted) (records_empty name)
    (fun _ _ _ hl he => hl.apply he) edits

end Log

/-! ### What can be read out of the graph -/

theorem Records.mem_edges (hg : g.Records accepted) {d : Edge} :
    d ∈ g.edges ↔ .addEdge d ∈ accepted := by
  have hedge : ∀ e : Edit, e.edge? = some d ↔ e = .addEdge d := by
    intro e
    cases e <;> simp [Edit.edge?]
  rw [← Array.mem_toList_iff, hg.edges, List.mem_filterMap]
  simp [hedge]

theorem Records.mem_successors_iff (hg : g.Records accepted) {m n : Nat} :
    n ∈ g.successors m ↔ ∃ kind, .addEdge ⟨m, n, kind⟩ ∈ accepted := by
  rw [mem_successors]
  constructor
  · rintro ⟨⟨_, _, kind⟩, hd, rfl, rfl⟩
    exact ⟨kind, hg.mem_edges.1 hd⟩
  · rintro ⟨kind, hd⟩
    exact ⟨_, hg.mem_edges.2 hd, rfl, rfl⟩

theorem Sound.lt_of_mem_successors (hg : g.Sound) {m n : Nat} (hn : n ∈ g.successors m) :
    m < g.size ∧ n < g.size := by
  obtain ⟨d, hd, rfl, rfl⟩ := mem_successors.1 hn
  exact ⟨hg.source_lt d hd, hg.target_lt d hd⟩

theorem Records.entry_eq_none_iff (hg : g.Records accepted) (hsound : g.Sound) :
    g.entry = none ↔ g.size = 0 := by
  constructor
  · intro hnone
    by_contra hsize
    have hentry := hg.entry
    rw [hnone, if_neg hsize] at hentry
    cases (accepted.filterMap Edit.entry?).getLast? <;> simp at hentry
  · intro hsize
    cases hentry : g.entry with
    | none => rfl
    | some n => exact absurd (hsound.entry_lt n hentry) (by omega)

/-- Nodes are always accepted. -/
theorem Log.nodes_accepted (name : String) (edits : List Edit) :
    (ofEdits name edits).accepted.filterMap Edit.node? = edits.filterMap Edit.node? := by
  induction edits using List.reverseRecOn with
  | nil => rfl
  | append_singleton edits e ih =>
      rw [ofEdits_append, List.foldl_cons, List.foldl_nil, List.filterMap_append, ← ih]
      cases he : e.apply (ofEdits name edits).graph with
      | ok g => rw [perform_of_ok he, List.filterMap_append]
      | error f =>
          have hnode : e.node? = none := by
            cases e with
            | addNode node => simp [Edit.apply] at he
            | addEdge edge => rfl
            | setEntry n => rfl
          rw [perform_of_error he]
          simp [hnode]

/-- A graph is what the accepted calls made of it. A call is refused exactly if it refers to a number
that belongs to no node, and its fault names the first of these; it leaves the graph as it was, also
if graphs are changed in place, and whatever follows is as if it had not been made. The nodes are the
added ones in order, and so are the edges, one for each accepted call. There is an entry as soon as
there is a node: the last one that was set, or else the first node. The successors of a node are the
ends of the edges from it and its predecessors the sources of the edges to it, ascending and without
repetitions; all are nodes, and a number that belongs to no node has none. -/
theorem ofEdits_exact (name : String) (edits : List Edit) :
    let g := (Log.ofEdits name edits).graph
    let accepted := (Log.ofEdits name edits).accepted
    (∀ (e : Edit) (f : GraphFault), e.apply g = .error f ↔
      ∃ n, e.numbers.find? (g.size ≤ ·) = some n ∧ f = .unknownNode n g.size) ∧
    (∀ (e : Edit) (f : GraphFault), e.apply g = .error f → e.inPlace g = (.error f, g) ∧
      ∀ rest, Log.ofEdits name (edits ++ e :: rest) = Log.ofEdits name (edits ++ rest)) ∧
    (∀ (e : Edit) (g' : Graph), e.apply g = .ok g' → e.inPlace g = (.ok (), g') ∧
      Log.ofEdits name (edits ++ [e]) = ⟨g', accepted ++ [e]⟩) ∧
    g.nodes.toList = edits.filterMap Edit.node? ∧
    (g.entry = none ↔ g.size = 0) ∧ (∀ n, g.entry = some n → n < g.size) ∧
    g.entry = ((accepted.filterMap Edit.entry?).getLast? <|>
      if g.size = 0 then none else some 0) ∧
    g.edges.toList = accepted.filterMap Edit.edge? ∧
    g.edges.size = (accepted.filterMap Edit.edge?).length ∧
    ∀ m, (g.successors m).Pairwise (· < ·) ∧ (g.predecessors m).Pairwise (· < ·) ∧
      (∀ n, n ∈ g.successors m ↔ ∃ kind, .addEdge ⟨m, n, kind⟩ ∈ accepted) ∧
      (∀ n, n ∈ g.predecessors m ↔ ∃ kind, .addEdge ⟨n, m, kind⟩ ∈ accepted) ∧
      (∀ n, n ∈ g.successors m ↔ m ∈ g.predecessors n) ∧
      (∀ n ∈ g.successors m, n < g.size) ∧ (∀ n ∈ g.predecessors m, n < g.size) ∧
      (g.size ≤ m → g.successors m = [] ∧ g.predecessors m = []) := by
  intro g accepted
  have hrecords : g.Records accepted := Log.records_ofEdits name edits
  have hsound : g.Sound := (Log.built_ofEdits name edits).sound
  refine ⟨fun e f => apply_eq_error_iff, fun e f he => ⟨inPlace_of_error he, fun rest => ?_⟩,
    fun e g' he => ⟨inPlace_of_ok he, ?_⟩, ?_, hrecords.entry_eq_none_iff hsound, hsound.entry_lt,
    hrecords.entry, hrecords.edges, ?_,
    fun m => ⟨Ascending.pairwise_ofList _, Ascending.pairwise_ofList _, ?_, ?_, ?_, ?_, ?_, ?_⟩⟩
  · rw [Log.ofEdits_append, Log.ofEdits_append, List.foldl_cons, Log.perform_of_error he]
  · rw [Log.ofEdits_append, List.foldl_cons, Log.perform_of_ok he]
    rfl
  · rw [hrecords.nodes]
    exact Log.nodes_accepted name edits
  · rw [← hrecords.edges, Array.length_toList]
  · exact fun n => hrecords.mem_successors_iff
  · exact fun n => mem_predecessors.trans hrecords.mem_successors_iff
  · exact fun n => mem_predecessors.symm
  · exact fun n hn => (hsound.lt_of_mem_successors hn).2
  · exact fun n hn => (hsound.lt_of_mem_successors (mem_predecessors.1 hn)).1
  · intro hm
    constructor
    · refine List.eq_nil_iff_forall_not_mem.2 fun n hn => ?_
      exact Nat.not_lt_of_le hm (hsound.lt_of_mem_successors hn).1
    · refine List.eq_nil_iff_forall_not_mem.2 fun n hn => ?_
      exact Nat.not_lt_of_le hm (hsound.lt_of_mem_successors (mem_predecessors.1 hn)).2

/-- Before its second node is there, a graph refuses an edge to it, and then accepts the same edge
twice. -/
theorem ofEdits_exact_early :
    let nop : Node := ⟨.nop, none⟩
    let edge : Edge := ⟨0, 1, .sequential⟩
    let first := (Log.ofEdits "f" [.addNode nop]).graph
    let rest : List Edit := [.addNode nop, .addEdge edge, .addEdge edge, .setEntry 1]
    let log := Log.ofEdits "f" (.addNode nop :: .addEdge edge :: rest)
    (Edit.addEdge edge).apply first = .error (.unknownNode 1 1) ∧
      (Edit.addEdge edge).inPlace first = (.error (.unknownNode 1 1), first) ∧
      log = Log.ofEdits "f" (.addNode nop :: rest) ∧ log.graph.size ≤ 2 ∧
      log.graph.successors 2 = [] ∧ log.graph.successors 0 = [1] ∧ log.graph.edges.size = 2 ∧
      log.graph.entry = some 1 := by
  intro nop edge first rest log
  obtain ⟨hfault, hrefused, -⟩ := ofEdits_exact "f" [.addNode nop]
  have hedge : (Edit.addEdge edge).apply first = .error (.unknownNode 1 1) :=
    (hfault _ _).2 ⟨1, rfl, rfl⟩
  obtain ⟨hsame, herased⟩ := hrefused _ _ hedge
  obtain ⟨-, -, -, -, -, -, -, -, -, hneighbours⟩ :=
    ofEdits_exact "f" (.addNode nop :: .addEdge edge :: rest)
  obtain ⟨-, -, -, -, -, -, -, hnone⟩ := hneighbours 2
  have hsize : log.graph.size ≤ 2 := by decide +kernel
  exact ⟨hedge, hsame, herased rest, hsize, (hnone hsize).1, by decide +kernel, by decide +kernel,
    by decide +kernel⟩

end Typestate.Graph
