import Typestate.Ascending

/-!
Procedures as graphs. A node holds a statement and, if known, its place in the source text; edges
lead from node to node, and one node is the entry. Nodes are numbered from zero in the order in
which they are added, and the first one is the entry until another is chosen.
-/

namespace Typestate

/-- A range of source text; lines and columns are 32-bit words. -/
structure Span where
  startLine : UInt32
  startCol : UInt32
  endLine : UInt32
  endCol : UInt32
  deriving DecidableEq

namespace Span

/-- A whole line: no columns are known. -/
def line (n : UInt32) : Span :=
  ⟨n, 0, n, 0⟩

/-- The place where the range starts. -/
def text (s : Span) : String :=
  if s.startCol = 0 ∧ s.endCol = 0 then toString s.startLine
  else toString s.startLine ++ ":" ++ toString s.startCol

end Span

/-- A statement, as far as an analysis of calls can tell them apart. -/
inductive Statement where
  /-- A method call on a receiver whose type may be known. -/
  | invoke (receiver : String) (receiverType : Option String) (method : String)
  /-- Any other statement, given by its text. -/
  | other (text : String)
  | nop
  deriving DecidableEq

structure Node where
  statement : Statement
  span : Option Span
  deriving DecidableEq

def Node.line (n : Node) : Option UInt32 :=
  n.span.map Span.startLine

/-- Why control passes along an edge. -/
inductive EdgeKind where
  | sequential
  | trueBranch
  | falseBranch
  | loopBack
  | exception
  deriving DecidableEq

structure Edge where
  source : Nat
  target : Nat
  kind : EdgeKind
  deriving DecidableEq

/-- The graph of one procedure. Edges stand in the order in which they were added, and there may
be several between two nodes. -/
structure Graph where
  name : String
  file : Option String
  nodes : Array Node
  edges : Array Edge
  entry : Option Nat
  deriving DecidableEq

/-- Why a graph refuses an operation. -/
inductive GraphFault where
  | unknownNode (index : Nat) (nodes : Nat)
  deriving DecidableEq

def GraphFault.message : GraphFault → String
  | unknownNode index nodes =>
    "Graph error: node " ++ toString index ++ " does not exist (graph has " ++ toString nodes
      ++ " nodes)"

namespace Graph

/-- Node numbers are 32-bit words: of a larger number the low 32 bits count. -/
def nodeNumber (n : Nat) : Nat :=
  n % Nat.pow 2 32

def empty (name : String) : Graph :=
  ⟨name, none, #[], #[], none⟩

def withFile (g : Graph) (file : String) : Graph :=
  { g with file := some file }

def size (g : Graph) : Nat :=
  g.nodes.size

/-- Adds a node, whose number is the former size; the first node becomes the entry. -/
def addNode (g : Graph) (n : Node) : Graph :=
  { g with nodes := g.nodes.push n, entry := g.entry <|> some g.size }

/-- Refuses a number that belongs to no node. -/
def checkNode (g : Graph) (n : Nat) : Except GraphFault Unit :=
  if n < g.size then .ok () else .error (.unknownNode n g.size)

def addEdge (g : Graph) (e : Edge) : Except GraphFault Graph := do
  g.checkNode e.source
  g.checkNode e.target
  return { g with edges := g.edges.push e }

def setEntry (g : Graph) (n : Nat) : Except GraphFault Graph := do
  g.checkNode n
  return { g with entry := some n }

/-- The targets of the edges that leave a node, oldest edge first. -/
def targets (g : Graph) (n : Nat) : List Nat :=
  (g.edges.toList.filter (·.source = n)).map Edge.target

/-- The sources of the edges that enter a node, oldest edge first. -/
def sources (g : Graph) (n : Nat) : List Nat :=
  (g.edges.toList.filter (·.target = n)).map Edge.source

def successors (g : Graph) (n : Nat) : List Nat :=
  Ascending.ofList (g.targets n)

def predecessors (g : Graph) (n : Nat) : List Nat :=
  Ascending.ofList (g.sources n)

end Graph

end Typestate
