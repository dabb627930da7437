import Typestate.Codec.Graph

/-!
Graph documents: procedures as front ends write them. Nodes are referred to by number.
-/

namespace Typestate

/-- A node; its place is given by a span or else by a line. -/
structure NodeDocument where
  statement : Statement
  line : Option UInt32
  span : Option Span
  deriving DecidableEq

structure EdgeDocument where
  source : Nat
  target : Nat
  kind : EdgeKind
  deriving DecidableEq

structure GraphDocument where
  name : String
  file : Option String
  entry : Option Nat
  nodes : List NodeDocument
  edges : List EdgeDocument
  deriving DecidableEq

def NodeDocument.node (d : NodeDocument) : Node :=
  ⟨d.statement, d.span <|> d.line.map Span.line⟩

def EdgeDocument.edge (d : EdgeDocument) : Edge :=
  ⟨Graph.nodeNumber d.source, Graph.nodeNumber d.target, d.kind⟩

/-- The graph of a document: its nodes, then its edges, then the choice of the entry. -/
def GraphDocument.toGraph (d : GraphDocument) : Except GraphFault Graph := do
  let bare : Graph := { Graph.empty d.name with file := d.file }
  let g ← d.edges.foldlM (fun g e => g.addEdge e.edge)
    (d.nodes.foldl (fun g n => g.addNode n.node) bare)
  match d.entry with
  | none => return g
  | some n => g.setEntry (Graph.nodeNumber n)

variable {V : Type} [Format V]

namespace NodeDocument

def schema : Schema :=
  ⟨[.always "statement", .optional "line", .optional "span"], false⟩

def read? (v : V) : Option NodeDocument := do
  let r ← schema.read? v
  return {
    statement := ← r.required "statement" Statement.read?
    line := ← r.nullable "line" Format.word?
    span := ← r.nullable "span" Span.read? }

def toJson (d : NodeDocument) : Json :=
  .obj [("statement", d.statement.toJson), ("line", .ofOption .ofWord d.line),
    ("span", .ofOption Span.toJson d.span)]

end NodeDocument

namespace EdgeDocument

def schema : Schema :=
  ⟨[.always "from", .always "to", .optional "kind"], false⟩

def read? (v : V) : Option EdgeDocument := do
  let r ← schema.read? v
  return {
    source := ← r.required "from" Format.natural?
    target := ← r.required "to" Format.natural?
    kind := ← r.defaulted "kind" EdgeKind.read? .sequential }

def toJson (d : EdgeDocument) : Json :=
  .obj [("from", .nat d.source), ("to", .nat d.target), ("kind", d.kind.toJson)]

end EdgeDocument

namespace GraphDocument

def schema : Schema :=
  ⟨[.always "name", .optional "file", .optional "entry", .always "nodes", .optional "edges"], false⟩

def read? (v : V) : Option GraphDocument := do
  let r ← schema.read? v
  return {
    name := ← r.required "name" Format.text?
    file := ← r.nullable "file" Format.text?
    entry := ← r.nullable "entry" Format.natural?
    nodes := ← r.required "nodes" (Format.list? NodeDocument.read?)
    edges := ← r.defaulted "edges" (Format.list? EdgeDocument.read?) [] }

def toJson (d : GraphDocument) : Json :=
  .obj [("name", .str d.name), ("file", .ofOption .str d.file), ("entry", .ofOption .nat d.entry),
    ("nodes", .arr (d.nodes.map NodeDocument.toJson)),
    ("edges", .arr (d.edges.map EdgeDocument.toJson))]

end GraphDocument

/-- What a file holds: one document or a list of them. -/
inductive GraphFile where
  | one (document : GraphDocument)
  | many (documents : List GraphDocument)
  deriving DecidableEq

namespace GraphFile

def documents : GraphFile → List GraphDocument
  | one d => [d]
  | many ds => ds

/-- As both forms are tried, the value is made a self-typed one first. -/
def read? (v : Json) : Option GraphFile :=
  v.toDatum?.bind fun d =>
    (GraphDocument.read? d).map one <|> (Format.list? GraphDocument.read? d).map many

end GraphFile

end Typestate
