import Typestate.Ascending

/-!
Forward dataflow problems and their solution by a worklist. Every node has a value before it, the
join of what its source and its predecessors contribute, and a value after it, given by its
transfer function. All values start at the bottom and all nodes are pending; a step visits the
pending node that comes first in the order and, if the value after it changes, makes its successors
pending again.
-/

namespace Typestate.Dataflow

/-- A system of dataflow equations over the nodes `0, …, size - 1` with values in `α`. -/
structure Problem (α : Type) where
  size : Nat
  /-- The order in which pending nodes are visited. -/
  order : List Nat
  predecessors : Nat → List Nat
  successors : Nat → List Nat
  bottom : α
  join : α → α → α
  /-- What enters a node from outside. -/
  source : Nat → α
  transfer : Nat → α → α

/-- One visit to a node, at its place in the order and with the value found before it. -/
structure Visit (α : Type) where
  node : Nat
  position : Nat
  input : α
  deriving DecidableEq

/-- How far a problem has been solved. -/
structure Progress (α : Type) where
  inputs : Array α
  outputs : Array α
  /-- Places in the order that are still to be visited, ascending. -/
  pending : List Nat
  /-- The visits made, last one first. -/
  visits : List (Visit α)
  deriving DecidableEq

namespace Problem

variable {α : Type} (P : Problem α)

def value (values : Array α) (n : Nat) : α :=
  values.getD n P.bottom

/-- The value before a node, by its equation. -/
def inflow (outputs : Array α) (n : Nat) : α :=
  (P.predecessors n).foldl (fun x m => P.join x (P.value outputs m)) (P.source n)

/-- Nothing is known yet and all nodes are pending. -/
def start : Progress α where
  inputs := Array.replicate P.size P.bottom
  outputs := Array.replicate P.size P.bottom
  pending := List.range P.order.length
  visits := []

def enqueue (nodes pending : List Nat) : List Nat :=
  nodes.foldl (fun ps n => Ascending.insert (P.order.idxOf n) ps) pending

variable [DecidableEq α]

/-- Visits a node, which stands at the given place of the order. -/
def visit (s : Progress α) (n position : Nat) (rest : List Nat) : Progress α :=
  let input := P.inflow s.outputs n
  let output := P.transfer n input
  let inputs := s.inputs.setIfInBounds n input
  let visits := ⟨n, position, input⟩ :: s.visits
  if output = P.value s.outputs n then ⟨inputs, s.outputs, rest, visits⟩
  else ⟨inputs, s.outputs.setIfInBounds n output, P.enqueue (P.successors n) rest, visits⟩

/-- Visits the pending node that comes first. -/
def step (s : Progress α) : Progress α :=
  match s.pending with
  | [] => s
  | position :: rest =>
    match P.order[position]? with
    | none => { s with pending := rest }
    | some n => P.visit s n position rest

/-- Takes steps until nothing is pending, at most the given number. -/
def run : Nat → Progress α → Progress α
  | 0, s => s
  | k + 1, s => if s.pending.isEmpty then s else run k (P.step s)

end Problem

end Typestate.Dataflow
