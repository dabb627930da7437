import Typestate.Proofs.Dangling

/-!
Graphs that are built step by step. Whatever operations a graph comes from, its edges join nodes and
its entry is a node.
-/

namespace Typestate.Graph

/-- The graphs that the operations make, of which some may be refused on the way. -/
inductive Built : Graph → Prop
  | empty (name : String) : Built (empty name)
  | withFile {g : Graph} (file : String) (hg : Built g) : Built (g.withFile file)
  | addNode {g : Graph} (n : Node) (hg : Built g) : Built (g.addNode n)
  | addEdge {g g' : Graph} {e : Edge} (hg : Built g) (he : g.addEdge e = .ok g') : Built g'
  | setEntry {g g' : Graph} {n : Nat} (hg : Built g) (hn : g.setEntry n = .ok g') : Built g'

/-- Edges join nodes, and the entry is a node. -/
structure Sound (g : Graph) : Prop where
  source_lt : ∀ e ∈ g.edges, e.source < g.size
  target_lt : ∀ e ∈ g.edges, e.target < g.size
  entry_lt : ∀ n, g.entry = some n → n < g.size

variable {g g' : Graph}

@[simp] theorem size_addNode (g : Graph) (n : Node) : (g.addNode n).size = g.size + 1 := by
  simp [addNode, size]

theorem sound_empty (name : String) : (empty name).Sound where
  source_lt := by simp [empty]
  target_lt := by simp [empty]
  entry_lt := by simp [empty]

theorem Sound.addNode (hg : g.Sound) (n : Node) : (g.addNode n).Sound where
  source_lt e he := by
    rw [size_addNode]
    exact Nat.lt_succ_of_lt (hg.source_lt e he)
  target_lt e he := by
    rw [size_addNode]
    exact Nat.lt_succ_of_lt (hg.target_lt e he)
  entry_lt k hk := by
    rw [size_addNode]
    cases hentry : g.entry with
    | none =>
        obtain rfl : g.size = k := by simpa [Graph.addNode, hentry] using hk
        exact Nat.lt_succ_self _
    | some root =>
        obtain rfl : root = k := by simpa [Graph.addNode, hentry] using hk
        exact Nat.lt_succ_of_lt (hg.entry_lt root hentry)

theorem addEdge_eq_ok_iff {e : Edge} :
    g.addEdge e = .ok g' ↔
      (e.source < g.size ∧ e.target < g.size) ∧ g' = { g with edges := g.edges.push e } := by
  rw [addEdge_eq]
  cases hfind : [e.source, e.target].find? (g.size ≤ ·) with
  | none =>
      have hlt : e.source < g.size ∧ e.target < g.size := by
        simpa [List.find?_eq_none] using hfind
      simp [hlt, eq_comm]
  | some n =>
      have hn := List.find?_some hfind
      have hmem := List.mem_of_find?_eq_some hfind
      simp only [decide_eq_true_eq, List.mem_cons, List.not_mem_nil, or_false] at hn hmem
      simp only [reduceCtorEq, false_iff]
      rintro ⟨hlt, -⟩
      omega

theorem setEntry_eq_ok_iff {n : Nat} :
    g.setEntry n = .ok g' ↔ n < g.size ∧ g' = { g with entry := some n } := by
  rw [setEntry_eq]
  split
  · next hn => simp [Nat.not_lt.2 hn]
  · next hn => simp [Nat.not_le.1 hn, eq_comm]

theorem Sound.addEdge {e : Edge} (hg : g.Sound) (he : g.addEdge e = .ok g') : g'.Sound := by
  obtain ⟨⟨hsource, htarget⟩, rfl⟩ := addEdge_eq_ok_iff.1 he
  refine ⟨fun d hd => ?_, fun d hd => ?_, hg.entry_lt⟩
  · rcases Array.mem_push.1 hd with hd | rfl
    · exact hg.source_lt d hd
    · exact hsource
  · rcases Array.mem_push.1 hd with hd | rfl
    · exact hg.target_lt d hd
    · exact htarget

theorem Sound.setEntry {n : Nat} (hg : g.Sound) (hn : g.setEntry n = .ok g') : g'.Sound := by
  obtain ⟨hlt, rfl⟩ := setEntry_eq_ok_iff.1 hn
  refine ⟨hg.source_lt, hg.target_lt, fun k hk => ?_⟩
  obtain rfl : n = k := by simpa using hk
  exact hlt

theorem Built.sound (hg : g.Built) : g.Sound := by
  induction hg with
  | empty name => exact sound_empty name
  | withFile _ _ ih => exact ⟨ih.source_lt, ih.target_lt, ih.entry_lt⟩
  | addNode n _ ih => exact ih.addNode n
  | addEdge _ he ih => exact ih.addEdge he
  | setEntry _ hn ih => exact ih.setEntry hn

/-! ### Graphs of documents -/

theorem Built.foldl_addNode (hg : g.Built) (ns : List NodeDocument) :
    (ns.foldl (fun g n => g.addNode n.node) g).Built := by
  induction ns generalizing g with
  | nil => exact hg
  | cons n ns ih => exact ih (.addNode n.node hg)

theorem Built.foldlM_addEdge (hg : g.Built) {es : List EdgeDocument}
    (hes : es.foldlM (fun g e => g.addEdge e.edge) g = .ok g') : g'.Built := by
  induction es generalizing g with
  | nil =>
      obtain rfl : g = g' := by simpa [pure, Except.pure] using hes
      exact hg
  | cons e es ih =>
      cases hedge : g.addEdge e.edge with
      | error f => simp [hedge, bind, Except.bind] at hes
      | ok g₁ => exact ih (.addEdge hg hedge) (by simpa [hedge, bind, Except.bind] using hes)

theorem built_of_toGraph {d : GraphDocument} (hd : d.toGraph = .ok g) : g.Built := by
  let bare : Graph := { Graph.empty d.name with file := d.file }
  have hbare : bare.Built := by
    dsimp only [bare]
    cases d.file with
    | none => exact .empty d.name
    | some file => exact .withFile file (.empty d.name)
  have hnodes := hbare.foldl_addNode d.nodes
  unfold GraphDocument.toGraph at hd
  cases hedges : d.edges.foldlM (fun (g : Graph) e => g.addEdge e.edge)
      (d.nodes.foldl (fun g n => g.addNode n.node) bare) with
  | error f => simp [bare, hedges, bind, Except.bind] at hd
  | ok g₁ =>
      have hg₁ : g₁.Built := hnodes.foldlM_addEdge hedges
      simp only [bare, hedges, bind, Except.bind] at hd
      cases hentry : d.entry with
      | none =>
          obtain rfl : g₁ = g := by simpa [hentry, pure, Except.pure] using hd
          exact hg₁
      | some n => exact .setEntry hg₁ (by simpa [hentry] using hd)

end Typestate.Graph
