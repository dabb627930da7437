import Typestate.Proofs.Growth

/-!
Seeding is compositional. A procedure is put behind another one by edges that lead from some nodes
of the first to the entry of the second (`Graph.Chain`). Checking the whole is then the same as
checking the first part and, entered with the states in which control leaves the first, the second
part. Nothing leads back, so the two solved parts together are above what the equations of the whole
make of them; and both parts are found in the whole, so the solved whole is above the parts.
-/

namespace Typestate

/-- The edges of two procedures one behind the other: those of the first, those of the second, whose
nodes are shifted, and edges from the exits of the first to the entry of the second. -/
inductive Graph.ChainEdge (g₁ g₂ : Graph) (exits : List Nat) : Nat → Nat → Prop
  | first {m n : Nat} (hm : m < g₁.size) (hn : n < g₁.size) (hedge : n ∈ g₁.successors m) :
      ChainEdge g₁ g₂ exits m n
  | second {m n : Nat} (hm : m < g₂.size) (hn : n < g₂.size) (hedge : n ∈ g₂.successors m) :
      ChainEdge g₁ g₂ exits (g₁.size + m) (g₁.size + n)
  | bridge {m root : Nat} (hm : m ∈ exits) (hroot : g₂.entry = some root) :
      ChainEdge g₁ g₂ exits m (g₁.size + root)

/-- The whole that two procedures make one behind the other. -/
structure Graph.Chain (g₁ g₂ : Graph) (exits : List Nat) (g : Graph) : Prop where
  file : g.file = g₁.file
  nodes : g.nodes = g₁.nodes ++ g₂.nodes
  entry : g.entry = g₁.entry
  edge : ∀ m n, n ∈ g.successors m ↔ g₁.ChainEdge g₂ exits m n

namespace Graph.Chain

variable {g₁ g₂ g : Graph} {exits : List Nat} {n : Nat}

theorem size (hg : Chain g₁ g₂ exits g) : g.size = g₁.size + g₂.size := by
  unfold Graph.size
  rw [hg.nodes, Array.size_append]

theorem node_first (hg : Chain g₁ g₂ exits g) (hn : n < g₁.size) :
    g.nodes[n]? = g₁.nodes[n]? := by
  rw [hg.nodes]
  exact Array.getElem?_append_left hn

theorem node_second (hg : Chain g₁ g₂ exits g) (n : Nat) :
    g.nodes[g₁.size + n]? = g₂.nodes[n]? := by
  rw [hg.nodes]
  unfold Graph.size
  rw [Array.getElem?_append_right (Nat.le_add_right _ _), Nat.add_sub_cancel_left]

theorem hom_first (hg : Chain g₁ g₂ exits g) : g₁.Hom g id where
  node _ hn := hg.node_first hn
  edge m hm n hn hedge := (hg.edge m n).2 (.first hm hn hedge)

theorem hom_second (hg : Chain g₁ g₂ exits g) : g₂.Hom g (g₁.size + ·) where
  node n _ := hg.node_second n
  edge _ hm _ hn hedge := (hg.edge _ _).2 (.second hm hn hedge)

/-- A node of the whole belongs to one of the parts. -/
theorem node_cases (hg : Chain g₁ g₂ exits g) (hn : n < g.size) :
    n < g₁.size ∨ ∃ k < g₂.size, n = g₁.size + k := by
  rw [hg.size] at hn
  by_cases hlt : n < g₁.size
  · exact .inl hlt
  · exact .inr ⟨n - g₁.size, by omega, by omega⟩

end Graph.Chain

/-- Puts a procedure behind another one. -/
def Graph.append (g₁ g₂ : Graph) (exits : List Nat) : Graph where
  name := g₁.name
  file := g₁.file
  nodes := g₁.nodes ++ g₂.nodes
  edges :=
    let shifted := g₂.edges.map fun e => ⟨g₁.size + e.source, g₁.size + e.target, e.kind⟩
    let bridges := exits.flatMap fun m =>
      g₂.entry.toList.map fun root => ⟨m, g₁.size + root, .sequential⟩
    g₁.edges ++ shifted ++ bridges.toArray
  entry := g₁.entry

theorem Graph.mem_edges_append {g₁ g₂ : Graph} {exits : List Nat} {e : Edge} :
    e ∈ (g₁.append g₂ exits).edges ↔ e ∈ g₁.edges ∨
      (∃ e' ∈ g₂.edges, e = ⟨g₁.size + e'.source, g₁.size + e'.target, e'.kind⟩) ∨
      ∃ m ∈ exits, ∃ root, g₂.entry = some root ∧ e = ⟨m, g₁.size + root, .sequential⟩ := by
  simp only [append, Array.mem_append, Array.mem_map, List.mem_toArray, List.mem_flatMap,
    List.mem_map, Option.mem_toList, or_assoc, eq_comm]

/-- Any two procedures whose edges lead from node to node can be put one behind the other. -/
theorem Graph.chain_append {g₁ g₂ : Graph} (exits : List Nat)
    (h₁ : ∀ e ∈ g₁.edges, e.source < g₁.size ∧ e.target < g₁.size)
    (h₂ : ∀ e ∈ g₂.edges, e.source < g₂.size ∧ e.target < g₂.size) :
    g₁.Chain g₂ exits (g₁.append g₂ exits) where
  file := rfl
  nodes := rfl
  entry := rfl
  edge m n := by
    simp only [mem_successors, mem_edges_append]
    constructor
    · rintro ⟨e, he | ⟨e', he', rfl⟩ | ⟨x, hx, root, hroot, rfl⟩, rfl, rfl⟩
      · exact .first (h₁ e he).1 (h₁ e he).2 (mem_successors.2 ⟨e, he, rfl, rfl⟩)
      · exact .second (h₂ e' he').1 (h₂ e' he').2 (mem_successors.2 ⟨e', he', rfl, rfl⟩)
      · exact .bridge hx hroot
    · intro hedge
      cases hedge with
      | first _ _ hedge =>
          obtain ⟨e, he, hsource, htarget⟩ := mem_successors.1 hedge
          exact ⟨e, .inl he, hsource, htarget⟩
      | second _ _ hedge =>
          obtain ⟨e, he, rfl, rfl⟩ := mem_successors.1 hedge
          exact ⟨_, .inr (.inl ⟨e, he, rfl⟩), rfl, rfl⟩
      | bridge hm hroot => exact ⟨_, .inr (.inr ⟨_, hm, _, hroot, rfl⟩), rfl, rfl⟩

namespace Checker

variable {c : Checker} {g₁ g₂ g : Graph} {seed s₂ : Assignment} {exits : List Nat} {n : Nat}

/-! ### Leaving a procedure -/

/-- The value with which control leaves a procedure from the given nodes. -/
def leaving (c : Checker) (g : Graph) (seed : Assignment) (exits : List Nat) : Flow :=
  exits.foldl (fun x m => x.join c.protocol.initial (c.after g seed m)) .unreachable

theorem leaving_snoc (c : Checker) (g : Graph) (seed : Assignment) (ms : List Nat) (m : Nat) :
    c.leaving g seed (ms ++ [m]) =
      (c.leaving g seed ms).join c.protocol.initial (c.after g seed m) := by
  simp [leaving]

theorem canonical_leaving (c : Checker) (g : Graph) (seed : Assignment) (exits : List Nat) :
    (c.leaving g seed exits).Canonical c.protocol.initial := by
  induction exits using List.reverseRecOn with
  | nil => exact Flow.canonical_unreachable
  | append_singleton ms m ih =>
      rw [leaving_snoc]
      exact ih.join (c.admissible_after g seed m).canonical

theorem leaving_under {y : Flow}
    (hall : ∀ m ∈ exits, (c.after g seed m).Under c.protocol.initial y) :
    (c.leaving g seed exits).Under c.protocol.initial y := by
  induction exits using List.reverseRecOn with
  | nil => exact Flow.unreachable_under y
  | append_singleton ms m ih =>
      rw [leaving_snoc]
      exact Flow.join_under (ih fun k hk => hall k (by simp [hk])) (hall m (by simp))

theorem after_under_leaving (c : Checker) (g : Graph) (seed : Assignment) {m : Nat}
    (hm : m ∈ exits) :
    (c.after g seed m).Under c.protocol.initial (c.leaving g seed exits) :=
  ((c.monotone_problem g seed).le_foldl (c.after g seed) exits .unreachable).2 m hm

/-- Control does leave from reachable nodes. -/
theorem exists_leaving (c : Checker) (seed : Assignment) (hexits : exits ≠ [])
    (hreach : ∀ m ∈ exits, g.Reachable m) :
    ∃ s, c.leaving g seed exits = .reached s := by
  obtain ⟨m, hm⟩ := List.exists_mem_of_ne_nil exits hexits
  have hafter : c.after g seed m ≠ .unreachable := after_ne_unreachable_iff.2 (hreach m hm)
  exact Flow.ne_unreachable_iff.1 ((c.after_under_leaving g seed hm).ne_unreachable hafter)

/-- To enter a procedure with a canonical assignment is to have it before the entry. -/
theorem entry_eq_reached {initial : State} (hs : (Flow.reached s₂).Canonical initial) :
    Flow.entry initial s₂ = .reached s₂ := by
  refine (Flow.canonical_entry s₂).ext hs fun h => ?_
  rw [Flow.state?_entry, Flow.state?_reached]

/-! ### Values of the whole and of its parts -/

theorem under_chain_first (hg : g₁.Chain g₂ exits g) (c : Checker) (seed : Assignment) (n : Nat) :
    (c.before g₁ seed n).Under c.protocol.initial (c.before g seed n) ∧
      (c.after g₁ seed n).Under c.protocol.initial (c.after g seed n) := by
  refine under_of_hom hg.hom_first (fun k hk hentry => ?_) n
  exact entry_under_before (hg.entry.trans hentry) (hg.hom_first.lt_size hk)

theorem under_chain_second (hg : g₁.Chain g₂ exits g)
    (hs : c.leaving g₁ seed exits = .reached s₂) (n : Nat) :
    (c.before g₂ s₂ n).Under c.protocol.initial (c.before g seed (g₁.size + n)) ∧
      (c.after g₂ s₂ n).Under c.protocol.initial (c.after g seed (g₁.size + n)) := by
  refine under_of_hom hg.hom_second (fun root hroot hentry => ?_) n
  -- The bridges bring to the entry of the second part what leaves the first part in the whole.
  rw [entry_eq_reached (hs ▸ c.canonical_leaving g₁ seed exits), ← hs]
  refine leaving_under fun m hm => ?_
  have hedge : g₁.size + root ∈ g.successors m := (hg.edge _ _).2 (.bridge hm hentry)
  exact (under_chain_first hg c seed m).2.trans
    (after_under_before c seed ⟨hedge, hg.hom_second.lt_size hroot⟩)

/-- Values of the whole that are put together from values of its parts. -/
def glue (k : Nat) (first second : Nat → Flow) (n : Nat) : Flow :=
  if n < k then first n else second (n - k)

theorem glue_first {k : Nat} (hn : n < k) (first second : Nat → Flow) :
    glue k first second n = first n :=
  if_pos hn

theorem glue_second (k n : Nat) (first second : Nat → Flow) :
    glue k first second (k + n) = second n := by
  simp [glue]

section Whole

variable (hg : g₁.Chain g₂ exits g) (hexits : exits ≠ []) (hreach : ∀ m ∈ exits, g₁.Reachable m)
  (hs : c.leaving g₁ seed exits = .reached s₂)

include hg hexits hreach hs

theorem supersolution_glue :
    (c.problem g seed).Supersolution (Flow.Under c.protocol.initial)
      (glue g₁.size (c.before g₁ seed) (c.before g₂ s₂))
      (glue g₁.size (c.after g₁ seed) (c.after g₂ s₂)) where
  source_le n _ := by
    change Flow.Under _ (if g.entry = some n then _ else _) _
    split
    · next hentry =>
      -- The entry of the whole is that of the first part, which has reachable nodes.
      obtain ⟨m, hm⟩ := List.exists_mem_of_ne_nil exits hexits
      obtain ⟨root, hroot, hlt, -⟩ := hreach m hm
      have hentry₁ : g₁.entry = some n := hg.entry ▸ hentry
      obtain rfl : root = n := Option.some_inj.1 (hroot.symm.trans hentry₁)
      rw [glue_first hlt]
      exact entry_under_before hroot hlt
    · exact Flow.unreachable_under _
  output_le n hn m hm hmem := by
    have hedge : g₁.ChainEdge g₂ exits m n := (hg.edge m n).1 (Graph.mem_predecessors.1 hmem)
    cases hedge with
    | first hm₁ hn₁ hedge =>
        rw [glue_first hm₁, glue_first hn₁]
        exact after_under_before c seed ⟨hedge, hn₁⟩
    | second hm₂ hn₂ hedge =>
        rw [glue_second, glue_second]
        exact after_under_before c s₂ ⟨hedge, hn₂⟩
    | @bridge _ root hexit hroot =>
        have hlt : root < g₂.size := by
          have hsize : g₁.size + root < g.size := hn
          rw [hg.size] at hsize
          omega
        rw [glue_first (hreach m hexit).lt_size, glue_second]
        have hleaving := c.after_under_leaving g₁ seed hexit
        rw [hs, ← entry_eq_reached (hs ▸ c.canonical_leaving g₁ seed exits)] at hleaving
        exact hleaving.trans (entry_under_before hroot hlt)
  transfer_le n hn := by
    change ((c.outcome g n _).output).Under _ _
    rcases hg.node_cases hn with hlt | ⟨k, hk, rfl⟩
    · rw [glue_first hlt, glue_first hlt, c.output_of_node_eq (hg.node_first hlt), after_eq hlt]
      exact .refl _
    · rw [glue_second, glue_second, c.output_of_node_eq (hg.node_second k), after_eq hk]
      exact .refl _

theorem before_after_chain_first (hn : n < g₁.size) :
    c.before g seed n = c.before g₁ seed n ∧ c.after g seed n = c.after g₁ seed n := by
  have hglue := under_of_supersolution (supersolution_glue hg hexits hreach hs) n
  rw [glue_first hn, glue_first hn] at hglue
  exact before_after_eq_of_under hglue (under_chain_first hg c seed n)

theorem before_after_chain_second (n : Nat) :
    c.before g seed (g₁.size + n) = c.before g₂ s₂ n ∧
      c.after g seed (g₁.size + n) = c.after g₂ s₂ n := by
  have hglue := under_of_supersolution (supersolution_glue hg hexits hreach hs) (g₁.size + n)
  rw [glue_second, glue_second] at hglue
  exact before_after_eq_of_under hglue (under_chain_second hg hs n)

/-! ### The report on the whole -/

/-- The reachable nodes of the whole are those of its parts. -/
theorem perm_reversePostorder_chain :
    g.reversePostorder.Perm (g₁.reversePostorder ++ g₂.reversePostorder.map (g₁.size + ·)) := by
  have hfirst : ∀ n < g₁.size, g.Reachable n ↔ g₁.Reachable n := fun n hn =>
    reachable_iff_of_before_eq (before_after_chain_first hg hexits hreach hs hn).1
  have hsecond : ∀ n, g.Reachable (g₁.size + n) ↔ g₂.Reachable n := fun n =>
    reachable_iff_of_before_eq (before_after_chain_second hg hexits hreach hs n).1
  have hnodup : (g₁.reversePostorder ++ g₂.reversePostorder.map (g₁.size + ·)).Nodup := by
    refine List.nodup_append.2 ⟨g₁.nodup_reversePostorder,
      g₂.nodup_reversePostorder.map fun _ _ => Nat.add_left_cancel, fun m hm n hn heq => ?_⟩
    obtain ⟨k, -, rfl⟩ := List.mem_map.1 hn
    have hlt : m < g₁.size := (Graph.mem_reversePostorder.1 hm).lt_size
    omega
  refine (List.perm_ext_iff_of_nodup g.nodup_reversePostorder hnodup).2 fun n => ?_
  simp only [List.mem_append, List.mem_map, Graph.mem_reversePostorder]
  constructor
  · intro hn
    rcases hg.node_cases hn.lt_size with hlt | ⟨k, -, rfl⟩
    · exact .inl ((hfirst n hlt).1 hn)
    · exact .inr ⟨k, (hsecond k).1 hn, rfl⟩
  · rintro (hn | ⟨k, hk, rfl⟩)
    · exact (hfirst n hn.lt_size).2 hn
    · exact (hsecond k).2 hk

theorem violations_chain (hfile : g₂.file = g₁.file) :
    (c.check g seed).violations.Perm ((c.check g₁ seed).violations ++
      (c.check g₂ s₂).violations.map fun v => { v with node := g₁.size + v.node }) := by
  have hfirst : g₁.reversePostorder.filterMap (fun n => c.report? g n (c.before g seed n)) =
      (c.check g₁ seed).violations := by
    rw [violations_check]
    apply List.filterMap_congr
    intro n hn
    have hlt : n < g₁.size := (Graph.mem_reversePostorder.1 hn).lt_size
    rw [(before_after_chain_first hg hexits hreach hs hlt).1,
      c.report?_congr (hg.node_first hlt) hg.file]
  have hsecond : (g₂.reversePostorder.map (g₁.size + ·)).filterMap
        (fun n => c.report? g n (c.before g seed n)) =
      (c.check g₂ s₂).violations.map fun v => { v with node := g₁.size + v.node } := by
    rw [violations_check, List.filterMap_map, List.map_filterMap]
    apply List.filterMap_congr
    intro n _
    rw [Function.comp_apply, (before_after_chain_second hg hexits hreach hs n).1]
    exact c.report?_renumber (g₁.size + ·) (hg.node_second n) (hg.file.trans hfile.symm) _
  rw [violations_check c g seed, ← hfirst, ← hsecond, ← List.filterMap_append]
  exact (perm_reversePostorder_chain hg hexits hreach hs).filterMap _

end Whole

/-- To check two procedures one behind the other is to check the first and then the second, entered
with the states in which control leaves the first. -/
theorem check_chain (c : Checker) (g₁ g₂ g : Graph) (exits : List Nat) (seed : Assignment)
    (hfile : g₂.file = g₁.file) (hexits : exits ≠ []) (hreach : ∀ m ∈ exits, g₁.Reachable m)
    (hg : g₁.Chain g₂ exits g) :
    ∃ s₂, c.leaving g₁ seed exits = .reached s₂ ∧
      (∀ n < g₁.size, c.before g seed n = c.before g₁ seed n ∧
        c.after g seed n = c.after g₁ seed n) ∧
      (∀ n < g₂.size, c.before g seed (g₁.size + n) = c.before g₂ s₂ n ∧
        c.after g seed (g₁.size + n) = c.after g₂ s₂ n) ∧
      (c.check g seed).violations.Perm ((c.check g₁ seed).violations ++
        (c.check g₂ s₂).violations.map fun v => { v with node := g₁.size + v.node }) := by
  obtain ⟨s₂, hs⟩ := exists_leaving c seed hexits hreach
  refine ⟨s₂, hs, fun n hn => ?_, fun n _ => ?_, ?_⟩
  · exact before_after_chain_first hg hexits hreach hs hn
  · exact before_after_chain_second hg hexits hreach hs n
  · exact violations_chain hg hexits hreach hs hfile

/-- The pet `k` is fed in the first part and teased in the second, in a loop with the pet `j`, about
which nothing is known there because control leaves the first part before and after it is fed. -/
theorem check_chain_loop :
    let c : Checker := { protocol := .pet, resolve := .ofType "Pet" }
    let g₁ : Graph := ⟨"first", none, #[⟨.invoke "i" (some "Pet") "tease", none⟩,
      ⟨.invoke "k" (some "Pet") "feed", none⟩, ⟨.invoke "j" (some "Pet") "feed", none⟩],
      #[⟨0, 1, .sequential⟩, ⟨1, 2, .sequential⟩], some 0⟩
    let g₂ : Graph := ⟨"second", none, #[⟨.invoke "k" (some "Pet") "tease", none⟩,
      ⟨.invoke "j" (some "Pet") "tease", none⟩], #[⟨0, 1, .sequential⟩, ⟨1, 0, .loopBack⟩], some 0⟩
    let s₂ : Assignment := ((∅ : Assignment).assign ⟨"Sleeping"⟩ ⟨"k"⟩ (.known ⟨"Eating"⟩)).assign
      ⟨"Sleeping"⟩ ⟨"j"⟩ .unknown
    let v : Violation := ⟨⟨"i"⟩, 0, none, none, ⟨"tease"⟩, .known ⟨"Playing"⟩, ⟨"Sleeping"⟩⟩
    let w : Violation := ⟨⟨"k"⟩, 0, none, none, ⟨"tease"⟩, .known ⟨"Playing"⟩, ⟨"Eating"⟩⟩
    c.leaving g₁ ∅ [1, 2] = .reached s₂ ∧ (c.check g₁ ∅).violations = [v] ∧
      (c.check g₂ s₂).violations = [w] ∧
      (c.check (g₁.append g₂ [1, 2]) ∅).violations.Perm [v, { w with node := 3 }] ∧
      (c.before (g₁.append g₂ [1, 2]) ∅ 3 = c.before g₂ s₂ 0 ∧
        c.after (g₁.append g₂ [1, 2]) ∅ 3 = c.after g₂ s₂ 0) := by
  intro c g₁ g₂ s₂ v w
  have hleaving : c.leaving g₁ ∅ [1, 2] = .reached s₂ := by decide +kernel
  have hv : (c.check g₁ ∅).violations = [v] := by decide +kernel
  have hw : (c.check g₂ s₂).violations = [w] := by decide +kernel
  have hreach : ∀ m ∈ [1, 2], g₁.Reachable m := by decide +kernel
  have hchain : g₁.Chain g₂ [1, 2] (g₁.append g₂ [1, 2]) :=
    Graph.chain_append _ (by decide +kernel) (by decide +kernel)
  obtain ⟨s, hs, -, hsecond, hperm⟩ :=
    check_chain c g₁ g₂ (g₁.append g₂ [1, 2]) [1, 2] ∅ rfl (by simp) hreach hchain
  obtain rfl : s₂ = s := Flow.reached.inj (hleaving.symm.trans hs)
  rw [hv, hw] at hperm
  exact ⟨hs, hv, hw, hperm, hsecond 0 (by decide)⟩

end Checker

end Typestate
