import Typestate.Proofs.Findings

/-!
Growing procedures. If a map takes the nodes of one procedure to nodes of another with the same
contents, and edges to edges, the values of the first are below those of the second at the image
(`Checker.under_of_hom`): the second least solution, read back along the map, is above what the
equations of the first make of it. In particular more edges and less knowledge at the entry only
raise values. So they can take violations back and leave more calls without a judgement, but never
add an accusation.
-/

namespace Typestate

/-- A map of nodes that keeps their contents and leads edges to edges. -/
structure Graph.Hom (g g' : Graph) (π : Nat → Nat) : Prop where
  node : ∀ n < g.size, g'.nodes[π n]? = g.nodes[n]?
  edge : ∀ m < g.size, ∀ n < g.size, n ∈ g.successors m → π n ∈ g'.successors (π m)

theorem Graph.Hom.lt_size {g g' : Graph} {π : Nat → Nat} (hπ : g.Hom g' π) {n : Nat}
    (hn : n < g.size) : π n < g'.size := by
  have hnode : g'.nodes[π n]? = some g.nodes[n] := by
    rw [hπ.node n hn, Array.getElem?_eq_getElem hn]
  exact (Array.getElem?_eq_some_iff.1 hnode).1

namespace Checker

variable {c : Checker} {g g' : Graph} {seed seed' : Assignment} {π : Nat → Nat}

theorem supersolution_of_hom (hπ : g.Hom g' π)
    (hentry : ∀ n < g.size, g.entry = some n →
      (Flow.entry c.protocol.initial seed).Under c.protocol.initial (c.before g' seed' (π n))) :
    (c.problem g seed).Supersolution (Flow.Under c.protocol.initial)
      (fun n => c.before g' seed' (π n)) (fun n => c.after g' seed' (π n)) where
  source_le n hn := by
    change Flow.Under _ (if g.entry = some n then _ else _) _
    split
    · next hroot => exact hentry n hn hroot
    · exact Flow.unreachable_under _
  output_le n hn m hm hmem := by
    have hedge : π n ∈ g'.successors (π m) := hπ.edge m hm n hn (Graph.mem_predecessors.1 hmem)
    exact after_under_before c seed' ⟨hedge, hπ.lt_size hn⟩
  transfer_le n hn := by
    have hafter : c.after g' seed' (π n) = (c.outcome g' (π n) (c.before g' seed' (π n))).output :=
      after_eq (hπ.lt_size hn)
    rw [hafter, c.output_of_node_eq (hπ.node n hn)]
    exact .refl _

/-- What enters the first procedure being below the value at its place in the second, all values
of the first are below those of the second. -/
theorem under_of_hom (hπ : g.Hom g' π)
    (hentry : ∀ n < g.size, g.entry = some n →
      (Flow.entry c.protocol.initial seed).Under c.protocol.initial (c.before g' seed' (π n)))
    (n : Nat) :
    (c.before g seed n).Under c.protocol.initial (c.before g' seed' (π n)) ∧
      (c.after g seed n).Under c.protocol.initial (c.after g' seed' (π n)) :=
  under_of_supersolution (supersolution_of_hom hπ hentry) n

theorem entry_under_entry {initial : State}
    (hseed : ∀ h, seed'.state initial h = seed.state initial h ∨
      seed'.state initial h = .unknown) :
    (Flow.entry initial seed).Under initial (Flow.entry initial seed') := by
  intro h s hs
  rw [Flow.state?_entry] at hs ⊢
  obtain rfl := Option.some_inj.1 hs
  exact (hseed h).imp (congrArg some) (congrArg some)

/-- With more edges, and with less known of the handles at the entry, all values are at least as
high, what is still reported was reported before, and what was skipped before is still skipped. -/
theorem check_grow (c : Checker) (g g' : Graph) (seed seed' : Assignment)
    (hnodes : g'.nodes = g.nodes) (hfile : g'.file = g.file) (hroot : g'.entry = g.entry)
    (hedges : ∀ m n, n ∈ g.successors m → n ∈ g'.successors m)
    (hseed : ∀ h, seed'.state c.protocol.initial h = seed.state c.protocol.initial h ∨
      seed'.state c.protocol.initial h = .unknown) :
    (∀ n, (c.before g seed n).Le c.protocol.initial (c.before g' seed' n) ∧
        (c.after g seed n).Le c.protocol.initial (c.after g' seed' n)) ∧
      (∀ v ∈ (c.check g' seed').violations, g.Reachable v.node →
        v ∈ (c.check g seed).violations) ∧
      ∀ n call, (n, call) ∈ c.skipped g seed → (n, call) ∈ c.skipped g' seed' := by
  have hnode : ∀ n : Nat, g'.nodes[n]? = g.nodes[n]? := fun n => by rw [hnodes]
  have hsize : g'.size = g.size := congrArg Array.size hnodes
  have hhom : g.Hom g' id := ⟨fun n _ => hnode n, fun m _ n _ => hedges m n⟩
  have hentry : ∀ n < g.size, g.entry = some n →
      (Flow.entry c.protocol.initial seed).Under c.protocol.initial (c.before g' seed' n) := by
    intro n hn hn'
    exact (entry_under_entry hseed).trans (entry_under_before (hroot.trans hn') (hsize ▸ hn))
  have hunder := under_of_hom hhom hentry
  refine ⟨fun n => ⟨?_, ?_⟩, fun v hv hreach => ?_, fun n call hmem => ?_⟩
  · exact (Flow.le_iff_under (c.admissible_before g' seed' n).canonical).2 (hunder n).1
  · exact (Flow.le_iff_under (c.admissible_after g' seed' n).canonical).2 (hunder n).2
  · -- The node being reachable without the new edges, a state is known there and is the same.
    obtain ⟨-, hreport⟩ := report?_node_of_mem hv
    rw [c.report?_congr (hnode v.node) hfile] at hreport
    have hreached : c.before g seed v.node ≠ .unreachable := fun h =>
      before_eq_unreachable_iff.1 h hreach
    exact mem_violations_check.2
      ⟨v.node, hreach, report?_of_under (hunder v.node).1 hreached hreport⟩
  · have hskip : c.skip? g n (c.before g' seed' n) = some call :=
      skip?_of_under (hunder n).1 (mem_skipped.1 hmem)
    rw [mem_skipped, c.skip?_of_node_eq (hnode n)]
    exact hskip

/-- The pet `k` is fed and then teased, against the protocol. With a way around the feeding the
call is no longer judged, while the call on the pet `j` is still reported. -/
theorem check_grow_branch :
    let c : Checker := { protocol := .pet, resolve := .ofType "Pet" }
    let g : Graph := ⟨"line", none, #[⟨.invoke "j" (some "Pet") "tease", none⟩,
      ⟨.invoke "k" (some "Pet") "feed", none⟩, ⟨.invoke "k" (some "Pet") "tease", none⟩,
      ⟨.invoke "m" (some "Pet") "feed", none⟩],
      #[⟨0, 1, .sequential⟩, ⟨1, 2, .sequential⟩, ⟨2, 3, .sequential⟩], some 0⟩
    let g' : Graph := { g with edges := g.edges.push ⟨0, 2, .falseBranch⟩ }
    let seed : Assignment := (∅ : Assignment).assign ⟨"Sleeping"⟩ ⟨"m"⟩ .unknown
    let seed' : Assignment := seed.assign ⟨"Sleeping"⟩ ⟨"i"⟩ .unknown
    let v : Violation := ⟨⟨"j"⟩, 0, none, none, ⟨"tease"⟩, .known ⟨"Playing"⟩, ⟨"Sleeping"⟩⟩
    let w : Violation := ⟨⟨"k"⟩, 2, none, none, ⟨"tease"⟩, .known ⟨"Playing"⟩, ⟨"Eating"⟩⟩
    (c.check g' seed').violations = [v] ∧ w ∈ (c.check g seed).violations ∧
      v ∈ (c.check g seed).violations ∧
      (c.before g seed 2).Le c.protocol.initial (c.before g' seed' 2) ∧
      (3, ⟨⟨"m"⟩, ⟨"feed"⟩⟩) ∈ c.skipped g seed ∧
      (3, ⟨⟨"m"⟩, ⟨"feed"⟩⟩) ∈ c.skipped g' seed' := by
  intro c g g' seed seed' v w
  have hedges : ∀ m n, n ∈ g.successors m → n ∈ g'.successors m := by
    intro m n hn
    obtain ⟨e, he, hm, hn⟩ := Graph.mem_successors.1 hn
    exact Graph.mem_successors.2 ⟨e, Array.mem_push_of_mem _ he, hm, hn⟩
  have hseed : ∀ h, seed'.state c.protocol.initial h = seed.state c.protocol.initial h ∨
      seed'.state c.protocol.initial h = .unknown := by
    intro h
    by_cases hi : h = ⟨"i"⟩
    · subst hi
      exact .inr (seed.state_assign_self _ _)
    · exact .inl (seed.state_assign_of_ne hi _)
  have hv : (c.check g' seed').violations = [v] := by decide +kernel
  have hfed : (3, ⟨⟨"m"⟩, ⟨"feed"⟩⟩) ∈ c.skipped g seed := by decide +kernel
  obtain ⟨hle, hreported, hskipped⟩ := check_grow c g g' seed seed' rfl rfl rfl hedges hseed
  refine ⟨hv, by decide +kernel, hreported v (by simp [hv]) ?_, (hle 2).1, hfed,
    hskipped 3 _ hfed⟩
  exact ⟨0, rfl, by decide, .refl 0⟩

end Checker

end Typestate
