import Mathlib.Data.Finset.Card
import Mathlib.Data.Set.Function
import Mathlib.Order.Interval.Finset.Nat
import Typestate.Proofs.Growth

/-!
Numbers of nodes and lists of edges do not matter. Two procedures are isomorphic if their nodes
correspond, with contents and entry, and an edge leads from one node to another exactly if one does
in the other procedure; how many there are, of which kind and in which order is left open. The
least solutions of isomorphic procedures correspond, since each is below the other, and so do their
reports up to the order of the violations.
-/

namespace Typestate

namespace Graph

variable {g g' : Graph} {π : Nat → Nat}

/-- The map takes the nodes of one procedure to those of another one, which is like it but for the
numbers of nodes and the bookkeeping of edges. -/
structure Iso (g g' : Graph) (π : Nat → Nat) : Prop where
  bijOn : Set.BijOn π (Set.Iio g.size) (Set.Iio g'.size)
  node : ∀ n < g.size, g'.nodes[π n]? = g.nodes[n]?
  edge : ∀ m < g.size, ∀ n < g.size, n ∈ g.successors m ↔ π n ∈ g'.successors (π m)
  entry : ∀ n < g.size, g.entry = some n ↔ g'.entry = some (π n)

theorem Iso.hom (hπ : g.Iso g' π) : g.Hom g' π :=
  ⟨hπ.node, fun m hm n hn => (hπ.edge m hm n hn).1⟩

theorem Iso.size_eq (hπ : g.Iso g' π) : g'.size = g.size := by
  have hbij : Set.BijOn π (Finset.range g.size) (Finset.range g'.size) := by
    simpa only [Finset.coe_range] using hπ.bijOn
  simpa using hbij.finsetCard_eq.symm

/-- The correspondence can be read in the other direction. -/
theorem Iso.exists_inverse (hπ : g.Iso g' π) :
    ∃ ρ, g'.Iso g ρ ∧ ∀ n < g.size, ρ (π n) = n := by
  let ρ := Function.invFunOn π (Set.Iio g.size)
  have hinv : Set.InvOn ρ π (Set.Iio g.size) (Set.Iio g'.size) := hπ.bijOn.invOn_invFunOn
  have hback : ∀ k < g'.size, π (ρ k) = k := fun k hk => hinv.2 hk
  have hbij : Set.BijOn ρ (Set.Iio g'.size) (Set.Iio g.size) :=
    hinv.symm.bijOn hπ.bijOn.surjOn.mapsTo_invFunOn hπ.bijOn.mapsTo
  have hlt : ∀ k < g'.size, ρ k < g.size := fun k hk => hbij.mapsTo hk
  refine ⟨ρ, ⟨hbij, fun k hk => ?_, fun j hj k hk => ?_, fun k hk => ?_⟩, fun n hn => hinv.1 hn⟩
  · rw [← hπ.node (ρ k) (hlt k hk), hback k hk]
  · rw [hπ.edge (ρ j) (hlt j hj) (ρ k) (hlt k hk), hback j hj, hback k hk]
  · rw [hπ.entry (ρ k) (hlt k hk), hback k hk]

theorem Iso.reachable (hπ : g.Iso g' π) {n : Nat} (hn : g.Reachable n) : g'.Reachable (π n) := by
  obtain ⟨root, hentry, hroot, hleads⟩ := hn
  induction hleads with
  | refl => exact ⟨π root, (hπ.entry root hroot).1 hentry, hπ.hom.lt_size hroot, .refl _⟩
  | @tail k n hk harc ih =>
      have hreach : g.Reachable k := ⟨root, hentry, hroot, hk⟩
      have hedge : π n ∈ g'.successors (π k) := (hπ.edge k hreach.lt_size n harc.2).1 harc.1
      exact ih.arc ⟨hedge, hπ.hom.lt_size harc.2⟩

theorem Iso.perm_reversePostorder (hπ : g.Iso g' π) :
    g'.reversePostorder.Perm (g.reversePostorder.map π) := by
  obtain ⟨ρ, hρ, hinv⟩ := hπ.exists_inverse
  have hnodup : (g.reversePostorder.map π).Nodup := by
    refine g.nodup_reversePostorder.map_on fun m hm n hn heq => ?_
    exact hπ.bijOn.injOn (mem_reversePostorder.1 hm).lt_size (mem_reversePostorder.1 hn).lt_size heq
  refine (List.perm_ext_iff_of_nodup g'.nodup_reversePostorder hnodup).2 fun k => ?_
  simp only [List.mem_map, mem_reversePostorder]
  constructor
  · -- A walk in the second procedure is brought back by the inverse.
    intro hk
    obtain ⟨n, hn, rfl⟩ := hπ.bijOn.surjOn hk.lt_size
    exact ⟨n, hinv n hn ▸ hρ.reachable hk, rfl⟩
  · rintro ⟨n, hn, rfl⟩
    exact hπ.reachable hn

/-- What is read off the reachable nodes, in their order, is the same up to the order. -/
theorem Iso.perm_filterMap (hπ : g.Iso g' π) {β : Type} {f f' : Nat → Option β}
    (hf : ∀ n, g.Reachable n → f' (π n) = f n) :
    (g'.reversePostorder.filterMap f').Perm (g.reversePostorder.filterMap f) := by
  refine (hπ.perm_reversePostorder.filterMap f').trans (List.Perm.of_eq ?_)
  rw [List.filterMap_map]
  apply List.filterMap_congr
  intro n hn
  exact hf n (mem_reversePostorder.1 hn)

end Graph

namespace Checker

variable {c : Checker} {g g' : Graph} {seed : Assignment} {π : Nat → Nat} {n : Nat}

theorem under_of_iso (c : Checker) (seed : Assignment) (hπ : g.Iso g' π) (n : Nat) :
    (c.before g seed n).Under c.protocol.initial (c.before g' seed (π n)) ∧
      (c.after g seed n).Under c.protocol.initial (c.after g' seed (π n)) := by
  refine under_of_hom hπ.hom (fun k hk hentry => ?_) n
  exact entry_under_before ((hπ.entry k hk).1 hentry) (hπ.hom.lt_size hk)

/-- The least solutions of isomorphic procedures correspond. -/
theorem before_after_iso (c : Checker) (seed : Assignment) (hπ : g.Iso g' π) (hn : n < g.size) :
    c.before g' seed (π n) = c.before g seed n ∧ c.after g' seed (π n) = c.after g seed n := by
  obtain ⟨ρ, hρ, hinv⟩ := hπ.exists_inverse
  have hback := c.under_of_iso seed hρ (π n)
  rw [hinv n hn] at hback
  exact before_after_eq_of_under hback (c.under_of_iso seed hπ n)

theorem violations_iso (c : Checker) (seed : Assignment) (hπ : g.Iso g' π)
    (hfile : g'.file = g.file) :
    (c.check g' seed).violations.Perm
      ((c.check g seed).violations.map fun v => { v with node := π v.node }) := by
  rw [violations_check, violations_check, List.map_filterMap]
  refine hπ.perm_filterMap fun n hn => ?_
  rw [(c.before_after_iso seed hπ hn.lt_size).1]
  exact c.report?_renumber π (hπ.node n hn.lt_size) hfile _

theorem skipped_iso (c : Checker) (seed : Assignment) (hπ : g.Iso g' π) :
    (c.skipped g' seed).Perm ((c.skipped g seed).map fun s => (π s.1, s.2)) := by
  rw [skipped_eq, skipped_eq, List.map_filterMap]
  refine hπ.perm_filterMap fun n hn => ?_
  rw [(c.before_after_iso seed hπ hn.lt_size).1, c.skip?_of_node_eq (hπ.node n hn.lt_size),
    Option.map_map]
  rfl

theorem called_of_iso (c : Checker) (hπ : g.Iso g' π) {h : Handle} (hh : c.Called g h) :
    c.Called g' h := by
  obtain ⟨n, call, hn, hcall, rfl⟩ := hh
  refine ⟨π n, call, hπ.reachable hn, ?_, rfl⟩
  rw [c.call?_of_node_eq (hπ.node n hn.lt_size), hcall]

theorem length_tracked_iso (c : Checker) (hπ : g.Iso g' π) :
    (c.tracked g').length = (c.tracked g).length := by
  obtain ⟨ρ, hρ, -⟩ := hπ.exists_inverse
  rw [length_tracked_eq_ncard, length_tracked_eq_ncard]
  congr 1
  ext h
  exact ⟨c.called_of_iso hρ, c.called_of_iso hπ⟩

/-- Renumbering the nodes of a procedure and keeping its edges in another way renumbers the values
and the violations, and it changes neither the size of the procedure nor what is counted of the
reachable nodes. -/
theorem check_renumber (c : Checker) (g g' : Graph) (seed : Assignment) (π : Nat → Nat)
    (hfile : g'.file = g.file) (hπ : g.Iso g' π) :
    (∀ n < g.size, c.before g' seed (π n) = c.before g seed n ∧
        c.after g' seed (π n) = c.after g seed n) ∧
      (c.check g' seed).violations.Perm
        ((c.check g seed).violations.map fun v => { v with node := π v.node }) ∧
      (c.check g' seed).stats.nodes = (c.check g seed).stats.nodes ∧
      (c.check g' seed).stats.reachableNodes = (c.check g seed).stats.reachableNodes ∧
      (c.check g' seed).stats.trackedHandles = (c.check g seed).stats.trackedHandles ∧
      (c.check g' seed).stats.suppressedCalls = (c.check g seed).stats.suppressedCalls := by
  refine ⟨fun n hn => c.before_after_iso seed hπ hn, c.violations_iso seed hπ hfile, hπ.size_eq,
    ?_, ?_, ?_⟩
  · have hlength := hπ.perm_reversePostorder.length_eq
    rw [List.length_map] at hlength
    exact hlength
  · have hhandles : ∀ k : Graph, (c.check k seed).stats.trackedHandles = (c.tracked k).length :=
      fun k => c.size_handles k _
    rw [hhandles, hhandles, c.length_tracked_iso hπ]
  · rw [← length_skipped, ← length_skipped]
    simpa using (c.skipped_iso seed hπ).length_eq

/-- A loop in which the pet `k` is teased while it eats, and the same loop with the nodes in another
order and one of the edges twice. -/
theorem check_renumber_loop :
    let c : Checker := { protocol := .pet, resolve := .ofType "Pet" }
    let g : Graph := ⟨"loop", none, #[⟨.invoke "k" (some "Pet") "feed", none⟩,
      ⟨.invoke "k" (some "Pet") "tease", none⟩, ⟨.invoke "j" (some "Pet") "feed", none⟩],
      #[⟨0, 1, .sequential⟩, ⟨1, 2, .sequential⟩, ⟨2, 1, .loopBack⟩], some 0⟩
    let g' : Graph := ⟨"again", none, #[⟨.invoke "j" (some "Pet") "feed", none⟩,
      ⟨.invoke "k" (some "Pet") "feed", none⟩, ⟨.invoke "k" (some "Pet") "tease", none⟩],
      #[⟨2, 0, .trueBranch⟩, ⟨0, 2, .exception⟩, ⟨2, 0, .sequential⟩, ⟨1, 2, .sequential⟩], some 1⟩
    let π : Nat → Nat := fun n => (n + 1) % 3
    let v : Violation := ⟨⟨"k"⟩, 1, none, none, ⟨"tease"⟩, .known ⟨"Playing"⟩, ⟨"Eating"⟩⟩
    g.Iso g' π ∧ (c.check g ∅).violations = [v] ∧
      (c.check g' ∅).violations = [{ v with node := 2 }] ∧
      (c.before g' ∅ 2 = c.before g ∅ 1 ∧ c.after g' ∅ 2 = c.after g ∅ 1) ∧
      (c.check g ∅).stats.suppressedCalls = 1 ∧ (c.check g' ∅).stats.suppressedCalls = 1 := by
  intro c g g' π v
  have hbij : Set.BijOn π (Set.Iio g.size) (Set.Iio g'.size) := by
    refine ⟨fun n _ => Nat.mod_lt _ (by decide), fun m hm n hn heq => ?_, fun k hk => ?_⟩
    · have hm' : m < 3 := hm
      have hn' : n < 3 := hn
      have heq' : (m + 1) % 3 = (n + 1) % 3 := heq
      omega
    · have hk' : k < 3 := hk
      refine ⟨(k + 2) % 3, Nat.mod_lt _ (by decide), ?_⟩
      change ((k + 2) % 3 + 1) % 3 = k
      omega
  have hπ : g.Iso g' π :=
    ⟨hbij, by decide +kernel, by decide +kernel, by decide +kernel⟩
  have hv : (c.check g ∅).violations = [v] := by decide +kernel
  have hskipped : (c.check g ∅).stats.suppressedCalls = 1 := by decide +kernel
  obtain ⟨hvalues, hperm, -, -, -, hcount⟩ := check_renumber c g g' ∅ π rfl hπ
  rw [hv] at hperm
  exact ⟨hπ, hv, List.perm_singleton.1 hperm, hvalues 1 (by decide), hskipped,
    hcount.trans hskipped⟩

end Checker

end Typestate
