import Typestate.Proofs.Findings
import Typestate.Proofs.Inert

/-!
Handles do not interfere. What becomes known of a handle depends on the walks through the procedure,
on the state in which the handle enters it and on what the nodes do to this one handle
(`Checker.Alike`). So the calls on all other handles can be taken out of a procedure, and their
states out of what it is entered with, without a change to what is found about the handle.
-/

namespace Typestate

/-- The states of one handle alone. -/
def Assignment.restrict (m : Assignment) (h : Handle) : Assignment :=
  m.filter fun k _ => k = h

theorem Assignment.state_restrict (initial : State) (m : Assignment) (h : Handle) :
    (m.restrict h).state initial h = m.state initial h := by
  rw [state_eq_getD, state_eq_getD, restrict, Std.ExtTreeMap.getElem?_filter']
  cases m[h]? with
  | none => rfl
  | some s => simp [Option.filter]

namespace Graph

variable {g g' : Graph} {m n : Nat}

theorem arc_congr (hsize : g'.size = g.size) (hedges : g'.edges = g.edges) :
    g'.Arc m n ↔ g.Arc m n := by
  unfold Arc successors targets
  rw [hsize, hedges]

theorem leads_congr (hsize : g'.size = g.size) (hedges : g'.edges = g.edges) :
    g'.Leads m n ↔ g.Leads m n := by
  have harc : g'.Arc = g.Arc := by
    funext a b
    exact propext (arc_congr hsize hedges)
  unfold Leads
  rw [harc]

theorem reachable_congr (hsize : g'.size = g.size) (hedges : g'.edges = g.edges)
    (hentry : g'.entry = g.entry) : g'.Reachable n ↔ g.Reachable n := by
  unfold Reachable
  simp only [hsize, hentry, leads_congr hsize hedges]

theorem Walk.congr (hsize : g'.size = g.size) (hedges : g'.edges = g.edges)
    (hentry : g'.entry = g.entry) {ws : List Nat} (hwalk : g.Walk ws n) : g'.Walk ws n := by
  induction hwalk with
  | entry hroot hn => exact .entry (hentry.trans hroot) (hsize ▸ hn)
  | step _ harc ih => exact .step ih ((arc_congr hsize hedges).2 harc)

end Graph

namespace Checker

variable {c : Checker} {g g' : Graph} {seed seed' : Assignment} {h : Handle} {n : Nat}

/-- Two procedures that one handle cannot tell apart: it is entered in the same state, the walks
are the same, and each node has the same effect on it. -/
structure Alike (c : Checker) (h : Handle) (g : Graph) (seed : Assignment) (g' : Graph)
    (seed' : Assignment) : Prop where
  size : g'.size = g.size
  edges : g'.edges = g.edges
  entry : g'.entry = g.entry
  effect : ∀ n s, c.effect g' n h s = c.effect g n h s
  state : seed'.state c.protocol.initial h = seed.state c.protocol.initial h

theorem Alike.symm (halike : c.Alike h g seed g' seed') : c.Alike h g' seed' g seed where
  size := halike.size.symm
  edges := halike.edges.symm
  entry := halike.entry.symm
  effect n s := (halike.effect n s).symm
  state := halike.state.symm

theorem Alike.reachable (halike : c.Alike h g seed g' seed') : g'.Reachable n ↔ g.Reachable n :=
  Graph.reachable_congr halike.size halike.edges halike.entry

theorem Alike.state?_along (halike : c.Alike h g seed g' seed') (ws : List Nat) :
    (c.along g' seed' ws).state? c.protocol.initial h =
      (c.along g seed ws).state? c.protocol.initial h := by
  rw [Checker.state?_along, Checker.state?_along, halike.state]
  simp only [halike.effect]

theorem Alike.agree (halike : c.Alike h g seed g' seed') {s : State}
    (hagree : c.Agree g seed h n s) : c.Agree g' seed' h n s := by
  intro ws hwalk
  rw [halike.state?_along]
  exact hagree ws (hwalk.congr halike.symm.size halike.symm.edges halike.symm.entry)

theorem Alike.certain (halike : c.Alike h g seed g' seed') {s : State}
    (hcertain : c.Certain g seed h n s) : c.Certain g' seed' h n s := by
  refine ⟨fun m hm hleads => ?_, halike.agree hcertain.2⟩
  have hleads' : g.Leads m n := (Graph.leads_congr halike.size halike.edges).1 hleads
  obtain ⟨t, ht⟩ := hcertain.1 m (halike.reachable.1 hm) hleads'
  exact ⟨t, halike.agree ht⟩

/-- The solved values give a handle the same state before a node of either procedure. -/
theorem Alike.state?_before (halike : c.Alike h g seed g' seed') (n : Nat) :
    (c.before g' seed' n).state? c.protocol.initial h =
      (c.before g seed n).state? c.protocol.initial h := by
  by_cases hn : g.Reachable n
  · have hn' : g'.Reachable n := halike.reachable.2 hn
    obtain ⟨t, ht⟩ := exists_state_before c seed hn h
    rw [ht]
    cases t with
    | known s => exact (before_known_iff hn').2 (halike.certain ((before_known_iff hn).1 ht))
    | unknown =>
        -- A state certain in the second procedure would be certain in the first one too.
        refine before_unknown_of_not_certain hn' fun s hs => ?_
        have hknown := (before_known_iff hn).2 (halike.symm.certain hs)
        simp [ht] at hknown
  · have hn' : ¬g'.Reachable n := fun hreach => hn (halike.reachable.1 hreach)
    rw [before_eq_unreachable_iff.2 hn, before_eq_unreachable_iff.2 hn']

theorem Alike.state?_after (halike : c.Alike h g seed g' seed') (n : Nat) :
    (c.after g' seed' n).state? c.protocol.initial h =
      (c.after g seed n).state? c.protocol.initial h := by
  by_cases hn : g.Reachable n
  · have hn' : g'.Reachable n := halike.reachable.2 hn
    rw [after_eq hn.lt_size, after_eq hn'.lt_size, state?_outcome, state?_outcome,
      halike.state?_before]
    exact congrArg (Option.map · _) (funext (halike.effect n))
  · have hn' : ¬g'.Reachable n := fun hreach => hn (halike.reachable.1 hreach)
    rw [after_eq_unreachable hn, after_eq_unreachable hn']

/-! ### Calls on one handle -/

/-- A node without its call, if the call is on another handle. -/
def mute (c : Checker) (h : Handle) (node : Node) : Node :=
  match c.resolve node with
  | none => node
  | some call => if call.handle = h then node else { node with statement := .nop }

/-- A procedure without the calls on other handles. -/
def restrict (c : Checker) (g : Graph) (h : Handle) : Graph :=
  { g with nodes := g.nodes.map (c.mute h) }

@[simp] theorem size_restrict (c : Checker) (g : Graph) (h : Handle) :
    (c.restrict g h).size = g.size :=
  Array.size_map

theorem getElem?_restrict (c : Checker) (g : Graph) (h : Handle) (n : Nat) :
    (c.restrict g h).nodes[n]? = g.nodes[n]?.map (c.mute h) :=
  Array.getElem?_map

@[simp] theorem span_mute (c : Checker) (h : Handle) (node : Node) :
    (c.mute h node).span = node.span := by
  unfold mute
  split
  · rfl
  · split <;> rfl

/-- The calls of a restricted procedure are those on the handle. -/
theorem resolve_mute (hnop : ∀ span, c.resolve ⟨.nop, span⟩ = none) (h : Handle) (node : Node) :
    c.resolve (c.mute h node) = (c.resolve node).filter fun call => call.handle = h := by
  unfold mute
  cases hcall : c.resolve node with
  | none => exact hcall
  | some call =>
      by_cases hh : call.handle = h
      · simp [hh, hcall, Option.filter]
      · simp [hh, hnop, Option.filter]

theorem call?_restrict (hnop : ∀ span, c.resolve ⟨.nop, span⟩ = none) (g : Graph) (h : Handle)
    (n : Nat) :
    c.call? (c.restrict g h) n = (c.call? g n).filter fun call => call.handle = h := by
  unfold call?
  rw [getElem?_restrict]
  cases g.nodes[n]? with
  | none => rfl
  | some node => exact resolve_mute hnop h node

theorem effect_restrict (hnop : ∀ span, c.resolve ⟨.nop, span⟩ = none) (g : Graph) (h : Handle)
    (n : Nat) (s : Tracked) : c.effect (c.restrict g h) n h s = c.effect g n h s := by
  unfold effect
  rw [call?_restrict hnop]
  cases c.call? g n with
  | none => rfl
  | some call => by_cases hh : call.handle = h <;> simp [hh, Option.filter]

theorem alike_restrict (hnop : ∀ span, c.resolve ⟨.nop, span⟩ = none) (g : Graph)
    (seed : Assignment) (h : Handle) : c.Alike h g seed (c.restrict g h) (seed.restrict h) where
  size := c.size_restrict g h
  edges := rfl
  entry := rfl
  effect := effect_restrict hnop g h
  state := seed.state_restrict c.protocol.initial h

theorem reversePostorder_restrict (c : Checker) (g : Graph) (h : Handle) :
    (c.restrict g h).reversePostorder = g.reversePostorder :=
  Graph.reversePostorder_congr (c.size_restrict g h) rfl fun _ _ => rfl

/-- What is reported on the handle is reported in the restricted procedure, and nothing else. -/
theorem report?_restrict (hnop : ∀ span, c.resolve ⟨.nop, span⟩ = none) {x y : Flow}
    (hstate : y.state? c.protocol.initial h = x.state? c.protocol.initial h) :
    c.report? (c.restrict g h) n y = (c.report? g n x).filter fun v => v.handle = h := by
  apply Option.ext
  intro v
  simp only [Option.filter_eq_some_iff, decide_eq_true_eq, report?_eq_some, getElem?_restrict,
    Option.map_eq_some_iff]
  constructor
  · rintro ⟨_, call, s, ⟨node, hnode, rfl⟩, hresolve, hs, ht, rfl⟩
    rw [resolve_mute hnop, Option.filter_eq_some_iff, decide_eq_true_eq] at hresolve
    obtain ⟨hresolve, rfl⟩ := hresolve
    exact ⟨⟨node, call, s, hnode, hresolve, hstate ▸ hs, ht, by simp [restrict]⟩, rfl⟩
  · rintro ⟨⟨node, call, s, hnode, hresolve, hs, ht, rfl⟩, rfl⟩
    refine ⟨_, call, s, ⟨node, hnode, rfl⟩, ?_, hstate.trans hs, ht, by simp [restrict]⟩
    rw [resolve_mute hnop, hresolve]
    simp [Option.filter]

theorem skip?_restrict (hnop : ∀ span, c.resolve ⟨.nop, span⟩ = none) {x y : Flow}
    (hstate : y.state? c.protocol.initial h = x.state? c.protocol.initial h) :
    c.skip? (c.restrict g h) n y = (c.skip? g n x).filter fun call => call.handle = h := by
  apply Option.ext
  intro call
  simp only [Option.filter_eq_some_iff, decide_eq_true_eq, skip?_eq_some, call?_restrict hnop]
  constructor
  · rintro ⟨⟨hcall, rfl⟩, hunknown⟩
    exact ⟨⟨hcall, hstate ▸ hunknown⟩, rfl⟩
  · rintro ⟨⟨hcall, hunknown⟩, rfl⟩
    exact ⟨⟨hcall, rfl⟩, hstate.trans hunknown⟩

/-- What is found about a handle does not depend on the other handles: without the calls on them
and without their states the handle has the same state everywhere, and the same calls on it are
reported and skipped. -/
theorem check_restrict (c : Checker) (type : String) (hc : c.resolve = .ofType type) (g : Graph)
    (seed : Assignment) (h : Handle) :
    (c.check g seed).violations.filter (fun v => v.handle = h) =
        (c.check (c.restrict g h) (seed.restrict h)).violations ∧
      (∀ n, (c.before g seed n).state? c.protocol.initial h =
          (c.before (c.restrict g h) (seed.restrict h) n).state? c.protocol.initial h ∧
        (c.after g seed n).state? c.protocol.initial h =
          (c.after (c.restrict g h) (seed.restrict h) n).state? c.protocol.initial h) ∧
      (c.skipped g seed).filter (fun s => s.2.handle = h) =
        c.skipped (c.restrict g h) (seed.restrict h) ∧
      ((c.skipped g seed).filter fun s => s.2.handle = h).length =
        (c.check (c.restrict g h) (seed.restrict h)).stats.suppressedCalls := by
  have hnop : ∀ span, c.resolve ⟨.nop, span⟩ = none := fun span => by rw [hc]; rfl
  have halike := alike_restrict hnop g seed h
  have hskipped : (c.skipped g seed).filter (fun s => s.2.handle = h) =
      c.skipped (c.restrict g h) (seed.restrict h) := by
    rw [skipped_eq, skipped_eq, reversePostorder_restrict, List.filter_filterMap]
    apply List.filterMap_congr
    intro n _
    rw [skip?_restrict hnop (halike.state?_before n)]
    cases c.skip? g n (c.before g seed n) with
    | none => rfl
    | some call => by_cases hh : call.handle = h <;> simp [hh, Option.filter]
  refine ⟨?_, fun n => ⟨(halike.state?_before n).symm, (halike.state?_after n).symm⟩, hskipped, ?_⟩
  · rw [violations_check, violations_check, reversePostorder_restrict, List.filter_filterMap]
    apply List.filterMap_congr
    intro n _
    rw [report?_restrict hnop (halike.state?_before n)]
  · rw [hskipped, length_skipped]

/-- In a loop the pet `k` is teased while it eats, the pet `j` is petted while it runs, and the pet
`m` is fed, so that nothing is known about `m` there. Each of `k` and `m` alone fares the same. -/
theorem check_restrict_loop :
    let c : Checker := { protocol := .pet, resolve := .ofType "Pet" }
    let g : Graph := ⟨"loop", none, #[⟨.invoke "k" (some "Pet") "feed", none⟩,
      ⟨.invoke "k" (some "Pet") "tease", none⟩, ⟨.invoke "j" (some "Pet") "pet", none⟩,
      ⟨.invoke "m" (some "Pet") "feed", none⟩],
      #[⟨0, 1, .sequential⟩, ⟨1, 2, .sequential⟩, ⟨2, 3, .sequential⟩, ⟨3, 1, .loopBack⟩], some 0⟩
    let seed : Assignment := (∅ : Assignment).assign ⟨"Sleeping"⟩ ⟨"j"⟩ (.known ⟨"Running"⟩)
    let teased : Violation := ⟨⟨"k"⟩, 1, none, none, ⟨"tease"⟩, .known ⟨"Playing"⟩, ⟨"Eating"⟩⟩
    let petted : Violation := ⟨⟨"j"⟩, 2, none, none, ⟨"pet"⟩, .known ⟨"Sleeping"⟩, ⟨"Running"⟩⟩
    (c.check g seed).violations = [teased, petted] ∧
      (c.check (c.restrict g ⟨"k"⟩) (seed.restrict ⟨"k"⟩)).violations = [teased] ∧
      (c.before (c.restrict g ⟨"m"⟩) (seed.restrict ⟨"m"⟩) 3).state? c.protocol.initial ⟨"m"⟩ =
        some .unknown ∧
      c.skipped (c.restrict g ⟨"m"⟩) (seed.restrict ⟨"m"⟩) = [(3, ⟨⟨"m"⟩, ⟨"feed"⟩⟩)] ∧
      (c.check (c.restrict g ⟨"m"⟩) (seed.restrict ⟨"m"⟩)).stats.suppressedCalls = 1 := by
  intro c g seed teased petted
  have hboth : (c.check g seed).violations = [teased, petted] := by decide +kernel
  have hlost : (c.before g seed 3).state? c.protocol.initial ⟨"m"⟩ = some .unknown := by
    decide +kernel
  have hfed : (c.skipped g seed).filter (fun s => s.2.handle = ⟨"m"⟩) =
      [(3, ⟨⟨"m"⟩, ⟨"feed"⟩⟩)] := by decide +kernel
  obtain ⟨hk, -⟩ := check_restrict c "Pet" rfl g seed ⟨"k"⟩
  obtain ⟨-, hm, hskipped, hcount⟩ := check_restrict c "Pet" rfl g seed ⟨"m"⟩
  refine ⟨hboth, ?_, (hm 3).1 ▸ hlost, hskipped ▸ hfed, ?_⟩
  · rw [← hk, hboth]
    decide
  · rw [← hcount, hfed]
    rfl

end Checker

end Typestate
