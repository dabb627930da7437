import Typestate.Proofs.Reached
import Typestate.Proofs.Validity

/-!
The states of a valid protocol are closed. Joining forgets states and never makes one up, and a
call leads to a state that the protocol declares; so no value that comes up while a procedure is
solved has a state from elsewhere, if what enters the procedure has none. No declared state has a
reserved name, so what a report shows can be read back: the word "Unknown" is never the name of a
state.
-/

namespace Typestate

namespace Protocol

/-- What a protocol lets one say of a handle: a state that it declares, or nothing. -/
def Declares (p : Protocol) : Tracked → Prop
  | .known s => s ∈ p.states
  | .unknown => True

/-- Every handle has a declared state or an unknown one. -/
def Covers (p : Protocol) (x : Flow) : Prop :=
  ∀ h t, x.state? p.initial h = some t → p.Declares t

variable {p : Protocol} {s t : Tracked} {x y : Flow}

theorem Declares.join (hs : p.Declares s) : p.Declares (s.join t) := by
  rcases s.join_eq_left_or t with h | h
  · rwa [h]
  · rw [h]
    trivial

theorem covers_unreachable : p.Covers .unreachable := by
  intro h t ht
  simp at ht

theorem Covers.join (hx : p.Covers x) (hy : p.Covers y) : p.Covers (x.join p.initial y) := by
  intro h t ht
  rw [Flow.state?_join] at ht
  cases hs : x.state? p.initial h with
  | none => exact hy h t (by simpa [hs] using ht)
  | some s =>
      cases hu : y.state? p.initial h with
      | none => exact hx h t (by simpa [hs, hu] using ht)
      | some u =>
          obtain rfl : s.join u = t := by simpa [hs, hu] using ht
          exact (hx h s hs).join

/-- What is stored for a handle is its state. -/
theorem Covers.declares {m : Assignment} {h : Handle} (hm : p.Covers (.reached m))
    (ht : m[h]? = some t) : p.Declares t := by
  apply hm h t
  rw [Flow.state?_reached, Assignment.state_eq_getD, ht, Option.getD_some]

section Valid

variable (hp : p.Valid)

include hp

/-- A handle that enters without a state is in the initial one, which is declared. -/
theorem Valid.covers_entry {seed : Assignment}
    (hseed : ∀ (h : Handle) (s : State), seed[h]? = some (.known s) → s ∈ p.states) :
    p.Covers (Flow.entry p.initial seed) := by
  intro h t ht
  rw [Flow.state?_entry, Assignment.state_eq_getD] at ht
  cases hstored : seed[h]? with
  | none =>
      obtain rfl : .known p.initial = t := by simpa [hstored] using ht
      exact hp.initial_mem
  | some u =>
      obtain rfl : u = t := by simpa [hstored] using ht
      cases u with
      | known s => exact hseed h s hstored
      | unknown => trivial

theorem Valid.declares_next {s : State} (hs : s ∈ p.states) (a : Action) :
    p.Declares (p.transition s a).next := by
  -- Of an answer that names a state, validation has looked at the name, unless it is `s` itself.
  have hnamed : ∀ target : Tracked, (∀ s, target.known? = some s → s ∈ p.states) →
      p.Declares target := by
    intro target htarget
    cases target with
    | known s => exact htarget s rfl
    | unknown => trivial
  unfold transition
  cases hrule : p.rules[a]? with
  | some rule =>
      apply hnamed
      intro s hs
      exact hp.rule_mem a rule hrule s (by simp [Rule.mentioned, hs])
  | none =>
      cases hfallback : p.fallback with
      | accept target =>
          apply hnamed
          intro s hs
          exact hp.fallback_mem s (by rw [hfallback]; exact hs)
      | preserve => exact hs
      | reject => trivial

/-- A call leads from declared states to declared states. -/
theorem Valid.declares_advance (ht : p.Declares t) (a : Action) : p.Declares (p.advance a t) := by
  cases t with
  | unknown => trivial
  | known s =>
      cases haccepted : (p.transition s a).accepted with
      | true =>
          rw [advance_of_accepted haccepted]
          exact hp.declares_next ht a
      | false =>
          rw [advance_of_rejected haccepted]
          exact ht

theorem Valid.toLower_text_eq_iff (ht : p.Declares t) :
    t.text.toLower = "unknown" ↔ t = .unknown := by
  cases t with
  | known s => simpa [State.isReserved, Tracked.text] using hp.not_reserved s ht
  | unknown =>
      have hword : Tracked.unknown.text.toLower = "unknown" := by decide +kernel
      simp [hword]

/-- A declared state is read back from what is shown of it. -/
theorem Valid.ofTarget_text (ht : p.Declares t) : Tracked.ofTarget t.text = t := by
  have htext := hp.toLower_text_eq_iff ht
  unfold Tracked.ofTarget State.isReserved
  cases t with
  | known s => exact if_neg (by simpa using htext)
  | unknown => exact if_pos (by simpa using htext)

end Valid

end Protocol

/-- All that a report says of the states of handles. -/
def Report.tracked (r : Report) : List Tracked :=
  r.violations.flatMap (fun v => [.known v.actual, v.attempted])
    ++ (r.flows.getD []).flatMap fun f =>
      f.input.toList.map Prod.snd ++ f.output.toList.map Prod.snd

namespace Checker

variable {c : Checker} {g : Graph} {seed : Assignment} {n : Nat} {x : Flow}

/-- What a report keeps of a node comes from the finding about it. -/
theorem exists_finding_of_mem_flows {flow : NodeFlow}
    (hflow : flow ∈ (c.check g seed).flows.getD []) :
    ∃ f ∈ (c.analyze g seed).findings, nodeFlow f = flow := by
  change flow ∈ (if c.settings.keepFlowStates then _ else _ : Option _).getD [] at hflow
  split at hflow
  · exact List.mem_map.1 hflow
  · simp at hflow

section Valid

variable (hp : c.protocol.Valid)

include hp

theorem declares_effect {t : Tracked} (ht : c.protocol.Declares t) (h : Handle) :
    c.protocol.Declares (c.effect g n h t) := by
  cases hcall : c.call? g n with
  | none => rwa [effect_of_call_eq_none hcall]
  | some call =>
      rw [effect_of_call hcall]
      split
      · exact hp.declares_advance ht call.action
      · exact ht

theorem covers_outcome (hx : c.protocol.Covers x) :
    c.protocol.Covers (c.outcome g n x).output := by
  intro h t ht
  rw [state?_outcome] at ht
  obtain ⟨s, hs, rfl⟩ := Option.map_eq_some_iff.1 ht
  exact declares_effect hp (hx h s hs) h

/-- A violation is about a declared state and leads to one. -/
theorem declares_of_report? {v : Violation} (hx : c.protocol.Covers x)
    (hv : c.report? g n x = some v) :
    v.actual ∈ c.protocol.states ∧ c.protocol.Declares v.attempted := by
  obtain ⟨node, call, s, -, -, hs, -, rfl⟩ := report?_eq_some.1 hv
  have hactual : s ∈ c.protocol.states := hx _ _ hs
  exact ⟨hactual, hp.declares_next hactual call.action⟩

variable (hseed : ∀ (h : Handle) (s : State), seed[h]? = some (.known s) → s ∈ c.protocol.states)

include hseed

theorem covers_source (g : Graph) (n : Nat) :
    c.protocol.Covers ((c.problem g seed).source n) := by
  change c.protocol.Covers (if g.entry = some n then _ else _)
  split
  · exact hp.covers_entry hseed
  · exact Protocol.covers_unreachable

/-- The equations do not lead out of the values that the protocol covers. -/
theorem closed_covers (g : Graph) :
    (c.problem g seed).Closed (fun _ => c.protocol.Covers) (fun _ => c.protocol.Covers) where
  bottom_input _ := Protocol.covers_unreachable
  bottom_output _ := Protocol.covers_unreachable
  source n _ := covers_source hp hseed g n
  join _ _ _ _ hx hy := hx.join hy
  edge _ _ _ _ _ hx := hx
  transfer _ _ _ hx := covers_outcome hp hx

theorem declares_of_mem_violations {v : Violation} (hv : v ∈ (c.check g seed).violations) :
    v.actual ∈ c.protocol.states ∧ c.protocol.Declares v.attempted := by
  obtain ⟨n, -, hreport⟩ := mem_violations_check.1 hv
  exact declares_of_report? hp (closed_solve (closed_covers hp hseed g) n).1 hreport

theorem declares_of_mem_tracked {t : Tracked} (ht : t ∈ (c.check g seed).tracked) :
    c.protocol.Declares t := by
  rcases List.mem_append.1 ht with ht | ht
  · obtain ⟨v, hv, ht⟩ := List.mem_flatMap.1 ht
    obtain ⟨hactual, hattempted⟩ := declares_of_mem_violations hp hseed hv
    rcases List.mem_pair.1 ht with rfl | rfl
    · exact hactual
    · exact hattempted
  · obtain ⟨flow, hflow, ht⟩ := List.mem_flatMap.1 ht
    obtain ⟨f, hf, rfl⟩ := exists_finding_of_mem_flows hflow
    obtain ⟨hbefore, hafter⟩ := closed_solve (closed_covers hp hseed g) f.node
    obtain ⟨hinput, houtput⟩ := before_after_nodeFlow hf
    rw [hinput] at hbefore
    rw [houtput] at hafter
    simp only [List.mem_append, List.mem_map, Prod.exists,
      Std.ExtTreeMap.mem_toList_iff_getElem?_eq_some] at ht
    rcases ht with ⟨h, u, hu, rfl⟩ | ⟨h, u, hu, rfl⟩
    · exact hbefore.declares hu
    · exact hafter.declares hu

end Valid

/-- A valid protocol is not left: if what enters a procedure has declared states only, so have the
values stored after any number of steps, what is joined of them on the way to a new value, the
solved values, and the violations with the states that they are about and would have led to. So all
that a report shows of a handle is "Unknown", in any ASCII case, exactly if the state is unknown,
and can be read back. -/
theorem states_closed (c : Checker) (g : Graph) (seed : Assignment)
    (hvalid : c.protocol.validate = .ok ())
    (hseed : ∀ (h : Handle) (s : State), seed[h]? = some (.known s) → s ∈ c.protocol.states) :
    let P := c.problem g seed
    (∀ k n, let progress := P.step^[k] P.start
      c.protocol.Covers (P.value progress.inputs n) ∧
      c.protocol.Covers (P.value progress.outputs n) ∧
      ∀ ms : List Nat, c.protocol.Covers
        (ms.foldl (fun x m => x.join c.protocol.initial (P.value progress.outputs m))
          (P.source n))) ∧
    (∀ n, c.protocol.Covers (c.before g seed n) ∧ c.protocol.Covers (c.after g seed n)) ∧
    (∀ v ∈ (c.check g seed).violations,
      v.actual ∈ c.protocol.states ∧ c.protocol.Declares v.attempted) ∧
    ∀ t ∈ (c.check g seed).tracked, c.protocol.Declares t ∧
      (∀ s, t = .known s → s.name.toLower ≠ "unknown") ∧
      (t.text.toLower = "unknown" ↔ t = .unknown) ∧ Tracked.ofTarget t.text = t := by
  intro P
  have hp : c.protocol.Valid := Protocol.validate_eq_ok_iff.1 hvalid
  have hclosed := closed_covers hp hseed g
  refine ⟨fun k n => ?_, closed_solve hclosed, fun v hv => declares_of_mem_violations hp hseed hv,
    fun t ht => ?_⟩
  · have hwithin := hclosed.run (c.lawful_problem g seed) k
    rw [Dataflow.Problem.run_eq_iterate] at hwithin
    refine ⟨(hwithin n).1, (hwithin n).2, fun ms => ?_⟩
    induction ms using List.reverseRecOn with
    | nil => exact covers_source hp hseed g n
    | append_singleton ms m ih =>
        rw [List.foldl_append]
        exact ih.join (hwithin m).2
  · have hdeclares := declares_of_mem_tracked hp hseed ht
    have htext := hp.toLower_text_eq_iff hdeclares
    refine ⟨hdeclares, ?_, htext, hp.ofTarget_text hdeclares⟩
    rintro s rfl hname
    simpa using htext.1 hname

/-- The pet `k` runs in, is petted, which is refused, and then does something in a loop that the
protocol has no rule for. -/
theorem states_closed_loop :
    let c : Checker :=
      { protocol := .pet, resolve := .ofType "Pet", settings := { keepFlowStates := true } }
    let g : Graph := ⟨"loop", none, #[⟨.invoke "k" (some "Pet") "pet", none⟩,
      ⟨.invoke "k" (some "Pet") "purr", none⟩], #[⟨0, 1, .sequential⟩, ⟨1, 1, .loopBack⟩], some 0⟩
    let seed : Assignment := (∅ : Assignment).insert ⟨"k"⟩ (.known ⟨"Running"⟩)
    c.protocol.validate = .ok () ∧ ⟨"Running"⟩ ∈ c.protocol.states ∧
      c.protocol.Covers (c.before g seed 1) ∧
      (c.check g seed).tracked = [.known ⟨"Running"⟩, .known ⟨"Sleeping"⟩, .known ⟨"Running"⟩,
        .known ⟨"Running"⟩, .unknown, .unknown] ∧
      ∀ t ∈ (c.check g seed).tracked, Tracked.ofTarget t.text = t := by
  intro c g seed
  have hvalid : c.protocol.validate = .ok () := by decide +kernel
  have hseed : ∀ (h : Handle) (s : State), seed[h]? = some (.known s) → s ∈ c.protocol.states := by
    intro h s hs
    simp only [seed, Std.ExtTreeMap.getElem?_insert] at hs
    split at hs
    · obtain rfl : (⟨"Running"⟩ : State) = s := by simpa using hs
      decide +kernel
    · simp at hs
  obtain ⟨-, hvalues, -, hreport⟩ := states_closed c g seed hvalid hseed
  exact ⟨hvalid, by decide +kernel, (hvalues 1).1, by decide +kernel, fun t ht =>
    (hreport t ht).2.2.2⟩

end Checker

end Typestate
