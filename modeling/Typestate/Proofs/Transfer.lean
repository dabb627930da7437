import Typestate.Checker
import Typestate.Proofs.Flow

/-!
The effect of a node, handle by handle. A node changes the state of at most the handle that it
calls, and what it makes of a handle depends on the state of that handle alone (`Checker.effect`).
An unknown state stays unknown, so the effect is monotone; a refused call leaves the value as it
is.
-/

namespace Typestate

theorem Verdict.violation?_eq_some {d : Verdict} {v : Violation} :
    d.violation? = some v ↔ d = .rejected v := by
  cases d <;> simp [violation?]

namespace Protocol

/-- The state of a handle after an operation is called on it. -/
def advance (p : Protocol) (a : Action) : Tracked → Tracked
  | .unknown => .unknown
  | .known s => if (p.transition s a).accepted then (p.transition s a).next else .known s

variable {p : Protocol} {n : Nat} {span : Option Span} {c : Call} {m : Assignment}

@[simp] theorem advance_unknown (a : Action) : p.advance a .unknown = .unknown := rfl

theorem advance_of_accepted {s : State} {a : Action} (ht : (p.transition s a).accepted = true) :
    p.advance a (.known s) = (p.transition s a).next :=
  if_pos ht

theorem advance_of_rejected {s : State} {a : Action} (ht : (p.transition s a).accepted = false) :
    p.advance a (.known s) = .known s :=
  if_neg (by simp [ht])

theorem call_of_unknown (hs : m.state p.initial c.handle = .unknown) :
    p.call n span c m =
      ⟨.reached (m.assign p.initial c.handle .unknown), .suppressed c⟩ := by
  simp only [call, hs]

theorem call_of_accepted {s : State} (hs : m.state p.initial c.handle = .known s)
    (ht : (p.transition s c.action).accepted = true) :
    p.call n span c m =
      ⟨.reached (m.assign p.initial c.handle (p.transition s c.action).next), .accepted c⟩ := by
  simp only [call, hs, ht, if_true]

theorem call_of_rejected {s : State} (hs : m.state p.initial c.handle = .known s)
    (ht : (p.transition s c.action).accepted = false) :
    p.call n span c m =
      ⟨.reached m,
        .rejected ⟨c.handle, n, span, none, c.action, (p.transition s c.action).next, s⟩⟩ := by
  simp only [call, hs, ht, Bool.false_eq_true, if_false]

/-- A call advances its handle and no other. -/
theorem state?_call (p : Protocol) (n : Nat) (span : Option Span) (c : Call) (m : Assignment)
    (h : Handle) :
    (p.call n span c m).output.state? p.initial h =
      some (if c.handle = h then p.advance c.action (m.state p.initial h)
        else m.state p.initial h) := by
  cases hs : m.state p.initial c.handle with
  | unknown =>
      rw [call_of_unknown hs]
      by_cases hh : c.handle = h
      · subst hh
        simp [hs]
      · simp [hh, Assignment.state_assign_of_ne _ (Ne.symm hh)]
  | known s =>
      cases ht : (p.transition s c.action).accepted with
      | true =>
          rw [call_of_accepted hs ht]
          by_cases hh : c.handle = h
          · subst hh
            simp [hs, advance_of_accepted ht]
          · simp [hh, Assignment.state_assign_of_ne _ (Ne.symm hh)]
      | false =>
          rw [call_of_rejected hs ht]
          by_cases hh : c.handle = h
          · subst hh
            simp [hs, advance_of_rejected ht]
          · simp [hh]

theorem canonical_call (hm : m.Canonical p.initial) :
    (p.call n span c m).output.Canonical p.initial := by
  cases hs : m.state p.initial c.handle with
  | unknown =>
      rw [call_of_unknown hs]
      exact hm.assign _ _
  | known s =>
      cases ht : (p.transition s c.action).accepted with
      | true =>
          rw [call_of_accepted hs ht]
          exact hm.assign _ _
      | false =>
          rw [call_of_rejected hs ht]
          exact hm

/-- A call is refused exactly if its handle is in a known state from which the protocol refuses
it. -/
theorem call_rejected_iff {v : Violation} :
    (p.call n span c m).verdict = .rejected v ↔
      ∃ s, m.state p.initial c.handle = .known s ∧ (p.transition s c.action).accepted = false ∧
        v = ⟨c.handle, n, span, none, c.action, (p.transition s c.action).next, s⟩ := by
  cases hs : m.state p.initial c.handle with
  | unknown => simp [call_of_unknown hs]
  | known s =>
      cases ht : (p.transition s c.action).accepted with
      | true => simp [call_of_accepted hs ht, ht]
      | false =>
          rw [call_of_rejected hs ht]
          constructor
          · rintro ⟨rfl⟩
            exact ⟨s, rfl, ht, rfl⟩
          · rintro ⟨t, ⟨rfl⟩, -, rfl⟩
            rfl

theorem suppressed?_call {d : Call} :
    (p.call n span c m).verdict.suppressed? = some d ↔
      c = d ∧ m.state p.initial c.handle = .unknown := by
  cases hs : m.state p.initial c.handle with
  | unknown => simp [call_of_unknown hs, Verdict.suppressed?]
  | known s =>
      cases ht : (p.transition s c.action).accepted with
      | true => simp [call_of_accepted hs ht, Verdict.suppressed?]
      | false => simp [call_of_rejected hs ht, Verdict.suppressed?]

/-! ### Nodes -/

section Transfer

variable {resolve : Resolver} {node : Node} {x y : Flow} {v : Violation}

@[simp] theorem transfer_unreachable :
    p.transfer resolve n node .unreachable = ⟨.unreachable, .quiet⟩ := rfl

theorem transfer_of_resolve_eq_none (hresolve : resolve node = none) (x : Flow) :
    p.transfer resolve n node x = ⟨x, .quiet⟩ := by
  cases x with
  | unreachable => rfl
  | reached m => simp only [transfer, hresolve]

theorem transfer_of_call (hresolve : resolve node = some c) (m : Assignment) :
    p.transfer resolve n node (.reached m) = p.call n node.span c m := by
  simp only [transfer, hresolve]

theorem canonical_transfer (hx : x.Canonical p.initial) :
    (p.transfer resolve n node x).output.Canonical p.initial := by
  cases x with
  | unreachable => exact hx
  | reached m =>
      cases hcall : resolve node with
      | none => rwa [transfer_of_resolve_eq_none hcall]
      | some call =>
          rw [transfer_of_call hcall]
          exact canonical_call hx

/-- A node acts on each handle by itself: it advances the one that it calls. -/
theorem state?_transfer (p : Protocol) (resolve : Resolver) (n : Nat) (node : Node) (x : Flow)
    (h : Handle) :
    (p.transfer resolve n node x).output.state? p.initial h =
      (x.state? p.initial h).map fun s =>
        (resolve node).elim s fun c => if c.handle = h then p.advance c.action s else s := by
  cases x with
  | unreachable => rfl
  | reached m =>
      cases hcall : resolve node with
      | none => simp [transfer_of_resolve_eq_none hcall]
      | some call =>
          rw [transfer_of_call hcall, state?_call]
          rfl

theorem state?_transfer_of_unknown {h : Handle} (hx : x.state? p.initial h = some .unknown) :
    (p.transfer resolve n node x).output.state? p.initial h = some .unknown := by
  rw [state?_transfer, hx, Option.map_some]
  cases resolve node <;> simp

/-- More is known after a node where more is known before it. -/
theorem transfer_under (hxy : x.Under p.initial y) :
    (p.transfer resolve n node x).output.Under p.initial (p.transfer resolve n node y).output := by
  intro h s hs
  rw [state?_transfer] at hs
  obtain ⟨t, ht, rfl⟩ := Option.map_eq_some_iff.1 hs
  rcases hxy h t ht with hy | hy
  · exact .inl (by rw [state?_transfer, hy, Option.map_some])
  · exact .inr (state?_transfer_of_unknown hy)

/-- A violation is found exactly where the state of the called handle is known and the protocol
refuses the call in it. -/
theorem transfer_rejected_iff :
    (p.transfer resolve n node x).verdict = .rejected v ↔
      ∃ call s, resolve node = some call ∧ x.state? p.initial call.handle = some (.known s) ∧
        (p.transition s call.action).accepted = false ∧
        v = ⟨call.handle, n, node.span, none, call.action,
          (p.transition s call.action).next, s⟩ := by
  constructor
  · intro hv
    cases x with
    | unreachable => simp at hv
    | reached m =>
        cases hcall : resolve node with
        | none => simp [transfer_of_resolve_eq_none hcall] at hv
        | some call =>
            rw [transfer_of_call hcall, call_rejected_iff] at hv
            obtain ⟨s, hs, ht, hv⟩ := hv
            exact ⟨call, s, rfl, congrArg some hs, ht, hv⟩
  · rintro ⟨call, s, hcall, hs, ht, hv⟩
    obtain ⟨m, rfl, hm⟩ := Flow.state?_eq_some.1 hs
    rw [transfer_of_call hcall, call_rejected_iff]
    exact ⟨s, hm, ht, hv⟩

/-- A call is skipped exactly if the state of its handle is unknown. -/
theorem transfer_suppressed_iff :
    (p.transfer resolve n node x).verdict.suppressed? = some c ↔
      resolve node = some c ∧ x.state? p.initial c.handle = some .unknown := by
  cases x with
  | unreachable => simp [Verdict.suppressed?]
  | reached m =>
      cases hcall : resolve node with
      | none => simp [transfer_of_resolve_eq_none hcall, Verdict.suppressed?]
      | some call =>
          rw [transfer_of_call hcall, suppressed?_call, Option.some_inj, Flow.state?_reached,
            Option.some_inj]
          exact and_congr_right fun heq => by rw [heq]

/-- What is refused on a value is refused on every reached value below it. -/
theorem transfer_rejected_of_under (hxy : x.Under p.initial y) (hx : x ≠ .unreachable)
    (hv : (p.transfer resolve n node y).verdict = .rejected v) :
    (p.transfer resolve n node x).verdict = .rejected v := by
  obtain ⟨call, s, hcall, hs, ht, hv⟩ := transfer_rejected_iff.1 hv
  cases hxs : x.state? p.initial call.handle with
  | none => exact absurd (Flow.state?_eq_none.1 hxs) hx
  | some t =>
      obtain rfl := hxy.known hxs hs
      exact transfer_rejected_iff.2 ⟨call, s, hcall, hxs, ht, hv⟩

/-- What is skipped on a value is skipped on every value above it. -/
theorem transfer_suppressed_of_under (hxy : x.Under p.initial y)
    (hskip : (p.transfer resolve n node x).verdict.suppressed? = some c) :
    (p.transfer resolve n node y).verdict.suppressed? = some c := by
  obtain ⟨hcall, hunknown⟩ := transfer_suppressed_iff.1 hskip
  exact transfer_suppressed_iff.2 ⟨hcall, (hxy c.handle _ hunknown).elim id id⟩

/-- A refused call has no effect. -/
theorem output_of_rejected (hv : (p.transfer resolve n node x).verdict = .rejected v) :
    (p.transfer resolve n node x).output = x := by
  obtain ⟨call, s, hcall, hs, ht, -⟩ := transfer_rejected_iff.1 hv
  obtain ⟨m, rfl, hm⟩ := Flow.state?_eq_some.1 hs
  rw [transfer_of_call hcall, call_of_rejected hm ht]

end Transfer

end Protocol

namespace Checker

variable {c : Checker} {g : Graph} {n : Nat}

/-- The tracked call of a node. -/
def call? (c : Checker) (g : Graph) (n : Nat) : Option Call :=
  g.nodes[n]?.bind c.resolve

/-- What a node makes of the state of a handle. -/
def effect (c : Checker) (g : Graph) (n : Nat) (h : Handle) (s : Tracked) : Tracked :=
  match c.call? g n with
  | none => s
  | some call => if call.handle = h then c.protocol.advance call.action s else s

@[simp] theorem effect_unknown (h : Handle) : c.effect g n h .unknown = .unknown := by
  unfold effect
  split
  · rfl
  · simp

theorem effect_of_call_eq_none (hcall : c.call? g n = none) (h : Handle) (s : Tracked) :
    c.effect g n h s = s := by
  simp only [effect, hcall]

theorem effect_of_call {call : Call} (hcall : c.call? g n = some call) (h : Handle) (s : Tracked) :
    c.effect g n h s = if call.handle = h then c.protocol.advance call.action s else s := by
  simp only [effect, hcall]

@[simp] theorem outcome_unreachable : c.outcome g n .unreachable = ⟨.unreachable, .quiet⟩ := by
  unfold outcome
  split <;> rfl

theorem outcome_of_node {node : Node} (hnode : g.nodes[n]? = some node) (x : Flow) :
    c.outcome g n x = c.protocol.transfer c.resolve n node x := by
  simp only [outcome, hnode]

theorem outcome_of_node_eq_none (hnode : g.nodes[n]? = none) (x : Flow) :
    c.outcome g n x = ⟨x, .quiet⟩ := by
  simp only [outcome, hnode]

theorem outcome_of_call_eq_none (hcall : c.call? g n = none) (x : Flow) :
    c.outcome g n x = ⟨x, .quiet⟩ := by
  cases hnode : g.nodes[n]? with
  | none => exact outcome_of_node_eq_none hnode x
  | some node =>
      have hresolve : c.resolve node = none := by simpa [call?, hnode] using hcall
      rw [outcome_of_node hnode, Protocol.transfer_of_resolve_eq_none hresolve]

theorem outcome_of_call {node : Node} {call : Call} (hnode : g.nodes[n]? = some node)
    (hresolve : c.resolve node = some call) (m : Assignment) :
    c.outcome g n (.reached m) = c.protocol.call n node.span call m := by
  rw [outcome_of_node hnode, Protocol.transfer_of_call hresolve]

theorem call?_eq_some {call : Call} :
    c.call? g n = some call ↔ ∃ node, g.nodes[n]? = some node ∧ c.resolve node = some call := by
  simp [call?, Option.bind_eq_some_iff]

/-- A node acts on each handle by itself. -/
theorem state?_outcome (c : Checker) (g : Graph) (n : Nat) (x : Flow) (h : Handle) :
    (c.outcome g n x).output.state? c.protocol.initial h =
      (x.state? c.protocol.initial h).map (c.effect g n h) := by
  cases hnode : g.nodes[n]? with
  | none =>
      have hcall : c.call? g n = none := by simp [call?, hnode]
      have hkeep : c.effect g n h = id := funext (effect_of_call_eq_none hcall h)
      rw [outcome_of_node_eq_none hnode, hkeep, Option.map_id, id]
  | some node =>
      have hcall : c.call? g n = c.resolve node := by simp [call?, hnode]
      rw [outcome_of_node hnode, Protocol.state?_transfer]
      unfold effect
      rw [hcall]
      cases c.resolve node <;> rfl

theorem canonical_outcome {x : Flow} (hx : x.Canonical c.protocol.initial) :
    (c.outcome g n x).output.Canonical c.protocol.initial := by
  unfold outcome
  split
  · exact hx
  · exact Protocol.canonical_transfer hx

/-- More is known after a node where more is known before it. -/
theorem outcome_under {x y : Flow} (hxy : x.Under c.protocol.initial y) :
    (c.outcome g n x).output.Under c.protocol.initial (c.outcome g n y).output := by
  unfold outcome
  split
  · exact hxy
  · exact Protocol.transfer_under hxy

/-- A violation is found exactly where the state of the called handle is known and the protocol
refuses the call in it. -/
theorem outcome_rejected_iff {x : Flow} {v : Violation} :
    (c.outcome g n x).verdict = .rejected v ↔
      ∃ node call s, g.nodes[n]? = some node ∧ c.resolve node = some call ∧
        x.state? c.protocol.initial call.handle = some (.known s) ∧
        (c.protocol.transition s call.action).accepted = false ∧
        v = ⟨call.handle, n, node.span, none, call.action,
          (c.protocol.transition s call.action).next, s⟩ := by
  cases hnode : g.nodes[n]? with
  | none => simp [outcome_of_node_eq_none hnode]
  | some node => simp [outcome_of_node hnode, Protocol.transfer_rejected_iff]

/-- A refused call has no effect. -/
theorem output_of_rejected {x : Flow} {v : Violation}
    (hv : (c.outcome g n x).verdict = .rejected v) : (c.outcome g n x).output = x := by
  cases hnode : g.nodes[n]? with
  | none => rw [outcome_of_node_eq_none hnode]
  | some node =>
      rw [outcome_of_node hnode] at hv ⊢
      exact Protocol.output_of_rejected hv

end Checker

end Typestate
