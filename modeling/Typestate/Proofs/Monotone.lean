import Typestate.Proofs.Transfer
import Typestate.Protocol.Standard

/-!
Nodes as functions on flow values. The effect of a node is monotone: the more is known before it,
the more is known after it. Its verdict goes the other way. A violation that is found although
little is known is found, field by field the same, wherever more is known, and a call is skipped
only where its handle is lost already. All this rests on what a node may store: it touches the entry
of the handle that it calls and no other, and if the call is refused or skipped not even this one.
-/

namespace Typestate

namespace Assignment

variable {initial : State} {m : Assignment}

theorem getElem?_assign_of_ne (m : Assignment) {h k : Handle} (hne : h ≠ k) (s : Tracked) :
    (m.assign initial h s)[k]? = m[k]? := by
  have hkey : ¬compare h k = .eq := fun heq => hne (Std.LawfulEqOrd.eq_of_compare heq)
  unfold assign
  split
  · rw [Std.ExtTreeMap.getElem?_erase, if_neg hkey]
  · rw [Std.ExtTreeMap.getElem?_insert, if_neg hkey]

/-- A handle that is unknown is stored, so storing it once more changes nothing. -/
theorem assign_unknown_self {h : Handle} (hm : m.state initial h = .unknown) :
    m.assign initial h .unknown = m := by
  have hstored : m[h]? = some .unknown := by
    rw [state_eq_getD] at hm
    cases hentry : m[h]? with
    | none => simp [hentry] at hm
    | some s => simpa [hentry] using hm
  apply Std.ExtTreeMap.ext_getElem?
  intro k
  by_cases hk : h = k
  · subst hk
    rw [hstored]
    simp [assign]
  · exact getElem?_assign_of_ne m hk _

end Assignment

namespace Protocol

variable {p : Protocol} {resolve : Resolver} {n : Nat} {node : Node} {x : Flow} {call : Call}

theorem output_of_suppressed
    (hskip : (p.transfer resolve n node x).verdict.suppressed? = some call) :
    (p.transfer resolve n node x).output = x := by
  obtain ⟨hcall, hunknown⟩ := transfer_suppressed_iff.1 hskip
  obtain ⟨m, rfl, hm⟩ := Flow.state?_eq_some.1 hunknown
  rw [transfer_of_call hcall, call_of_unknown hm, Assignment.assign_unknown_self hm]

/-- A call leaves the entries of all other handles in place. -/
theorem output_call_frame (p : Protocol) (n : Nat) (span : Option Span) (c : Call)
    (m : Assignment) :
    ∃ m', (p.call n span c m).output = .reached m' ∧ ∀ h, c.handle ≠ h → m'[h]? = m[h]? := by
  have hassign : ∀ s h, c.handle ≠ h → (m.assign p.initial c.handle s)[h]? = m[h]? :=
    fun s h hne => m.getElem?_assign_of_ne hne s
  cases hs : m.state p.initial c.handle with
  | unknown => exact ⟨_, by rw [call_of_unknown hs], hassign _⟩
  | known s =>
      cases ht : (p.transition s c.action).accepted with
      | true => exact ⟨_, by rw [call_of_accepted hs ht], hassign _⟩
      | false => exact ⟨m, by rw [call_of_rejected hs ht], fun _ _ => rfl⟩

/-- A node leaves the entries of the handles in place that it does not call. -/
theorem output_transfer_frame (p : Protocol) (n : Nat) (x : Flow) {h : Handle}
    (hother : ∀ c, resolve node = some c → c.handle ≠ h) :
    (p.transfer resolve n node x).output.states?.map (fun m => m[h]?) =
      x.states?.map fun m => m[h]? := by
  cases x with
  | unreachable => rfl
  | reached m =>
      cases hcall : resolve node with
      | none => rw [transfer_of_resolve_eq_none hcall]
      | some c =>
          obtain ⟨m', houtput, hframe⟩ := p.output_call_frame n node.span c m
          rw [transfer_of_call hcall, houtput]
          exact congrArg some (hframe h (hother c hcall))

/-- The handle that a node calls is advanced. -/
theorem state?_transfer_of_call (hcall : resolve node = some call) (x : Flow) :
    (p.transfer resolve n node x).output.state? p.initial call.handle =
      (x.state? p.initial call.handle).map (p.advance call.action) := by
  rw [state?_transfer, hcall]
  simp

/-- The effect of a node is monotone and its violations are antitone, for every protocol and every
way to find calls. Of two canonical values the larger one gives the larger value after the node. A
violation on the larger one is found on the smaller one as well, if that is reached, and a call that
is skipped on the smaller one is skipped on the larger one. Whatever the value, the node changes
nothing but the entry of the handle that it calls, a handle that is unknown before it is unknown
after it, and the value is left as it is if a violation or a skipped call is found. What is found
and where the called handle gets is decided by the state of this handle alone. -/
theorem transfer_monotone (p : Protocol) (resolve : Resolver) (n : Nat) (node : Node) :
    let after (x : Flow) := (p.transfer resolve n node x).output
    let violation? (x : Flow) := (p.transfer resolve n node x).verdict.violation?
    let skipped? (x : Flow) := (p.transfer resolve n node x).verdict.suppressed?
    (∀ x y : Flow, x.Canonical p.initial → y.Canonical p.initial → Flow.Le p.initial x y →
      Flow.Le p.initial (after x) (after y) ∧
      (∀ v, violation? y = some v → x ≠ .unreachable → violation? x = some v) ∧
      ∀ call, skipped? x = some call → skipped? y = some call) ∧
    ∀ x : Flow,
      (∀ h, (∀ call, resolve node = some call → call.handle ≠ h) →
        (after x).states?.map (fun m => m[h]?) = x.states?.map fun m => m[h]?) ∧
      (∀ h, x.state? p.initial h = some .unknown →
        (after x).state? p.initial h = some .unknown) ∧
      (∀ v, violation? x = some v → after x = x) ∧
      (∀ call, skipped? x = some call → after x = x) ∧
      (∀ call, resolve node = some call →
        (after x).state? p.initial call.handle =
          (x.state? p.initial call.handle).map (p.advance call.action)) ∧
      (∀ v, violation? x = some v ↔
        ∃ call s, resolve node = some call ∧ x.state? p.initial call.handle = some (.known s) ∧
          (p.transition s call.action).accepted = false ∧
          v = ⟨call.handle, n, node.span, none, call.action,
            (p.transition s call.action).next, s⟩) ∧
      ∀ call, skipped? x = some call ↔
        resolve node = some call ∧ x.state? p.initial call.handle = some .unknown := by
  intro after violation? skipped?
  simp only [violation?, Verdict.violation?_eq_some]
  refine ⟨fun x y hx hy hle => ?_, fun x => ⟨fun h => output_transfer_frame p n x,
    fun h => state?_transfer_of_unknown, fun v => output_of_rejected,
    fun call => output_of_suppressed, fun call hcall => state?_transfer_of_call hcall x,
    fun v => transfer_rejected_iff, fun call => transfer_suppressed_iff⟩⟩
  have hunder : x.Under p.initial y := (Flow.le_iff_under hy).1 hle
  exact ⟨(Flow.le_iff_under (canonical_transfer hy)).2 (transfer_under hunder),
    fun v hv hne => transfer_rejected_of_under hunder hne hv,
    fun call => transfer_suppressed_of_under hunder⟩

/-- The pet `k` eats in both of two values, and `j` runs in the smaller one and is unknown in the
larger one. Teasing `k` is refused on both and leaves the entry of `j` in place. Scaring `j` is
skipped on the larger one, and still is where nothing is known of `k` either. -/
theorem transfer_monotone_pets :
    let initial := pet.initial
    let eating : Assignment := (∅ : Assignment).assign initial ⟨"k"⟩ (.known ⟨"Eating"⟩)
    let running : Assignment := eating.assign initial ⟨"j"⟩ (.known ⟨"Running"⟩)
    let gone : Assignment := eating.assign initial ⟨"j"⟩ .unknown
    let lost : Assignment := gone.assign initial ⟨"k"⟩ .unknown
    let x : Flow := .reached running
    let y : Flow := .reached gone
    let z : Flow := .reached lost
    let tease := pet.transfer (.ofType "Pet") 4 ⟨.invoke "k" (some "Pet") "tease", none⟩
    let scare := pet.transfer (.ofType "Pet") 5 ⟨.invoke "j" (some "Pet") "scare", none⟩
    let v : Violation := ⟨⟨"k"⟩, 4, none, none, ⟨"tease"⟩, .known ⟨"Playing"⟩, ⟨"Eating"⟩⟩
    (x.Canonical initial ∧ y.Canonical initial ∧ z.Canonical initial) ∧
      Flow.Le initial x y ∧ Flow.Le initial y z ∧
      (tease y).verdict.violation? = some v ∧ (tease x).verdict.violation? = some v ∧
      (tease x).output = x ∧
      (tease x).output.states?.map (fun m => m[(⟨"j"⟩ : Handle)]?) =
        some (some (.known ⟨"Running"⟩)) ∧
      (scare y).verdict.suppressed? = some ⟨⟨"j"⟩, ⟨"scare"⟩⟩ ∧
      (scare z).verdict.suppressed? = some ⟨⟨"j"⟩, ⟨"scare"⟩⟩ ∧
      (scare z).output = z ∧ (scare y).output.state? initial ⟨"j"⟩ = some .unknown ∧
      Flow.Le initial (scare y).output (scare z).output := by
  intro initial eating running gone lost x y z tease scare v
  have heating : eating.Canonical initial := Assignment.canonical_empty.assign _ _
  have hx : x.Canonical initial := heating.assign _ _
  have hy : y.Canonical initial := heating.assign _ _
  have hz : z.Canonical initial := (heating.assign _ _).assign _ _
  have hjoins : running.join initial gone = gone ∧ gone.join initial lost = lost := by
    decide +kernel
  have hxy : Flow.Le initial x y := congrArg Flow.reached hjoins.1
  have hyz : Flow.Le initial y z := congrArg Flow.reached hjoins.2
  obtain ⟨htease, hteased⟩ :=
    transfer_monotone pet (.ofType "Pet") 4 ⟨.invoke "k" (some "Pet") "tease", none⟩
  obtain ⟨hscare, hscared⟩ :=
    transfer_monotone pet (.ofType "Pet") 5 ⟨.invoke "j" (some "Pet") "scare", none⟩
  have hrefused : (tease y).verdict.violation? = some v := by decide +kernel
  have hrefused' := (htease x y hx hy hxy).2.1 v hrefused (by simp [x])
  have hskipped : (scare y).verdict.suppressed? = some ⟨⟨"j"⟩, ⟨"scare"⟩⟩ := by decide +kernel
  obtain ⟨hle, -, hskip⟩ := hscare y z hy hz hyz
  obtain ⟨hframe, -, hkeep, -⟩ := hteased x
  have hother : ∀ call : Call, Resolver.ofType "Pet" ⟨.invoke "k" (some "Pet") "tease", none⟩ =
      some call → call.handle ≠ ⟨"j"⟩ := by
    rintro call ⟨rfl⟩
    decide
  exact ⟨⟨hx, hy, hz⟩, hxy, hyz, hrefused, hrefused', hkeep v hrefused',
    (hframe ⟨"j"⟩ hother).trans (by decide +kernel), hskipped, hskip _ hskipped,
    (hscared z).2.2.2.1 _ (hskip _ hskipped), (hscared y).2.1 ⟨"j"⟩ (by decide +kernel), hle⟩

end Protocol

end Typestate
