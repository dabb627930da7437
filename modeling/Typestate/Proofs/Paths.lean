import Typestate.Proofs.Solution

/-!
What the solved values say about walks. The value of a walk is what enters the procedure, pushed
through the nodes of the walk. The state of a handle before a node is known exactly if, at this
node and at every node on the way to it, all walks agree on a known state: a state that is once
unknown stays so on every walk, and where the walks agree the least solution has nothing to
forget.
-/

namespace Typestate.Checker

variable {c : Checker} {g : Graph} {seed : Assignment} {h : Handle} {n : Nat}

/-- The value of a walk through the given nodes. -/
def along (c : Checker) (g : Graph) (seed : Assignment) (ws : List Nat) : Flow :=
  ws.foldl (fun x m => (c.outcome g m x).output) (Flow.entry c.protocol.initial seed)

/-- Every walk to a node gives the handle the same known state. -/
def Agree (c : Checker) (g : Graph) (seed : Assignment) (h : Handle) (n : Nat) (s : State) :
    Prop :=
  ∀ ws, g.Walk ws n → (c.along g seed ws).state? c.protocol.initial h = some (.known s)

/-- The walks agree on the state of a handle at a node and at every reachable node that leads to
it. -/
def Certain (c : Checker) (g : Graph) (seed : Assignment) (h : Handle) (n : Nat) (s : State) :
    Prop :=
  (∀ m, g.Reachable m → g.Leads m n → ∃ t, c.Agree g seed h m t) ∧ c.Agree g seed h n s

theorem along_snoc (ws : List Nat) (m : Nat) :
    c.along g seed (ws ++ [m]) = (c.outcome g m (c.along g seed ws)).output := by
  simp [along]

/-- A walk treats each handle by itself. -/
theorem state?_along (c : Checker) (g : Graph) (seed : Assignment) (ws : List Nat) (h : Handle) :
    (c.along g seed ws).state? c.protocol.initial h =
      some (ws.foldl (fun s m => c.effect g m h s) (seed.state c.protocol.initial h)) := by
  induction ws using List.reverseRecOn with
  | nil => simp [along]
  | append_singleton ws m ih => rw [along_snoc, state?_outcome, ih, List.foldl_append]; rfl

theorem canonical_along (c : Checker) (g : Graph) (seed : Assignment) (ws : List Nat) :
    (c.along g seed ws).Canonical c.protocol.initial := by
  induction ws using List.reverseRecOn with
  | nil => exact Flow.canonical_entry seed
  | append_singleton ws m ih =>
      rw [along_snoc]
      exact canonical_outcome ih

theorem foldl_effect_unknown (c : Checker) (g : Graph) (h : Handle) (ws : List Nat) :
    ws.foldl (fun s m => c.effect g m h s) .unknown = .unknown := by
  induction ws with
  | nil => rfl
  | cons m ws ih => simpa using ih

/-- A walk is below the solved value of the node where it ends. -/
theorem along_under_before (c : Checker) (seed : Assignment) {ws : List Nat}
    (hwalk : g.Walk ws n) :
    (c.along g seed ws).Under c.protocol.initial (c.before g seed n) := by
  induction hwalk with
  | entry hentry hn => exact entry_under_before hentry hn
  | @step ws m n hwalk harc ih =>
      have hafter := after_under_before c seed harc
      rw [after_eq hwalk.reachable.lt_size] at hafter
      rw [along_snoc]
      exact (outcome_under ih).trans hafter

/-- A handle has a state before every reachable node. -/
theorem exists_state_before (c : Checker) (seed : Assignment) (hn : g.Reachable n) (h : Handle) :
    ∃ s, (c.before g seed n).state? c.protocol.initial h = some s := by
  obtain ⟨ws, hwalk⟩ := Graph.reachable_iff_walk.1 hn
  rcases along_under_before c seed hwalk h _ (c.state?_along g seed ws h) with hs | hs
  · exact ⟨_, hs⟩
  · exact ⟨_, hs⟩

/-- The value before a node is unreachable exactly if the node is. -/
theorem before_eq_unreachable_iff : c.before g seed n = .unreachable ↔ ¬g.Reachable n := by
  constructor
  · intro hbefore hn
    obtain ⟨s, hs⟩ := exists_state_before c seed hn ⟨""⟩
    simp [hbefore] at hs
  · intro hn
    by_contra hne
    exact hn ((c.admissible_before g seed n).reachable hne)

theorem before_ne_unreachable_iff : c.before g seed n ≠ .unreachable ↔ g.Reachable n := by
  rw [Ne, before_eq_unreachable_iff, not_not]

/-- Of two nodes with the same value before them both are reachable or neither is. -/
theorem reachable_iff_of_before_eq {g' : Graph} {seed' : Assignment} {n' : Nat}
    (hbefore : c.before g' seed' n' = c.before g seed n) : g'.Reachable n' ↔ g.Reachable n := by
  have hunreachable : c.before g' seed' n' = .unreachable ↔ c.before g seed n = .unreachable := by
    rw [hbefore]
  rwa [before_eq_unreachable_iff, before_eq_unreachable_iff, not_iff_not] at hunreachable

theorem after_eq_unreachable (hn : ¬g.Reachable n) : c.after g seed n = .unreachable := by
  by_contra hne
  exact hn ((c.admissible_after g seed n).reachable hne)

theorem after_ne_unreachable_iff : c.after g seed n ≠ .unreachable ↔ g.Reachable n := by
  constructor
  · exact (c.admissible_after g seed n).reachable
  · intro hn
    obtain ⟨s, hs⟩ := exists_state_before c seed hn ⟨""⟩
    have hafter : (c.after g seed n).state? c.protocol.initial ⟨""⟩ =
        some (c.effect g n ⟨""⟩ s) := by
      rw [after_eq hn.lt_size, state?_outcome, hs, Option.map_some]
    intro hunreachable
    simp [hunreachable] at hafter

/-- A state that is unknown before a node is unknown wherever control passes from there. -/
theorem unknown_of_leads {m : Nat} (hm : g.Reachable m) (hleads : g.Leads m n)
    (hunknown : (c.before g seed m).state? c.protocol.initial h = some .unknown) :
    (c.before g seed n).state? c.protocol.initial h = some .unknown := by
  induction hleads with
  | refl => exact hunknown
  | @tail k n hk harc ih =>
      have hafter : (c.after g seed k).state? c.protocol.initial h = some .unknown := by
        rw [after_eq (hm.leads hk).lt_size, state?_outcome, ih, Option.map_some, effect_unknown]
      exact (after_under_before c seed harc h _ hafter).elim id id

theorem certain_of_known {s : State}
    (hs : (c.before g seed n).state? c.protocol.initial h = some (.known s)) :
    c.Certain g seed h n s := by
  have hagree : ∀ m t, (c.before g seed m).state? c.protocol.initial h = some (.known t) →
      c.Agree g seed h m t := by
    intro m t ht ws hwalk
    have hstate := c.state?_along g seed ws h
    rw [hstate, (along_under_before c seed hwalk).known hstate ht]
  refine ⟨fun m hm hleads => ?_, hagree n s hs⟩
  obtain ⟨t, ht⟩ := exists_state_before c seed hm h
  cases t with
  | known t => exact ⟨t, hagree m t ht⟩
  | unknown =>
      -- A state that is lost at `m` is lost at `n` too.
      have hlost := unknown_of_leads hm hleads ht
      simp [hs] at hlost

/-- The values that give a handle nothing but the state on which the walks to a node agree, at the
nodes that lead to `n`. -/
structure Agreeing (c : Checker) (g : Graph) (seed : Assignment) (h : Handle) (n m : Nat)
    (x : Flow) : Prop where
  reachable : x ≠ .unreachable → g.Reachable m
  agrees : g.Leads m n → ∀ t u, c.Agree g seed h m t →
    x.state? c.protocol.initial h = some u → u = .known t

/-- If the walks agree at the nodes that lead to `n`, the equations keep to the states on which
they agree. -/
theorem closed_agreeing (hall : ∀ m, g.Reachable m → g.Leads m n → ∃ t, c.Agree g seed h m t) :
    (c.problem g seed).Closed (c.Agreeing g seed h n) fun m x =>
      (x ≠ .unreachable → g.Reachable m) ∧ ∀ k, g.Arc m k → c.Agreeing g seed h n k x where
  bottom_input m := ⟨fun hne => absurd rfl hne, fun _ t u _ hu => by simp [problem] at hu⟩
  bottom_output m := ⟨fun hne => absurd rfl hne, fun k _ =>
    ⟨fun hne => absurd rfl hne, fun _ t u _ hu => by simp [problem] at hu⟩⟩
  source m hm := by
    change c.Agreeing g seed h n m (if g.entry = some m then _ else _)
    split
    · next hentry =>
      refine ⟨fun _ => ⟨m, hentry, hm, .refl m⟩, fun _ t u ht hu => ?_⟩
      exact Option.some_inj.1 (hu.symm.trans (ht [] (.entry hentry hm)))
    · exact ⟨fun hne => absurd rfl hne, fun _ t u _ hu => by simp at hu⟩
  join m _ x y hx hy :=
    ⟨fun hne => (Flow.ne_unreachable_of_join hne).elim hx.reachable hy.reachable,
      fun hleads t _ ht => Flow.eq_of_state?_join (fun s => hx.agrees hleads t s ht)
        fun s => hy.agrees hleads t s ht⟩
  edge k hk m hm x hx := hx.2 k ⟨Graph.mem_predecessors.1 hm, hk⟩
  transfer m _ x hx := by
    have hreach : (c.outcome g m x).output ≠ .unreachable → g.Reachable m :=
      fun hne => hx.reachable fun heq => hne (by simp [heq])
    refine ⟨hreach, fun k harc => ⟨fun hne => (hreach hne).arc harc, fun hleads t u ht hu => ?_⟩⟩
    change (c.outcome g m x).output.state? c.protocol.initial h = some u at hu
    rw [state?_outcome] at hu
    obtain ⟨s, hs, rfl⟩ := Option.map_eq_some_iff.1 hu
    have hm : g.Reachable m := hx.reachable fun heq => by simp [heq] at hs
    have hmn : g.Leads m n := .head harc hleads
    obtain ⟨t', ht'⟩ := hall m hm hmn
    obtain rfl := hx.agrees hmn t' s ht' hs
    -- Any walk to `m`, continued to `k`, shows what the node makes of the state.
    obtain ⟨ws, hwalk⟩ := Graph.reachable_iff_walk.1 hm
    have hstep := ht _ (hwalk.step harc)
    rw [along_snoc, state?_outcome, ht' ws hwalk] at hstep
    exact Option.some_inj.1 hstep

/-- The state of a handle before a reachable node is known exactly if the walks agree on it there
and on the way there. -/
theorem before_known_iff {s : State} (hn : g.Reachable n) :
    (c.before g seed n).state? c.protocol.initial h = some (.known s) ↔
      c.Certain g seed h n s := by
  refine ⟨certain_of_known, fun hcertain => ?_⟩
  obtain ⟨u, hu⟩ := exists_state_before c seed hn h
  have hagreeing := (closed_solve (closed_agreeing hcertain.1) n).1
  rw [hu, hagreeing.agrees (.refl n) s u hcertain.2 hu]

theorem before_unknown_of_not_certain (hn : g.Reachable n)
    (hnone : ∀ s, ¬c.Certain g seed h n s) :
    (c.before g seed n).state? c.protocol.initial h = some .unknown := by
  obtain ⟨u, hu⟩ := exists_state_before c seed hn h
  cases u with
  | known s => exact absurd ((before_known_iff hn).1 hu) (hnone s)
  | unknown => exact hu

/-- A walk that knows the state of a handle at its end knew one at every node on the way. -/
theorem certain_of_along {ws : List Nat} {s : State} (hg : g.SingleWalks) (hwalk : g.Walk ws n)
    (hs : (c.along g seed ws).state? c.protocol.initial h = some (.known s)) :
    c.Certain g seed h n s := by
  have hagree : ∀ vs m t, g.Walk vs m →
      (c.along g seed vs).state? c.protocol.initial h = some (.known t) →
      c.Agree g seed h m t := by
    intro vs m t hvs ht ws' hws'
    rwa [hg m ws' vs hws' hvs]
  refine ⟨fun m hm hleads => ?_, hagree ws n s hwalk hs⟩
  obtain ⟨vs, hvs⟩ := Graph.reachable_iff_walk.1 hm
  cases ht : vs.foldl (fun s m => c.effect g m h s) (seed.state c.protocol.initial h) with
  | known t => exact ⟨t, hagree vs m t hvs (by rw [state?_along, ht])⟩
  | unknown =>
      obtain ⟨us, hus⟩ := hvs.extend hleads
      rw [hg n ws _ hwalk hus, state?_along, List.foldl_append, ht, foldl_effect_unknown] at hs
      simp at hs

/-- Where only one walk leads to each node the solved values are the values of the walks. -/
theorem before_eq_along {ws : List Nat} (hg : g.SingleWalks) (hwalk : g.Walk ws n) :
    c.before g seed n = c.along g seed ws := by
  refine (c.admissible_before g seed n).canonical.ext (c.canonical_along g seed ws) fun h => ?_
  rw [state?_along]
  cases hs : ws.foldl (fun s m => c.effect g m h s) (seed.state c.protocol.initial h) with
  | known s =>
      have hcertain := certain_of_along hg hwalk (by rw [state?_along, hs])
      exact (before_known_iff hwalk.reachable).2 hcertain
  | unknown =>
      have hunder := along_under_before c seed hwalk h _ (c.state?_along g seed ws h)
      rw [hs] at hunder
      exact hunder.elim id id

end Typestate.Checker
