import Typestate.Flow

/-!
Flow values handle by handle. `Flow.state?` reads one handle out of a value, and the lemmas of this
file say what the operations on values do to what is read; a canonical value is determined by what
can be read out of it. `Flow.Under` compares two values handle by handle. It is an order without
any condition on the values, and on canonical values it is the order `Flow.Le` of the join.
-/

namespace Typestate

namespace Tracked

@[simp] theorem join_self (s : Tracked) : s.join s = s := by
  simp [join]

@[simp] theorem join_unknown (s : Tracked) : s.join unknown = unknown := by
  cases s <;> simp [join]

@[simp] theorem unknown_join (s : Tracked) : unknown.join s = unknown := by
  cases s <;> simp [join]

/-- The join keeps one of two equal values, or forgets both. -/
theorem join_eq_left_or (s t : Tracked) : s.join t = s ∨ s.join t = unknown := by
  by_cases h : s = t
  · simp [join, h]
  · simp [join, h]

theorem join_eq_right_or (s t : Tracked) : s.join t = t ∨ s.join t = unknown := by
  by_cases h : s = t
  · simp [join, h]
  · simp [join, h]

end Tracked

namespace Assignment

variable {initial : State}

theorem state_eq_getD (initial : State) (m : Assignment) (h : Handle) :
    m.state initial h = m[h]?.getD (.known initial) :=
  Std.ExtTreeMap.getD_eq_getD_getElem?

@[simp] theorem state_empty (h : Handle) : (∅ : Assignment).state initial h = .known initial := by
  simp [state]

/-- Assigning a state changes one handle, whether or not the state is stored. -/
theorem state_assign (m : Assignment) (h k : Handle) (s : Tracked) :
    (m.assign initial h s).state initial k = if k = h then s else m.state initial k := by
  have hkey : compare h k = .eq ↔ k = h := by
    rw [Std.LawfulEqOrd.compare_eq_iff_eq, eq_comm]
  unfold assign state
  by_cases hs : s = .known initial
  · rw [if_pos hs, Std.ExtTreeMap.getD_erase]
    simp only [hkey, hs]
  · rw [if_neg hs, Std.ExtTreeMap.getD_insert]
    simp only [hkey]

@[simp] theorem state_assign_self (m : Assignment) (h : Handle) (s : Tracked) :
    (m.assign initial h s).state initial h = s := by
  simp [state_assign]

theorem state_assign_of_ne (m : Assignment) {h k : Handle} (hne : k ≠ h) (s : Tracked) :
    (m.assign initial h s).state initial k = m.state initial k := by
  simp [state_assign, hne]

/-- A handle that is not stored is in the initial state. -/
theorem state_of_notMem {m : Assignment} {h : Handle} (hm : h ∉ m) :
    m.state initial h = .known initial :=
  Std.ExtTreeMap.getD_eq_fallback hm

@[simp] theorem state_normalize (m : Assignment) (h : Handle) :
    (m.normalize initial).state initial h = m.state initial h := by
  simp only [state_eq_getD, normalize, Std.ExtTreeMap.getElem?_filter']
  cases m[h]? with
  | none => rfl
  | some s => by_cases hs : s = .known initial <;> simp [hs, Option.filter]

theorem canonical_empty : (∅ : Assignment).Canonical initial := by
  intro h
  simp

theorem Canonical.assign {m : Assignment} (hm : m.Canonical initial) (h : Handle) (s : Tracked) :
    (m.assign initial h s).Canonical initial := by
  intro k
  unfold Assignment.assign
  by_cases hs : s = .known initial
  · rw [if_pos hs, Std.ExtTreeMap.getElem?_erase]
    split
    · simp
    · exact hm k
  · rw [if_neg hs, Std.ExtTreeMap.getElem?_insert]
    split
    · simpa using hs
    · exact hm k

theorem canonical_normalize (m : Assignment) : (m.normalize initial).Canonical initial := by
  intro h
  simp only [normalize, Std.ExtTreeMap.getElem?_filter']
  cases m[h]? with
  | none => simp
  | some s => by_cases hs : s = .known initial <;> simp [hs, Option.filter]

/-- Canonical assignments in which every handle has the same state are equal. -/
theorem Canonical.ext {m n : Assignment} (hm : m.Canonical initial) (hn : n.Canonical initial)
    (hstate : ∀ h, m.state initial h = n.state initial h) : m = n := by
  apply Std.ExtTreeMap.ext_getElem?
  intro h
  have hh := hstate h
  have hmh := hm h
  have hnh := hn h
  simp only [state_eq_getD] at hh
  -- An entry differs from the initial state, so a stored handle is never read like an absent one.
  cases hl : m[h]? <;> cases hr : n[h]? <;> simp_all

/-- What a fold of assignments leaves in a handle: its last state if the handle is in the list. -/
theorem state_foldl_assign (f : Handle → Tracked) (hs : List Handle) (m : Assignment)
    (k : Handle) :
    (hs.foldl (fun r h => r.assign initial h (f h)) m).state initial k =
      if k ∈ hs then f k else m.state initial k := by
  induction hs generalizing m with
  | nil => simp
  | cons h hs ih =>
      rw [List.foldl_cons, ih]
      by_cases hk : k = h
      · subst hk
        simp
      · simp [hk, state_assign_of_ne]

theorem canonical_foldl_assign (f : Handle → Tracked) (hs : List Handle) {m : Assignment}
    (hm : m.Canonical initial) :
    (hs.foldl (fun r h => r.assign initial h (f h)) m).Canonical initial := by
  induction hs generalizing m with
  | nil => exact hm
  | cons h hs ih => exact ih (hm.assign h (f h))

@[simp] theorem state_join (m n : Assignment) (h : Handle) :
    (m.join initial n).state initial h = (m.state initial h).join (n.state initial h) := by
  rw [join, state_foldl_assign]
  split
  · rfl
  · next hmem =>
    simp only [List.mem_append, Std.ExtTreeMap.mem_keys, not_or] at hmem
    simp [state_of_notMem hmem.1, state_of_notMem hmem.2]

/-- Joining normalizes, whatever is joined. -/
theorem canonical_join (m n : Assignment) : (m.join initial n).Canonical initial :=
  canonical_foldl_assign _ _ canonical_empty

end Assignment

namespace Flow

variable {initial : State}

/-- The state of a handle, at a point that is reached. -/
def state? (initial : State) (x : Flow) (h : Handle) : Option Tracked :=
  x.states?.map fun m => m.state initial h

@[simp] theorem state?_unreachable (h : Handle) : unreachable.state? initial h = none := rfl

@[simp] theorem state?_reached (m : Assignment) (h : Handle) :
    (reached m).state? initial h = some (m.state initial h) := rfl

theorem state?_eq_some {x : Flow} {h : Handle} {s : Tracked} :
    x.state? initial h = some s ↔ ∃ m, x = reached m ∧ m.state initial h = s := by
  cases x <;> simp

theorem state?_eq_none {x : Flow} {h : Handle} : x.state? initial h = none ↔ x = unreachable := by
  cases x <;> simp

theorem ne_unreachable_iff {x : Flow} : x ≠ unreachable ↔ ∃ m, x = reached m := by
  cases x <;> simp

@[simp] theorem state?_entry (seed : Assignment) (h : Handle) :
    (entry initial seed).state? initial h = some (seed.state initial h) := by
  simp [entry]

@[simp] theorem join_unreachable (x : Flow) : x.join initial unreachable = x := by
  cases x <;> rfl

@[simp] theorem unreachable_join (x : Flow) : unreachable.join initial x = x := by
  cases x <;> rfl

/-- Values are joined handle by handle. -/
theorem state?_join (x y : Flow) (h : Handle) :
    (x.join initial y).state? initial h =
      (x.state? initial h).merge Tracked.join (y.state? initial h) := by
  cases x <;> cases y <;> simp [join]

/-- A state that both parts give a handle, as far as they are reached, is the one in the join. -/
theorem eq_of_state?_join {x y : Flow} {h : Handle} {s u : Tracked}
    (hx : ∀ t, x.state? initial h = some t → t = s) (hy : ∀ t, y.state? initial h = some t → t = s)
    (hu : (x.join initial y).state? initial h = some u) : u = s := by
  rw [state?_join] at hu
  cases hxs : x.state? initial h with
  | none => exact hy u (by simpa [hxs] using hu)
  | some t =>
      obtain rfl := hx t hxs
      cases hys : y.state? initial h with
      | none => simpa [hxs, hys, eq_comm] using hu
      | some t' =>
          obtain rfl := hy t' hys
          simpa [hxs, hys, eq_comm] using hu

theorem ne_unreachable_of_join {x y : Flow} (hne : x.join initial y ≠ unreachable) :
    x ≠ unreachable ∨ y ≠ unreachable := by
  by_cases hx : x = unreachable
  · subst hx
    exact .inr (by simpa using hne)
  · exact .inl hx

theorem canonical_unreachable : unreachable.Canonical initial := trivial

theorem canonical_entry (seed : Assignment) : (entry initial seed).Canonical initial :=
  Assignment.canonical_normalize seed

theorem Canonical.join {x y : Flow} (hx : x.Canonical initial) (hy : y.Canonical initial) :
    (x.join initial y).Canonical initial := by
  cases x with
  | unreachable => simpa using hy
  | reached m =>
      cases y with
      | unreachable => exact hx
      | reached n => exact m.canonical_join n

/-- Canonical values from which the same is read are equal. -/
theorem Canonical.ext {x y : Flow} (hx : x.Canonical initial) (hy : y.Canonical initial)
    (hstate : ∀ h, x.state? initial h = y.state? initial h) : x = y := by
  cases x with
  | unreachable => exact (state?_eq_none.1 (hstate ⟨""⟩).symm).symm
  | reached m =>
      obtain ⟨n, rfl, -⟩ := state?_eq_some.1 (hstate ⟨""⟩).symm
      congr 1
      exact Assignment.Canonical.ext hx hy fun h => Option.some_inj.1 (hstate h)

/-- What the first value says of a handle the second one says too, or it leaves it open. -/
def Under (initial : State) (x y : Flow) : Prop :=
  ∀ h s, x.state? initial h = some s →
    y.state? initial h = some s ∨ y.state? initial h = some .unknown

theorem Under.refl (x : Flow) : Under initial x x :=
  fun _ _ hs => .inl hs

theorem Under.trans {x y z : Flow} (hxy : Under initial x y) (hyz : Under initial y z) :
    Under initial x z := by
  intro h s hs
  rcases hxy h s hs with hy | hy
  · exact hyz h s hy
  · exact .inr ((hyz h .unknown hy).elim id id)

theorem under_reached {m m' : Assignment} :
    Under initial (.reached m) (.reached m') ↔
      ∀ h, m'.state initial h = m.state initial h ∨ m'.state initial h = .unknown := by
  simp [Under]

theorem unreachable_under (y : Flow) : Under initial unreachable y := by
  intro h s hs
  simp at hs

theorem Under.ne_unreachable {x y : Flow} (hxy : Under initial x y) (hx : x ≠ unreachable) :
    y ≠ unreachable := by
  obtain ⟨m, rfl⟩ := ne_unreachable_iff.1 hx
  rintro rfl
  simpa using hxy ⟨""⟩ _ rfl

theorem under_join_left (x y : Flow) : Under initial x (x.join initial y) := by
  intro h s hs
  rw [state?_join, hs]
  cases y.state? initial h with
  | none => exact .inl rfl
  | some t =>
      rcases s.join_eq_left_or t with hst | hst
      · exact .inl (by simp [hst])
      · exact .inr (by simp [hst])

theorem under_join_right (x y : Flow) : Under initial y (x.join initial y) := by
  intro h t ht
  rw [state?_join, ht]
  cases x.state? initial h with
  | none => exact .inl rfl
  | some s =>
      rcases s.join_eq_right_or t with hst | hst
      · exact .inl (by simp [hst])
      · exact .inr (by simp [hst])

/-- The join is below every value that is above both parts. -/
theorem join_under {x y z : Flow} (hx : Under initial x z) (hy : Under initial y z) :
    Under initial (x.join initial y) z := by
  intro h u hu
  rw [state?_join] at hu
  cases hs : x.state? initial h with
  | none => exact hy h u (by simpa [hs] using hu)
  | some s =>
      cases ht : y.state? initial h with
      | none => exact hx h u (by simpa [hs, ht] using hu)
      | some t =>
          obtain rfl : s.join t = u := by simpa [hs, ht] using hu
          rcases hx h s hs with hzs | hz
          · rcases hy h t ht with hzt | hz
            · obtain rfl : s = t := by simpa [hzs] using hzt
              exact .inl (by simpa using hzs)
            · exact .inr hz
          · exact .inr hz

/-- On canonical values the order of the join compares handle by handle. -/
theorem le_iff_under {x y : Flow} (hy : y.Canonical initial) :
    Le initial x y ↔ Under initial x y := by
  constructor
  · intro hle
    have hjoin : Under initial x (x.join initial y) := under_join_left x y
    rwa [show x.join initial y = y from hle] at hjoin
  · intro hunder
    cases x with
    | unreachable => exact unreachable_join y
    | reached m =>
        obtain ⟨n, rfl⟩ : ∃ n, y = reached n := by
          rcases hunder ⟨""⟩ _ rfl with hs | hs <;>
            exact (state?_eq_some.1 hs).imp fun _ h => h.1
        refine Canonical.ext (m.canonical_join n) hy fun h => ?_
        rcases under_reached.1 hunder h with hmn | hmn <;> simp [join, hmn]

/-- A value that is below another one knows the state of a handle that the other one lost. -/
theorem Under.exists_lost {m m' : Assignment} (hm : m.Canonical initial)
    (hm' : m'.Canonical initial) (hunder : Under initial (.reached m) (.reached m'))
    (hne : m ≠ m') :
    ∃ h s, m.state initial h = .known s ∧ m'.state initial h = .unknown := by
  refine Classical.byContradiction fun hnone => hne (hm.ext hm' fun h => ?_)
  rcases under_reached.1 hunder h with hsame | hlost
  · exact hsame.symm
  · cases hs : m.state initial h with
    | known s => exact absurd ⟨h, s, hs, hlost⟩ hnone
    | unknown => exact hlost.symm

/-- Canonical values that are below each other are equal. -/
theorem Under.antisymm {x y : Flow} (hx : x.Canonical initial) (hy : y.Canonical initial)
    (hxy : Under initial x y) (hyx : Under initial y x) : x = y := by
  refine hx.ext hy fun h => ?_
  cases hs : x.state? initial h with
  | none =>
      cases ht : y.state? initial h with
      | none => rfl
      | some t => rcases hyx h t ht with h' | h' <;> simp [hs] at h'
  | some s =>
      rcases hxy h s hs with ht | ht
      · exact ht.symm
      · rcases hyx h _ ht with h' | h' <;> rw [← hs, h', ht]

/-- A state that is known in the larger value is known in the smaller one too. -/
theorem Under.known {x y : Flow} (hxy : Under initial x y) {h : Handle} {s : Tracked} {t : State}
    (hx : x.state? initial h = some s) (hy : y.state? initial h = some (.known t)) :
    s = .known t := by
  rcases hxy h s hx with hs | hs
  · exact Option.some_inj.1 (hs.symm.trans hy)
  · rw [hy] at hs
    simp at hs

end Flow

end Typestate
