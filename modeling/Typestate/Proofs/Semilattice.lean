import Mathlib.Data.List.Induction
import Typestate.Proofs.Flow

/-!
The join of flow values. It is commutative and associative on all values, whether or not they store
handles in the initial state, and on canonical values it is the least upper bound of the order
`Flow.Le`. It does not depend on the way in which the handles of two assignments are gone through
either: every list that has them all gives the same join, in any order and with any repetitions, and
a handle that is stored already may be passed over (`Assignment.foldl_merge`).
-/

namespace Typestate

theorem Tracked.join_comm (s t : Tracked) : s.join t = t.join s := by
  by_cases h : s = t
  · rw [h]
  · simp [join, h, Ne.symm h]

/-- Three values agree, or nothing is known in the end. -/
theorem Tracked.join_assoc (s t u : Tracked) : (s.join t).join u = s.join (t.join u) := by
  by_cases hst : s = t
  · subst hst
    rcases s.join_eq_left_or u with hsu | hsu
    · simp [hsu]
    · simp [hsu]
  · have hlost : s.join t = .unknown := if_neg hst
    rw [hlost, unknown_join]
    rcases t.join_eq_left_or u with htu | htu
    · rw [htu, hlost]
    · rw [htu, join_unknown]

namespace Assignment

variable {initial : State} {m n r : Assignment}

theorem join_comm (m n : Assignment) : m.join initial n = n.join initial m := by
  refine (canonical_join m n).ext (canonical_join n m) fun h => ?_
  rw [state_join, state_join, Tracked.join_comm]

theorem join_assoc (m n r : Assignment) :
    (m.join initial n).join initial r = m.join initial (n.join initial r) := by
  refine (canonical_join _ r).ext (canonical_join m _) fun h => ?_
  simp only [state_join, Tracked.join_assoc]

theorem Canonical.join_self (hm : m.Canonical initial) : m.join initial m = m :=
  (canonical_join m m).ext hm fun h => by simp

/-- Merges one handle of two assignments into `r`, unless it is stored there. -/
def merge (initial : State) (m n r : Assignment) (h : Handle) : Assignment :=
  if h ∈ r then r else r.assign initial h ((m.state initial h).join (n.state initial h))

/-- The handles gone through so far are merged and all others are not yet there. -/
structure Merged (initial : State) (m n : Assignment) (seen : List Handle) (r : Assignment) :
    Prop where
  canonical : r.Canonical initial
  state_of_mem : ∀ h ∈ seen, r.state initial h = (m.state initial h).join (n.state initial h)
  not_mem : ∀ h, h ∉ seen → h ∉ r

theorem Merged.step {seen : List Handle} (hr : Merged initial m n seen r) (h : Handle) :
    Merged initial m n (seen ++ [h]) (merge initial m n r h) := by
  unfold merge
  by_cases hstored : h ∈ r
  · -- What is stored was gone through before, so nothing is missed by passing it over.
    have hseen : h ∈ seen := Decidable.byContradiction fun hnew => hr.not_mem h hnew hstored
    rw [if_pos hstored]
    refine ⟨hr.canonical, fun k hk => ?_,
      fun k hk => hr.not_mem k fun hk' => hk (List.mem_append_left _ hk')⟩
    rcases List.mem_append.1 hk with hk | hk
    · exact hr.state_of_mem k hk
    · rw [List.mem_singleton.1 hk]
      exact hr.state_of_mem h hseen
  · rw [if_neg hstored]
    refine ⟨hr.canonical.assign _ _, fun k hk => ?_, fun k hk => ?_⟩
    · by_cases hkh : k = h
      · rw [hkh, state_assign_self]
      · rw [state_assign_of_ne _ hkh]
        exact hr.state_of_mem k (by simpa [hkh] using hk)
    · rw [List.mem_append, List.mem_singleton, not_or] at hk
      unfold assign
      split
      · simp [hr.not_mem k hk.1]
      · simp [hr.not_mem k hk.1, Ne.symm hk.2]

theorem merged_foldl (hs : List Handle) :
    Merged initial m n hs (hs.foldl (merge initial m n) ∅) := by
  induction hs using List.reverseRecOn with
  | nil => exact ⟨canonical_empty, by simp, by simp⟩
  | append_singleton hs h ih =>
      rw [List.foldl_append]
      exact ih.step h

/-- Two assignments are joined by merging their handles in any order. -/
theorem foldl_merge {hs : List Handle} (hall : ∀ h, h ∈ m ∨ h ∈ n → h ∈ hs) :
    hs.foldl (merge initial m n) ∅ = m.join initial n := by
  have hmerged : Merged initial m n hs (hs.foldl (merge initial m n) ∅) := merged_foldl hs
  refine hmerged.canonical.ext (canonical_join m n) fun h => ?_
  rw [state_join]
  by_cases hmem : h ∈ hs
  · exact hmerged.state_of_mem h hmem
  · have hm : h ∉ m := fun hm => hmem (hall h (.inl hm))
    have hn : h ∉ n := fun hn => hmem (hall h (.inr hn))
    rw [state_of_notMem (hmerged.not_mem h hmem), state_of_notMem hm, state_of_notMem hn,
      Tracked.join_self]

end Assignment

namespace Flow

variable {initial : State} {x y z : Flow}

theorem join_comm (x y : Flow) : x.join initial y = y.join initial x := by
  cases x with
  | unreachable => simp
  | reached m =>
      cases y with
      | unreachable => simp
      | reached n => exact congrArg reached (m.join_comm n)

theorem join_assoc (x y z : Flow) :
    (x.join initial y).join initial z = x.join initial (y.join initial z) := by
  cases x with
  | unreachable => simp
  | reached m =>
      cases y with
      | unreachable => simp
      | reached n =>
          cases z with
          | unreachable => simp
          | reached r => exact congrArg reached (m.join_assoc n r)

theorem Canonical.join_self (hx : x.Canonical initial) : x.join initial x = x := by
  cases x with
  | unreachable => rfl
  | reached m => exact congrArg reached (Assignment.Canonical.join_self hx)

/-- The value is canonical and above both `x` and `y`, and below all other values that are. -/
structure IsLeastAbove (initial : State) (x y z : Flow) : Prop where
  canonical : z.Canonical initial
  left_le : Le initial x z
  right_le : Le initial y z
  least : ∀ w : Flow, w.Canonical initial → Le initial x w → Le initial y w → Le initial z w

theorem isLeastAbove_join (hx : x.Canonical initial) (hy : y.Canonical initial) :
    IsLeastAbove initial x y (x.join initial y) where
  canonical := hx.join hy
  left_le := (le_iff_under (hx.join hy)).2 (under_join_left x y)
  right_le := (le_iff_under (hx.join hy)).2 (under_join_right x y)
  least _ hw hxw hyw :=
    (le_iff_under hw).2 (join_under ((le_iff_under hw).1 hxw) ((le_iff_under hw).1 hyw))

theorem IsLeastAbove.unique {z' : Flow} (h : IsLeastAbove initial x y z)
    (h' : IsLeastAbove initial x y z') : z = z' := by
  have hle : Le initial z z' := h.least z' h'.canonical h'.left_le h'.right_le
  have hge : Le initial z' z := h'.least z h.canonical h.left_le h.right_le
  exact Under.antisymm h.canonical h'.canonical ((le_iff_under h'.canonical).1 hle)
    ((le_iff_under h.canonical).1 hge)

/-- Flow values form a join semilattice. Whatever values are joined, neither their order nor their
grouping matters, and the unreachable value adds nothing. Where two reached values meet, a handle
keeps the state in which both have it and is unknown otherwise, and no handle is stored in the
initial state; the handles may be gone through in any order, and more than once. A canonical value
joined with itself stays as it is, and the join of two canonical values is the one that is least
among the canonical values above both. -/
theorem join_semilattice (initial : State) :
    (∀ x y : Flow, x.join initial y = y.join initial x) ∧
    (∀ x y z : Flow, (x.join initial y).join initial z = x.join initial (y.join initial z)) ∧
    (∀ x : Flow, unreachable.join initial x = x ∧ x.join initial unreachable = x) ∧
    (∀ m n : Assignment, ∃ r : Assignment,
      (reached m).join initial (reached n) = reached r ∧ r.Canonical initial ∧
      (∀ h, r.state initial h =
        if m.state initial h = n.state initial h then m.state initial h else .unknown) ∧
      ∀ hs : List Handle, (∀ h, h ∈ m ∨ h ∈ n → h ∈ hs) →
        hs.foldl (Assignment.merge initial m n) ∅ = r) ∧
    (∀ x : Flow, x.Canonical initial → x.join initial x = x) ∧
    ∀ x y : Flow, x.Canonical initial → y.Canonical initial →
      ∀ z, IsLeastAbove initial x y z ↔ z = x.join initial y := by
  refine ⟨join_comm, join_assoc, fun x => ⟨unreachable_join x, join_unreachable x⟩, fun m n => ?_,
    fun x => Canonical.join_self, fun x y hx hy z => ?_⟩
  · exact ⟨m.join initial n, rfl, m.canonical_join n, m.state_join n,
      fun hs => Assignment.foldl_merge⟩
  · have hjoin := isLeastAbove_join hx hy
    constructor
    · exact fun hz => hz.unique hjoin
    · rintro rfl
      exact hjoin

/-- Two branches meet. In one the pet `a` eats and `b` plays; in the other `b` plays too and `c` is
stored although it is asleep, as at first. The join forgets `a` and does not store `c`. -/
theorem join_semilattice_branches :
    let initial : State := ⟨"Sleeping"⟩
    let playing : Assignment := (∅ : Assignment).assign initial ⟨"b"⟩ (.known ⟨"Playing"⟩)
    let m : Assignment := playing.assign initial ⟨"a"⟩ (.known ⟨"Eating"⟩)
    let n : Assignment := playing.insert ⟨"c"⟩ (.known initial)
    let r : Assignment := playing.assign initial ⟨"a"⟩ .unknown
    ¬n.Canonical initial ∧ (reached m).join initial (reached n) = reached r ∧
      (reached n).join initial (reached m) = reached r ∧
      [⟨"c"⟩, ⟨"a"⟩, ⟨"b"⟩, ⟨"a"⟩].foldl (Assignment.merge initial m n) ∅ = r ∧
      (reached m).Canonical initial ∧ (reached playing).Canonical initial ∧
      IsLeastAbove initial (reached m) (reached playing) (reached r) := by
  intro initial playing m n r
  obtain ⟨hcomm, -, -, hmeet, -, hleast⟩ := join_semilattice initial
  have hplaying : playing.Canonical initial := Assignment.canonical_empty.assign _ _
  have hm : m.Canonical initial := hplaying.assign _ _
  have hmeets : m.join initial n = r ∧ m.join initial playing = r := by decide +kernel
  have hn : ¬n.Canonical initial := fun hn => hn ⟨"c"⟩ (by decide +kernel)
  have hjoin : (reached m).join initial (reached n) = reached r :=
    congrArg reached hmeets.1
  have hall : ∀ h, h ∈ m ∨ h ∈ n → h ∈ ([⟨"c"⟩, ⟨"a"⟩, ⟨"b"⟩, ⟨"a"⟩] : List Handle) := by
    intro h
    have hstored : m.keys = [⟨"a"⟩, ⟨"b"⟩] ∧ n.keys = [⟨"b"⟩, ⟨"c"⟩] := by decide +kernel
    rw [← Std.ExtTreeMap.mem_keys, ← Std.ExtTreeMap.mem_keys, hstored.1, hstored.2]
    simp only [List.mem_cons, List.not_mem_nil, or_false]
    rintro ((h | h) | (h | h)) <;> simp [h]
  obtain ⟨r', hr', -, -, hmerge⟩ := hmeet m n
  obtain rfl : r = r' := by simpa [hjoin] using hr'
  exact ⟨hn, hjoin, (hcomm _ _).trans hjoin, hmerge _ hall, hm, hplaying,
    (hleast (reached m) (reached playing) hm hplaying _).2 (congrArg reached hmeets.2.symm)⟩

end Flow

end Typestate
