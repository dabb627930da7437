/-!
Strictly ascending lists of numbers, used as sets that are read from the least element on.
-/

namespace Typestate.Ascending

/-- Puts a number in its place; a number that is there already is not put in again. -/
def insert (n : Nat) : List Nat → List Nat
  | [] => [n]
  | m :: ms =>
    if n < m then n :: m :: ms
    else if n = m then m :: ms
    else m :: insert n ms

/-- The numbers of a list in ascending order, each once. -/
def ofList (ns : List Nat) : List Nat :=
  ns.foldr insert []

@[simp] theorem mem_insert {k n : Nat} {ms : List Nat} : k ∈ insert n ms ↔ k = n ∨ k ∈ ms := by
  induction ms with
  | nil => simp [insert]
  | cons m ms ih =>
    simp only [insert]
    split
    · simp
    · split
      · next h => subst h; simp
      · simp only [List.mem_cons, ih]
        exact or_left_comm

@[simp] theorem mem_ofList {k : Nat} {ns : List Nat} : k ∈ ofList ns ↔ k ∈ ns := by
  induction ns with
  | nil => simp [ofList]
  | cons n ns ih =>
    change k ∈ insert n (ofList ns) ↔ _
    rw [mem_insert, ih, List.mem_cons]

theorem pairwise_insert {n : Nat} {ms : List Nat} (h : ms.Pairwise (· < ·)) :
    (insert n ms).Pairwise (· < ·) := by
  induction ms with
  | nil => simp [insert]
  | cons m ms ih =>
    rw [List.pairwise_cons] at h
    simp only [insert]
    split
    · next hlt =>
      rw [List.pairwise_cons]
      refine ⟨fun k hk => ?_, List.pairwise_cons.2 h⟩
      rcases List.mem_cons.1 hk with rfl | hk
      · exact hlt
      · exact Nat.lt_trans hlt (h.1 k hk)
    · split
      · exact List.pairwise_cons.2 h
      · next hge hne =>
        rw [List.pairwise_cons]
        refine ⟨fun k hk => ?_, ih h.2⟩
        rcases mem_insert.1 hk with rfl | hk
        · omega
        · exact h.1 k hk

theorem pairwise_ofList (ns : List Nat) : (ofList ns).Pairwise (· < ·) := by
  induction ns with
  | nil => exact List.Pairwise.nil
  | cons n ns ih => exact pairwise_insert ih

end Typestate.Ascending
