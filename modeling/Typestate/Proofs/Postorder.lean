import Typestate.Proofs.Construction
import Typestate.Proofs.Reach

/-!
The reverse postorder is what a search with a stack of nodes finds. Such a search puts a node on its
stack whenever an edge leads to it that is not discovered yet, so a node may stand there several
times. Only the topmost copy counts: it is there when the node is discovered and, when all above it
is gone, finishes the node, and the copies below it are taken off later without effect. The tasks of
`Graph.search` say of each copy which of the two it is.
-/

namespace Typestate.Graph

/-- A search in progress. -/
structure StackSearch where
  /-- The nodes to look at, the top first. -/
  stack : List Nat
  discovered : List Nat
  /-- The finished nodes, last finished first. -/
  finished : List Nat
  deriving DecidableEq

namespace StackSearch

def start (root : Nat) : StackSearch :=
  ⟨[root], [], []⟩

/-- Puts the nodes on the stack that are not discovered, the last one first. -/
def push (discovered : List Nat) (targets stack : List Nat) : List Nat :=
  targets.foldr (fun n stack => if n ∈ discovered then stack else n :: stack) stack

/-- Looks at the node on top. A new node is discovered; it stays, and the ends of its edges are put
above it, that of the newest edge first. Any other node is taken off, and finished if it is not
finished yet. -/
def step (g : Graph) (s : StackSearch) : StackSearch :=
  match s.stack with
  | [] => s
  | n :: below =>
    if n ∉ s.discovered then
      let discovered := n :: s.discovered
      ⟨push discovered (g.targets n) (n :: below), discovered, s.finished⟩
    else if n ∉ s.finished then ⟨below, s.discovered, n :: s.finished⟩
    else ⟨below, s.discovered, s.finished⟩

section Step

variable {g : Graph} {n : Nat} {below seen done : List Nat}

theorem step_discover (hnew : n ∉ seen) :
    step g ⟨n :: below, seen, done⟩ =
      ⟨push (n :: seen) (g.targets n) (n :: below), n :: seen, done⟩ := by
  simp [step, hnew]

theorem step_finish (hseen : n ∈ seen) (hdone : n ∉ done) :
    step g ⟨n :: below, seen, done⟩ = ⟨below, seen, n :: done⟩ := by
  simp [step, hseen, hdone]

theorem step_discard (hseen : n ∈ seen) (hdone : n ∈ done) :
    step g ⟨n :: below, seen, done⟩ = ⟨below, seen, done⟩ := by
  simp [step, hseen, hdone]

end Step

/-- The stack holds a node for each task, except for visits to nodes that were known already when an
edge led there. The copy that a visit stands for lies above no copy that will finish its node. -/
inductive Mirrors (seen : List Nat) : List Task → List Nat → Prop
  | nil : Mirrors seen [] []
  | finish {n : Nat} {tasks : List Task} {stack : List Nat} (h : Mirrors seen tasks stack) :
      Mirrors seen (.finish n :: tasks) (n :: stack)
  | visit {n : Nat} {tasks : List Task} {stack : List Nat} (hn : n ∉ opened tasks)
      (h : Mirrors seen tasks stack) : Mirrors seen (.visit n :: tasks) (n :: stack)
  | known {n : Nat} {tasks : List Task} {stack : List Nat} (hn : n ∈ seen)
      (h : Mirrors seen tasks stack) : Mirrors seen (.visit n :: tasks) stack

namespace Mirrors

variable {seen seen' stack : List Nat} {tasks : List Task}

theorem mono (h : Mirrors seen tasks stack) (hsub : seen ⊆ seen') : Mirrors seen' tasks stack := by
  induction h with
  | nil => exact .nil
  | finish _ ih => exact .finish ih
  | visit hn _ ih => exact .visit hn ih
  | known hn _ ih => exact .known (hsub hn) ih

/-- The ends of edges that are pushed mirror the visits to all ends. -/
theorem push (h : Mirrors seen tasks stack) (hopened : ∀ n ∈ opened tasks, n ∈ seen)
    (targets : List Nat) :
    Mirrors seen (targets.map .visit ++ tasks) (StackSearch.push seen targets stack) := by
  induction targets with
  | nil => exact h
  | cons n targets ih =>
      have hcons : StackSearch.push seen (n :: targets) stack =
          if n ∈ seen then StackSearch.push seen targets stack
          else n :: StackSearch.push seen targets stack := rfl
      rw [hcons]
      split
      · next hn => exact .known hn ih
      · next hn => exact .visit (fun hmem => hn (hopened n (by simpa using hmem))) ih

end Mirrors

variable {g : Graph}

/-- A stack that mirrors the tasks of a search is worked off with the same result. -/
theorem exists_iterate_eq_search (hg : g.Sound) {root : Nat} (hroot : root < g.size)
    {tasks : List Task} {seen done stack : List Nat} (h : g.Searching root tasks seen done)
    (hlt : ∀ t ∈ tasks, t.node < g.size) (hstack : Mirrors seen tasks stack) :
    ∃ k seen', (step g)^[k] ⟨stack, seen, done⟩ = ⟨[], seen', g.search tasks seen done⟩ := by
  fun_induction g.search tasks seen done generalizing stack with
  | case1 seen done =>
      cases hstack
      exact ⟨0, seen, rfl⟩
  | case2 seen done n rest ih =>
      cases hstack with
      | finish hstack =>
          have hseen : n ∈ seen := (h.mem_seen n).2 (by simp)
          have hdone : n ∉ done := by
            have hnodup := h.nodup
            simp only [opened_finish, List.cons_append, List.nodup_cons, List.mem_append] at hnodup
            exact fun hmem => hnodup.1 (.inr hmem)
          obtain ⟨k, seen', hk⟩ := ih h.finish (fun t ht => hlt t (by simp [ht])) hstack
          exact ⟨k + 1, seen', by rw [Function.iterate_succ_apply, step_finish hseen hdone, hk]⟩
  | case3 seen done n rest hnew ih =>
      cases hstack with
      | known hn _ => exact absurd hn hnew.2
      | @visit _ _ below _ hstack =>
          have hnext := h.visit hnew.1 hnew.2
          have hopened : ∀ m ∈ opened (.finish n :: rest), m ∈ n :: seen := fun m hm =>
            (hnext.mem_seen m).2 (.inl (by simpa using hm))
          have hmirrors : Mirrors (n :: seen) (.finish n :: rest) (n :: below) :=
            .finish (hstack.mono (List.subset_cons_self n seen))
          have htasks : ∀ t ∈ (g.targets n).map .visit ++ .finish n :: rest, t.node < g.size := by
            intro t ht
            rcases List.mem_append.1 ht with ht | ht
            · obtain ⟨m, hm, rfl⟩ := List.mem_map.1 ht
              obtain ⟨e, he, -, rfl⟩ := mem_targets.1 hm
              exact hg.target_lt e he
            · rcases List.mem_cons.1 ht with rfl | ht
              · exact hnew.1
              · exact hlt t (by simp [ht])
          obtain ⟨k, seen', hk⟩ := ih hnext htasks (hmirrors.push hopened (g.targets n))
          exact ⟨k + 1, seen', by rw [Function.iterate_succ_apply, step_discover hnew.2, hk]⟩
  | case4 seen done n rest hold ih =>
      have hseen : n ∈ seen := by
        by_contra hnew
        exact hold ⟨hlt (.visit n) (by simp), hnew⟩
      have hskip := h.skip hroot hold
      have hrest : ∀ t ∈ rest, t.node < g.size := fun t ht => hlt t (by simp [ht])
      cases hstack with
      | known _ hstack => exact ih hskip hrest hstack
      | visit hn hstack =>
          -- The copy that finished the node lay above this one.
          have hdone : n ∈ done := ((hskip.mem_seen n).1 hseen).resolve_left hn
          obtain ⟨k, seen', hk⟩ := ih hskip hrest hstack
          exact ⟨k + 1, seen', by rw [Function.iterate_succ_apply, step_discard hseen hdone, hk]⟩

end StackSearch

variable {g : Graph} {root : Nat}

theorem exists_iterate_eq_reversePostorder (hg : g.Sound) (hentry : g.entry = some root) :
    ∃ k seen, (StackSearch.step g)^[k] (.start root) = ⟨[], seen, g.reversePostorder⟩ := by
  have hroot := hg.entry_lt root hentry
  unfold reversePostorder
  rw [hentry]
  refine StackSearch.exists_iterate_eq_search hg hroot (g.searching_start root) ?_
    (.visit (by simp) .nil)
  simpa [Task.node] using hroot

/-! ### The entry -/

/-- What is finished last comes first. -/
theorem exists_search_eq_cons (tasks : List Task) (n : Nat) (seen done : List Nat) :
    ∃ ns, g.search (tasks ++ [.finish n]) seen done = n :: ns := by
  generalize hall : tasks ++ [.finish n] = all
  fun_induction g.search all seen done generalizing tasks with
  | case1 => simp at hall
  | case2 seen done m rest ih =>
      cases tasks with
      | nil =>
          obtain ⟨hm, rfl⟩ : n = m ∧ [] = rest := by simpa using hall
          exact ⟨done, by rw [search, hm]⟩
      | cons t tasks =>
          obtain ⟨-, hrest⟩ : t = .finish m ∧ tasks ++ [.finish n] = rest := by simpa using hall
          exact ih tasks hrest
  | case3 seen done m rest _ ih =>
      cases tasks with
      | nil => simp at hall
      | cons t tasks =>
          obtain ⟨-, rfl⟩ : t = .visit m ∧ tasks ++ [.finish n] = rest := by simpa using hall
          exact ih ((g.targets m).map .visit ++ .finish m :: tasks) (by simp)
  | case4 seen done m rest _ ih =>
      cases tasks with
      | nil => simp at hall
      | cons t tasks =>
          obtain ⟨-, hrest⟩ : t = .visit m ∧ tasks ++ [.finish n] = rest := by simpa using hall
          exact ih tasks hrest

theorem exists_reversePostorder_eq_cons (hentry : g.entry = some root) (hroot : root < g.size) :
    ∃ ns, g.reversePostorder = root :: ns := by
  unfold reversePostorder
  rw [hentry]
  dsimp only
  rw [search, if_pos ⟨hroot, by simp⟩]
  exact exists_search_eq_cons ((g.targets root).map .visit) root [root] []

/-! ### Cycles -/

/-- Control can pass from the node back to it. -/
def OnCycle (g : Graph) (n : Nat) : Prop :=
  Relation.TransGen g.Arc n n

/-- Control never gets to a cycle. Dead nodes may stand on cycles. -/
def Acyclic (g : Graph) : Prop :=
  ∀ n, g.Reachable n → ¬g.OnCycle n

theorem Acyclic.not_leads_back {m n : Nat} (hg : g.Acyclic) (hm : g.Reachable m)
    (harc : g.Arc m n) : ¬g.Leads n m :=
  fun hback => hg m hm (.head' harc hback)

/-- Nodes can be numbered along the arcs between live nodes only if there is no cycle. -/
theorem acyclic_of_rank (rank : Nat → Nat)
    (hrank : ∀ m n, g.Reachable m → g.Arc m n → rank m < rank n) : g.Acyclic := by
  have hlt : ∀ {m n : Nat}, g.Reachable m → Relation.TransGen g.Arc m n → rank m < rank n := by
    intro m n hm hpath
    induction hpath with
    | single harc => exact hrank m _ hm harc
    | tail hpath harc ih => exact ih.trans (hrank _ _ (hm.leads hpath.to_reflTransGen) harc)
  exact fun n hn hcycle => Nat.lt_irrefl _ (hlt hn hcycle)

/-- An arc leads forward in the reverse postorder, or lies on a cycle. -/
theorem idxOf_lt_or_leads {m n : Nat} (hm : g.Reachable m) (harc : g.Arc m n) :
    g.reversePostorder.idxOf m < g.reversePostorder.idxOf n ∨ g.Leads n m := by
  by_cases hback : g.Leads n m
  · exact .inr hback
  · exact .inl (g.descending_reversePostorder.idxOf_lt g.nodup_reversePostorder
      (mem_reversePostorder.2 hm) harc hback).2

theorem Acyclic.idxOf_lt {m n : Nat} (hg : g.Acyclic) (hm : g.Reachable m) (harc : g.Arc m n) :
    g.reversePostorder.idxOf m < g.reversePostorder.idxOf n :=
  (idxOf_lt_or_leads hm harc).resolve_right (hg.not_leads_back hm harc)

theorem Sound.arc (hg : g.Sound) {e : Edge} (he : e ∈ g.edges) : g.Arc e.source e.target :=
  ⟨mem_successors.2 ⟨e, he, rfl, rfl⟩, hg.target_lt e he⟩

/-- The search with a stack ends, and what it finished, last first, is the reverse postorder. This
starts with the entry and lists the nodes that the entry leads to, each once; an edge between them
leads forward unless its end leads back, so without live cycles the order is topological. -/
theorem reversePostorder_correct (g : Graph) (hg : g.Built) :
    (g.entry = none → g.reversePostorder = []) ∧
    ∀ root, g.entry = some root →
      (∃ k seen, (StackSearch.step g)^[k] (.start root) = ⟨[], seen, g.reversePostorder⟩) ∧
      (∃ ns, g.reversePostorder = root :: ns) ∧
      (∀ n, n ∈ g.reversePostorder ↔ g.Leads root n) ∧
      g.reversePostorder.Nodup ∧
      (∀ e ∈ g.edges, g.Leads root e.source →
        g.reversePostorder.idxOf e.source < g.reversePostorder.idxOf e.target ∨
          g.Leads e.target e.source) ∧
      ((∀ n, g.Leads root n → ¬g.OnCycle n) → ∀ e ∈ g.edges, g.Leads root e.source →
        g.reversePostorder.idxOf e.source < g.reversePostorder.idxOf e.target) := by
  have hsound := hg.sound
  refine ⟨fun hnone => by simp [reversePostorder, hnone], fun root hentry => ?_⟩
  have hroot := hsound.entry_lt root hentry
  have hreach : ∀ n, g.Reachable n ↔ g.Leads root n := by
    intro n
    constructor
    · rintro ⟨root', hentry', -, hleads⟩
      obtain rfl : root = root' := by simpa [hentry] using hentry'
      exact hleads
    · exact fun hleads => ⟨root, hentry, hroot, hleads⟩
  simp only [← hreach]
  refine ⟨exists_iterate_eq_reversePostorder hsound hentry,
    exists_reversePostorder_eq_cons hentry hroot, fun n => mem_reversePostorder,
    g.nodup_reversePostorder, fun e he hsource => ?_, fun hacyclic e he hsource => ?_⟩
  · exact idxOf_lt_or_leads hsource (hsound.arc he)
  · exact Acyclic.idxOf_lt hacyclic hsource (hsound.arc he)

/-- Node 1 is pushed three times: twice from the entry and once from node 2, where it is discovered.
It leads to itself and back to the entry; node 3 is dead. -/
theorem reversePostorder_correct_copies :
    let d : GraphDocument := ⟨"copies", none, none, List.replicate 4 ⟨.nop, none, none⟩,
      [⟨0, 2, .trueBranch⟩, ⟨0, 1, .falseBranch⟩, ⟨3, 1, .sequential⟩, ⟨0, 1, .exception⟩,
        ⟨1, 1, .loopBack⟩, ⟨2, 1, .sequential⟩, ⟨1, 0, .loopBack⟩]⟩
    let g := d.plainGraph
    g.Built ∧ g.entry = some 0 ∧ g.reversePostorder = [0, 2, 1] ∧
      (∃ k seen, (StackSearch.step g)^[k] (.start 0) = ⟨[], seen, [0, 2, 1]⟩) ∧
      (∀ n, n ∈ [0, 2, 1] ↔ g.Leads 0 n) ∧
      g.Leads 0 1 := by
  intro d g
  have hbuilt : g.Built := built_of_toGraph (d := d) (by decide +kernel)
  have horder : g.reversePostorder = [0, 2, 1] := by decide +kernel
  obtain ⟨hstack, -, hmem, -, hedges, -⟩ := (reversePostorder_correct g hbuilt).2 0 rfl
  rw [horder] at hstack hmem hedges
  have hforward : ¬[0, 2, 1].idxOf 1 < [0, 2, 1].idxOf 0 := by decide
  exact ⟨hbuilt, rfl, horder, hstack, hmem,
    (hedges ⟨1, 0, .loopBack⟩ (by decide +kernel) ((hmem 1).1 (by decide))).resolve_left hforward⟩

end Typestate.Graph
