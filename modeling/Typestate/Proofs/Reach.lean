import Mathlib.Logic.Relation
import Typestate.Graph.Order

/-!
Walks through a graph and the depth-first search. Control passes along edges between nodes, and a
node is reachable if a walk leads to it from the entry. The reverse postorder lists exactly the
reachable nodes, each once, and puts a node before those it leads to unless these lead back to it.
-/

namespace Typestate.Graph

variable {g : Graph}

/-- Control can pass from one node to the next: an edge leads there, and the node exists. -/
def Arc (g : Graph) (m n : Nat) : Prop :=
  n ∈ g.successors m ∧ n < g.size

instance (m n : Nat) : Decidable (g.Arc m n) :=
  inferInstanceAs (Decidable (n ∈ g.successors m ∧ n < g.size))

/-- Control can pass from one node to another, in any number of steps. -/
def Leads (g : Graph) : Nat → Nat → Prop :=
  Relation.ReflTransGen g.Arc

/-- Control can get to a node from the entry. -/
def Reachable (g : Graph) (n : Nat) : Prop :=
  ∃ root, g.entry = some root ∧ root < g.size ∧ g.Leads root n

/-- The walks from the entry: `g.Walk ws n` says that control can pass through the nodes `ws` in
order and then get to node `n`. -/
inductive Walk (g : Graph) : List Nat → Nat → Prop
  | entry {n : Nat} (hentry : g.entry = some n) (hn : n < g.size) : Walk g [] n
  | step {ws : List Nat} {m n : Nat} (hwalk : Walk g ws m) (harc : g.Arc m n) :
      Walk g (ws ++ [m]) n

@[simp] theorem mem_targets {m n : Nat} :
    n ∈ g.targets m ↔ ∃ e ∈ g.edges, e.source = m ∧ e.target = n := by
  simp [targets, and_assoc]

@[simp] theorem mem_sources {m n : Nat} :
    m ∈ g.sources n ↔ ∃ e ∈ g.edges, e.target = n ∧ e.source = m := by
  simp [sources, and_assoc]

theorem mem_successors {m n : Nat} :
    n ∈ g.successors m ↔ ∃ e ∈ g.edges, e.source = m ∧ e.target = n := by
  simp [successors]

/-- The two lists of neighbours of a node describe the same edges. -/
theorem mem_predecessors {m n : Nat} : m ∈ g.predecessors n ↔ n ∈ g.successors m := by
  simp only [predecessors, successors, Ascending.mem_ofList, mem_sources, mem_targets]
  constructor
  · rintro ⟨e, he, htarget, hsource⟩
    exact ⟨e, he, hsource, htarget⟩
  · rintro ⟨e, he, hsource, htarget⟩
    exact ⟨e, he, htarget, hsource⟩

theorem arc_iff_mem_targets {m n : Nat} : g.Arc m n ↔ n ∈ g.targets m ∧ n < g.size := by
  simp [Arc, successors]

theorem Leads.refl (n : Nat) : g.Leads n n :=
  Relation.ReflTransGen.refl

theorem Leads.trans {k m n : Nat} (hkm : g.Leads k m) (hmn : g.Leads m n) : g.Leads k n :=
  Relation.ReflTransGen.trans hkm hmn

theorem Leads.tail {k m n : Nat} (hkm : g.Leads k m) (harc : g.Arc m n) : g.Leads k n :=
  Relation.ReflTransGen.tail hkm harc

theorem Leads.head {k m n : Nat} (harc : g.Arc k m) (hmn : g.Leads m n) : g.Leads k n :=
  Relation.ReflTransGen.head harc hmn

theorem Reachable.leads {m n : Nat} (hm : g.Reachable m) (hmn : g.Leads m n) : g.Reachable n := by
  obtain ⟨root, hentry, hroot, hleads⟩ := hm
  exact ⟨root, hentry, hroot, hleads.trans hmn⟩

theorem Reachable.arc {m n : Nat} (hm : g.Reachable m) (harc : g.Arc m n) : g.Reachable n :=
  hm.leads (.head harc (.refl n))

theorem Reachable.lt_size {n : Nat} (hn : g.Reachable n) : n < g.size := by
  obtain ⟨root, -, hroot, hleads⟩ := hn
  cases hleads with
  | refl => exact hroot
  | tail _ harc => exact harc.2

theorem reachable_iff_walk {n : Nat} : g.Reachable n ↔ ∃ ws, g.Walk ws n := by
  constructor
  · rintro ⟨root, hentry, hroot, hleads⟩
    induction hleads with
    | refl => exact ⟨[], .entry hentry hroot⟩
    | tail _ harc ih =>
        obtain ⟨ws, hwalk⟩ := ih
        exact ⟨_, .step hwalk harc⟩
  · rintro ⟨ws, hwalk⟩
    induction hwalk with
    | entry hentry hn => exact ⟨_, hentry, hn, .refl _⟩
    | step _ harc ih => exact ih.arc harc

theorem Walk.reachable {ws : List Nat} {n : Nat} (hwalk : g.Walk ws n) : g.Reachable n :=
  reachable_iff_walk.2 ⟨ws, hwalk⟩

/-- A walk can be continued to wherever its end leads. -/
theorem Walk.extend {ws : List Nat} {m n : Nat} (hwalk : g.Walk ws m) (hleads : g.Leads m n) :
    ∃ vs, g.Walk (ws ++ vs) n := by
  induction hleads with
  | refl => exact ⟨[], by simpa using hwalk⟩
  | @tail k n _ harc ih =>
      obtain ⟨vs, hvs⟩ := ih
      exact ⟨vs ++ [k], by simpa using hvs.step harc⟩

/-- A shorter walk leads to every node that a walk passes through. -/
theorem Walk.exists_shorter {ws : List Nat} {k n : Nat} (hwalk : g.Walk ws n) (hk : k ∈ ws) :
    ∃ vs, g.Walk vs k ∧ vs.length < ws.length := by
  induction hwalk with
  | entry => simp at hk
  | @step ws m n hwalk _ ih =>
      rcases List.mem_append.1 hk with hk | hk
      · obtain ⟨vs, hvs, hlength⟩ := ih hk
        exact ⟨vs, hvs, by simp; omega⟩
      · obtain rfl := List.mem_singleton.1 hk
        exact ⟨ws, hwalk, by simp⟩

/-- At most one walk leads to each node, as in code without branches that meet again. -/
def SingleWalks (g : Graph) : Prop :=
  ∀ n ws ws', g.Walk ws n → g.Walk ws' n → ws = ws'

theorem singleWalks_of_line (hentry : g.entry = some 0)
    (hline : ∀ e ∈ g.edges, e.target = e.source + 1) : g.SingleWalks := by
  have hrange : ∀ {ws : List Nat} {n : Nat}, g.Walk ws n → ws = List.range n := by
    intro ws n hwalk
    induction hwalk with
    | entry hroot _ =>
        obtain rfl := Option.some_inj.1 (hentry.symm.trans hroot)
        rfl
    | step _ harc ih =>
        obtain ⟨e, he, rfl, rfl⟩ := mem_successors.1 harc.1
        rw [hline e he, List.range_succ, ih]
  intro n ws ws' hwalk hwalk'
  rw [hrange hwalk, hrange hwalk']

theorem SingleWalks.not_mem {ws : List Nat} {n : Nat} (hg : g.SingleWalks) (hwalk : g.Walk ws n) :
    n ∉ ws := by
  intro hmem
  obtain ⟨vs, hvs, hlength⟩ := hwalk.exists_shorter hmem
  rw [hg n vs ws hvs hwalk] at hlength
  exact Nat.lt_irrefl _ hlength

theorem SingleWalks.nodup {ws : List Nat} {n : Nat} (hg : g.SingleWalks) (hwalk : g.Walk ws n) :
    (ws ++ [n]).Nodup := by
  induction hwalk with
  | entry => simp
  | step hwalk harc ih =>
      refine List.nodup_append.2 ⟨ih, by simp, ?_⟩
      intro a ha b hb heq
      obtain rfl := List.mem_singleton.1 hb
      exact hg.not_mem (hwalk.step harc) (heq ▸ ha)

/-- With single walks there is no cycle that can be reached. -/
theorem SingleWalks.not_leads_back {m n : Nat} (hg : g.SingleWalks) (hm : g.Reachable m)
    (harc : g.Arc m n) : ¬g.Leads n m := by
  intro hback
  obtain ⟨ws, hwalk⟩ := reachable_iff_walk.1 hm
  obtain ⟨vs, hvs⟩ := (hwalk.step harc).extend hback
  have hlength := congrArg List.length (hg m _ _ hwalk hvs)
  simp at hlength

/-! ### The state of a search -/

def Task.node : Task → Nat
  | visit n => n
  | finish n => n

/-- The nodes that are begun and not finished, innermost first. -/
def opened (tasks : List Task) : List Nat :=
  tasks.filterMap fun
    | .visit _ => none
    | .finish n => some n

@[simp] theorem opened_nil : opened [] = [] := rfl

@[simp] theorem opened_visit (n : Nat) (tasks : List Task) :
    opened (.visit n :: tasks) = opened tasks := rfl

@[simp] theorem opened_finish (n : Nat) (tasks : List Task) :
    opened (.finish n :: tasks) = n :: opened tasks := rfl

@[simp] theorem opened_append (tasks tasks' : List Task) :
    opened (tasks ++ tasks') = opened tasks ++ opened tasks' := by
  simp [opened]

@[simp] theorem opened_map_visit (ns : List Nat) : opened (ns.map .visit) = [] := by
  induction ns with
  | nil => rfl
  | cons n ns ih => exact ih

theorem finish_mem_of_mem_opened {n : Nat} {tasks : List Task} (hn : n ∈ opened tasks) :
    .finish n ∈ tasks := by
  obtain ⟨t, ht, heq⟩ := List.mem_filterMap.1 hn
  cases t with
  | visit m => simp at heq
  | finish m =>
      obtain rfl : m = n := by simpa using heq
      exact ht

/-- When a node is to be finished all that it leads to is known, given what is known now and that
visited nodes become known. -/
def Pledged (g : Graph) : (Nat → Prop) → List Task → Prop
  | _, [] => True
  | known, .visit n :: tasks => g.Pledged (fun k => known k ∨ k = n) tasks
  | known, .finish m :: tasks => (∀ n, g.Arc m n → known n) ∧ g.Pledged known tasks

theorem Pledged.mono {known known' : Nat → Prop} {tasks : List Task}
    (hmono : ∀ n < g.size, known n → known' n) (h : g.Pledged known tasks) :
    g.Pledged known' tasks := by
  induction tasks generalizing known known' with
  | nil => trivial
  | cons t tasks ih =>
      cases t with
      | visit n => exact ih (fun k hk => Or.imp_left (hmono k hk)) h
      | finish m => exact ⟨fun n harc => hmono n harc.2 (h.1 n harc), ih hmono h.2⟩

theorem pledged_map_visit {known : Nat → Prop} {ns : List Nat} {tasks : List Task} :
    g.Pledged known (ns.map .visit ++ tasks) ↔ g.Pledged (fun k => known k ∨ k ∈ ns) tasks := by
  induction ns generalizing known with
  | nil => simp
  | cons n ns ih =>
      simp only [List.map_cons, List.cons_append, Pledged, ih, List.mem_cons, or_assoc]

/-- Each node stands before those that it leads to in one step and that do not lead back. -/
def Descending (g : Graph) : List Nat → Prop
  | [] => True
  | m :: after => (∀ n, g.Arc m n → n ∈ after ∨ g.Leads n m) ∧ g.Descending after

/-- What holds whenever a search from `root` looks at its tasks. -/
structure Searching (g : Graph) (root : Nat) (tasks : List Task) (seen done : List Nat) :
    Prop where
  mem_seen : ∀ n, n ∈ seen ↔ n ∈ opened tasks ∨ n ∈ done
  nodup : (opened tasks ++ done).Nodup
  lt_size : ∀ n ∈ seen, n < g.size
  leads_task : ∀ t ∈ tasks, t.node < g.size → g.Leads root t.node
  leads_done : ∀ n ∈ done, g.Leads root n
  nested : tasks.Pairwise fun t t' =>
    ∀ m, t' = .finish m → t.node < g.size → g.Leads m t.node
  pledged : g.Pledged (· ∈ seen) tasks
  closed : ∀ m ∈ done, ∀ n, g.Arc m n → n ∈ seen
  descending : g.Descending done
  rooted : root ∈ seen ∨ .visit root ∈ tasks

variable {root : Nat} {seen done : List Nat} {rest : List Task} {n : Nat}

theorem searching_start (g : Graph) (root : Nat) : g.Searching root [.visit root] [] [] where
  mem_seen := by simp
  nodup := by simp
  lt_size := by simp
  leads_task t ht _ := by
    obtain rfl := List.mem_singleton.1 ht
    exact .refl root
  leads_done := by simp
  nested := List.pairwise_singleton _ _
  pledged := trivial
  closed := by simp
  descending := trivial
  rooted := .inr (by simp)

theorem Searching.finish (h : g.Searching root (.finish n :: rest) seen done) :
    g.Searching root rest seen (n :: done) where
  mem_seen k := by
    rw [h.mem_seen]
    simp only [opened_finish, List.mem_cons, or_assoc, or_left_comm]
  nodup := List.perm_middle.nodup_iff.2 h.nodup
  lt_size := h.lt_size
  leads_task t ht := h.leads_task t (by simp [ht])
  leads_done k hk := by
    rcases List.mem_cons.1 hk with rfl | hk
    · exact h.leads_task (.finish k) (by simp) (h.lt_size k ((h.mem_seen k).2 (by simp)))
    · exact h.leads_done k hk
  nested := (List.pairwise_cons.1 h.nested).2
  pledged := h.pledged.2
  closed m hm k harc := by
    rcases List.mem_cons.1 hm with rfl | hm
    · exact h.pledged.1 k harc
    · exact h.closed m hm k harc
  descending := by
    refine ⟨fun k harc => ?_, h.descending⟩
    have hn : n < g.size := h.lt_size n ((h.mem_seen n).2 (by simp))
    rcases (h.mem_seen k).1 (h.pledged.1 k harc) with hopened | hdone
    · rcases List.mem_cons.1 hopened with rfl | hopened
      · exact .inr (.refl k)
      · -- An open node leads to every node that is finished while it is open.
        exact .inr ((List.pairwise_cons.1 h.nested).1 _ (finish_mem_of_mem_opened hopened) k rfl hn)
    · exact .inl hdone
  rooted := h.rooted.imp_right fun hmem => by simpa using hmem

theorem Searching.skip (h : g.Searching root (.visit n :: rest) seen done)
    (hroot : root < g.size) (hold : ¬(n < g.size ∧ n ∉ seen)) :
    g.Searching root rest seen done where
  mem_seen := h.mem_seen
  nodup := h.nodup
  lt_size := h.lt_size
  leads_task t ht := h.leads_task t (by simp [ht])
  leads_done := h.leads_done
  nested := (List.pairwise_cons.1 h.nested).2
  pledged := by
    refine h.pledged.mono fun k hk hknown => ?_
    rcases hknown with hseen | rfl
    · exact hseen
    · exact Classical.not_not.1 fun hnew => hold ⟨hk, hnew⟩
  closed := h.closed
  descending := h.descending
  rooted := by
    rcases h.rooted with hseen | hmem
    · exact .inl hseen
    · rcases List.mem_cons.1 hmem with heq | hmem
      · obtain rfl : root = n := by simpa using heq
        exact .inl (Classical.not_not.1 fun hnew => hold ⟨hroot, hnew⟩)
      · exact .inr hmem

theorem Searching.visit (h : g.Searching root (.visit n :: rest) seen done) (hn : n < g.size)
    (hnew : n ∉ seen) :
    g.Searching root ((g.targets n).map .visit ++ .finish n :: rest) (n :: seen) done where
  mem_seen k := by
    rw [List.mem_cons, h.mem_seen k]
    simp [or_assoc]
  nodup := by
    have hfresh : n ∉ opened rest ++ done := by
      rw [List.mem_append]
      exact fun hmem => hnew ((h.mem_seen n).2 hmem)
    simpa using List.nodup_cons.2 ⟨hfresh, h.nodup⟩
  lt_size k hk := by
    rcases List.mem_cons.1 hk with rfl | hk
    · exact hn
    · exact h.lt_size k hk
  leads_task t ht hlt := by
    have hleads : g.Leads root n := h.leads_task (.visit n) (by simp) hn
    rcases List.mem_append.1 ht with ht | ht
    · obtain ⟨k, hk, rfl⟩ := List.mem_map.1 ht
      exact hleads.tail (arc_iff_mem_targets.2 ⟨hk, hlt⟩)
    · rcases List.mem_cons.1 ht with rfl | ht
      · exact hleads
      · exact h.leads_task t (by simp [ht]) hlt
  leads_done := h.leads_done
  nested := by
    obtain ⟨houter, hrest⟩ := List.pairwise_cons.1 h.nested
    have hinner : ∀ t' ∈ rest, ∀ m, t' = .finish m → g.Leads m n :=
      fun t' ht' m heq => houter t' ht' m heq hn
    -- The targets are begun inside `n`, and `n` is begun inside whatever is open.
    refine List.pairwise_append.2 ⟨?_, List.pairwise_cons.2 ⟨?_, hrest⟩, ?_⟩
    · rw [List.pairwise_map]
      exact List.pairwise_of_forall fun k k' m heq => by simp at heq
    · exact fun t' ht' m heq _ => hinner t' ht' m heq
    · intro t ht t' ht' m heq hlt
      obtain ⟨k, hk, rfl⟩ := List.mem_map.1 ht
      have harc : g.Arc n k := arc_iff_mem_targets.2 ⟨hk, hlt⟩
      rcases List.mem_cons.1 ht' with rfl | ht'
      · obtain rfl : n = m := by simpa using heq
        exact .head harc (.refl k)
      · exact (hinner t' ht' m heq).tail harc
  pledged := by
    rw [pledged_map_visit]
    refine ⟨fun k harc => .inr (arc_iff_mem_targets.1 harc).1, ?_⟩
    refine h.pledged.mono fun k _ hknown => .inl ?_
    rw [List.mem_cons]
    exact hknown.symm
  closed m hm k harc := List.mem_cons_of_mem _ (h.closed m hm k harc)
  descending := h.descending
  rooted := by
    rcases h.rooted with hseen | hmem
    · exact .inl (List.mem_cons_of_mem _ hseen)
    · rcases List.mem_cons.1 hmem with heq | hmem
      · obtain rfl : root = n := by simpa using heq
        exact .inl List.mem_cons_self
      · exact .inr (by simp [hmem])

/-- A search keeps its invariant until there is no task left. -/
theorem Searching.search {tasks : List Task} (h : g.Searching root tasks seen done)
    (hroot : root < g.size) : ∃ seen', g.Searching root [] seen' (g.search tasks seen done) := by
  fun_induction g.search tasks seen done with
  | case1 seen done => exact ⟨seen, h⟩
  | case2 seen done n rest ih => exact ih h.finish
  | case3 seen done n rest hnew ih => exact ih (h.visit hnew.1 hnew.2)
  | case4 seen done n rest hold ih => exact ih (h.skip hroot hold)

/-- The nodes of a finished search are those that the root leads to. -/
theorem Searching.mem_done (h : g.Searching root [] seen done) : n ∈ done ↔ g.Leads root n := by
  have hseen : ∀ k, k ∈ seen ↔ k ∈ done := by simpa using h.mem_seen
  refine ⟨h.leads_done n, fun hleads => ?_⟩
  induction hleads with
  | refl => exact (hseen root).1 (h.rooted.resolve_right (by simp))
  | tail _ harc ih => exact (hseen _).1 (h.closed _ ih _ harc)

/-! ### The order of a graph -/

/-- Without an entry that is a node there is nothing to search. -/
theorem reversePostorder_cases (g : Graph) :
    (g.reversePostorder = [] ∧ ∀ n, ¬g.Reachable n) ∨
      ∃ root seen, g.entry = some root ∧ root < g.size ∧
        g.Searching root [] seen g.reversePostorder := by
  unfold reversePostorder
  cases hentry : g.entry with
  | none =>
      refine .inl ⟨rfl, ?_⟩
      rintro n ⟨root, h, -⟩
      simp [hentry] at h
  | some root =>
      by_cases hroot : root < g.size
      · obtain ⟨seen, h⟩ := (g.searching_start root).search hroot
        exact .inr ⟨root, seen, rfl, hroot, h⟩
      · refine .inl ⟨by simp [search, hroot], ?_⟩
        rintro n ⟨root', h, hroot', -⟩
        obtain rfl : root = root' := by simpa [hentry] using h
        exact hroot hroot'

/-- The reverse postorder lists the reachable nodes. -/
theorem mem_reversePostorder : n ∈ g.reversePostorder ↔ g.Reachable n := by
  rcases g.reversePostorder_cases with ⟨hnil, hnone⟩ | ⟨root, seen, hentry, hroot, h⟩
  · simp [hnil, hnone]
  · rw [h.mem_done]
    constructor
    · exact fun hleads => ⟨root, hentry, hroot, hleads⟩
    · rintro ⟨root', hentry', -, hleads⟩
      obtain rfl : root = root' := by simpa [hentry] using hentry'
      exact hleads

theorem nodup_reversePostorder (g : Graph) : g.reversePostorder.Nodup := by
  rcases g.reversePostorder_cases with ⟨hnil, -⟩ | ⟨_, _, -, -, h⟩
  · simp [hnil]
  · simpa using h.nodup

theorem descending_reversePostorder (g : Graph) : g.Descending g.reversePostorder := by
  rcases g.reversePostorder_cases with ⟨hnil, -⟩ | ⟨_, _, -, -, h⟩
  · rw [hnil]
    trivial
  · exact h.descending

/-- A node stands before the ends of its edges that do not lead back to it. -/
theorem Descending.idxOf_lt {ns : List Nat} {m : Nat} (h : g.Descending ns) (hnodup : ns.Nodup)
    (hm : m ∈ ns) (harc : g.Arc m n) (hback : ¬g.Leads n m) :
    n ∈ ns ∧ ns.idxOf m < ns.idxOf n := by
  induction ns with
  | nil => simp at hm
  | cons k ns ih =>
      obtain ⟨hk, hnodup⟩ := List.nodup_cons.1 hnodup
      by_cases hmk : m = k
      · subst hmk
        have hn : n ∈ ns := (h.1 n harc).resolve_right hback
        have hne : m ≠ n := fun heq => hk (heq ▸ hn)
        exact ⟨List.mem_cons_of_mem _ hn, by simp [List.idxOf_cons, beq_false_of_ne hne]⟩
      · obtain ⟨hn, hlt⟩ := ih h.2 hnodup ((List.mem_cons.1 hm).resolve_left hmk)
        have hnk : k ≠ n := fun heq => hk (heq ▸ hn)
        refine ⟨List.mem_cons_of_mem _ hn, ?_⟩
        simpa [List.idxOf_cons, beq_false_of_ne (Ne.symm hmk), beq_false_of_ne hnk] using hlt

/-- The nodes of a walk stand in the reverse postorder as they do in the walk. -/
theorem SingleWalks.pairwise_idxOf {ws : List Nat} (hg : g.SingleWalks) (hwalk : g.Walk ws n) :
    (ws ++ [n]).Pairwise fun a b => g.reversePostorder.idxOf a < g.reversePostorder.idxOf b := by
  induction hwalk with
  | entry => simp
  | @step ws m n hwalk harc ih =>
      have hlast := (g.descending_reversePostorder.idxOf_lt g.nodup_reversePostorder
        (mem_reversePostorder.2 hwalk.reachable) harc
        (hg.not_leads_back hwalk.reachable harc)).2
      refine List.pairwise_append.2 ⟨ih, by simp, fun a ha b hb => ?_⟩
      obtain rfl := List.mem_singleton.1 hb
      rcases List.mem_append.1 ha with ha | ha
      · exact Nat.lt_trans ((List.pairwise_append.1 ih).2.2 a ha m (by simp)) hlast
      · obtain rfl := List.mem_singleton.1 ha
        exact hlast

theorem Walk.reachable_of_mem {ws : List Nat} {k : Nat} (hwalk : g.Walk ws n)
    (hk : k ∈ ws ++ [n]) : g.Reachable k := by
  rcases List.mem_append.1 hk with hk | hk
  · obtain ⟨vs, hvs, -⟩ := hwalk.exists_shorter hk
    exact hvs.reachable
  · obtain rfl := List.mem_singleton.1 hk
    exact hwalk.reachable

/-- With single walks the reverse postorder, restricted to the nodes of a walk, is the walk. -/
theorem SingleWalks.filter_reversePostorder {ws : List Nat} (hg : g.SingleWalks)
    (hwalk : g.Walk ws n) : g.reversePostorder.filter (· ∈ ws ++ [n]) = ws ++ [n] := by
  have hsorted : g.reversePostorder.Pairwise fun a b =>
      g.reversePostorder.idxOf a < g.reversePostorder.idxOf b := by
    rw [List.pairwise_iff_getElem]
    intro i j hi hj hij
    rwa [g.nodup_reversePostorder.idxOf_getElem i hi, g.nodup_reversePostorder.idxOf_getElem j hj]
  -- Both sides have the same nodes and ascend in the same order.
  refine List.Perm.eq_of_pairwise (fun a b _ _ hab hba => absurd (Nat.lt_trans hab hba)
    (Nat.lt_irrefl _)) (hsorted.filter _) (hg.pairwise_idxOf hwalk) ?_
  refine (List.perm_ext_iff_of_nodup (g.nodup_reversePostorder.filter _) (hg.nodup hwalk)).2 ?_
  intro k
  simp only [List.mem_filter, decide_eq_true_eq]
  exact ⟨fun hk => hk.2, fun hk => ⟨mem_reversePostorder.2 (hwalk.reachable_of_mem hk), hk⟩⟩

/-- A search looks at the number of nodes and at the edges that leave the nodes it can meet. -/
theorem search_congr {g' : Graph} {met : Nat → Prop} (hsize : g'.size = g.size)
    (htargets : ∀ n, met n → g'.targets n = g.targets n)
    (hmet : ∀ m n, met m → g.Arc m n → met n) {tasks : List Task}
    (htasks : ∀ t ∈ tasks, t.node < g.size → met t.node) (seen done : List Nat) :
    g'.search tasks seen done = g.search tasks seen done := by
  fun_induction g.search tasks seen done with
  | case1 seen done => rw [search]
  | case2 seen done n rest ih =>
      rw [search, ih fun t ht => htasks t (List.mem_cons_of_mem _ ht)]
  | case3 seen done n rest hnew ih =>
      have hn : met n := htasks (.visit n) List.mem_cons_self hnew.1
      rw [search, hsize, if_pos hnew, htargets n hn]
      apply ih
      intro t ht hlt
      rcases List.mem_append.1 ht with ht | ht
      · obtain ⟨k, hk, rfl⟩ := List.mem_map.1 ht
        exact hmet n k hn (arc_iff_mem_targets.2 ⟨hk, hlt⟩)
      · rcases List.mem_cons.1 ht with rfl | ht
        · exact hn
        · exact htasks t (List.mem_cons_of_mem _ ht) hlt
  | case4 seen done n rest hold ih =>
      rw [search, hsize, if_neg hold, ih fun t ht => htasks t (List.mem_cons_of_mem _ ht)]

theorem reversePostorder_congr {g' : Graph} (hsize : g'.size = g.size)
    (hentry : g'.entry = g.entry) (htargets : ∀ n, g.Reachable n → g'.targets n = g.targets n) :
    g'.reversePostorder = g.reversePostorder := by
  unfold reversePostorder
  rw [hentry]
  cases hroot : g.entry with
  | none => rfl
  | some root =>
      refine search_congr hsize htargets (fun m n hm harc => hm.arc harc) ?_ [] []
      intro t ht hlt
      obtain rfl := List.mem_singleton.1 ht
      exact ⟨root, hroot, hlt, .refl root⟩

instance (g : Graph) (n : Nat) : Decidable (g.Reachable n) :=
  decidable_of_iff _ mem_reversePostorder

theorem nodup_schedule (g : Graph) : g.schedule.Nodup := by
  refine List.nodup_append.2 ⟨g.nodup_reversePostorder, List.nodup_range.filter _, ?_⟩
  rintro n hn m hm rfl
  simpa [hn] using (List.mem_filter.1 hm).2

theorem mem_schedule : n ∈ g.schedule ↔ n < g.size := by
  simp only [schedule, List.mem_append, List.mem_filter, List.mem_range, decide_eq_true_eq]
  constructor
  · rintro (hn | ⟨hn, -⟩)
    · exact (mem_reversePostorder.1 hn).lt_size
    · exact hn
  · intro hn
    by_cases hmem : n ∈ g.reversePostorder
    · exact .inl hmem
    · exact .inr ⟨hn, hmem⟩

theorem perm_schedule (g : Graph) : g.schedule.Perm (List.range g.size) :=
  (List.perm_ext_iff_of_nodup g.nodup_schedule List.nodup_range).2 fun n => by
    rw [mem_schedule, List.mem_range]

theorem length_schedule (g : Graph) : g.schedule.length = g.size := by
  simpa using g.perm_schedule.length_eq

end Typestate.Graph
