import Mathlib.Data.List.Basic
import Typestate.Batch
import Typestate.Proofs.Emission

/-!
Batches under any schedule. Whatever order the workers of a batch go on in, and whenever the
collector is emptied, the reports are those of the procedures checked alone, in the order of the
batch, and what comes out of the collector is an interleaving of their violations.
-/

namespace Typestate

section Interleaving

variable {α : Type} {ls : List (List α)} {l xs ys : List α} {x : α} {i : Nat}

/-- A list that takes the elements of several lists, all of them, each once and those of one list
in their order. A tag on each element says from which list it is taken. -/
def Interleaving (ls : List (List α)) (l : List α) : Prop :=
  ∃ tagged : List (Nat × α), tagged.map Prod.snd = l ∧
    ∀ i, (tagged.filter (·.1 = i)).map Prod.snd = ls.getD i []

theorem interleaving_nil (h : ∀ l ∈ ls, l = []) : Interleaving ls [] := by
  refine ⟨[], rfl, fun i => ?_⟩
  cases hi : ls[i]? with
  | none => simp [List.getD_eq_getElem?_getD, hi]
  | some xs => simp [List.getD_eq_getElem?_getD, hi, h xs (List.mem_of_getElem? hi)]

theorem Interleaving.append (h : Interleaving ls l) (hi : ls[i]? = some xs) (ys : List α) :
    Interleaving (ls.set i (xs ++ ys)) (l ++ ys) := by
  obtain ⟨tagged, rfl, hfilter⟩ := h
  refine ⟨tagged ++ ys.map (i, ·), by simp [Function.comp_def], fun j => ?_⟩
  obtain ⟨hlt, hget⟩ := List.getElem?_eq_some_iff.1 hi
  rw [List.filter_append, List.map_append, hfilter, List.getD_eq_getElem?_getD,
    List.getD_eq_getElem?_getD, List.getElem?_set]
  by_cases hij : i = j
  · subst hij
    simp [hget, hlt, List.filter_map, Function.comp_def]
  · simp [hij, List.filter_map, Function.comp_def]

/-- The first element is the first one of some list, and the others interleave what is left. -/
theorem Interleaving.exists_head (h : Interleaving ls (x :: l)) :
    ∃ i xs, ls[i]? = some (x :: xs) ∧ Interleaving (ls.set i xs) l := by
  obtain ⟨tagged, hsnd, hfilter⟩ := h
  obtain ⟨⟨i, y⟩, rest, rfl, rfl, rfl⟩ := List.map_eq_cons_iff.1 hsnd
  have hi : ls[i]? = some (y :: (rest.filter (·.1 = i)).map Prod.snd) := by
    have hget := hfilter i
    rw [List.filter_cons_of_pos (by simp), List.map_cons, List.getD_eq_getElem?_getD] at hget
    cases hls : ls[i]? with
    | none => simp [hls] at hget
    | some xs => rw [hget, hls, Option.getD_some]
  have hlt : i < ls.length := (List.getElem?_eq_some_iff.1 hi).1
  refine ⟨i, _, hi, rest, rfl, fun j => ?_⟩
  rw [List.getD_eq_getElem?_getD, List.getElem?_set]
  by_cases hij : i = j
  · subst hij
    simp [hlt]
  · rw [if_neg hij, ← List.getD_eq_getElem?_getD, ← hfilter j, List.filter_cons_of_neg (by simpa)]

theorem Interleaving.perm_flatten (h : Interleaving ls l) : l.Perm ls.flatten := by
  induction l generalizing ls with
  | nil =>
      obtain ⟨tagged, hsnd, hfilter⟩ := h
      obtain rfl := List.map_eq_nil_iff.1 hsnd
      have hnil : ls.flatten = [] := by
        rw [List.flatten_eq_nil_iff]
        intro xs hxs
        obtain ⟨i, hi⟩ := List.getElem?_of_mem hxs
        simpa [List.getD_eq_getElem?_getD, hi] using (hfilter i).symm
      rw [hnil]
  | cons x l ih =>
      -- Take `x` out of the list that it comes from: the rest interleaves what is left.
      obtain ⟨i, xs, hi, hrest⟩ := h.exists_head
      obtain ⟨hlt, hget⟩ := List.getElem?_eq_some_iff.1 hi
      have hls : ls = ls.set i (x :: xs) := by rw [← hget, List.set_getElem_self]
      have hset : ∀ ys : List α, (ls.set i ys).flatten =
          (ls.take i).flatten ++ (ys ++ (ls.drop (i + 1)).flatten) := by
        intro ys
        rw [List.set_eq_take_append_cons_drop, if_pos hlt, List.flatten_append, List.flatten_cons]
      rw [hls, hset, List.cons_append]
      refine ((ih hrest).cons x).trans ?_
      rw [hset]
      exact List.perm_middle.symm

theorem Interleaving.sublist (h : Interleaving ls l) (hxs : xs ∈ ls) : xs.Sublist l := by
  obtain ⟨tagged, rfl, hfilter⟩ := h
  obtain ⟨i, hi⟩ := List.getElem?_of_mem hxs
  obtain rfl : (tagged.filter (·.1 = i)).map Prod.snd = xs := by
    rw [hfilter, List.getD_eq_getElem?_getD, hi, Option.getD_some]
  exact List.filter_sublist.map Prod.snd

end Interleaving

namespace Checker

theorem violations_cons (file : Option String) (f : Finding) (fs : List Finding) :
    violations file (f :: fs) = violations file [f] ++ violations file fs :=
  List.filterMap_append (l := [f])

theorem reportFinding_eq {σ : Type} (report : σ → Violation → σ) (file : Option String)
    (receiver : σ) (f : Finding) :
    reportFinding report file receiver f = (violations file [f]).foldl report receiver :=
  foldl_reportFinding report file [f] receiver

end Checker

theorem Report.foldl_record (r : Report) (vs : List Violation) :
    vs.foldl record r = { r with violations := r.violations ++ vs } := by
  induction vs generalizing r with
  | nil => simp
  | cons v vs ih =>
      rw [List.foldl_cons, ih]
      simp [record]

namespace Worker

variable {w : Worker} {f : Finding} {rest : List Finding}

/-- The report when nothing is left to go through. -/
def final (w : Worker) : Report :=
  { w.report with violations := w.report.violations ++ Checker.violations w.file w.pending }

theorem final_start (c : Checker) (g : Graph) : (start c g).final = c.check g ∅ :=
  rfl

theorem final_of_isDone (h : w.isDone = true) : w.final = w.report := by
  have hpending : w.pending = [] := List.isEmpty_iff.1 h
  simp [final, hpending, Checker.violations]

theorem pending_pass (w : Worker) (f : Finding) (rest : List Finding) :
    (w.pass f rest).pending = rest :=
  rfl

theorem violations_report_pass (w : Worker) (f : Finding) (rest : List Finding) :
    (w.pass f rest).report.violations =
      w.report.violations ++ Checker.violations w.file [f] := by
  rw [pass, Checker.reportFinding_eq, Report.foldl_record]

theorem final_pass (h : w.pending = f :: rest) : (w.pass f rest).final = w.final := by
  rw [pass, Checker.reportFinding_eq, Report.foldl_record, final, final, h,
    Checker.violations_cons _ f rest]
  simp

end Worker

namespace Batch

variable {c : Checker} {gs : List Graph} {sink : Collector} {spread : Bool} {b b' : Batch}
  {m : Move} {moves : List Move}

/-- What a move does: the collector is emptied, or a worker whose turn it is goes through its next
finding. -/
theorem step_cases (h : b.step spread m = some b') :
    (m = .drain ∧ b' = ⟨b.workers, .empty, b.drained ++ b.sink.received⟩) ∨
      ∃ i w f rest, m = .advance i ∧ b.workers[i]? = some w ∧ w.pending = f :: rest ∧
        b.mayAdvance spread i = true ∧
        b' = ⟨b.workers.set i (w.pass f rest),
          b.sink.reportAll (Checker.violations w.file [f]), b.drained⟩ := by
  cases m with
  | drain =>
      refine .inl ⟨rfl, ?_⟩
      simpa [step, Collector.drain, eq_comm] using h
  | advance i =>
      refine .inr ?_
      simp only [step, Option.bind_eq_bind, Option.bind_eq_some_iff] at h
      obtain ⟨w, hw, h⟩ := h
      cases hpending : w.pending with
      | nil => simp [hpending] at h
      | cons f rest =>
          simp only [hpending] at h
          split at h
          · next hturn =>
            refine ⟨i, w, f, rest, rfl, hw, hpending, hturn, ?_⟩
            rw [← Option.some_inj.1 h, Checker.reportFinding_eq]
            rfl
          · cases h

/-- The reports will be those of the procedures checked alone, and what has arrived is an
interleaving of what the workers have reported so far. -/
structure Sound (c : Checker) (gs : List Graph) (sink : Collector) (b : Batch) : Prop where
  final : b.workers.map Worker.final = c.checkAll gs
  arrived : ∃ arrivals, b.drained ++ b.sink.received = sink.received ++ arrivals ∧
    Interleaving (b.reports.map Report.violations) arrivals

theorem sound_start (c : Checker) (gs : List Graph) (sink : Collector) :
    Sound c gs sink (start c gs sink) where
  final := by
    rw [start, Checker.checkAll, List.map_map]
    exact List.map_congr_left fun g _ => Worker.final_start c g
  arrived := by
    refine ⟨[], by simp [start], interleaving_nil ?_⟩
    simp [start, reports, Worker.start]

theorem Sound.step (h : Sound c gs sink b) (hstep : b.step spread m = some b') :
    Sound c gs sink b' := by
  obtain ⟨arrivals, harrivals, hinterleaving⟩ := h.arrived
  rcases step_cases hstep with ⟨-, rfl⟩ | ⟨i, w, f, rest, -, hw, hpending, -, rfl⟩
  -- Emptying the collector moves what has arrived but adds nothing to it.
  · exact ⟨h.final, arrivals, by simpa [Collector.empty] using harrivals, hinterleaving⟩
  · constructor
    · obtain ⟨hi, hget⟩ := List.getElem?_eq_some_iff.1 hw
      rw [List.map_set, Worker.final_pass hpending, ← List.map_set, ← hget, List.set_getElem_self]
      exact h.final
    · refine ⟨arrivals ++ Checker.violations w.file [f], ?_, ?_⟩
      · rw [Collector.received_reportAll, ← List.append_assoc, harrivals, List.append_assoc]
      · have hreported : (b.reports.map Report.violations)[i]? = some w.report.violations := by
          simp [reports, hw]
        rw [reports, List.map_set, List.map_set, Worker.violations_report_pass]
        exact hinterleaving.append hreported _

theorem run_cons (spread : Bool) (b : Batch) (m : Move) (moves : List Move) :
    b.run spread (m :: moves) = (b.step spread m).bind fun b => b.run spread moves := by
  simp only [run, List.foldlM_cons]
  rfl

theorem run_append (spread : Bool) (b : Batch) (moves more : List Move) :
    b.run spread (moves ++ more) = (b.run spread moves).bind fun b => b.run spread more := by
  simp only [run, List.foldlM_append]
  rfl

theorem Sound.run (h : Sound c gs sink b) (hrun : b.run spread moves = some b') :
    Sound c gs sink b' := by
  induction moves generalizing b with
  | nil =>
      obtain rfl : b = b' := Option.some_inj.1 hrun
      exact h
  | cons m moves ih =>
      rw [run_cons, Option.bind_eq_some_iff] at hrun
      obtain ⟨b₁, hstep, hrun⟩ := hrun
      exact ih (h.step hstep) hrun

theorem Sound.reports (h : Sound c gs sink b) (hdone : b.isDone = true) :
    b.reports = c.checkAll gs := by
  rw [← h.final]
  refine List.map_congr_left fun w hw => (Worker.final_of_isDone ?_).symm
  exact List.all_eq_true.1 hdone w hw

/-! ### Completion -/

/-- How many findings are still to be gone through. -/
def left (b : Batch) : Nat :=
  (b.workers.map fun w => w.pending.length).sum

theorem left_step (h : b.step spread m = some b') :
    b'.left + (if m = .drain then 0 else 1) = b.left := by
  rcases step_cases h with ⟨rfl, rfl⟩ | ⟨i, w, f, rest, rfl, hw, hpending, -, rfl⟩
  · rfl
  · obtain ⟨hi, hget⟩ := List.getElem?_eq_some_iff.1 hw
    have hset : ∀ w', ((b.workers.set i w').map fun w => w.pending.length).sum =
        ((b.workers.take i).map fun w => w.pending.length).sum + (w'.pending.length +
          ((b.workers.drop (i + 1)).map fun w => w.pending.length).sum) := by
      intro w'
      rw [List.set_eq_take_append_cons_drop, if_pos hi, List.map_append, List.sum_append,
        List.map_cons, List.sum_cons]
    have hself : b.workers.set i w = b.workers := by rw [← hget, List.set_getElem_self]
    have hleft := hset w
    rw [hself, hpending, List.length_cons] at hleft
    rw [left, left, hset, hleft, Worker.pending_pass, if_neg (by simp)]
    omega

/-- Each worker moves as often as it has findings, so no schedule keeps a batch from ending. -/
theorem left_run (h : b.run spread moves = some b') :
    b'.left + (moves.filter (· ≠ .drain)).length = b.left := by
  induction moves generalizing b with
  | nil =>
      obtain rfl : b = b' := Option.some_inj.1 h
      rfl
  | cons m moves ih =>
      rw [run_cons, Option.bind_eq_some_iff] at h
      obtain ⟨b₁, hstep, hrun⟩ := h
      have hfirst := left_step hstep
      have hrest := ih hrun
      by_cases hm : m = .drain
      · rw [if_pos hm] at hfirst
        rw [List.filter_cons_of_neg (by simpa using hm)]
        omega
      · rw [if_neg hm] at hfirst
        rw [List.filter_cons_of_pos (by simpa using hm), List.length_cons]
        omega

/-- A worker that has gone through all its findings. -/
def finish (w : Worker) : Worker :=
  ⟨w.file, w.final, []⟩

variable {done : List Worker}

/-- After workers that are done comes one that may go on, in both kinds of batches. -/
theorem step_advance {w : Worker} {f : Finding} {fs : List Finding}
    (hdone : ∀ w ∈ done, w.isDone = true) (hpending : w.pending = f :: fs) (rest : List Worker)
    (drained : List Violation) :
    step spread ⟨done ++ w :: rest, sink, drained⟩ (.advance done.length) =
      some ⟨done ++ w.pass f fs :: rest, sink.reportAll (Checker.violations w.file [f]),
        drained⟩ := by
  -- In a spread batch every worker may go on; else those in front have to be done, and they are.
  have hturn : mayAdvance spread ⟨done ++ w :: rest, sink, drained⟩ done.length = true := by
    simp only [mayAdvance, List.take_left, Bool.or_eq_true, List.all_eq_true]
    exact .inr hdone
  simp only [step, List.getElem?_append_right, hpending, hturn, Nat.le_refl, Nat.sub_self,
    List.getElem?_cons_zero, Option.bind_eq_bind, Option.bind_some, if_true,
    List.set_append_right, List.set_cons_zero, Checker.reportFinding_eq]
  rfl

theorem exists_run_worker (hdone : ∀ w ∈ done, w.isDone = true) (spread : Bool) (w : Worker)
    (rest : List Worker) (sink : Collector) (drained : List Violation) :
    ∃ moves, run spread ⟨done ++ w :: rest, sink, drained⟩ moves =
      some ⟨done ++ finish w :: rest, sink.reportAll (Checker.violations w.file w.pending),
        drained⟩ := by
  -- On the findings that are left; the worker and the collector change with each of them.
  induction hpending : w.pending generalizing w sink with
  | nil =>
      refine ⟨[], ?_⟩
      have hfinish : finish w = w := by
        rw [finish, Worker.final_of_isDone (by simp [Worker.isDone, hpending]), ← hpending]
      rw [hfinish]
      rfl
  | cons f fs ih =>
      obtain ⟨moves, hrun⟩ :=
        ih (w.pass f fs) (sink.reportAll (Checker.violations w.file [f])) rfl
      refine ⟨.advance done.length :: moves, ?_⟩
      rw [run_cons, step_advance hdone hpending, Option.bind_some, hrun, finish,
        Worker.final_pass hpending, Checker.violations_cons w.file f fs, Collector.reportAll,
        Collector.reportAll, ← List.foldl_append]
      rfl

/-- A batch can be completed from wherever it stands: the workers that are not done go on, one
after the other. -/
theorem exists_run_finish (done : List Worker) (hdone : ∀ w ∈ done, w.isDone = true)
    (spread : Bool) (rest : List Worker) (sink : Collector) (drained : List Violation) :
    ∃ moves, run spread ⟨done ++ rest, sink, drained⟩ moves =
      some ⟨done ++ rest.map finish, rest.foldl
        (fun sink w => sink.reportAll (Checker.violations w.file w.pending)) sink, drained⟩ := by
  induction rest generalizing done sink with
  | nil => exact ⟨[], by simp [run]⟩
  | cons w rest ih =>
      obtain ⟨moves, hrun⟩ := exists_run_worker hdone spread w rest sink drained
      have hdone' : ∀ w' ∈ done ++ [finish w], w'.isDone = true := by
        intro w' hw'
        rcases List.mem_append.1 hw' with hw' | hw'
        · exact hdone w' hw'
        · rw [List.mem_singleton.1 hw']
          rfl
      obtain ⟨more, hmore⟩ := ih (done ++ [finish w]) hdone'
        (sink.reportAll (Checker.violations w.file w.pending))
      refine ⟨moves ++ more, ?_⟩
      rw [run_append, hrun, Option.bind_some]
      simpa using hmore

theorem exists_run_isDone (spread : Bool) (b : Batch) :
    ∃ moves b', b.run spread moves = some b' ∧ b'.isDone = true := by
  obtain ⟨moves, hrun⟩ := exists_run_finish [] (by simp) spread b.workers b.sink b.drained
  refine ⟨moves, _, hrun, ?_⟩
  simp [isDone, finish, Worker.isDone]

/-- To check a batch in turn is one of its runs. -/
theorem exists_run_checkAllInto (c : Checker) (gs : List Graph) (sink : Collector)
    (spread : Bool) : ∃ moves b, (start c gs sink).run spread moves = some b ∧
      b.isDone = true ∧ b.drained = [] ∧ c.checkAllInto gs sink = (b.reports, b.sink) := by
  obtain ⟨moves, hrun⟩ :=
    exists_run_finish [] (by simp) spread (start c gs sink).workers sink []
  refine ⟨moves, _, hrun, by simp [isDone, finish, Worker.isDone], rfl, ?_⟩
  simp only [Checker.checkAllInto, Checker.checkAll, reports, start, List.nil_append,
    List.map_map, List.foldl_map]
  rfl

/-! ### The whole batch -/

/-- A batch of procedures, in whatever way the settings let it run: it never gets stuck, takes a
bounded number of moves besides the emptying of the collector, and when it is done the reports are
those of the procedures checked alone, in their order. What has come out of the collector by then,
in the end or before, is an interleaving of their violations: each arrives once, and those of one
procedure arrive in the order of its report, which is the reverse postorder of their nodes. -/
theorem check_batch (c : Checker) (gs : List Graph) (sink : Collector) (moves : List Move)
    (b : Batch) (hrun : (start c gs sink).run (c.settings.spreads gs.length) moves = some b) :
    (∃ more b', b.run (c.settings.spreads gs.length) more = some b' ∧ b'.isDone = true) ∧
      (moves.filter (· ≠ .drain)).length ≤ (gs.map fun g => g.reversePostorder.length).sum ∧
      (b.isDone = true → b.reports = c.checkAll gs ∧
        c.checkAll gs = gs.map (fun g => c.check g ∅) ∧
        ∃ arrivals, b.drained ++ b.sink.snapshot = sink.snapshot ++ arrivals ∧
          Interleaving (gs.map fun g => (c.check g ∅).violations) arrivals ∧
          arrivals.Perm (gs.flatMap fun g => (c.check g ∅).violations) ∧
          ∀ g ∈ gs, (c.check g ∅).violations.Sublist arrivals ∧
            ((c.check g ∅).violations.map Violation.node).Sublist g.reversePostorder) ∧
      ∃ inTurn b', (start c gs sink).run (c.settings.spreads gs.length) inTurn = some b' ∧
        b'.isDone = true ∧ b'.drained = [] ∧ c.checkAllInto gs sink = (b'.reports, b'.sink) := by
  have hsound := (sound_start c gs sink).run hrun
  refine ⟨exists_run_isDone _ b, ?_, fun hdone => ?_, exists_run_checkAllInto c gs sink _⟩
  · have hleft : (start c gs sink).left = (gs.map fun g => g.reversePostorder.length).sum := by
      rw [left, start, List.map_map]
      exact congrArg List.sum (List.map_congr_left fun g _ => c.length_findings g _)
    have hcount := left_run hrun
    omega
  · obtain ⟨arrivals, harrivals, hinterleaving⟩ := hsound.arrived
    rw [hsound.reports hdone, Checker.checkAll, List.map_map] at hinterleaving
    refine ⟨hsound.reports hdone, rfl, arrivals, harrivals, hinterleaving, ?_, fun g hg => ⟨?_, ?_⟩⟩
    · rw [List.flatMap_def]
      exact hinterleaving.perm_flatten
    · exact hinterleaving.sublist (List.mem_map_of_mem hg)
    · rw [Checker.map_node_violations]
      exact g.map_fst_gather_sublist _

/-- Two procedures whose violations arrive crosswise, while the collector is emptied once. -/
theorem check_batch_crosswise :
    let c : Checker :=
      { protocol := .pet, resolve := .ofType "Pet", settings := { minParallelBatch := 2 } }
    let g (k : String) : Graph := ⟨k, none, #[⟨.invoke k (some "Pet") "scare", none⟩,
      ⟨.invoke k (some "Pet") "pet", none⟩, ⟨.invoke k (some "Pet") "pet", none⟩],
      #[⟨0, 1, .sequential⟩, ⟨1, 2, .sequential⟩], some 0⟩
    let moves : List Move := [.advance 0, .advance 1, .advance 0, .advance 1, .drain, .advance 1,
      .advance 0]
    c.settings.spreads 2 = true ∧
      ∃ b, (start c [g "k", g "m"] .empty).run true moves = some b ∧ b.isDone = true ∧
        b.reports = [c.check (g "k") ∅, c.check (g "m") ∅] ∧
        (b.drained ++ b.sink.snapshot).map (fun v => (v.handle.name, v.node)) =
          [("k", 1), ("m", 1), ("m", 2), ("k", 2)] := by
  intro c g moves
  have heval : ((start c [g "k", g "m"] .empty).run true moves).map (fun b => (b.isDone,
      (b.drained ++ b.sink.snapshot).map fun v => (v.handle.name, v.node))) =
        some (true, [("k", 1), ("m", 1), ("m", 2), ("k", 2)]) := by decide +kernel
  obtain ⟨b, hrun, hb⟩ := Option.map_eq_some_iff.1 heval
  obtain ⟨hdone, harrivals⟩ := Prod.mk.injEq .. ▸ hb
  obtain ⟨-, -, hreports, -⟩ := check_batch c [g "k", g "m"] .empty moves b hrun
  exact ⟨by decide, b, hrun, hdone, (hreports hdone).1, harrivals⟩

end Batch

end Typestate
