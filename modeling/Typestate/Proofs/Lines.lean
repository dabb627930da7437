import Typestate.Proofs.Loading
import Typestate.Proofs.StateSet

/-!
The lines of what is written. Names are written as they are, so a line feed in a name ends a line:
there is one line for each violation exactly if no violation shows a name with a line feed. The
names that violations show are those of the procedures and of the states of the protocol.
-/

namespace Typestate

/-- The names of a statement that a violation can show. -/
def Statement.names : Statement → List String
  | invoke receiver _ method => [receiver, method]
  | other _ => []
  | nop => []

def Graph.names (g : Graph) : List String :=
  g.file.toList ++ g.nodes.toList.flatMap fun n => n.statement.names

def Protocol.names (p : Protocol) : List String :=
  p.states.toList.map State.name

/-- The names that the message of a violation shows. -/
def Violation.names (v : Violation) : List String :=
  v.file.toList ++ [v.action.name, v.handle.name, v.actual.name, v.attempted.text]

namespace Command

/-! ### Line feeds -/

/-- The number of line feeds in a text. -/
def feeds (text : String) : Nat :=
  text.toList.count '\n'

/-- Names without line feeds. -/
def Unbroken (names : List String) : Prop :=
  ∀ name ∈ names, '\n' ∉ name.toList

/-- The parts of a text between its line feeds. -/
def parts (text : String) : List String :=
  (text.toList.splitOn '\n').map String.ofList

/-- The lines of a text, each of which ends with a line feed. -/
def lines (text : String) : List String :=
  (parts text).dropLast

variable {s t : String} {ls : List String}

@[simp] theorem feeds_append (s t : String) : feeds (s ++ t) = feeds s + feeds t := by
  simp [feeds]

theorem feeds_eq_zero_iff : feeds s = 0 ↔ '\n' ∉ s.toList :=
  List.count_eq_zero

theorem unbroken_iff : Unbroken ls ↔ (ls.map feeds).sum = 0 := by
  simp [Unbroken, List.sum_eq_zero_iff, feeds_eq_zero_iff]

@[simp] theorem feeds_repr (n : Nat) : feeds n.repr = 0 := by
  rw [feeds_eq_zero_iff, Nat.toList_repr]
  intro hmem
  have hdigit := Nat.isDigit_of_mem_toDigits (by decide) (by decide) hmem
  exact absurd hdigit (by decide)

@[simp] theorem feeds_toString_word (n : UInt32) : feeds (toString n) = 0 :=
  feeds_repr n.toNat

/-! ### Parts and lines -/

theorem length_parts (s : String) : (parts s).length = feeds s + 1 := by
  have hsplit : ∀ cs : List Char, (cs.splitOn '\n').length = cs.count '\n' + 1 := by
    intro cs
    induction cs with
    | nil => rfl
    | cons c cs ih =>
        rw [List.splitOn_cons_eq_if_modifyHead, List.count_cons]
        split <;> simp [ih]
  rw [parts, List.length_map, hsplit, feeds]

theorem parts_append (s t : String) : parts (s ++ "\n" ++ t) = parts s ++ parts t := by
  have htext : (s ++ "\n" ++ t).toList = s.toList ++ '\n' :: t.toList := by simp
  unfold parts
  rw [htext, List.splitOn_append_cons_self, List.map_append]

theorem parts_of_feeds_eq_zero (hs : feeds s = 0) : parts s = [s] := by
  unfold parts
  rw [List.splitOn_eq_singleton (feeds_eq_zero_iff.1 hs)]
  simp

theorem parts_unlines (ls : List String) : parts (unlines ls) = ls.flatMap parts ++ [""] := by
  induction ls with
  | nil => rfl
  | cons l ls ih =>
      have hcons : unlines (l :: ls) = l ++ "\n" ++ unlines ls := by
        simp [unlines]
      rw [hcons, parts_append, ih, List.flatMap_cons, List.append_assoc]

/-- Each text is written with its own line feeds and one more. -/
theorem lines_unlines (ls : List String) : lines (unlines ls) = ls.flatMap parts := by
  rw [lines, parts_unlines, List.dropLast_concat]

theorem length_lines_unlines (ls : List String) :
    (lines (unlines ls)).length = ls.length + (ls.map feeds).sum := by
  rw [lines_unlines, List.length_flatMap]
  simp only [length_parts]
  induction ls with
  | nil => rfl
  | cons l ls ih =>
      simp only [List.map_cons, List.sum_cons, List.length_cons]
      omega

theorem lines_unlines_of_unbroken (hls : Unbroken ls) : lines (unlines ls) = ls := by
  rw [lines_unlines]
  have hparts : ∀ l ∈ ls, parts l = [l] := fun l hl =>
    parts_of_feeds_eq_zero (feeds_eq_zero_iff.2 (hls l hl))
  rw [List.flatMap_congr hparts, List.flatMap_singleton']

/-- There are as many lines as texts exactly if no text has a line feed. -/
theorem length_lines_unlines_iff : (lines (unlines ls)).length = ls.length ↔ Unbroken ls := by
  rw [length_lines_unlines, unbroken_iff]
  omega

/-! ### What is written of a violation -/

theorem feeds_span (s : Span) : feeds s.text = 0 := by
  have hcolon : feeds ":" = 0 := by decide +kernel
  unfold Span.text
  split <;> simp [hcolon]

theorem feeds_location (v : Violation) : feeds v.location = (v.file.toList.map feeds).sum := by
  have hbetween : feeds ":" = 0 ∧ feeds "Line " = 0 ∧ feeds "Node " = 0 := by decide +kernel
  unfold Violation.location
  cases v.file <;> cases v.span <;> simp [feeds_span, hbetween]

/-- The line feeds of a message are those of the names that it shows. -/
theorem feeds_message (v : Violation) : feeds v.message = (v.names.map feeds).sum := by
  have hbetween : feeds ": invalid " = 0 ∧ feeds "()" = 0 ∧ feeds " on '" = 0 ∧ feeds "': " = 0 ∧
      feeds " -> " = 0 ∧ feeds " rejected" = 0 := by decide +kernel
  simp only [Violation.message, Action.text, Violation.names, feeds_append, feeds_location,
    hbetween, List.map_append, List.sum_append, List.map_cons, List.map_nil, List.sum_cons,
    List.sum_nil]
  omega

/-- The annotation shows the file once more. -/
theorem feeds_annotation (v : Violation) :
    (feeds <| annotation v) = (v.file.toList.map feeds).sum + feeds v.message := by
  have hfile : feeds (v.file.getD "unknown") = (v.file.toList.map feeds).sum := by
    cases v.file with
    | none => rfl
    | some file => simp
  have hbetween : feeds "::error file=" = 0 ∧ feeds "::" = 0 ∧ feeds "" = 0 ∧
      feeds ",line=" = 0 := by decide +kernel
  unfold annotation
  cases v.line <;> simp [hfile, hbetween]

theorem feeds_summary (rs : List Report) : feeds (summary rs) = 0 := by
  have hbetween : feeds " violation(s) in " = 0 ∧ feeds " procedure(s)" = 0 := by decide +kernel
  simp [summary, hbetween]

/-- If the line feeds of what is written of a violation are those of its names, all violations are
written without line feeds exactly if their names have none. -/
theorem unbroken_map_iff {f : Violation → String} (hf : ∀ v, feeds (f v) = 0 ↔ Unbroken v.names)
    {vs : List Violation} : Unbroken (vs.map f) ↔ ∀ v ∈ vs, Unbroken v.names := by
  rw [Unbroken, List.forall_mem_map]
  refine forall₂_congr fun v _ => ?_
  rw [← feeds_eq_zero_iff]
  exact hf v

theorem feeds_message_eq_zero_iff (v : Violation) : feeds v.message = 0 ↔ Unbroken v.names := by
  rw [feeds_message, unbroken_iff]

/-- The file is among the names, so that it is shown twice makes no difference. -/
theorem feeds_annotation_eq_zero_iff (v : Violation) :
    (feeds <| annotation v) = 0 ↔ Unbroken v.names := by
  have hfile : (v.file.toList.map feeds).sum ≤ (v.names.map feeds).sum := by
    rw [Violation.names, List.map_append, List.sum_append]
    omega
  rw [unbroken_iff, feeds_annotation, feeds_message]
  omega

theorem unbroken_append_summary {ls : List String} (rs : List Report) :
    Unbroken (ls ++ [summary rs]) ↔ Unbroken ls := by
  have hsummary : '\n' ∉ (summary rs).toList := feeds_eq_zero_iff.1 (feeds_summary rs)
  rw [Unbroken, List.forall_mem_append, List.forall_mem_singleton]
  exact and_iff_left hsummary

theorem exists_annotation_eq (v : Violation) :
    ∃ rest, annotation v = "::error file=" ++ rest := by
  unfold annotation
  simp only [String.append_assoc]
  exact ⟨_, rfl⟩

end Command

/-! ### Where names come from -/

/-- A tracked call is named as its statement names it. -/
theorem Resolver.names_of_whenever {tracked : String → Option String → Bool} {n : Node}
    {call : Call} (hcall : whenever tracked n = some call) :
    n.statement.names = [call.handle.name, call.action.name] := by
  unfold whenever at hcall
  split at hcall
  · rename_i receiver type method hstatement
    split at hcall
    · cases hcall
      rw [hstatement]
      rfl
    · cases hcall
  · cases hcall
  · cases hcall

namespace Checker

variable {c : Checker} {g : Graph} {v : Violation}

/-- A violation shows the file, a receiver and a method of the procedure, and states of the
protocol. -/
theorem mem_names_of_mem_violations {type name : String} (hp : c.protocol.Valid)
    (hc : c.resolve = .ofType type) (hv : v ∈ (c.check g ∅).violations) (hname : name ∈ v.names) :
    name ∈ g.names ∨ name ∈ c.protocol.names ∨ name = "Unknown" := by
  have hstate : ∀ s ∈ c.protocol.states, s.name ∈ c.protocol.names := by
    intro s hs
    exact List.mem_map_of_mem (Std.ExtTreeSet.mem_toList.2 hs)
  obtain ⟨hactual, hattempted⟩ := declares_of_mem_violations hp (by simp) hv
  obtain ⟨n, -, hreport⟩ := mem_violations_check.1 hv
  obtain ⟨node, call, s, hnode, hresolve, -, -, rfl⟩ := report?_eq_some.1 hreport
  rw [hc] at hresolve
  have hcall : ∀ x ∈ [call.handle.name, call.action.name], x ∈ g.names := by
    intro x hx
    rw [← Resolver.names_of_whenever hresolve] at hx
    have hmem : node ∈ g.nodes.toList := Array.mem_toList_iff.2 (Array.mem_of_getElem? hnode)
    exact List.mem_append_right _ (List.mem_flatMap.2 ⟨node, hmem, hx⟩)
  rcases List.mem_append.1 hname with hfile | hname
  · exact .inl (List.mem_append_left _ hfile)
  · simp only [List.mem_cons, List.not_mem_nil, or_false] at hname
    rcases hname with rfl | rfl | rfl | rfl
    · exact .inl (hcall _ (by simp))
    · exact .inl (hcall _ (by simp))
    · exact .inr (.inl (hstate _ hactual))
    · cases hnext : (c.protocol.transition s call.action).next with
      | known t =>
          rw [hnext] at hattempted
          exact .inr (.inl (hstate t hattempted))
      | unknown => exact .inr (.inr rfl)

end Checker

namespace Command

/-- Each violation is written as it is, with its own line feeds and one more. So there is one line
for each violation, and the summary in the text format, exactly if the names that violations show
have no line feeds; the lines are then the annotations or the messages. The names are those of the
procedures and of the states, so it is enough that these have none. -/
theorem write_lines {p : Protocol} {c : Checker} (hc : Checker.ofProtocol p = .ok c)
    (s : Settings) (gs : List Graph) :
    let rs := (c.withSettings s).checkAll gs
    let vs := rs.flatMap Report.violations
    lines (write rs .github) = vs.flatMap (parts ∘ annotation) ∧
    lines (write rs .text) = vs.flatMap (parts ∘ Violation.message) ++ [summary rs] ∧
    ((lines (write rs .github)).length = vs.length ↔ ∀ v ∈ vs, Unbroken v.names) ∧
    ((lines (write rs .text)).length = vs.length + 1 ↔ ∀ v ∈ vs, Unbroken v.names) ∧
    ((∀ v ∈ vs, Unbroken v.names) →
      lines (write rs .github) = vs.map annotation ∧
      (∀ l ∈ lines (write rs .github), ∃ rest, l = "::error file=" ++ rest) ∧
      lines (write rs .text) = vs.map Violation.message ++ [summary rs]) ∧
    (∀ v ∈ vs, ∀ name ∈ v.names,
      (∃ g ∈ gs, name ∈ g.names) ∨ name ∈ p.names ∨ name = "Unknown") ∧
    (Unbroken p.names → (∀ g ∈ gs, Unbroken g.names) → ∀ v ∈ vs, Unbroken v.names) := by
  intro rs vs
  have hgithub : write rs .github = unlines (vs.map annotation) := rfl
  have htext : write rs .text = unlines (vs.map Violation.message ++ [summary rs]) := rfl
  have hannotations : Unbroken (vs.map annotation) ↔ ∀ v ∈ vs, Unbroken v.names :=
    unbroken_map_iff feeds_annotation_eq_zero_iff
  have hmessages : Unbroken (vs.map Violation.message ++ [summary rs]) ↔
      ∀ v ∈ vs, Unbroken v.names :=
    (unbroken_append_summary rs).trans (unbroken_map_iff feeds_message_eq_zero_iff)
  have hnames : ∀ v ∈ vs, ∀ name ∈ v.names,
      (∃ g ∈ gs, name ∈ g.names) ∨ name ∈ p.names ∨ name = "Unknown" := by
    obtain ⟨hp, rfl⟩ := ofProtocol_eq_ok_iff.1 hc
    intro v hv name hname
    obtain ⟨r, hr, hv⟩ := List.mem_flatMap.1 hv
    obtain ⟨g, hg, rfl⟩ := List.mem_map.1 hr
    exact (Checker.mem_names_of_mem_violations hp rfl hv hname).imp_left fun h => ⟨g, hg, h⟩
  refine ⟨?_, ?_, ?_, ?_, fun hvs => ?_, hnames, fun hp hgs v hv name hname => ?_⟩
  · rw [hgithub, lines_unlines, List.flatMap_map]
    rfl
  · rw [htext, lines_unlines, List.flatMap_append, List.flatMap_map, List.flatMap_singleton,
      parts_of_feeds_eq_zero (feeds_summary rs)]
    rfl
  · rw [hgithub, ← hannotations, ← length_lines_unlines_iff, List.length_map]
  · rw [htext, ← hmessages, ← length_lines_unlines_iff, List.length_append, List.length_map,
      List.length_singleton]
  · have hlines : lines (write rs .github) = vs.map annotation :=
      lines_unlines_of_unbroken (hannotations.2 hvs)
    refine ⟨hlines, ?_, lines_unlines_of_unbroken (hmessages.2 hvs)⟩
    rw [hlines, List.forall_mem_map]
    exact fun v _ => exists_annotation_eq v
  · rcases hnames v hv name hname with ⟨g, hg, hname⟩ | hname | rfl
    · exact hgs g hg name hname
    · exact hp name hname
    · exact feeds_eq_zero_iff.1 rfl

/-- The pet `k` is teased in its sleep, in one procedure on a line of a file and in another one
twice and nowhere in particular. -/
theorem write_lines_pet :
    let c : Checker := { protocol := .pet, resolve := .ofType "Pet" }
    let tease : Statement := .invoke "k" (some "Pet") "tease"
    let gs : List Graph :=
      [⟨"f", some "Main.java", #[⟨tease, some (.line 2)⟩], #[], some 0⟩,
        ⟨"g", none, #[⟨tease, none⟩, ⟨tease, none⟩], #[⟨0, 1, .sequential⟩], some 0⟩]
    let rs := (c.withSettings {}).checkAll gs
    Checker.ofProtocol .pet = .ok c ∧
      Unbroken Protocol.pet.names ∧ (∀ g ∈ gs, Unbroken g.names) ∧
      (∀ v ∈ rs.flatMap Report.violations, Unbroken v.names) ∧
      (lines (write rs .github)).length = 3 ∧
      lines (write rs .text) =
        ["Main.java:2: invalid tease() on 'k': Sleeping -> Playing rejected",
          "Node 0: invalid tease() on 'k': Sleeping -> Playing rejected",
          "Node 1: invalid tease() on 'k': Sleeping -> Playing rejected",
          "3 violation(s) in 2 procedure(s)"] := by
  intro c tease gs rs
  have hc : Checker.ofProtocol .pet = .ok c := ofProtocol_eq_ok_iff.2 ⟨Protocol.valid_pet, rfl⟩
  have hpet : Unbroken Protocol.pet.names := unbroken_iff.2 (by decide +kernel)
  have hgs : ∀ g ∈ gs, Unbroken g.names :=
    List.forall_mem_cons.2 ⟨unbroken_iff.2 (by decide +kernel),
      List.forall_mem_singleton.2 (unbroken_iff.2 (by decide +kernel))⟩
  obtain ⟨-, -, hgithub, -, hlines, -, hunbroken⟩ := write_lines hc {} gs
  have hvs := hunbroken hpet hgs
  refine ⟨hc, hpet, hgs, hvs, (hgithub.2 hvs).trans (by decide +kernel), ?_⟩
  rw [(hlines hvs).2.2]
  decide +kernel

/-- One violation of a pet whose name has a line feed takes two lines, and the second one is no
annotation. -/
theorem write_breaks_name :
    ¬ ∀ (p : Protocol) (c : Checker) (text : String) (ds : List GraphDocument) (gs : List Graph),
      Checker.ofProtocol p = .ok c → GraphDocument.ofFileText GraphFile.ofJson text = .ok ds →
      ds.mapM GraphDocument.toGraph = .ok gs →
      let rs := c.checkAll gs
      let vs := rs.flatMap Report.violations
      (lines (write rs .github)).length = vs.length ∧
      (∀ l ∈ lines (write rs .github), ∃ rest, l = "::error file=" ++ rest) ∧
      (lines (write rs .text)).length = vs.length + 1 := by
  intro h
  let tease : Statement := .invoke "a\nb" (some "Pet") "tease"
  have hlines := h .pet _ "[\"f\",null,null,[[[\"invoke\",\"a\\nb\",\"Pet\",\"tease\"]]]]"
    [⟨"f", none, none, [⟨tease, none, none⟩], []⟩] [⟨"f", none, #[⟨tease, none⟩], #[], some 0⟩]
    (ofProtocol_eq_ok_iff.2 ⟨Protocol.valid_pet, rfl⟩) (by decide +kernel) (by decide +kernel)
  exact absurd hlines.1 (by decide +kernel)

end Command

end Typestate
