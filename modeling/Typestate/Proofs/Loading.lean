import Mathlib.Algebra.GroupWithZero.Nat
import Mathlib.Data.List.Forall2
import Typestate.Command.Run
import Typestate.Proofs.Resolution

/-!
All or nothing. For the configuration and for each graph file it is said what can be loaded from
them and for which reason nothing can be, in words; the command answers the reason of the first one
that fails, and nothing else, or writes the reports on all procedures. A configuration that can be
loaded has a valid protocol, so once all is loaded there is always a checker. Nothing is assumed of
the decoders of texts.
-/

namespace Typestate

/-! ### The first failure -/

section Steps

variable {α β ε ε' : Type}

/-- The first member that fails does so for the given reason. -/
inductive FailsFirst (Fails : α → ε → Prop) : List α → ε → Prop
  | here {x : α} {xs : List α} {e : ε} (hx : Fails x e) : FailsFirst Fails (x :: xs) e
  | later {x : α} {xs : List α} {e : ε} (hx : ∀ e', ¬Fails x e') (hxs : FailsFirst Fails xs e) :
      FailsFirst Fails (x :: xs) e

variable {Fails : α → ε → Prop} {f : α → Except ε β} {xs : List α} {e : ε}

theorem FailsFirst.exists_mem (h : FailsFirst Fails xs e) : ∃ x ∈ xs, Fails x e := by
  induction h with
  | here hx => exact ⟨_, List.mem_cons_self, hx⟩
  | later _ _ ih =>
      obtain ⟨x, hx, hfails⟩ := ih
      exact ⟨x, List.mem_cons_of_mem _ hx, hfails⟩

/-- If a member fails there is a first one that does. -/
theorem exists_failsFirst {x : α} (hx : x ∈ xs) (hfails : Fails x e) :
    ∃ e', FailsFirst Fails xs e' := by
  induction xs with
  | nil => simp at hx
  | cons y ys ih =>
      by_cases hy : ∃ e', Fails y e'
      · obtain ⟨e', hy⟩ := hy
        exact ⟨e', .here hy⟩
      · have hys : x ∈ ys := by
          rcases List.mem_cons.1 hx with rfl | hys
          · exact absurd ⟨e, hfails⟩ hy
          · exact hys
        obtain ⟨e', he'⟩ := ih hys
        exact ⟨e', .later (not_exists.1 hy) he'⟩

/-- The first failure may be looked for before or after the reasons are put in other words. -/
theorem failsFirst_exists_iff {h : ε → ε'} {e' : ε'} :
    FailsFirst (fun x e' => ∃ e, Fails x e ∧ h e = e') xs e' ↔
      ∃ e, FailsFirst Fails xs e ∧ h e = e' := by
  constructor
  · intro hfirst
    induction hfirst with
    | here hx =>
        obtain ⟨e, hx, rfl⟩ := hx
        exact ⟨e, .here hx, rfl⟩
    | later hx _ ih =>
        obtain ⟨e, he, rfl⟩ := ih
        exact ⟨e, .later (fun e' he' => hx _ ⟨e', he', rfl⟩) he, rfl⟩
  · rintro ⟨e, hfirst, rfl⟩
    induction hfirst with
    | here hx => exact .here ⟨_, hx, rfl⟩
    | later hx _ ih =>
        refine .later ?_ ih
        rintro _ ⟨e', he', -⟩
        exact hx e' he'

theorem exists_forall₂_of_comp {γ : Type} {R : α → β → Prop} {S : β → γ → Prop} {zs : List γ}
    (h : List.Forall₂ (fun x z => ∃ y, R x y ∧ S y z) xs zs) :
    ∃ ys, List.Forall₂ R xs ys ∧ List.Forall₂ S ys zs := by
  induction h with
  | nil => exact ⟨[], .nil, .nil⟩
  | cons hxz _ ih =>
      obtain ⟨y, hxy, hyz⟩ := hxz
      obtain ⟨ys, hxs, hzs⟩ := ih
      exact ⟨y :: ys, .cons hxy hxs, .cons hyz hzs⟩

theorem mapM_mapError {h : ε → ε'} :
    xs.mapM (fun x => (f x).mapError h) = (xs.mapM f).mapError h := by
  induction xs with
  | nil => rfl
  | cons x xs ih =>
      rw [List.mapM_cons, List.mapM_cons, ih]
      cases f x with
      | error e => rfl
      | ok y => cases xs.mapM f <;> rfl

theorem mapM_eq_ok_iff {ys : List β} :
    xs.mapM f = .ok ys ↔ List.Forall₂ (fun x y => f x = .ok y) xs ys := by
  induction xs generalizing ys with
  | nil => simp [pure, Except.pure, eq_comm]
  | cons x xs ih =>
      simp only [List.mapM_cons, bind_eq_ok_iff, List.forall₂_cons_left_iff, ih, pure, Except.pure,
        Except.ok.injEq]
      constructor
      · rintro ⟨y, hy, ys', hys', rfl⟩
        exact ⟨y, ys', hy, hys', rfl⟩
      · rintro ⟨y, ys', hy, hys', rfl⟩
        exact ⟨y, hy, ys', hys', rfl⟩

theorem mapM_eq_error_iff :
    xs.mapM f = .error e ↔ FailsFirst (fun x e => f x = .error e) xs e := by
  induction xs with
  | nil => exact ⟨nofun, nofun⟩
  | cons x xs ih =>
      simp only [List.mapM_cons, bind_eq_error_iff, ih, pure, Except.pure, reduceCtorEq, and_false,
        exists_false, or_false]
      constructor
      · rintro (hx | ⟨y, hy, hxs⟩)
        · exact .here hx
        · exact .later (by simp [hy]) hxs
      · rintro (hx | ⟨hx, hxs⟩)
        · exact .inl hx
        · cases hy : f x with
          | error e' => exact absurd hy (hx e')
          | ok y => exact .inr ⟨y, rfl, hxs⟩

end Steps

/-! ### Files -/

/-- A document that names no source file gets the given path. -/
def GraphDocument.placedAt (path : String) (d : GraphDocument) : GraphDocument :=
  { d with file := d.file <|> some path }

namespace Command

/-- A file can be read and holds the text. -/
def HasText (read : FileReader) (path text : String) : Prop :=
  ∃ bytes, read path = .ok bytes ∧ String.fromUTF8? bytes = some text

/-- Why a file has no text. -/
inductive Unreadable (read : FileReader) (path : String) : String → Prop
  | missing {cause : String} (h : read path = .error cause) : Unreadable read path cause
  | notText {bytes : ByteArray} (h : read path = .ok bytes)
      (hbytes : String.fromUTF8? bytes = none) :
      Unreadable read path "stream did not contain valid UTF-8"

/-- Why there is no configuration, in words: its file cannot be read, cannot be decoded, or holds a
document that is refused. -/
inductive ConfigFails (read : FileReader) (decode : Decoder ConfigDocument) :
    Option String → String → Prop
  | unreadable {path cause : String} (h : Unreadable read path cause) :
      ConfigFails read decode (some path) ("IO error: " ++ cause)
  | undecodable {path text cause : String} (htext : HasText read path text)
      (h : decode text = .error cause) :
      ConfigFails read decode (some path) ("YAML parsing error: " ++ cause)
  | refused {path text reason : String} {d : ConfigDocument} (htext : HasText read path text)
      (hd : decode text = .ok d) (h : d.Refused reason) :
      ConfigFails read decode (some path) reason

/-- The configuration in force: the standard one, or that of a file. -/
inductive ConfigLoads (read : FileReader) (decode : Decoder ConfigDocument) :
    Option String → Config → Prop
  | standard : ConfigLoads read decode none {}
  | file {path text : String} {d : ConfigDocument} {config : Config}
      (htext : HasText read path text) (hd : decode text = .ok d) (h : d.Resolved config) :
      ConfigLoads read decode (some path) config

/-- The documents of a graph file: the text of the file holds one, or a list of them. -/
inductive Documents (read : FileReader) (decode : Decoder GraphFile) (path : String) :
    List GraphDocument → Prop
  | one {text : String} {d : GraphDocument} (htext : HasText read path text)
      (h : decode text = .ok (.one d)) : Documents read decode path [d.placedAt path]
  | many {text : String} {ds : List GraphDocument} (htext : HasText read path text)
      (h : decode text = .ok (.many ds)) : Documents read decode path (ds.map (.placedAt path))

/-- Why there are no graphs in a file, in words: it cannot be read, cannot be decoded, or one of its
documents is no graph. -/
inductive FileFails (read : FileReader) (decode : Decoder GraphFile) (path : String) :
    String → Prop
  | unreadable {cause : String} (h : Unreadable read path cause) :
      FileFails read decode path ("IO error: " ++ cause)
  | undecodable {text cause : String} (htext : HasText read path text)
      (h : decode text = .error cause) : FileFails read decode path ("JSON error: " ++ cause)
  | unconvertible {ds : List GraphDocument} {index nodes : Nat}
      (hds : Documents read decode path ds)
      (h : FailsFirst (fun d f => d.toGraph = .error f) ds (.unknownNode index nodes)) :
      FileFails read decode path ("Graph error: node " ++ toString index
        ++ " does not exist (graph has " ++ toString nodes ++ " nodes)")

variable {read : FileReader} {path : String}

theorem readText_eq_ok_iff {text : String} :
    readText read path = .ok text ↔ HasText read path text := by
  unfold readText
  rw [bind_eq_ok_iff]
  refine exists_congr fun bytes => and_congr_right fun _ => ?_
  cases String.fromUTF8? bytes <;> simp [throw, throwThe, MonadExceptOf.throw, pure, Except.pure]

theorem readText_eq_error_iff {cause : String} :
    readText read path = .error cause ↔ Unreadable read path cause := by
  unfold readText
  rw [bind_eq_error_iff]
  constructor
  · rintro (h | ⟨bytes, h, hcause⟩)
    · exact .missing h
    · cases hbytes : String.fromUTF8? bytes with
      | some text => simp [hbytes, pure, Except.pure] at hcause
      | none =>
          obtain rfl : "stream did not contain valid UTF-8" = cause := by
            simpa [hbytes, throw, throwThe, MonadExceptOf.throw] using hcause
          exact .notText h hbytes
  · rintro (h | ⟨h, hbytes⟩)
    · exact .inl h
    · exact .inr ⟨_, h, by rw [hbytes]; rfl⟩

section Configurations

variable {decode : Decoder ConfigDocument} {source : Option String}

theorem loadConfig_eq_ok_iff {config : Config} :
    loadConfig read decode source = .ok config ↔ ConfigLoads read decode source config := by
  cases source with
  | none =>
      constructor
      · intro h
        obtain rfl : {} = config := by simpa [loadConfig, pure, Except.pure] using h
        exact .standard
      · rintro ⟨⟩
        rfl
  | some path =>
      simp only [loadConfig, Config.ofYaml, bind_eq_ok_iff, mapError_eq_ok_iff, readText_eq_ok_iff,
        ConfigDocument.resolve_eq_ok_iff]
      constructor
      · rintro ⟨text, htext, d, hd, h⟩
        exact .file htext hd h
      · intro h
        cases h with
        | file htext hd h => exact ⟨_, htext, _, hd, h⟩

theorem configFails_iff {reason : String} :
    ConfigFails read decode source reason ↔
      ∃ e, loadConfig read decode source = .error e ∧ e.message = reason := by
  cases source with
  | none =>
      constructor
      · rintro ⟨⟩
      · rintro ⟨_, h, -⟩
        simp [loadConfig, pure, Except.pure] at h
  | some path =>
      simp only [loadConfig, Config.ofYaml, bind_eq_error_iff, mapError_eq_error_iff,
        mapError_eq_ok_iff, readText_eq_error_iff, readText_eq_ok_iff]
      constructor
      · intro h
        cases h with
        | unreadable h => exact ⟨_, .inl ⟨_, h, rfl⟩, rfl⟩
        | undecodable htext h => exact ⟨_, .inr ⟨_, htext, .inl ⟨_, h, rfl⟩⟩, rfl⟩
        | refused htext hd h =>
            obtain ⟨e, he, rfl⟩ := ConfigDocument.refused_iff.1 h
            exact ⟨e, .inr ⟨_, htext, .inr ⟨_, hd, he⟩⟩, rfl⟩
      · rintro ⟨_, ⟨cause, h, rfl⟩ | ⟨text, htext, ⟨cause, h, rfl⟩ | ⟨d, hd, he⟩⟩, rfl⟩
        · exact .unreadable h
        · exact .undecodable htext h
        · exact .refused htext hd (ConfigDocument.refused_iff.2 ⟨_, he, rfl⟩)

theorem exists_configLoads (h : ∀ reason, ¬ConfigFails read decode source reason) :
    ∃ config, ConfigLoads read decode source config := by
  cases hloaded : loadConfig read decode source with
  | error e => exact absurd (configFails_iff.2 ⟨e, hloaded, rfl⟩) (h _)
  | ok config => exact ⟨config, loadConfig_eq_ok_iff.1 hloaded⟩

/-- A configuration in force has a valid protocol. -/
theorem ConfigLoads.valid {config : Config} (h : ConfigLoads read decode source config) :
    config.protocol.Valid := by
  cases h with
  | standard => exact Protocol.valid_pet
  | file _ _ h => exact h.valid

end Configurations

section Graphs

variable {decode : Decoder GraphFile}

theorem documents_iff {ds : List GraphDocument} :
    Documents read decode path ds ↔ ∃ text file, HasText read path text ∧ decode text = .ok file ∧
      file.documents.map (.placedAt path) = ds := by
  constructor
  · rintro (⟨htext, h⟩ | ⟨htext, h⟩)
    · exact ⟨_, _, htext, h, rfl⟩
    · exact ⟨_, _, htext, h, rfl⟩
  · rintro ⟨text, file, htext, h, rfl⟩
    cases file with
    | one d => exact .one htext h
    | many ds => exact .many htext h

/-- The documents of a file are made graphs one after the other. -/
theorem loadGraphs_eq (read : FileReader) (decode : Decoder GraphFile) (path : String) :
    loadGraphs read decode path = (do
      let text ← (readText read path).mapError .io
      let file ← (decode text).mapError .json
      ((file.documents.map (.placedAt path)).mapM GraphDocument.toGraph).mapError .graph) := by
  unfold loadGraphs GraphDocument.ofFileText
  simp only [List.mapM_map, ← mapM_mapError, bind_assoc, pure_bind]
  rfl

theorem loadGraphs_eq_ok_iff {gs : List Graph} :
    loadGraphs read decode path = .ok gs ↔
      ∃ ds, Documents read decode path ds ∧ List.Forall₂ (fun d g => d.toGraph = .ok g) ds gs := by
  simp only [loadGraphs_eq, bind_eq_ok_iff, mapError_eq_ok_iff, readText_eq_ok_iff, mapM_eq_ok_iff,
    documents_iff]
  constructor
  · rintro ⟨text, htext, file, hfile, hgs⟩
    exact ⟨_, ⟨text, file, htext, hfile, rfl⟩, hgs⟩
  · rintro ⟨_, ⟨text, file, htext, hfile, rfl⟩, hgs⟩
    exact ⟨text, htext, file, hfile, hgs⟩

/-- What is announced when there are no graphs in a file is its reason. -/
theorem announce_loadGraphs {line : String} :
    (loadGraphs read decode path).mapError announce = .error line ↔
      ∃ reason, FileFails read decode path reason ∧ "Error: " ++ reason = line := by
  simp only [loadGraphs_eq, bind_eq_error_iff, mapError_eq_error_iff, mapError_eq_ok_iff,
    readText_eq_error_iff, readText_eq_ok_iff, mapM_eq_error_iff]
  constructor
  · rintro ⟨_, ⟨cause, h, rfl⟩ | ⟨text, htext, ⟨cause, h, rfl⟩ | ⟨file, hfile, f, h, rfl⟩⟩, rfl⟩
    · exact ⟨_, .unreadable h, rfl⟩
    · exact ⟨_, .undecodable htext h, rfl⟩
    · cases f with
      | unknownNode index nodes =>
          have hds := documents_iff.2 ⟨text, file, htext, hfile, rfl⟩
          exact ⟨_, .unconvertible hds h, rfl⟩
  · rintro ⟨reason, h | ⟨htext, h⟩ | ⟨hds, h⟩, rfl⟩
    · exact ⟨_, .inl ⟨_, h, rfl⟩, rfl⟩
    · exact ⟨_, .inr ⟨_, htext, .inl ⟨_, h, rfl⟩⟩, rfl⟩
    · obtain ⟨text, file, htext, hfile, rfl⟩ := documents_iff.1 hds
      exact ⟨_, .inr ⟨text, htext, .inr ⟨file, hfile, _, h, rfl⟩⟩, rfl⟩

end Graphs

/-! ### The command -/

/-- There is a checker for a protocol exactly if the protocol is valid. -/
theorem ofProtocol_eq_ok_iff {p : Protocol} {c : Checker} :
    Checker.ofProtocol p = .ok c ↔
      p.Valid ∧ c = { protocol := p, resolve := .ofType p.trackedType } := by
  unfold Checker.ofProtocol Checker.withResolver
  rw [bind_eq_ok_iff, ← Protocol.validate_eq_ok_iff]
  constructor
  · rintro ⟨⟨⟩, hvalid, hc⟩
    exact ⟨hvalid, (Except.ok.inj hc).symm⟩
  · rintro ⟨hvalid, rfl⟩
    exact ⟨(), hvalid, rfl⟩

variable {decode : Decoders} {o : Options}

/-- What is announced is the reason of the configuration or else that of the first file that
fails. -/
theorem announce_load {line : String} :
    (load read decode o).mapError announce = .error line ↔
      (∃ reason, ConfigFails read decode.config o.config reason ∧
        "Configuration error: " ++ reason = line) ∨
      (∃ config, ConfigLoads read decode.config o.config config) ∧
        ∃ reason, FailsFirst (FileFails read decode.graphs) o.graphs reason ∧
          "Error: " ++ reason = line := by
  simp only [load, mapError_bind, bind_eq_error_iff, mapError_eq_ok_iff, ← mapM_mapError,
    mapM_eq_error_iff, announce_loadGraphs, failsFirst_exists_iff, loadConfig_eq_ok_iff]
  refine or_congr ⟨?_, ?_⟩ ⟨?_, ?_⟩
  · intro h
    simp only [mapError_eq_error_iff] at h
    obtain ⟨_, ⟨e, he, rfl⟩, rfl⟩ := h
    exact ⟨e.message, configFails_iff.2 ⟨e, he, rfl⟩, rfl⟩
  · rintro ⟨reason, hreason, rfl⟩
    obtain ⟨e, he, rfl⟩ := configFails_iff.1 hreason
    rw [he]
    rfl
  · rintro ⟨config, hconfig, hfiles | ⟨graphs, -, hchecker⟩⟩
    · exact ⟨⟨config, hconfig⟩, hfiles⟩
    -- The protocol in force is valid, so that making a checker cannot fail.
    · rw [ofProtocol_eq_ok_iff.2 ⟨hconfig.valid, rfl⟩] at hchecker
      rcases hchecker with hchecker | ⟨_, _, hchecker⟩ <;> cases hchecker
  · rintro ⟨⟨config, hconfig⟩, hfiles⟩
    exact ⟨config, hconfig, .inl hfiles⟩

/-- If nothing fails all documents of all files are made graphs, and there is a checker for them. -/
theorem exists_load_eq_ok (hconfig : ∀ reason, ¬ConfigFails read decode.config o.config reason)
    (hfiles : ∀ path ∈ o.graphs, ∀ reason, ¬FileFails read decode.graphs path reason) :
    ∃ config checker files gss, ConfigLoads read decode.config o.config config ∧
      Checker.ofProtocol config.protocol = .ok checker ∧
      List.Forall₂ (Documents read decode.graphs) o.graphs files ∧
      List.Forall₂ (List.Forall₂ fun d g => d.toGraph = .ok g) files gss ∧
      load read decode o = .ok (checker.withSettings config.settings, gss.flatten) := by
  obtain ⟨config, hloads⟩ := exists_configLoads hconfig
  have hchecker := ofProtocol_eq_ok_iff.2 ⟨hloads.valid, rfl⟩
  cases hgraphs : o.graphs.mapM (loadGraphs read decode.graphs) with
  | error e =>
      obtain ⟨path, hpath, hfails⟩ := (mapM_eq_error_iff.1 hgraphs).exists_mem
      obtain ⟨reason, hreason, -⟩ :=
        announce_loadGraphs.1 (mapError_eq_error_iff.2 ⟨e, hfails, rfl⟩)
      exact absurd hreason (hfiles path hpath reason)
  | ok gss =>
      have hall := mapM_eq_ok_iff.1 hgraphs
      simp only [loadGraphs_eq_ok_iff] at hall
      obtain ⟨files, hdocuments, htoGraph⟩ := exists_forall₂_of_comp hall
      refine ⟨config, _, files, gss, hloads, hchecker, hdocuments, htoGraph, ?_⟩
      refine bind_eq_ok_iff.2 ⟨config, mapError_eq_ok_iff.2 (loadConfig_eq_ok_iff.2 hloads), ?_⟩
      refine bind_eq_ok_iff.2 ⟨gss, hgraphs, ?_⟩
      exact bind_eq_ok_iff.2 ⟨_, mapError_eq_ok_iff.2 hchecker, rfl⟩

/-- The command says why it fails, in one line, and nothing else. -/
structure Outcome.Refuses (out : Outcome) (line : String) : Prop where
  exitCode : out.exitCode = 2
  stdout : out.stdout = ""
  stderr : out.stderr = line ++ "\n"
  log : out.log = []

theorem refuses_check {line : String} (h : (load read decode o).mapError announce = .error line) :
    (check read decode o).Refuses line := by
  obtain ⟨e, he, rfl⟩ := mapError_eq_error_iff.1 h
  unfold check
  rw [he]
  exact ⟨rfl, rfl, by simp [unlines, String.join], rfl⟩

theorem check_of_load {checker : Checker} {gs : List Graph}
    (h : load read decode o = .ok (checker, gs)) :
    (check read decode o).exitCode =
        (if (checker.checkAll gs).any Report.hasViolations then 1 else 0) ∧
      (check read decode o).stdout = write (checker.checkAll gs) o.format ∧
      (check read decode o).stderr = "" := by
  unfold check
  rw [h]
  exact ⟨rfl, rfl, rfl⟩

/-- The exit code of a check tells whether there are violations. -/
theorem exitCode_iff {rs : List Report} {code : UInt32}
    (hcode : code = if rs.any Report.hasViolations then 1 else 0) :
    (code = 1 ↔ ∃ r ∈ rs, r.violations ≠ []) ∧ (code = 0 ↔ ∀ r ∈ rs, r.violations = []) := by
  have hany : rs.any Report.hasViolations = true ↔ ∃ r ∈ rs, r.violations ≠ [] := by
    simp [Report.hasViolations]
  have hnone : (∀ r ∈ rs, r.violations = []) ↔ ¬∃ r ∈ rs, r.violations ≠ [] := by simp
  rw [hcode, hnone, ← hany]
  cases rs.any Report.hasViolations <;> simp

theorem summary_eq (rs : List Report) :
    summary rs = toString (rs.map fun r => r.violations.length).sum ++ " violation(s) in " ++
      toString rs.length ++ " procedure(s)" := by
  unfold summary Checker.violationCount
  rw [List.length_flatMap]

/-- If nothing fails the reports on all documents are written. -/
theorem check_of_loads (hconfig : ∀ reason, ¬ConfigFails read decode.config o.config reason)
    (hfiles : ∀ path ∈ o.graphs, ∀ reason, ¬FileFails read decode.graphs path reason) :
    ∃ config checker files reports, ConfigLoads read decode.config o.config config ∧
      Checker.ofProtocol config.protocol = .ok checker ∧
      List.Forall₂ (Documents read decode.graphs) o.graphs files ∧
      List.Forall₂ (fun d r => ∃ g, d.toGraph = .ok g ∧
        r = (checker.withSettings config.settings).check g ∅) files.flatten reports ∧
      (check read decode o).exitCode = (if reports.any Report.hasViolations then 1 else 0) ∧
      (check read decode o).stdout = write reports o.format ∧
      (check read decode o).stderr = "" := by
  obtain ⟨config, checker, files, gss, hloads, hchecker, hdocuments, hgraphs, hload⟩ :=
    exists_load_eq_ok hconfig hfiles
  refine ⟨config, checker, files, _, hloads, hchecker, hdocuments, ?_, check_of_load hload⟩
  exact List.forall₂_map_right_iff.2 ((List.rel_flatten hgraphs).imp fun d g hg => ⟨g, hg, rfl⟩)

/-- The command is all or nothing, however texts are decoded. If there is no configuration the
reason is all that it answers, and else if a file fails the reason of the first one that does; the
exit code is then 2, and only then. If nothing fails there is a checker and one report for each
document, in the order of the files and in each file in the order of the documents; the exit code
tells whether there are violations, and in the text format their messages are written and then how
many there are and in how many procedures. -/
theorem check_all_or_nothing (read : FileReader) (decode : Decoders) (o : Options) :
    let out := check read decode o
    (∀ args, Request.ofArgs args = .check o → run read decode args = out) ∧
    (∀ reason, ConfigFails read decode.config o.config reason →
      out.Refuses ("Configuration error: " ++ reason)) ∧
    ((∀ reason, ¬ConfigFails read decode.config o.config reason) →
      ∀ reason, FailsFirst (FileFails read decode.graphs) o.graphs reason →
        out.Refuses ("Error: " ++ reason)) ∧
    (out.exitCode = 2 ↔
      (∃ reason, ConfigFails read decode.config o.config reason) ∨
        ∃ path ∈ o.graphs, ∃ reason, FileFails read decode.graphs path reason) ∧
    ((∀ reason, ¬ConfigFails read decode.config o.config reason) →
      (∀ path ∈ o.graphs, ∀ reason, ¬FileFails read decode.graphs path reason) →
      ∃ config checker files reports,
        ConfigLoads read decode.config o.config config ∧
        Checker.ofProtocol config.protocol = .ok checker ∧
        List.Forall₂ (Documents read decode.graphs) o.graphs files ∧
        List.Forall₂ (fun d r => ∃ g, d.toGraph = .ok g ∧
          r = (checker.withSettings config.settings).check g ∅) files.flatten reports ∧
        (out.exitCode = 1 ↔ ∃ r ∈ reports, r.violations ≠ []) ∧
        (out.exitCode = 0 ↔ ∀ r ∈ reports, r.violations = []) ∧
        out.stderr = "" ∧
        out.stdout = write reports o.format ∧
        (o.format = .text → out.stdout =
          unlines ((reports.flatMap Report.violations).map Violation.message ++
            [toString (reports.map fun r => r.violations.length).sum ++ " violation(s) in " ++
              toString files.flatten.length ++ " procedure(s)"]))) := by
  intro out
  have hconfigFails : ∀ reason, ConfigFails read decode.config o.config reason →
      out.Refuses ("Configuration error: " ++ reason) := fun reason hreason =>
    refuses_check (announce_load.2 (.inl ⟨reason, hreason, rfl⟩))
  have hfileFails : (∀ reason, ¬ConfigFails read decode.config o.config reason) →
      ∀ reason, FailsFirst (FileFails read decode.graphs) o.graphs reason →
        out.Refuses ("Error: " ++ reason) := by
    intro hconfig reason hreason
    exact refuses_check (announce_load.2 (.inr ⟨exists_configLoads hconfig, reason, hreason, rfl⟩))
  refine ⟨fun args hargs => ?_, hconfigFails, hfileFails, ?_, fun hconfig hfiles => ?_⟩
  · unfold run
    rw [hargs]
  · constructor
    · intro hexit
      by_contra hnone
      push Not at hnone
      obtain ⟨_, _, _, reports, -, -, -, -, hcode, -⟩ := check_of_loads hnone.1 hnone.2
      have htwo : (2 : UInt32) = if reports.any Report.hasViolations then 1 else 0 :=
        hexit.symm.trans hcode
      split at htwo <;> simp at htwo
    · rintro (⟨reason, hreason⟩ | ⟨path, hpath, reason, hreason⟩)
      · exact (hconfigFails reason hreason).exitCode
      · by_cases hconfig : ∃ reason, ConfigFails read decode.config o.config reason
        · obtain ⟨reason', hreason'⟩ := hconfig
          exact (hconfigFails reason' hreason').exitCode
        · obtain ⟨reason', hreason'⟩ := exists_failsFirst hpath hreason
          exact (hfileFails (not_exists.1 hconfig) reason' hreason').exitCode
  · obtain ⟨config, checker, files, reports, hloads, hchecker, hdocuments, hreports, hexit, hstdout,
      hstderr⟩ := check_of_loads hconfig hfiles
    obtain ⟨hone, hzero⟩ := exitCode_iff hexit
    refine ⟨config, checker, files, reports, hloads, hchecker, hdocuments, hreports, hone, hzero,
      hstderr, hstdout, fun htext => ?_⟩
    rw [hreports.length_eq, ← summary_eq, hstdout, htext]
    rfl

/-- The first file holds two procedures, and in one of them there is a violation; the second file
has an edge to a node that is not there, the third one is cut off, and the fourth one is missing.
One configuration has an anchor, which the decoder knows, and the other one is cut off. -/
theorem check_all_or_nothing_dangling :
    let read : FileReader := fun path =>
      if path = "a.json" then
        .ok ("[[\"f\",null,null,[[[\"invoke\",\"k\",\"Pet\",\"tease\"]]]],"
          ++ "[\"g\",null,null,[]]]").toUTF8
      else if path = "b.json" then .ok "[\"h\",null,null,[[[\"nop\"]]],[[0,7]]]".toUTF8
      else if path = "c.json" then .ok "[".toUTF8
      else if path = "pet.yaml" then .ok "version: &one 1".toUTF8
      else if path = "other.yaml" then .ok "version: [1".toUTF8
      else .error "No such file or directory (os error 2)"
    let decode : Decoders :=
      { config := fun text =>
          if text = "version: &one 1" then .ok ⟨some 1, none, none⟩
          else .error ("did not find expected ',' or ']' at line 2 column 1, "
            ++ "while parsing a flow sequence at line 1 column 10")
        graphs := fun text =>
          if text = "[" then .error "EOF while parsing a list at line 1 column 1"
          else GraphFile.ofJson text }
    (run read decode ["-c", "pet.yaml", "a.json"]).stdout =
        "a.json: invalid tease() on 'k': Sleeping -> Playing rejected\n"
          ++ "1 violation(s) in 2 procedure(s)\n" ∧
      (run read decode ["-c", "pet.yaml", "a.json"]).exitCode = 1 ∧
      (run read decode ["a.json", "b.json", "c.json"]).Refuses
        ("Error: " ++ "Graph error: node 7 does not exist (graph has 1 nodes)") ∧
      (run read decode ["a.json", "c.json", "b.json"]).Refuses
        ("Error: " ++ ("JSON error: " ++ "EOF while parsing a list at line 1 column 1")) ∧
      (run read decode ["d.json", "c.json"]).Refuses
        ("Error: " ++ ("IO error: " ++ "No such file or directory (os error 2)")) ∧
      (run read decode ["-c", "other.yaml", "d.json"]).Refuses
        ("Configuration error: " ++ ("YAML parsing error: "
          ++ ("did not find expected ',' or ']' at line 2 column 1, "
            ++ "while parsing a flow sequence at line 1 column 10"))) := by
  intro read decode
  have hfiles : ∀ graphs reason, Request.ofArgs graphs = .check ⟨graphs, none, .text, 0⟩ →
      FailsFirst (FileFails read decode.graphs) graphs reason →
        (run read decode graphs).Refuses ("Error: " ++ reason) := by
    intro graphs reason hargs hfirst
    obtain ⟨hrun, -, hrefuses, -⟩ := check_all_or_nothing read decode ⟨graphs, none, .text, 0⟩
    rw [hrun graphs hargs]
    exact hrefuses nofun reason hfirst
  have ha : ∀ reason, ¬FileFails read decode.graphs "a.json" reason := by
    intro reason hreason
    have hloads : ((loadGraphs read decode.graphs "a.json").mapError announce).isOk = true := by
      decide +kernel
    rw [announce_loadGraphs.2 ⟨reason, hreason, rfl⟩] at hloads
    simp [Except.isOk, Except.toBool] at hloads
  have hb : FileFails read decode.graphs "b.json"
      "Graph error: node 7 does not exist (graph has 1 nodes)" := by
    have htext : HasText read "b.json" "[\"h\",null,null,[[[\"nop\"]]],[[0,7]]]" :=
      ⟨_, rfl, by decide +kernel⟩
    have hd : decode.graphs "[\"h\",null,null,[[[\"nop\"]]],[[0,7]]]" =
        .ok (.one ⟨"h", none, none, [⟨.nop, none, none⟩], [⟨0, 7, .sequential⟩]⟩) := by
      decide +kernel
    have hreason : "Graph error: node " ++ toString 7 ++ " does not exist (graph has "
        ++ toString 1 ++ " nodes)" = "Graph error: node 7 does not exist (graph has 1 nodes)" := by
      decide +kernel
    rw [← hreason]
    exact .unconvertible (.one htext hd) (.here (by decide +kernel))
  have hc : FileFails read decode.graphs "c.json" _ :=
    .undecodable ⟨_, rfl, by decide +kernel⟩ (if_pos rfl)
  have hd : FileFails read decode.graphs "d.json" _ := .unreadable (.missing rfl)
  have hother : HasText read "other.yaml" "version: [1" := ⟨_, rfl, by decide +kernel⟩
  have hconfig : ConfigFails read decode.config (some "other.yaml") _ :=
    .undecodable hother rfl
  obtain ⟨hrun, hrefuses, -⟩ :=
    check_all_or_nothing read decode ⟨["d.json"], some "other.yaml", .text, 0⟩
  refine ⟨by decide +kernel, by decide +kernel, hfiles _ _ (by decide +kernel) ?_,
    hfiles _ _ (by decide +kernel) ?_, hfiles _ _ (by decide +kernel) ?_, ?_⟩
  · exact .later ha (.here hb)
  · exact .later ha (.here hc)
  · exact .here hd
  · rw [hrun _ (by decide +kernel)]
    exact hrefuses _ hconfig

end Command

end Typestate
