import Mathlib.Data.List.Forall2
import Mathlib.Data.List.Nodup
import Mathlib.Data.List.Perm.Basic
import Typestate.Codec.Report
import Typestate.Command.Run
import Typestate.Proofs.JsonText

/-!
Writing and reading documents. What is written for a report or a node is read as that report or
node, from the value, whatever order its fields come in, and from its text.
-/

namespace Typestate

section

variable {α β : Type}

theorem mapM_of_forall₂ {read : β → Option α} {as : List α} {bs : List β}
    (h : List.Forall₂ (fun a b => read b = some a) as bs) : bs.mapM read = some as := by
  induction h with
  | nil => rfl
  | cons hread _ ih => simp [hread, ih]

theorem exists_of_map_perm {f : α → β} {as : List α} {bs : List β} (h : (as.map f).Perm bs) :
    ∃ as', bs = as'.map f ∧ as.Perm as' := by
  have hcomp := congrFun₂ (List.eq_map_comp_perm f) bs as
  obtain ⟨as', heq, hperm⟩ := hcomp.mpr h.symm
  exact ⟨as', heq, hperm.symm⟩

theorem lookup_eq_some_iff_mem {l : List (String × α)} (hl : (l.map Prod.fst).Nodup) {k : String}
    {a : α} : l.lookup k = some a ↔ (k, a) ∈ l := by
  induction l with
  | nil => simp
  | cons f l ih =>
      obtain ⟨k', b⟩ := f
      rw [List.map_cons, List.nodup_cons] at hl
      by_cases hk : k = k'
      · subst hk
        have hnot : (k, a) ∉ l := fun ha => hl.1 (List.mem_map.2 ⟨_, ha, rfl⟩)
        simp [hnot, eq_comm]
      · have hbeq : (k == k') = false := by simpa using hk
        simp [List.lookup_cons, hbeq, hk, ih hl.2]

end

namespace Json

/-- The second value is the first one up to the order of fields. -/
inductive Rearranged : Json → Json → Prop where
  | refl (v : Json) : Rearranged v v
  | arr {items items' : List Json} (h : List.Forall₂ Rearranged items items') :
      Rearranged (.arr items) (.arr items')
  -- Names and values are compared apart, as a nested occurrence takes no bound variables.
  | obj {fields fields' mid : List (String × Json)} (hperm : fields.Perm mid)
      (hnames : mid.map Prod.fst = fields'.map Prod.fst)
      (hvalues : List.Forall₂ Rearranged (mid.map Prod.snd) (fields'.map Prod.snd)) :
      Rearranged (.obj fields) (.obj fields')

theorem Rearranged.items {items : List Json} {j : Json} (h : Rearranged (.arr items) j) :
    ∃ items', j = .arr items' ∧ List.Forall₂ Rearranged items items' := by
  cases h with
  | refl => exact ⟨items, rfl, List.forall₂_same.2 fun v _ => .refl v⟩
  | arr h => exact ⟨_, rfl, h⟩

/-- The fields of a rearranged object are those of the first one, each of them rearranged, in some
order. -/
theorem Rearranged.fields {fields : List (String × Json)} {j : Json}
    (h : Rearranged (.obj fields) j) :
    ∃ mid fields', j = .obj fields' ∧ fields.Perm mid ∧
      List.Forall₂ (fun f g => f.1 = g.1 ∧ Rearranged f.2 g.2) mid fields' := by
  cases h with
  | refl => exact ⟨fields, fields, rfl, .refl _, List.forall₂_same.2 fun f _ => ⟨rfl, .refl f.2⟩⟩
  | @obj _ fields' mid hperm hnames hvalues =>
      refine ⟨mid, fields', rfl, hperm, ?_⟩
      rw [← List.forall₂_eq_eq_eq, List.forall₂_map_left_iff, List.forall₂_map_right_iff] at hnames
      rw [List.forall₂_map_left_iff, List.forall₂_map_right_iff] at hvalues
      rw [List.forall₂_iff_zip] at hnames hvalues ⊢
      exact ⟨hnames.1, fun hf => ⟨hnames.2 hf, hvalues.2 hf⟩⟩

theorem Rearranged.isNull_eq {v j : Json} (h : Rearranged v j) :
    Format.isNull j = Format.isNull v := by
  cases h <;> rfl

/-- However the fields of a value are ordered, it is read as `a`. -/
def ReadAs {α : Type} (read : Json → Option α) (v : Json) (a : α) : Prop :=
  ∀ j, Rearranged v j → read j = some a

namespace ReadAs

theorem text (s : String) : ReadAs Format.text? (.str s) s := by
  rintro j ⟨⟩
  rfl

theorem natural (n : Nat) : ReadAs Format.natural? (.nat n) n := by
  rintro j ⟨⟩
  rfl

theorem word (n : UInt32) : ReadAs Format.word? (.ofWord n) n := by
  rintro j ⟨⟩
  have hn : n.toNat < Nat.pow 2 32 := n.toNat_lt
  simp [Format.word?, Format.natural?, ofWord, hn]

theorem list {α : Type} {read : Json → Option α} {write : α → Json}
    (h : ∀ a, ReadAs read (write a) a) (as : List α) :
    ReadAs (Format.list? read) (.arr (as.map write)) as := by
  intro j hj
  obtain ⟨items, rfl, hitems⟩ := hj.items
  rw [List.forall₂_map_left_iff] at hitems
  exact mapM_of_forall₂ (hitems.imp fun a b hab => h a b hab)

end ReadAs

end Json

section

variable {V : Type} [Format V]

/-- A record that is written with names of a schema, none of them twice, is read as it is
written. -/
theorem Schema.read?_named {s : Schema} {v : V} {fields : Record V} {names : List String}
    (hv : Format.record? v = some (.named fields)) (hs : (s.fields.map Field.name).Nodup)
    (hnames : names.Sublist (s.fields.map Field.name)) (hperm : names.Perm (fields.map Prod.fst)) :
    (fields.map Prod.fst).Nodup ∧ s.read? v = some fields := by
  have hnodup : (fields.map Prod.fst).Nodup := hperm.nodup (hs.sublist hnames)
  have hknown (f) (hf : f ∈ fields) : s.has f.1 := by
    have hmem := hnames.subset (hperm.mem_iff.2 (List.mem_map_of_mem hf))
    simpa [has, List.mem_map] using hmem
  have hall : (fields.map fun f => (FieldKey.name f.1, f.2)).filterMap
      (fun f => (s.nameOf? f.1).map (·, f.2)) = fields := by
    rw [List.filterMap_map]
    refine (List.filterMap_congr fun f hf => ?_).trans List.filterMap_some
    simp [nameOf?, hknown f hf]
  refine ⟨hnodup, ?_⟩
  simp only [read?, hv, RecordForm.named, ofKeyed?]
  rw [hall, if_pos ⟨hnodup, .inr (List.length_map _).symm⟩]

end

/-- A record has the given fields, each of them rearranged, and no others. -/
structure Record.Holds (r : Record Json) (fields : List (String × Json)) : Prop where
  present : ∀ f ∈ fields, ∃ v, r.lookup f.1 = some v ∧ f.2.Rearranged v
  absent : ∀ name ∉ fields.map Prod.fst, r.lookup name = none

namespace Record.Holds

variable {r : Record Json} {fields : List (String × Json)} {α : Type}
  {read : Json → Option α} {write : α → Json}

theorem required (h : r.Holds fields) (name : String) {v : Json} {a : α} (hv : (name, v) ∈ fields)
    (hread : Json.ReadAs read v a) : r.required name read = some a := by
  obtain ⟨j, hj, hvj⟩ := h.present _ hv
  rw [Record.required, hj]
  exact hread j hvj

theorem nullable_some (h : r.Holds fields) (name : String) {v : Json} {a : α}
    (hv : (name, v) ∈ fields) (hread : Json.ReadAs read v a) (hnull : Format.isNull v = false) :
    r.nullable name read = some (some a) := by
  obtain ⟨j, hj, hvj⟩ := h.present _ hv
  have hj' := hvj.isNull_eq.trans hnull
  simp [Record.nullable, hj, hj', hread j hvj]

/-- A field that is null if it has no value. -/
theorem nullable_ofOption (h : r.Holds fields) (name : String) (o : Option α)
    (hv : (name, .ofOption write o) ∈ fields) (hread : ∀ a, Json.ReadAs read (write a) a)
    (hnull : ∀ a, Format.isNull (write a) = false) : r.nullable name read = some o := by
  cases o with
  | none =>
      obtain ⟨j, hj, hvj⟩ := h.present _ hv
      cases hvj
      rw [Record.nullable, hj]
      rfl
  | some a => exact h.nullable_some name hv (hread a) (hnull a)

/-- A field that is left out if it has no value. -/
theorem nullable_fieldOf (h : r.Holds fields) (name : String) (o : Option α)
    (hv : ∀ a ∈ o, (name, write a) ∈ fields) (hnone : o = none → name ∉ fields.map Prod.fst)
    (hread : ∀ a, Json.ReadAs read (write a) a)
    (hnull : ∀ a, Format.isNull (write a) = false) : r.nullable name read = some o := by
  cases o with
  | none => rw [Record.nullable, h.absent name (hnone rfl)]
  | some a => exact h.nullable_some name (hv a rfl) (hread a) (hnull a)

end Record.Holds

/-- A rearranged object is a record of a schema if its fields were written in the schema's order. -/
theorem Json.Rearranged.exists_record {fields : List (String × Json)} {j : Json}
    (h : Rearranged (.obj fields) j) {s : Schema} (hs : (s.fields.map Field.name).Nodup)
    (hfields : (fields.map Prod.fst).Sublist (s.fields.map Field.name)) :
    ∃ r : Record Json, s.read? j = some r ∧ r.Holds fields := by
  obtain ⟨mid, fields', rfl, hperm, hmid⟩ := h.fields
  have hnames : fields'.map Prod.fst = mid.map Prod.fst := by
    rw [eq_comm, ← List.forall₂_eq_eq_eq, List.forall₂_map_left_iff, List.forall₂_map_right_iff]
    exact hmid.imp fun _ _ hf => hf.1
  have hpermNames : (fields.map Prod.fst).Perm (fields'.map Prod.fst) :=
    hnames ▸ hperm.map Prod.fst
  have hv : Format.record? (Json.obj fields') = some (.named fields') := rfl
  obtain ⟨hnodup, hread⟩ := Schema.read?_named hv hs hfields hpermNames
  refine ⟨fields', hread, ⟨fun f hf => ?_, ?_⟩⟩
  -- The place of a field in `mid` is that of its rearranged value in `fields'`.
  · obtain ⟨i, hi, hmi⟩ := List.getElem_of_mem (hperm.mem_iff.1 hf)
    have hi' : i < fields'.length := hmid.length_eq ▸ hi
    have hfield := hmid.get hi hi'
    rw [List.get_eq_getElem, List.get_eq_getElem, hmi] at hfield
    refine ⟨fields'[i].2, (lookup_eq_some_iff_mem hnodup).2 ?_, hfield.2⟩
    rw [hfield.1]
    exact List.getElem_mem hi'
  · intro name hname
    rw [hpermNames.mem_iff] at hname
    rw [List.lookup_eq_none_iff]
    intro f hf
    simp only [bne_iff_ne]
    rintro rfl
    exact hname (List.mem_map_of_mem hf)

open Json (ReadAs Rearranged)

theorem State.readAs (s : State) : ReadAs State.read? s.toJson s := by
  intro j hj
  obtain ⟨r, hr, h⟩ := hj.exists_record (s := schema) (by decide) (.refl _)
  have hname := h.required "name" (by simp) (.text s.name)
  simp [read?, hr, hname]

theorem Action.readAs (a : Action) : ReadAs Action.read? a.toJson a := by
  intro j hj
  obtain ⟨r, hr, h⟩ := hj.exists_record (s := schema) (by decide) (.refl _)
  have hname := h.required "method_name" (by simp) (.text a.name)
  simp [read?, hr, hname]

theorem Handle.readAs (h : Handle) : ReadAs Handle.read? h.toJson h := by
  intro j hj
  rw [read?, ReadAs.text h.name j hj]
  rfl

theorem Tracked.readAs (t : Tracked) : ReadAs Tracked.read? t.toJson t := by
  intro j hj
  cases t with
  | unknown =>
      cases hj
      rfl
  | known s =>
      -- With a single field there is one order only.
      obtain ⟨mid, fields, rfl, hperm, hmid⟩ := Rearranged.fields hj
      cases List.perm_singleton.1 hperm.symm
      obtain _ | ⟨⟨hname, hcontent⟩, _ | _⟩ := hmid
      next f =>
        obtain ⟨name, content⟩ := f
        cases hname
        simp [read?, Format.variant?, s.readAs content hcontent]

namespace Assignment

/-- The order of its entries is of no importance to an assignment. -/
theorem ofList_of_perm {m : Assignment} {pairs : List (Handle × Tracked)}
    (h : m.toList.Perm pairs) : Std.ExtTreeMap.ofList pairs = m := by
  have hdistinct : pairs.Pairwise fun a b => ¬ compare a.1 b.1 = .eq :=
    h.pairwise Std.ExtTreeMap.distinct_keys_toList fun hab hba =>
      hab (Std.OrientedCmp.eq_symm hba)
  refine Std.ExtTreeMap.ext_getElem? fun k => ?_
  cases hk : m[k]? with
  | some t =>
      have hmem := h.mem_iff.1 (Std.ExtTreeMap.mem_toList_iff_getElem?_eq_some.2 hk)
      exact Std.ExtTreeMap.getElem?_ofList_of_mem Std.ReflCmp.compare_self hdistinct hmem
  | none =>
      refine Std.ExtTreeMap.getElem?_ofList_of_contains_eq_false ?_
      rw [List.contains_eq_mem, decide_eq_false_iff_not, List.mem_map]
      rintro ⟨⟨_, t⟩, hmem, rfl⟩
      have hsome := Std.ExtTreeMap.mem_toList_iff_getElem?_eq_some.1 (h.mem_iff.2 hmem)
      simp [hk] at hsome

theorem readAs (m : Assignment) : ReadAs Assignment.read? (Assignment.toJson m) m := by
  intro j hj
  obtain ⟨mid, fields, rfl, hperm, hmid⟩ := Rearranged.fields hj
  obtain ⟨pairs, rfl, hpairs⟩ := exists_of_map_perm hperm
  have hread : fields.mapM (fun (name, content) =>
      (Tracked.read? content).map fun s => (Handle.mk name, s)) = some pairs := by
    refine mapM_of_forall₂ ((List.forall₂_map_left_iff.1 hmid).imp ?_)
    rintro ⟨h, s⟩ ⟨name, content⟩ ⟨rfl, hcontent⟩
    simp [s.readAs content hcontent]
  simp [read?, Format.entries?, hread, ofList_of_perm hpairs]

end Assignment

namespace Statement

/-- The texts that a statement is written with; one of them may be missing. -/
def parts : Statement → List (String × Option String)
  | invoke receiver type method =>
    [("kind", some "invoke"), ("receiver", some receiver), ("receiver_type", type),
      ("method", some method)]
  | other text => [("kind", some "opaque"), ("text", some text)]
  | nop => [("kind", some "nop")]

/-- A text that may be missing, as a self-typed value. -/
def datum (o : Option String) : Datum :=
  o.elim .null .str

/-- Texts as a self-typed mapping. -/
def mapping (parts : List (String × Option String)) : Datum :=
  .mapping (parts.map fun f => (.str f.1, datum f.2))

theorem toJson_eq (s : Statement) :
    s.toJson = .obj (s.parts.map fun f => (f.1, .ofOption .str f.2)) := by
  cases s <;> rfl

/-- However its fields are ordered, a statement is the same mapping up to order. -/
theorem toDatum?_of_rearranged {parts : List (String × Option String)} {j : Json}
    (h : Rearranged (.obj (parts.map fun f => (f.1, .ofOption .str f.2))) j) :
    ∃ parts', parts.Perm parts' ∧ j.toDatum? = some (mapping parts') := by
  obtain ⟨mid, fields, rfl, hperm, hmid⟩ := h.fields
  obtain ⟨parts', rfl, hparts⟩ := exists_of_map_perm hperm
  -- A text or null cannot be rearranged, so the fields are the parts again, value by value.
  have hfields : Json.fieldsToData? fields =
      some (parts'.map fun f => (.str f.1, datum f.2)) := by
    clear hperm hparts h
    rw [List.forall₂_map_left_iff] at hmid
    induction hmid with
    | nil => rfl
    | @cons f g parts' fields hfg _ ih =>
        obtain ⟨name, o⟩ := f
        obtain ⟨_, v⟩ := g
        obtain ⟨rfl, hv⟩ := hfg
        cases o <;> cases hv <;> simp [Json.fieldsToData?, Json.toDatum?, datum, ih]
  exact ⟨parts', hparts, by simp [Json.toDatum?, hfields, mapping]⟩

/-- The kind is found wherever it stands. -/
theorem kind?_of_perm {kind : String} {others parts : List (String × Option String)}
    (h : (("kind", some kind) :: others).Perm parts) (hothers : "kind" ∉ others.map Prod.fst)
    (byNumber : Bool) :
    ∃ others', others.Perm others' ∧
      kind? byNumber (mapping parts) = some (kind, mapping others') := by
  have hne : ∀ f ∈ others, f.1 ≠ "kind" := fun f hf heq => hothers (heq ▸ List.mem_map_of_mem hf)
  have hkind : parts.filter (fun f => f.1 = "kind") = [("kind", some kind)] := by
    refine List.perm_singleton.1 ((h.filter _).symm.trans ?_)
    rw [List.filter_cons_of_pos (by simp), List.filter_eq_nil_iff.2 (by simpa using hne)]
  have hrest : others.Perm (parts.filter fun f => ¬ f.1 = "kind") := by
    have hfilter := h.filter fun f => ¬ f.1 = "kind"
    rwa [List.filter_cons_of_neg (by simp), List.filter_eq_self.2 (by simpa using hne)] at hfilter
  have hpartition : (parts.map fun f => (Datum.str f.1, datum f.2)).partition
      (fun e => isKindKey e.1) =
        ([(.str "kind", .str kind)],
          (parts.filter fun f => ¬ f.1 = "kind").map fun f => (.str f.1, datum f.2)) := by
    rw [List.partition_eq_filter_filter, List.filter_map, List.filter_map]
    refine Prod.ext ?_ ?_
    · change (parts.filter fun f => f.1 = "kind").map _ = _
      rw [hkind]
      rfl
    · refine congrArg (List.map _) (List.filter_congr fun f _ => ?_)
      simp [isKindKey]
  refine ⟨_, hrest, ?_⟩
  simp only [kind?, mapping]
  rw [hpartition]
  rfl

/-- The texts of a statement without its kind are a record of a schema. -/
theorem exists_record_mapping {others others' : List (String × Option String)}
    (h : others.Perm others') {s : Schema} (hs : (s.fields.map Field.name).Nodup)
    (hfields : (others.map Prod.fst).Sublist (s.fields.map Field.name)) :
    ∃ r : Record Datum, s.read? (mapping others') = some r ∧
      ∀ f ∈ others, r.lookup f.1 = some (datum f.2) := by
  let r : Record Datum := others'.map fun f => (f.1, datum f.2)
  have hkeys : Datum.keyedFields? (others'.map fun f => (.str f.1, datum f.2)) =
      some (r.map fun f => (.name f.1, f.2)) := by
    refine mapM_of_forall₂ ?_
    rw [List.map_map, List.forall₂_map_left_iff, List.forall₂_map_right_iff, List.forall₂_same]
    exact fun f _ => rfl
  have hrecord : Format.record? (mapping others') = some (.named r) :=
    congrArg (Option.map RecordForm.keyed) hkeys
  have hnames : (others.map Prod.fst).Perm (r.map Prod.fst) := by
    simpa [r, Function.comp_def] using h.map Prod.fst
  obtain ⟨hnodup, hread⟩ := Schema.read?_named hrecord hs hfields hnames
  refine ⟨r, hread, fun f hf => ?_⟩
  rw [lookup_eq_some_iff_mem hnodup]
  exact List.mem_map_of_mem (h.mem_iff.1 hf)

theorem readAs (s : Statement) : ReadAs Statement.read? s.toJson s := by
  intro j hj
  rw [toJson_eq] at hj
  obtain ⟨parts, hparts, hdatum⟩ := toDatum?_of_rearranged hj
  have hread {kind : String} {content : Datum}
      (hkind : kind? false (mapping parts) = some (kind, content)) :
      Statement.read? j = ofKind? kind content := by
    rw [read?, show Format.generic? j = some (mapping parts) from hdatum, Option.bind_eq_bind,
      Option.bind_some, show Format.kindsByNumber Json = false from rfl, hkind]
    rfl
  cases s with
  | invoke receiver type method =>
      obtain ⟨others, hothers, hkind⟩ := kind?_of_perm hparts (by simp) false
      obtain ⟨r, hr, hlookup⟩ :=
        exists_record_mapping hothers (s := invokeSchema) (by decide) (.refl _)
      have hreceiver : r.required "receiver" Format.text? = some receiver := by
        rw [Record.required, hlookup ("receiver", some receiver) (by simp)]
        rfl
      have htype : r.nullable "receiver_type" Format.text? = some type := by
        rw [Record.nullable, hlookup ("receiver_type", type) (by simp)]
        cases type <;> rfl
      have hmethod : r.required "method" Format.text? = some method := by
        rw [Record.required, hlookup ("method", some method) (by simp)]
        rfl
      simp [hread hkind, ofKind?, hr, hreceiver, htype, hmethod]
  | other text =>
      obtain ⟨others, hothers, hkind⟩ := kind?_of_perm hparts (by simp) false
      obtain ⟨r, hr, hlookup⟩ :=
        exists_record_mapping hothers (s := otherSchema) (by decide) (.refl _)
      have htext : r.required "text" Format.text? = some text := by
        rw [Record.required, hlookup ("text", some text) (by simp)]
        rfl
      simp [hread hkind, ofKind?, hr, htext]
  | nop =>
      obtain ⟨others, -, hkind⟩ := kind?_of_perm hparts (by simp) false
      rw [hread hkind]
      rfl

end Statement

theorem Span.readAs (s : Span) : ReadAs Span.read? s.toJson s := by
  intro j hj
  obtain ⟨r, hr, h⟩ := hj.exists_record (s := schema) (by decide) (.refl _)
  have h1 := h.required "start_line" (by simp) (.word s.startLine)
  have h2 := h.required "start_col" (by simp) (.word s.startCol)
  have h3 := h.required "end_line" (by simp) (.word s.endLine)
  have h4 := h.required "end_col" (by simp) (.word s.endCol)
  simp [read?, hr, h1, h2, h3, h4]

theorem Node.readAs (n : Node) : ReadAs Node.read? n.toJson n := by
  intro j hj
  obtain ⟨r, hr, h⟩ := hj.exists_record (s := schema) (by decide) (.refl _)
  have hstatement := h.required "statement" (by simp) n.statement.readAs
  have hspan := h.nullable_ofOption "span" n.span (by simp) Span.readAs fun _ => rfl
  simp [read?, hr, hstatement, hspan]

theorem Stats.readAs (s : Stats) : ReadAs Stats.read? s.toJson s := by
  intro j hj
  obtain ⟨r, hr, h⟩ := hj.exists_record (s := schema) (by decide) (.refl _)
  have h1 := h.required "worklist_pops" (by simp) (.natural s.worklistPops)
  have h2 := h.required "transfer_applications" (by simp) (.natural s.transferApplications)
  have h3 := h.required "tracked_handles" (by simp) (.natural s.trackedHandles)
  have h4 := h.required "nodes" (by simp) (.natural s.nodes)
  have h5 := h.required "reachable_nodes" (by simp) (.natural s.reachableNodes)
  have h6 := h.required "suppressed_calls" (by simp) (.natural s.suppressedCalls)
  have h7 := h.required "analysis_time_ms" (by simp) (.natural s.analysisTimeMs)
  simp [read?, hr, h1, h2, h3, h4, h5, h6, h7]

theorem NodeFlow.readAs (f : NodeFlow) : ReadAs NodeFlow.read? f.toJson f := by
  intro j hj
  obtain ⟨r, hr, h⟩ := hj.exists_record (s := schema) (by decide) (.refl _)
  have hnode := h.required "node" (by simp) (.natural f.node)
  have hline := h.nullable_ofOption "line" f.line (by simp) ReadAs.word fun _ => rfl
  have hinput := h.required "input" (by simp) (Assignment.readAs f.input)
  have houtput := h.required "output" (by simp) (Assignment.readAs f.output)
  simp [read?, hr, hnode, hline, hinput, houtput]

theorem Violation.readAs (v : Violation) : ReadAs Violation.read? v.toJson v := by
  intro j hj
  obtain ⟨r, hr, h⟩ := hj.exists_record (s := schema) (by decide)
    (by cases v.file <;> simp [schema, Json.fieldOf, Field.always, Field.optional])
  have hhandle := h.required "handle" (by simp) v.handle.readAs
  have hnode := h.required "node" (by simp) (.natural v.node)
  have hspan := h.nullable_ofOption "span" v.span (by simp) Span.readAs fun _ => rfl
  have hfile := h.nullable_fieldOf "file" v.file
    (fun a ha => by simp [Json.fieldOf, Option.mem_def.1 ha])
    (fun hnone => by simp [Json.fieldOf, hnone]) ReadAs.text fun _ => rfl
  have haction := h.required "action" (by simp) v.action.readAs
  have hattempted := h.required "attempted_state" (by simp) v.attempted.readAs
  have hactual := h.required "actual_state" (by simp) v.actual.readAs
  simp [read?, hr, hhandle, hnode, hspan, hfile, haction, hattempted, hactual]

theorem Report.readAs (t : Report) : ReadAs Report.read? t.toJson t := by
  intro j hj
  obtain ⟨r, hr, h⟩ := hj.exists_record (s := schema) (by decide)
    (by cases t.flows <;> simp [schema, Json.fieldOf, Field.always, Field.optional])
  have hprocedure := h.required "procedure" (by simp) (.text t.procedure)
  have hviolations := h.required "violations" (by simp) (.list Violation.readAs t.violations)
  have hstats := h.required "stats" (by simp) t.stats.readAs
  have hflows := h.nullable_fieldOf "flow_states" t.flows
    (fun a ha => by simp [Json.fieldOf, Option.mem_def.1 ha])
    (fun hnone => by simp [Json.fieldOf, hnone]) (ReadAs.list NodeFlow.readAs) fun _ => rfl
  simp [read?, hr, hprocedure, hviolations, hstats, hflows]

section Fits

open Json (Fits natLimit)

theorem Json.fits_ofWord (n : UInt32) {room : Nat} : Fits room (.ofWord n) := by
  have hn : n.toNat < 2 ^ 32 := n.toNat_lt
  have hlimit : (2 ^ 32 : Nat) < natLimit := by decide
  exact .nat (Nat.lt_trans hn hlimit)

theorem Json.fits_ofOption {α : Type} {write : α → Json} {room : Nat} {o : Option α}
    (h : ∀ a ∈ o, Fits room (write a)) : Fits room (.ofOption write o) := by
  cases o with
  | none => exact .null
  | some a => exact h a rfl

theorem Json.fits_list {α : Type} {write : α → Json} {room : Nat} {as : List α}
    (h : ∀ a ∈ as, Fits room (write a)) : Fits (room + 1) (.arr (as.map write)) :=
  .arr (List.forall_mem_map.2 h)

theorem State.fits (s : State) (room : Nat) : Fits (room + 1) s.toJson :=
  .obj (by simp [Fits.str])

theorem Action.fits (a : Action) (room : Nat) : Fits (room + 1) a.toJson :=
  .obj (by simp [Fits.str])

theorem Tracked.fits (t : Tracked) (room : Nat) : Fits (room + 2) t.toJson := by
  cases t with
  | known s => exact .obj (by simp [s.fits])
  | unknown => exact .str _

theorem Assignment.fits (m : Assignment) (room : Nat) : Fits (room + 3) (Assignment.toJson m) :=
  .obj (List.forall_mem_map.2 fun f _ => f.2.fits room)

theorem Span.fits (s : Span) (room : Nat) : Fits (room + 1) s.toJson :=
  .obj (by simp [Json.fits_ofWord])

theorem Statement.fits (s : Statement) (room : Nat) : Fits (room + 1) s.toJson := by
  rw [toJson_eq]
  exact .obj (List.forall_mem_map.2 fun f _ => Json.fits_ofOption fun a _ => .str a)

theorem Node.fits (n : Node) (room : Nat) : Fits (room + 2) n.toJson := by
  have hspan : Fits (room + 1) (.ofOption Span.toJson n.span) :=
    Json.fits_ofOption fun s _ => s.fits room
  exact .obj (by simp [n.statement.fits, hspan])

theorem Violation.fits {v : Violation} (hv : v.node < natLimit) (room : Nat) :
    Fits (room + 3) v.toJson := by
  have hspan : Fits (room + 2) (.ofOption Span.toJson v.span) :=
    Json.fits_ofOption fun s _ => s.fits (room + 1)
  have hfile : ∀ f ∈ Json.fieldOf "file" .str v.file, Fits (room + 2) f.2 := by
    cases v.file <;> simp [Json.fieldOf, Fits.str]
  have hfirst : ∀ f ∈ [("handle", v.handle.toJson), ("node", .nat v.node),
      ("span", .ofOption Span.toJson v.span)], Fits (room + 2) f.2 := by
    simp [Handle.toJson, Fits.str, Fits.nat hv, hspan]
  have hlast : ∀ f ∈ [("action", v.action.toJson), ("attempted_state", v.attempted.toJson),
      ("actual_state", v.actual.toJson)], Fits (room + 2) f.2 := by
    simp [Action.fits, Tracked.fits, State.fits]
  exact .obj (List.forall_mem_append.2 ⟨List.forall_mem_append.2 ⟨hfirst, hfile⟩, hlast⟩)

namespace Stats

/-- The counts of an analysis. -/
def counts (s : Stats) : List Nat :=
  [s.worklistPops, s.transferApplications, s.trackedHandles, s.nodes, s.reachableNodes,
    s.suppressedCalls, s.analysisTimeMs]

theorem fits {s : Stats} (hs : ∀ n ∈ s.counts, n < natLimit) (room : Nat) :
    Fits (room + 1) s.toJson := by
  have hnat : ∀ n ∈ s.counts, Fits room (.nat n) := fun n hn => .nat (hs n hn)
  exact .obj (by simpa [counts] using hnat)

end Stats

theorem NodeFlow.fits {f : NodeFlow} (hf : f.node < natLimit) (room : Nat) :
    Fits (room + 4) f.toJson := by
  have hline : Fits (room + 3) (.ofOption .ofWord f.line) :=
    Json.fits_ofOption fun n _ => Json.fits_ofWord n
  exact .obj (by simp [Fits.nat hf, hline, Assignment.fits])

namespace Report

/-- The numbers of a report that have no bound of their own. -/
def numbers (r : Report) : List Nat :=
  r.stats.counts ++ r.violations.map Violation.node ++ (r.flows.getD []).map NodeFlow.node

theorem fits {r : Report} (hr : ∀ n ∈ r.numbers, n < natLimit) (room : Nat) :
    Fits (room + 6) r.toJson := by
  simp only [numbers, List.forall_mem_append, List.forall_mem_map] at hr
  obtain ⟨⟨hstats, hviolations⟩, hflows⟩ := hr
  have hfields : ∀ f ∈ [("procedure", .str r.procedure),
      ("violations", .arr (r.violations.map Violation.toJson)), ("stats", r.stats.toJson)],
      Fits (room + 5) f.2 := by
    have hlist : Fits (room + 5) (.arr (r.violations.map Violation.toJson)) :=
      Json.fits_list fun v hv => Violation.fits (hviolations v hv) (room + 1)
    simp [Fits.str, hlist, Stats.fits hstats]
  have hoption : ∀ f ∈ Json.fieldOf "flow_states"
      (fun flows => .arr (flows.map NodeFlow.toJson)) r.flows, Fits (room + 5) f.2 := by
    cases hr : r.flows with
    | none => simp [Json.fieldOf]
    | some flows =>
        rw [hr] at hflows
        rw [Json.fieldOf, List.forall_mem_singleton]
        exact Json.fits_list fun f hf => NodeFlow.fits (hflows f hf) room
  exact .obj (List.forall_mem_append.2 ⟨hfields, hoption⟩)

end Report

end Fits

/-- What is written for reports and nodes is read as the same reports and nodes: from the value,
also if its fields are in another order, and from its text. -/
theorem Command.json_lossless (rs : List Report) (n : Node) :
    ReadAs (Format.list? Report.read?) (.arr (rs.map Report.toJson)) rs ∧
    ((∀ r ∈ rs, ∀ k ∈ r.numbers, k < Nat.pow 2 64) →
      (Json.ofText? (Command.write rs .json)).bind (Format.list? Report.read?) = some rs) ∧
    ReadAs Node.read? n.toJson n ∧
    ∀ L ∈ [Json.Layout.compact, Json.Layout.pretty],
      (Json.ofText? (String.ofList (n.toJson.write L 0))).bind Node.read? = some n := by
  have hreports : ReadAs (Format.list? Report.read?) (.arr (rs.map Report.toJson)) rs :=
    .list Report.readAs rs
  refine ⟨hreports, fun hrange => ?_, n.readAs, fun L hL => ?_⟩
  · have hfits : Json.Fits 7 (.arr (rs.map Report.toJson)) :=
      Json.fits_list fun r hr => Report.fits (hrange r hr) 0
    have htext : Json.ofText? (Command.write rs .json) = some (.arr (rs.map Report.toJson)) := by
      have hread := Json.ofText?_write Json.Layout.blank_pretty hfits (by decide) ['\n']
        (List.forall_mem_singleton.2 rfl)
      rwa [String.ofList_append] at hread
    rw [htext]
    exact hreports _ (.refl _)
  · have hblank : L.Blank := by
      simp only [List.mem_cons, List.not_mem_nil, or_false] at hL
      rcases hL with rfl | rfl
      · exact Json.Layout.blank_compact
      · exact Json.Layout.blank_pretty
    have htext := Json.ofText?_write hblank (n.fits 0) (by decide) [] (by simp)
    rw [List.append_nil] at htext
    rw [htext]
    exact n.readAs _ (.refl _)

/-- A report with characters that are escaped, with the largest count, and with a known state that
has the name of the unknown one, and a call on a receiver of no known type. -/
theorem Command.json_lossless_escapes :
    let states : Assignment :=
      .ofList [(Handle.mk "h", Tracked.known ⟨"Unknown"⟩), (Handle.mk "\\", Tracked.unknown)]
    let rs : List Report :=
      [⟨"\"π\n\x01", [⟨⟨"h"⟩, Nat.pow 2 32, none, none, ⟨"close"⟩, .unknown, ⟨"Unknown"⟩⟩],
        ⟨1, 2, 3, 4, 5, 6, Nat.pow 2 64 - 1⟩, some [⟨0, some 7, states, ∅⟩]⟩]
    let n : Node := ⟨.invoke "h" none "close", some ⟨1, 2, 3, 4⟩⟩
    (∀ r ∈ rs, ∀ k ∈ r.numbers, k < Nat.pow 2 64) ∧
      (Json.ofText? (Command.write rs .json)).bind (Format.list? Report.read?) = some rs ∧
      (Json.ofText? n.toJson.pretty).bind Node.read? = some n := by
  intro states rs n
  have hrange : ∀ r ∈ rs, ∀ k ∈ r.numbers, k < Nat.pow 2 64 := by decide
  obtain ⟨-, hreports, -, hnode⟩ := json_lossless rs n
  exact ⟨hrange, hreports hrange, hnode .pretty (by simp)⟩

end Typestate
