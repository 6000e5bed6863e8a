import ClassOutline.Model.Format
import ClassOutline.Proofs.Json.Documents
import ClassOutline.Proofs.Ordered
import Mathlib.Data.List.Forall2
/-
  ClassOutline.Proofs.Json.Models — a file model is read back from its JSON.

  A record is written as an object whose keys are the names of its fields, no two alike, and
  of which only the last ones may be left out. So each field is found under its name
  (`toFields?_record`), and a record is read back if the value of each field is. From texts
  and flags this goes on to parameters, properties, methods, classes and files, whatever
  their texts and lists are (`ofJson?_toJson`).
-/

namespace ClassOutline.Json

open ClassOutline.Text

/-! ## Lists and maps -/

theorem mapM_eq_some_of_forall₂ {α β : Type} {f : α → Option β} {as : List α} {bs : List β}
    (h : List.Forall₂ (fun a b => f a = some b) as bs) : as.mapM f = some bs := by
  induction h with
  | nil => rfl
  | cons hab _ ih => simp [List.mapM_cons, hab, ih]

section

variable {α β : Type}

/-- What is written item by item is read item by item. -/
theorem mapM_map (write : α → β) (read : β → Option α) (h : ∀ a, read (write a) = some a) (as : List α) :
    (as.map write).mapM read = some as := by
  refine mapM_eq_some_of_forall₂ (List.forall₂_map_left_iff.mpr (List.forall₂_same.mpr ?_))
  exact fun a _ => h a

theorem toMembers?_record (members : List (Text × Json)) : (record members).toMembers? = some members :=
  mapM_map (fun m : Text × Json => (some m.1, m.2)) _ (fun _ => rfl) members

variable (write : α → Json) (read : Json → Option α) (h : ∀ a, read (write a) = some a)

include h

theorem toList?_array (as : List α) : toList? read (.array (as.map write)) = some as := mapM_map write read h as

theorem toMap?_record (m : NameMap α) :
    toMap? read (record (m.entries.map fun e => (e.1, write e.2))) = some m := by
  have hentries := mapM_map (fun e : Text × α => (e.1, write e.2)) (fun p => (read p.2).map fun v => (p.1, v))
    (fun e => by rw [h]; rfl) m.entries
  rw [toMap?, toMembers?_record]
  simp only [Option.bind_eq_bind, Option.bind_some, hentries, NameMap.ofList_entries]
  rfl

end

/-! ## Fields -/

theorem lookField_of_mem {members : List (Text × Json)} (hkeys : (members.map Prod.fst).Nodup) {f : Field} {v : Json}
    (h : (f.name, v) ∈ members) : lookField members f = some (some v) := by
  have hone : members.filter (·.1 == f.name) = [(f.name, v)] := by
    induction members with
    | nil => cases h
    | cons m ms ih =>
      obtain ⟨hnot, hkeys⟩ := List.nodup_cons.mp hkeys
      rcases List.mem_cons.mp h with rfl | h
      · rw [List.filter_cons_of_pos (by simp), List.filter_eq_nil_iff.mpr]
        intro e he hsame
        exact hnot (List.mem_map.mpr ⟨e, he, beq_iff_eq.mp hsame⟩)
      · have hne : (m.1 == f.name) = false := by
          refine beq_false_of_ne fun he => hnot ?_
          rw [he]
          exact List.mem_map_of_mem h
        rw [List.filter_cons_of_neg (by simp [hne]), ih hkeys h]
  rw [lookField, hone]

theorem lookField_of_not_mem {members : List (Text × Json)} {f : Field} (h : f.name ∉ members.map Prod.fst)
    (hf : f.inObject = true) : lookField members f = some none := by
  have hnone : members.filter (·.1 == f.name) = [] := by
    rw [List.filter_eq_nil_iff]
    intro m hm he
    exact h (beq_iff_eq.mp he ▸ List.mem_map_of_mem hm)
  rw [lookField, hnone, if_pos hf]

/-- The fields of a record that is written with the first of them; those behind may be missing. -/
theorem toFields?_record (fields rest : List Field) (values : List Json) (hlength : fields.length = values.length)
    (hnames : ((fields ++ rest).map (·.name)).Nodup) (hrest : ∀ f ∈ rest, f.inObject = true) :
    (record ((fields.map (·.name)).zip values)).toFields? (fields ++ rest) =
      some (values.map some ++ rest.map fun _ => none) := by
  rw [List.map_append] at hnames
  obtain ⟨hnodup, -, hapart⟩ := List.nodup_append.mp hnames
  have hkeys : ((fields.map (·.name)).zip values).map Prod.fst = fields.map (·.name) :=
    List.map_fst_zip (by simp [hlength])
  have hread : (fields ++ rest).mapM (lookField ((fields.map (·.name)).zip values)) =
      some (values.map some ++ rest.map fun _ => none) := by
    refine mapM_eq_some_of_forall₂ (List.rel_append ?_ ?_)
    · refine List.forall₂_map_right_iff.mpr (List.forall₂_iff_zip.mpr ⟨hlength, fun {f v} hfv => ?_⟩)
      refine lookField_of_mem (by rwa [hkeys]) ?_
      rw [List.zip_map_left]
      exact List.mem_map.mpr ⟨(f, v), hfv, rfl⟩
    · refine List.forall₂_map_right_iff.mpr (List.forall₂_same.mpr fun f hf => ?_)
      refine lookField_of_not_mem ?_ (hrest f hf)
      rw [hkeys]
      exact fun hmem => hapart _ hmem _ (List.mem_map_of_mem hf) rfl
  show ((record _).toMembers?.bind fun members => (fields ++ rest).mapM (lookField members)) = _
  rw [toMembers?_record, Option.bind_some, hread]

/-- A record that is written with all its fields. -/
theorem toFields?_full (fields : List Field) (values : List Json) (hlength : fields.length = values.length)
    (hnames : (fields.map (·.name)).Nodup) :
    (record ((fields.map (·.name)).zip values)).toFields? fields = some (values.map some) := by
  have h := toFields?_record fields [] values hlength (by simpa using hnames) (by simp)
  simpa using h

/-! ## Values -/

@[simp] theorem presentOr_some {α : Type} (missing : α) (read : Json → Option α) (j : Json) :
    presentOr missing read (some j) = read j := rfl

@[simp] theorem toText?_ofText (t : Text) : (ofText t).toText? = some t := rfl

@[simp] theorem toOption?_ofOption (o : Option Text) : (ofOption o).toOption? = some o := by
  cases o <;> rfl

@[simp] theorem toTexts?_ofTexts (ts : List Text) : toList? toText? (ofTexts ts) = some ts :=
  toList?_array ofText toText? toText?_ofText ts

@[simp] theorem toVisibility?_ofVisibility (v : Visibility) : (ofVisibility v).toVisibility? = some v := by
  cases v <;> rfl

@[simp] theorem toClause?_ofClause (c : Clause) : (ofClause c).toClause? = some c := by
  cases c <;> rfl

@[simp] theorem toTextMap?_record (m : NameMap Text) :
    toMap? toText? (record (m.entries.map fun e => (e.1, ofText e.2))) = some m :=
  toMap?_record ofText toText? toText?_ofText m

/-! ## Records -/

def unresolvedFields : List Field := [required "name", required "kind"]

theorem toUnresolved?_ofUnresolved (u : UnresolvedName) : (ofUnresolved u).toUnresolved? = some u := by
  have hfields : (ofUnresolved u).toFields? unresolvedFields = _ :=
    toFields?_full unresolvedFields [ofText u.name, ofClause u.clause] rfl (by decide)
  unfold toUnresolved?
  change (ofUnresolved u).toFields? unresolvedFields >>= _ = some u
  rw [hfields]
  simp [present]

def parameterFields : List Field :=
  [required "name", required "is_by_reference", required "is_variadic", optional "type_hint", required "is_optional",
    optional "default_value"]

theorem toParameter?_ofParameter (p : Parameter) : (ofParameter p).toParameter? = some p := by
  have hfields : (ofParameter p).toFields? parameterFields = _ :=
    toFields?_full parameterFields
      [ofText p.name, .bool p.byReference, .bool p.variadic, ofOption p.typeHint, .bool p.isOptional,
        ofOption p.default] rfl (by decide)
  unfold toParameter?
  change (ofParameter p).toFields? parameterFields >>= _ = some p
  rw [hfields]
  simp [present, toBool?]

def propertyFields : List Field :=
  [required "name", optional "default_value", required "visibility", required "is_static", required "doc_lines"]

theorem toProperty?_ofProperty (p : Property) : (ofProperty p).toProperty? = some p := by
  have hfields : (ofProperty p).toFields? propertyFields = _ :=
    toFields?_full propertyFields
      [ofText p.name, ofOption p.default, ofVisibility p.visibility, .bool p.isStatic, ofTexts p.doc] rfl
      (by decide)
  unfold toProperty?
  change (ofProperty p).toFields? propertyFields >>= _ = some p
  rw [hfields]
  simp [present, toBool?]

def methodFields : List Field :=
  [required "name", required "is_abstract", required "is_static", required "is_final",
    required "is_by_reference_return", required "visibility", required "parameters", optional "return_type",
    required "doc_lines", optional "body"]

theorem toMethod?_ofMethod (m : Method) : (ofMethod m).toMethod? = some m := by
  have hfields : (ofMethod m).toFields? methodFields = _ :=
    toFields?_full methodFields
      [ofText m.name, .bool m.isAbstract, .bool m.isStatic, .bool m.isFinal, .bool m.returnsReference,
        ofVisibility m.visibility, .array (m.parameters.map ofParameter), ofOption m.returnType, ofTexts m.doc,
        ofOption m.body] rfl (by decide)
  unfold toMethod?
  change (ofMethod m).toFields? methodFields >>= _ = some m
  rw [hfields]
  simp [present, toBool?, toList?_array ofParameter toParameter? toParameter?_ofParameter]

/-- The fields of a class that are always written. -/
def classFields : List Field :=
  [required "short_name", required "is_abstract", required "is_final", optional "parent", required "interfaces",
    required "doc_lines", required "constants", required "properties", required "methods"]

def classValues (c : ClassModel) : List Json :=
  [ofText c.name, .bool c.isAbstract, .bool c.isFinal, ofOption c.parent, ofTexts c.interfaces.items, ofTexts c.doc,
    record (c.constants.entries.map fun e => (e.1, ofText e.2)), .array (c.properties.map ofProperty),
    .array (c.methods.map ofMethod)]

/-- The list of unresolved names, missing if it is empty. -/
def unresolvedValue (c : ClassModel) : Option Json :=
  if c.unresolved.isEmpty then none else some (.array (c.unresolved.map ofUnresolved))

theorem presentOr_unresolvedValue (c : ClassModel) :
    presentOr [] (toList? toUnresolved?) (unresolvedValue c) = some c.unresolved := by
  unfold unresolvedValue
  split
  · rename_i h
    rw [List.isEmpty_iff.mp h]
    rfl
  · exact toList?_array ofUnresolved toUnresolved? toUnresolved?_ofUnresolved c.unresolved

theorem toFields?_ofClass (c : ClassModel) :
    (ofClass c).toFields? (classFields ++ [defaulted "unresolved_references"]) =
      some ((classValues c).map some ++ [unresolvedValue c]) := by
  unfold ofClass unresolvedValue
  by_cases h : c.unresolved.isEmpty = true
  · rw [if_pos h, if_pos h]
    exact toFields?_record classFields [defaulted "unresolved_references"] (classValues c) rfl (by decide)
      (by decide)
  · rw [if_neg h, if_neg h]
    exact toFields?_full (classFields ++ [defaulted "unresolved_references"])
      (classValues c ++ [.array (c.unresolved.map ofUnresolved)]) rfl (by decide)

theorem toClass?_ofClass (c : ClassModel) : (ofClass c).toClass? = some c := by
  unfold toClass?
  change (ofClass c).toFields? (classFields ++ [defaulted "unresolved_references"]) >>= _ = some c
  rw [toFields?_ofClass]
  simp [classValues, present, toBool?, presentOr_unresolvedValue, NameSet.ofList_items,
    toList?_array ofProperty toProperty? toProperty?_ofProperty, toList?_array ofMethod toMethod? toMethod?_ofMethod]

theorem toFile?_ofFile (f : FileModel) : (ofFile f).toFile? = some f := by
  have hgroups := toMap?_record (fun cs : List ClassModel => .array (cs.map ofClass)) (toList? toClass?)
    (toList?_array ofClass toClass? toClass?_ofClass) f.groups
  have hfields : (ofFile f).toFields? [required "namespaces"] = _ :=
    toFields?_full [required "namespaces"] [_] rfl (by decide)
  unfold toFile?
  rw [hfields]
  simp [present, hgroups]

/-! ## Documents of models -/

@[simp] theorem isTextual_bool (b : Bool) : (bool b).isTextual = true := rfl

@[simp] theorem isTextual_ofText (t : Text) : (ofText t).isTextual = true := rfl

@[simp] theorem isTextual_ofOption (o : Option Text) : (ofOption o).isTextual = true := by
  cases o <;> rfl

@[simp] theorem isTextual_ofTexts (ts : List Text) : (ofTexts ts).isTextual = true := by
  simp [ofTexts]

@[simp] theorem isTextual_ofClause (c : Clause) : (ofClause c).isTextual = true := by
  cases c <;> rfl

@[simp] theorem isTextual_ofVisibility (v : Visibility) : (ofVisibility v).isTextual = true := rfl

@[simp] theorem isTextual_ofParameter (p : Parameter) : (ofParameter p).isTextual = true := by
  simp [ofParameter]

@[simp] theorem isTextual_ofProperty (p : Property) : (ofProperty p).isTextual = true := by
  simp [ofProperty]

@[simp] theorem isTextual_ofMethod (m : Method) : (ofMethod m).isTextual = true := by
  simp [ofMethod]

@[simp] theorem isTextual_ofUnresolved (u : UnresolvedName) : (ofUnresolved u).isTextual = true := by
  simp [ofUnresolved]

@[simp] theorem isTextual_ofClass (c : ClassModel) : (ofClass c).isTextual = true := by
  rw [ofClass, isTextual_record, List.all_append]
  split <;> simp

theorem isTextual_ofFile (f : FileModel) : (ofFile f).isTextual = true := by
  simp [ofFile]

end ClassOutline.Json

namespace ClassOutline

/-- Every file model is read back from its JSON, with all its texts, orders and gaps. -/
theorem ofJson?_toJson (f : FileModel) : FileModel.ofJson? f.toJson = some f := by
  have hread : Json.read? (Json.ofFile f).pretty = some (Json.ofFile f) := Json.read?_pretty (Json.isTextual_ofFile f)
  rw [FileModel.ofJson?, FileModel.toJson, hread]
  exact Json.toFile?_ofFile f

end ClassOutline
