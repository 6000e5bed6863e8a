import ClassOutline.Model.Basic
import ClassOutline.Json.Writer
import ClassOutline.Json.Reader
/-
  ClassOutline.Model.Format — file models as JSON.

  A record is written as an object with its fields in a fixed order. It is read from an
  object, where fields may come in any order, unknown ones are passed over and a repeated
  one is refused, or from an array of its fields in order. An optional text may be left out
  of an object. The list of unresolved names is left out when it is empty. A repeated key
  of a map keeps its first place and takes the last value.
-/

namespace ClassOutline

open ClassOutline.Text

/-! ## Writing -/

namespace Json

def ofVisibility (v : Visibility) : Json := ofText v.keyword

def ofClause : Clause → Json
  | .parent => ofText "parent".toList
  | .interface => ofText "interface".toList

def ofUnresolved (u : UnresolvedName) : Json :=
  record [("name".toList, ofText u.name), ("kind".toList, ofClause u.clause)]

def ofParameter (p : Parameter) : Json :=
  record [("name".toList, ofText p.name), ("is_by_reference".toList, .bool p.byReference),
    ("is_variadic".toList, .bool p.variadic), ("type_hint".toList, ofOption p.typeHint),
    ("is_optional".toList, .bool p.isOptional), ("default_value".toList, ofOption p.default)]

def ofProperty (p : Property) : Json :=
  record [("name".toList, ofText p.name), ("default_value".toList, ofOption p.default),
    ("visibility".toList, ofVisibility p.visibility), ("is_static".toList, .bool p.isStatic),
    ("doc_lines".toList, ofTexts p.doc)]

def ofMethod (m : Method) : Json :=
  record [("name".toList, ofText m.name), ("is_abstract".toList, .bool m.isAbstract),
    ("is_static".toList, .bool m.isStatic), ("is_final".toList, .bool m.isFinal),
    ("is_by_reference_return".toList, .bool m.returnsReference),
    ("visibility".toList, ofVisibility m.visibility),
    ("parameters".toList, .array (m.parameters.map ofParameter)),
    ("return_type".toList, ofOption m.returnType), ("doc_lines".toList, ofTexts m.doc),
    ("body".toList, ofOption m.body)]

def ofClass (c : ClassModel) : Json :=
  record <|
    [("short_name".toList, ofText c.name), ("is_abstract".toList, .bool c.isAbstract),
     ("is_final".toList, .bool c.isFinal), ("parent".toList, ofOption c.parent),
     ("interfaces".toList, ofTexts c.interfaces.items), ("doc_lines".toList, ofTexts c.doc),
     ("constants".toList, record (c.constants.entries.map fun e => (e.1, ofText e.2))),
     ("properties".toList, .array (c.properties.map ofProperty)),
     ("methods".toList, .array (c.methods.map ofMethod))] ++
    if c.unresolved.isEmpty then []
    else [("unresolved_references".toList, .array (c.unresolved.map ofUnresolved))]

def ofFile (f : FileModel) : Json :=
  record [("namespaces".toList,
    record (f.groups.entries.map fun g => (g.1, .array (g.2.map ofClass))))]

/-! ## Reading values -/

def toText? : Json → Option Text
  | .str content => content
  | _ => none

def toBool? : Json → Option Bool
  | .bool b => some b
  | _ => none

def toOption? : Json → Option (Option Text)
  | .null => some none
  | j => j.toText?.map some

def toList? {α : Type} (item : Json → Option α) : Json → Option (List α)
  | .array items => items.mapM item
  | _ => none

/-- The members of an object whose keys are all texts. -/
def toMembers? : Json → Option (List (Text × Json))
  | .object members => members.mapM fun m => m.1.map fun key => (key, m.2)
  | _ => none

def toMap? {α : Type} (value : Json → Option α) (j : Json) : Option (NameMap α) := do
  let members ← j.toMembers?
  let entries ← members.mapM fun m => (value m.2).map fun v => (m.1, v)
  return .ofList entries

/-- The word of an enumeration: a string, or an object with the word over `null`. -/
def toWord? : Json → Option Text
  | .str content => content
  | .object [(key, .null)] => key
  | _ => none

/-! ## Reading records -/

/-- How a record's field is written: its name, and whether it may be missing from an
    object or from the end of an array. -/
structure Field where
  name : Text
  inObject : Bool
  inArray : Bool
  deriving DecidableEq, Repr

def required (name : String) : Field := ⟨name.toList, false, false⟩

def optional (name : String) : Field := ⟨name.toList, true, false⟩

def defaulted (name : String) : Field := ⟨name.toList, true, true⟩

/-- The one value under a key; a repeated key is refused, and a missing one if it must not
    be missing. -/
def lookField (members : List (Text × Json)) (f : Field) : Option (Option Json) :=
  match members.filter (·.1 == f.name) with
  | [] => if f.inObject then some none else none
  | [m] => some (some m.2)
  | _ => none

/-- The values of an array as fields, in order and none left over. -/
def zipFields : List Field → List Json → Option (List (Option Json))
  | [], [] => some []
  | [], _ :: _ => none
  | f :: fs, [] => if f.inArray then (zipFields fs []).map (none :: ·) else none
  | _ :: fs, x :: xs => (zipFields fs xs).map (some x :: ·)

/-- The values of a record's fields, in the order of `fields`. -/
def toFields? (fields : List Field) : Json → Option (List (Option Json))
  | .array items => zipFields fields items
  | j => do
    let members ← j.toMembers?
    fields.mapM (lookField members)

/-- A field that is there. -/
def present {α : Type} (read : Json → Option α) (j : Option Json) : Option α := j.bind read

/-- An optional text; missing is absent. -/
def presentOr {α : Type} (missing : α) (read : Json → Option α) : Option Json → Option α
  | none => some missing
  | some j => read j

def toVisibility? (j : Json) : Option Visibility := do
  let word ← j.toWord?
  [Visibility.isPublic, .isProtected, .isPrivate].find? (·.keyword == word)

def toClause? (j : Json) : Option Clause := do
  let word ← j.toWord?
  if word == "parent".toList then some .parent
  else if word == "interface".toList then some .interface
  else none

def toUnresolved? (j : Json) : Option UnresolvedName := do
  match ← j.toFields? [required "name", required "kind"] with
  | [name, kind] => return ⟨← present toText? name, ← present toClause? kind⟩
  | _ => none

def toParameter? (j : Json) : Option Parameter := do
  match ← j.toFields? [required "name", required "is_by_reference", required "is_variadic",
      optional "type_hint", required "is_optional", optional "default_value"] with
  | [name, byReference, variadic, typeHint, isOptional, default] =>
    return ⟨← present toText? name, ← present toBool? byReference, ← present toBool? variadic,
      ← presentOr none toOption? typeHint, ← present toBool? isOptional,
      ← presentOr none toOption? default⟩
  | _ => none

def toProperty? (j : Json) : Option Property := do
  match ← j.toFields? [required "name", optional "default_value", required "visibility",
      required "is_static", required "doc_lines"] with
  | [name, default, visibility, isStatic, doc] =>
    return ⟨← present toText? name, ← presentOr none toOption? default,
      ← present toVisibility? visibility, ← present toBool? isStatic,
      ← present (toList? toText?) doc⟩
  | _ => none

def toMethod? (j : Json) : Option Method := do
  match ← j.toFields? [required "name", required "is_abstract", required "is_static",
      required "is_final", required "is_by_reference_return", required "visibility",
      required "parameters", optional "return_type", required "doc_lines", optional "body"] with
  | [name, isAbstract, isStatic, isFinal, returnsReference, visibility, parameters, returnType,
      doc, body] =>
    return ⟨← present toText? name, ← present toBool? isAbstract, ← present toBool? isStatic,
      ← present toBool? isFinal, ← present toBool? returnsReference,
      ← present toVisibility? visibility, ← present (toList? toParameter?) parameters,
      ← presentOr none toOption? returnType, ← present (toList? toText?) doc,
      ← presentOr none toOption? body⟩
  | _ => none

def toClass? (j : Json) : Option ClassModel := do
  match ← j.toFields? [required "short_name", required "is_abstract", required "is_final",
      optional "parent", required "interfaces", required "doc_lines", required "constants",
      required "properties", required "methods", defaulted "unresolved_references"] with
  | [name, isAbstract, isFinal, parent, interfaces, doc, constants, properties, methods,
      unresolved] =>
    return ⟨← present toText? name, ← present toBool? isAbstract, ← present toBool? isFinal,
      ← presentOr none toOption? parent, .ofList (← present (toList? toText?) interfaces),
      ← present (toList? toText?) doc, ← present (toMap? toText?) constants,
      ← present (toList? toProperty?) properties, ← present (toList? toMethod?) methods,
      ← presentOr [] (toList? toUnresolved?) unresolved⟩
  | _ => none

def toFile? (j : Json) : Option FileModel := do
  match ← j.toFields? [required "namespaces"] with
  | [groups] => return ⟨← present (toMap? (toList? toClass?)) groups⟩
  | _ => none

end Json

namespace FileModel

def toJson (f : FileModel) : Text := (Json.ofFile f).pretty

def ofJson? (t : Text) : Option FileModel := do
  let j ← Json.read? t
  j.toFile?

end FileModel
end ClassOutline
