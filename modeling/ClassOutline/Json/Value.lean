import ClassOutline.Text.Basic
/-
  ClassOutline.Json.Value — JSON documents.

  Objects keep their members in order and repetitions included; numbers keep their digits.
  A string is absent (`str none`) when its escapes name half of a surrogate pair: such a
  document can be read past but holds no text.
-/

namespace ClassOutline

inductive Json where
  | null
  | bool (b : Bool)
  | number (digits : Text)
  | str (content : Option Text)
  | array (items : List Json)
  | object (members : List (Option Text × Json))

namespace Json

def ofText (t : Text) : Json := .str (some t)

def ofTexts (ts : List Text) : Json := .array (ts.map ofText)

def ofOption : Option Text → Json
  | none => .null
  | some t => ofText t

/-- An object from named members. -/
def record (members : List (Text × Json)) : Json :=
  .object (members.map fun m => (some m.1, m.2))

end Json
end ClassOutline
