import ClassOutline.Json.Value
/-
  ClassOutline.Json.Writer — JSON documents as indented text.

  Two spaces a level, one item or member a line, a space behind the colon; an array or
  object without items is written on the spot. In strings the quote, the backslash and the
  control characters below U+0020 are escaped, five of them by a letter, and nothing else.
-/

namespace ClassOutline.Json

open ClassOutline.Text

/-! ## Strings -/

def hexDigit (n : Nat) : Char := "0123456789abcdef".toList.getD n '0'

/-- The letter that stands for a character behind a backslash. -/
def shortEscape? (c : Char) : Option Char :=
  match c with
  | '"' => some '"'
  | '\\' => some '\\'
  | '\n' => some 'n'
  | '\r' => some 'r'
  | '\t' => some 't'
  | '\x08' => some 'b'
  | '\x0c' => some 'f'
  | _ => none

def escape (c : Char) : Text :=
  match shortEscape? c with
  | some e => ['\\', e]
  | none =>
    if c.toNat < 0x20 then
      ['\\', 'u', '0', '0', hexDigit (c.toNat / 16), hexDigit (c.toNat % 16)]
    else [c]

def quoted (t : Text) : Text := '"' :: (t.map escape).flatten ++ ['"']

/-! ## Documents -/

def newLine (level : Nat) : Text := '\n' :: List.replicate (2 * level) ' '

mutual

/-- A document whose inner lines stand at `level + 1`. -/
def write (level : Nat) : Json → Text
  | .null => "null".toList
  | .bool b => if b then "true".toList else "false".toList
  | .number digits => digits
  | .str content => quoted (content.getD [])
  | .array [] => "[]".toList
  | .array (x :: xs) =>
    '[' :: newLine (level + 1) ++ write (level + 1) x ++ writeItems (level + 1) xs ++
      newLine level ++ [']']
  | .object [] => ['{', '}']
  | .object (m :: ms) =>
    '{' :: newLine (level + 1) ++ writeMember (level + 1) m ++ writeMembers (level + 1) ms ++
      newLine level ++ ['}']

/-- The items behind the first. -/
def writeItems (level : Nat) : List Json → Text
  | [] => []
  | x :: xs => ',' :: newLine level ++ write level x ++ writeItems level xs

def writeMember (level : Nat) : Option Text × Json → Text
  | (key, value) => quoted (key.getD []) ++ ": ".toList ++ write level value

/-- The members behind the first. -/
def writeMembers (level : Nat) : List (Option Text × Json) → Text
  | [] => []
  | m :: ms => ',' :: newLine level ++ writeMember level m ++ writeMembers level ms

end

def pretty (j : Json) : Text := write 0 j

end ClassOutline.Json
