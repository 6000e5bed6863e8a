import ClassOutline.Text.Basic
/-
  ClassOutline.Text.Blank — the classes of white space.

  `isBlank` is the Unicode property White_Space, which trimming of documentation, types
  and bodies goes by. `isCodeBlank` is the six ASCII characters that separate tokens.
  `isIndent` is what indentation is made of.
-/

namespace ClassOutline.Text

/-- The White_Space ranges of the Unicode character database, first and last code point. -/
def blankRanges : List (Nat × Nat) :=
  [(0x09, 0x0d), (0x20, 0x20), (0x85, 0x85), (0xa0, 0xa0), (0x1680, 0x1680), (0x2000, 0x200a),
   (0x2028, 0x2029), (0x202f, 0x202f), (0x205f, 0x205f), (0x3000, 0x3000)]

def isBlank (c : Char) : Bool := blankRanges.any fun r => r.1 ≤ c.toNat && c.toNat ≤ r.2

/-- Space, tab, line feed, carriage return, vertical tab, form feed. -/
def isCodeBlank (c : Char) : Bool := c == ' ' || (0x09 ≤ c.toNat && c.toNat ≤ 0x0d)

def isIndent (c : Char) : Bool := c == ' ' || c == '\t'

def isAllBlank (t : Text) : Bool := t.all isBlank

def trimBlank (t : Text) : Text := trim isBlank t

/-- ASCII control characters: below U+0020, and U+007F. -/
def isControl (c : Char) : Bool := c.toNat < 0x20 || c.toNat == 0x7f

end ClassOutline.Text
