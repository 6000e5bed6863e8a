import ClassOutline.Text.Blank
/-
  ClassOutline.Layout.Canonical — the canonical white space of printed text.

  `canonical` makes every line end a newline, drops control characters, strips spaces and
  tabs from line ends and newlines from both ends of the text.
-/

namespace ClassOutline.Layout

open ClassOutline.Text

/-- Carriage return and newline together, and a carriage return alone, become a newline. -/
def unifyLineEnds : Text → Text
  | '\r' :: '\n' :: r => '\n' :: unifyLineEnds r
  | '\r' :: r => '\n' :: unifyLineEnds r
  | c :: r => c :: unifyLineEnds r
  | [] => []

/-- Tab and newline are the only control characters a printed text keeps. -/
def isKept (c : Char) : Bool := !isControl c || c == '\t' || c == '\n'

def canonical (t : Text) : Text :=
  let cleaned := (unifyLineEnds t).filter isKept
  trim (· == '\n') (joinLines ((splitLines cleaned).map (trimEnd isIndent)))

end ClassOutline.Layout
