import ClassOutline.Text.Blank
/-
  ClassOutline.Layout.Indent — moving blocks of lines sideways.

  `indent` puts one unit before each line that holds anything but blanks and empties the
  others. `dedent` drops blank lines at both ends, blanks at line ends, and the spaces and
  tabs that begin every remaining line.
-/

namespace ClassOutline.Layout

open ClassOutline.Text

/-- One level of indentation: a tab, or so many spaces. -/
inductive IndentUnit where
  | tab
  | spaces (n : Nat)
  deriving DecidableEq, Repr

def IndentUnit.text : IndentUnit → Text
  | .tab => ['\t']
  | .spaces n => List.replicate n ' '

def indentLine (unit : Text) (line : Text) : Text := if isAllBlank line then [] else unit ++ line

def indent (u : IndentUnit) (t : Text) : Text := joinLines ((splitLines t).map (indentLine u.text))

/-- The number of spaces and tabs a line begins with. -/
def margin (line : Text) : Nat := (line.takeWhile isIndent).length

/-- The least margin of the lines that are not empty. -/
def commonMargin (ls : List Text) : Nat :=
  (((ls.filter (!·.isEmpty)).map margin).min?).getD 0

/-- The lines between the first and the last that are not empty, both included. -/
def dropEmptyEnds (ls : List Text) : List Text :=
  ((ls.dropWhile List.isEmpty).reverse.dropWhile List.isEmpty).reverse

def dedent (body : Text) : Text :=
  let ls := dropEmptyEnds ((lines body).map (trimEnd isBlank))
  joinLines (ls.map (·.drop (commonMargin ls)))

end ClassOutline.Layout
