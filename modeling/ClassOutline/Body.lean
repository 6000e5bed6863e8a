import ClassOutline.Text.Blank
/-
  ClassOutline.Body — method bodies, cut out of source lines.

  Bounds name the lines and byte columns of two braces. `extract` takes the lines they
  span, cuts the first and the last at the braces, and `ofLines` takes the two braces away:
  a line that holds nothing but its brace goes with it, otherwise one brace is stripped and
  the line stays. Columns that name no character boundary cut nothing.
-/

namespace ClassOutline

/-- The lines (1-based) and byte columns (0-based) of an opening and a closing brace. -/
structure Bounds where
  openLine : Nat
  openColumn : Nat
  closeLine : Nat
  closeColumn : Nat
  deriving DecidableEq, Repr

namespace Bounds

/-- The largest machine word. Columns are words. -/
def maxColumn : Nat := 18446744073709551615

/-- Bounds that take whole lines. -/
def ofLines (first last : Nat) : Bounds := ⟨first, 0, last, maxColumn⟩

/-- Bounds that lie within `count` lines. -/
def Fits (b : Bounds) (count : Nat) : Prop :=
  0 < b.openLine ∧ b.openLine ≤ b.closeLine ∧ b.closeLine ≤ count

instance (b : Bounds) (count : Nat) : Decidable (b.Fits count) := by unfold Fits; infer_instance

end Bounds

/-- Bounds that reach outside the lines of a source. -/
structure BadBounds where
  first : Nat
  last : Nat
  lineCount : Nat
  deriving DecidableEq, Repr

namespace Body

open ClassOutline.Text

/-! ## Cutting at columns -/

def cutBefore (column : Nat) (line : Text) : Text := (dropWidth? column line).getD line

def cutAfter (column : Nat) (line : Text) : Text :=
  if column = Bounds.maxColumn then line else (takeWidth? (column + 1) line).getD line

def modifyLast (f : Text → Text) : List Text → List Text
  | [] => []
  | [l] => [f l]
  | l :: ls => l :: modifyLast f ls

def modifyFirst (f : Text → Text) : List Text → List Text
  | [] => []
  | l :: ls => f l :: ls

/-- The lines within the bounds, the last cut behind its brace and the first before its. -/
def slice (ls : List Text) (b : Bounds) : List Text :=
  modifyFirst (cutBefore b.openColumn)
    (modifyLast (cutAfter b.closeColumn) ((ls.take b.closeLine).drop (b.openLine - 1)))

/-! ## Taking the braces away -/

def isLone (brace : Char) (line : Text) : Bool := trimBlank line == [brace]

/-- The text without a final `}`, blanks behind it included. -/
def stripClose (t : Text) : Text := (before? ['}'] (trimEnd isBlank t)).getD t

/-- The text without a leading `{`, blanks before it included. -/
def stripOpen (t : Text) : Text := (after? ['{'] (trimStart isBlank t)).getD t

/-- The body between the brace that opens the first line and the one that closes the last. -/
def ofLines (ls : List Text) : Text :=
  let openLone := ls.head?.any (isLone '{')
  let ls := if openLone then ls.drop 1 else ls
  let closeLone := ls.getLast?.any (isLone '}')
  let ls := if closeLone then ls.dropLast else ls
  let body := joinLines ls
  let body := if closeLone then body else stripClose body
  if openLone then body else stripOpen body

/-- The body within bounds; it exists when the bounds lie within the lines. -/
def extract (ls : List Text) (b : Bounds) : Except BadBounds Text :=
  if b.Fits ls.length then .ok (ofLines (slice ls b))
  else .error ⟨b.openLine, b.closeLine, ls.length⟩

end Body
end ClassOutline
