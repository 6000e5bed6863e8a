import ClassOutline.Token.Basic
/-
  ClassOutline.Token.Extent — how far a token reaches.

  Each function gets the text from the token's first character on and says how many
  characters the token takes. A quoted literal (`quotedLength`) ends at the first quote
  that no backslash escapes, and is stated for any alphabet; a heredoc (`heredocLength?`)
  ends behind its label on the first line that holds blanks, the label and no further name
  character; both reach to the end of the text if nothing closes them. A line comment
  stops before the line's end and before a closing tag.
-/

namespace ClassOutline.Token

open ClassOutline.Text

/-! ## Words and numbers -/

def nameLength (t : Text) : Nat := (t.takeWhile isNameChar).length

/-- A number: letters, digits and underscores, a sign right after an `e`, and one dot that
    a digit follows. -/
def numberLengthFrom (seenDot : Bool) : Text → Nat
  | [] => 0
  | [c] => if c.isAlphanum || c == '_' then 1 else 0
  | c :: d :: r =>
    if c.isAlphanum || c == '_' then
      if (c == 'e' || c == 'E') && (d == '+' || d == '-') then 2 + numberLengthFrom seenDot r
      else 1 + numberLengthFrom seenDot (d :: r)
    else if c == '.' && !seenDot && d.isDigit then 1 + numberLengthFrom true (d :: r)
    else 0

def numberLength (t : Text) : Nat := max 1 (numberLengthFrom false t)

/-! ## Comments -/

/-- Behind the first `*/`, or everything. -/
def blockCommentLength (t : Text) : Nat :=
  match beforeFirst? "*/".toList (t.drop 2) with
  | some body => body.length + 4
  | none => t.length

/-- Up to a closing tag, else up to the end of the line. -/
def lineCommentLength (t : Text) : Nat :=
  let line := t.takeWhile (· != '\n')
  match beforeFirst? "?>".toList line with
  | some body => body.length
  | none => (dropReturn line).length

/-- A block comment is documentation if it opens with two stars and a blank. -/
def isDocComment (t : Text) : Bool :=
  match after? "/**".toList t with
  | some (c :: _) => isCodeBlank c
  | _ => false

/-! ## Quoted literals -/

/-- The length of what follows the opening quote, the closing quote included. -/
def quotedTailLength {α : Type} [DecidableEq α] (escape quote : α) : List α → Nat
  | [] => 0
  | [_] => 1
  | c :: d :: r =>
    if c = escape then 2 + quotedTailLength escape quote r
    else if c = quote then 1
    else 1 + quotedTailLength escape quote (d :: r)

/-- The length of a literal that opens with its first element. -/
def quotedLength {α : Type} [DecidableEq α] (escape : α) : List α → Nat
  | [] => 0
  | quote :: r => 1 + quotedTailLength escape quote r

/-! ## Heredocs -/

/-- A heredoc opener: the label, and how many characters the opener takes, its line end
    included. -/
structure HeredocOpener where
  label : Text
  length : Nat
  deriving DecidableEq, Repr

/-- The characters of the line end the text starts with. -/
def lineEndLength? (t : Text) : Option Nat :=
  if startsWith t "\r\n".toList then some 2
  else if startsWith t "\n".toList then some 1
  else none

/-- Reads `<<<`, blanks, a label in matching quotes or none, and a line end. -/
def heredocOpener? (t : Text) : Option HeredocOpener :=
  let blanks := ((t.drop 3).takeWhile isIndent).length
  let afterBlanks := t.drop (3 + blanks)
  let quote := afterBlanks.head?.filter fun c => c == '"' || c == '\''
  let quoteLength := if quote.isSome then 1 else 0
  let label := (afterBlanks.drop quoteLength).takeWhile isNameChar
  let afterLabel := afterBlanks.drop (quoteLength + label.length)
  if label.isEmpty then none
  else if quote.isSome && afterLabel.head? != quote then none
  else
    (lineEndLength? (afterLabel.drop quoteLength)).map fun n =>
      ⟨label, 3 + blanks + quoteLength + label.length + quoteLength + n⟩

/-- How far a closing line reaches: blanks and the label, with no name character behind. -/
def closingLength? (label line : Text) : Option Nat :=
  let blanks := (line.takeWhile isIndent).length
  match after? label (line.drop blanks) with
  | some rest => if rest.head?.any isNameChar then none else some (blanks + label.length)
  | none => none

/-- The length of the lines up to the label that closes them. -/
def heredocBodyLength (label : Text) : List Text → Nat
  | [] => 0
  | [line] => (closingLength? label line).getD line.length
  | line :: rest =>
    match closingLength? label line with
    | some n => n
    | none => line.length + 1 + heredocBodyLength label rest

/-- The length of a heredoc or nowdoc at `<<<`; `none` if its opener is malformed. -/
def heredocLength? (t : Text) : Option Nat :=
  (heredocOpener? t).map fun o =>
    o.length + heredocBodyLength o.label (splitLines (t.drop o.length))

/-! ## Punctuation -/

/-- Punctuation of more than one character, longer ones first. -/
def compounds : List Text :=
  ["?->".toList, "...".toList, "<=>".toList, "**=".toList, "===".toList, "!==".toList,
   "<<=".toList, ">>=".toList, "??=".toList, "#[".toList, "::".toList, "->".toList,
   "=>".toList, "++".toList, "--".toList, "==".toList, "!=".toList, "<>".toList,
   "<=".toList, ">=".toList, "&&".toList, "||".toList, "??".toList, "+=".toList,
   "-=".toList, "*=".toList, "/=".toList, ".=".toList, "%=".toList, "&=".toList,
   "|=".toList, "^=".toList, "<<".toList, ">>".toList, "**".toList]

def compoundLength? (t : Text) : Option Nat := (compounds.find? (startsWith t)).map List.length

end ClassOutline.Token
