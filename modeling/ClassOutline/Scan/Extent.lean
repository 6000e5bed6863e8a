import ClassOutline.Grammar.Terminal
import ClassOutline.Text.Blank
/-
  ClassOutline.Scan.Extent — how far a token reaches.

  `extent?` gets the text from a token's first character on and says how many characters the
  longest token of a kind takes there, if there is one.
-/

namespace ClassOutline.Scan

open ClassOutline.Grammar ClassOutline.Text

/-! ## Characters -/

/-- Characters that separate tokens. -/
def isSeparator (c : Char) : Bool :=
  isCodeBlank c || c == '\u00a0' || c == '\u200b' || c == '\u2060' || c == '\ufeff'

def isLineBreak (c : Char) : Bool := c == '\n' || c == '\r'

/-- Letters of names: ASCII letters, the underscore, and the characters above ASCII in the
    basic plane that do not separate tokens. -/
def isNameStart (c : Char) : Bool :=
  c.isAlpha || c == '_' || (0x80 ≤ c.toNat && c.toNat ≤ 0xffff && !isSeparator c)

def isNamePart (c : Char) : Bool := isNameStart c || c.isDigit

def isOctal (c : Char) : Bool := '0' ≤ c && c ≤ '7'

def isBinary (c : Char) : Bool := c == '0' || c == '1'

def isHex (c : Char) : Bool := c.isDigit || ('a' ≤ c && c ≤ 'f') || ('A' ≤ c && c ≤ 'F')

/-- Lower case, also of the two characters above ASCII whose lower case is an ASCII letter. -/
def foldCase (c : Char) : Char :=
  if c == '\u017f' then 's' else if c == '\u212a' then 'k' else c.toLower

/-- Whether a text begins with a word, in any case. -/
def beginsWord : Text → Text → Bool
  | [], _ => true
  | _ :: _, [] => false
  | w :: ws, c :: r => foldCase c == w && beginsWord ws r

/-! ## Numbers -/

/-- Digits, with single underscores before some of them. -/
def digitsLength (isDigit : Char → Bool) : Text → Nat
  | [] => 0
  | [c] => if isDigit c then 1 else 0
  | '_' :: d :: r => if isDigit d then digitsLength isDigit r + 2 else 0
  | c :: d :: r => if isDigit c then digitsLength isDigit (d :: r) + 1 else 0

def exponentLength : Text → Nat
  | e :: s :: r =>
    if e == 'e' || e == 'E' then
      if s.isDigit then 1 + digitsLength Char.isDigit (s :: r)
      else if s == '+' || s == '-' then
        match r with
        | d :: _ => if d.isDigit then 2 + digitsLength Char.isDigit r else 0
        | [] => 0
      else 0
    else 0
  | _ => 0

/-- A number with a dot or an exponent; a dot alone is one too. -/
def floatLength? (t : Text) : Option Nat :=
  let n := digitsLength Char.isDigit t
  match t.drop n with
  | '.' :: r =>
    let m := n + 1 + digitsLength Char.isDigit r
    some (m + exponentLength (t.drop m))
  | rest => match exponentLength rest with
    | 0 => none
    | e => some (n + e)

def integerLength? : Text → Option Nat
  | '0' :: x :: d :: r =>
    if (x == 'x' || x == 'X') && isHex d then some (2 + digitsLength isHex (d :: r))
    else if (x == 'b' || x == 'B') && isBinary d then some (2 + digitsLength isBinary (d :: r))
    else if x == 'o' || x == 'O' then some (2 + digitsLength isOctal (d :: r))
    else some (1 + digitsLength isOctal (x :: d :: r))
  | '0' :: x :: r => some (if x == 'o' || x == 'O' then 2 else 1 + digitsLength isOctal (x :: r))
  | c :: r => if c.isDigit then some (1 + digitsLength Char.isDigit r) else none
  | [] => none

/-! ## Comments -/

/-- The rest of a line comment: up to the line's end or a closing tag. A question mark takes
    the character behind it along, also a line break. -/
def lineCommentTail : Text → Nat
  | [] => 0
  | '?' :: [] => 0
  | '?' :: '>' :: _ => 0
  | '?' :: '\n' :: _ => 2
  | '?' :: '\r' :: '\n' :: _ => 3
  | '?' :: '\r' :: _ => 0
  | '?' :: _ :: r => lineCommentTail r + 2
  | c :: r => if isLineBreak c then 0 else lineCommentTail r + 1

def commentLength? : Text → Option Nat
  | '/' :: '/' :: r => some (2 + lineCommentTail r)
  | '/' :: '*' :: r => (beforeFirst? "*/".toList r).map (·.length + 4)
  | '#' :: c :: r =>
    if c == '?' || c == '[' || isLineBreak c then some 1 else some (2 + lineCommentTail r)
  | ['#'] => some 1
  | _ => none

/-! ## Tags and text -/

def openTagLength? : Text → Option Nat
  | '<' :: '?' :: '=' :: _ => some 3
  | '<' :: '?' :: r => some (if startsWith (lower (r.take 3)) "php".toList then 5 else 2)
  | _ => none

/-- Text up to the next `<`; a separator above ASCII stands for itself. -/
def textLength? : Text → Option Nat
  | [] => none
  | c :: r =>
    if isCodeBlank c || c == '<' then none
    else if isSeparator c then some 1
    else some (1 + (r.takeWhile (· != '<')).length)

/-! ## Strings -/

def escapeLetters : Text := "nrtvef\\$\"\x60".toList

def escapeLength? : Text → Option Nat
  | '\\' :: 'x' :: a :: r =>
    if !isHex a then none
    else match r with
      | b :: _ => some (if isHex b then 4 else 3)
      | [] => some 3
  | '\\' :: 'u' :: '{' :: r =>
    let n := (r.takeWhile isHex).length
    if 0 < n && (r.drop n).head? == some '}' then some (n + 4) else none
  | '\\' :: c :: r =>
    if isOctal c then some (2 + ((r.take 2).takeWhile isOctal).length)
    else if escapeLetters.any (· == c) then some 2
    else none
  | _ => none

/-- What stands between apostrophes: at most one backslash, and then no other. A separator
    stands for itself. -/
def quotedLength? : Text → Option Nat
  | '\\' :: r =>
    match (r.takeWhile fun c => c != '\'' && c != '\\').length with
    | 0 => none
    | n => some (n + 1)
  | c :: r =>
    if c == '\'' then none
    else if isSeparator c then some 1
    else some (1 + (r.takeWhile fun c => c != '\'' && c != '\\').length)
  | [] => none

def nameLength? : Text → Option Nat
  | c :: r => if isNameStart c then some (1 + (r.takeWhile isNamePart).length) else none
  | [] => none

/-! ## Terminals -/

def shapeLength? (s : Shape) (t : Text) : Option Nat :=
  match s, t with
  | .openTag, t => openTagLength? t
  | .closeTag, '?' :: '>' :: _ => some 2
  | .textAngle, '<' :: _ => some 1
  | .textRun, t => textLength? t
  | .float, t => floatLength? t
  | .integer, t => integerLength? t
  | .truth, t =>
    if beginsWord "true".toList t then some 4
    else if beginsWord "false".toList t then some 5
    else none
  | .escape, t => escapeLength? t
  | .quotedRun, t => quotedLength? t
  | .quotedEscape, '\\' :: c :: _ => if c == '\\' || c == '\'' then some 2 else none
  | .binaryQuote, c :: '"' :: _ => if c == 'b' || c == 'B' then some 2 else none
  | .binaryApostrophe, c :: '\'' :: _ => if c == 'b' || c == 'B' then some 2 else none
  | .newline, '\n' :: _ => some 1
  | .carriageReturn, '\r' :: _ => some 1
  | .name, t => nameLength? t
  | .comment, t => commentLength? t
  | _, _ => none

/-- How many characters a token takes at the head of a text. -/
def extent? (t : Terminal) (text : Text) : Option Nat :=
  match t with
  | .mark m | .adjoined m => if startsWith text m.toList then some m.length else none
  | .word w => if beginsWord w.toList text then some w.length else none
  | .shape s => shapeLength? s text
  | .finish | .interludeEnd | .piece _ => none

end ClassOutline.Scan
