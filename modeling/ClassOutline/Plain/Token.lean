import ClassOutline.Plain.Word
import ClassOutline.Scan.Piece
/-
  ClassOutline.Plain.Token — the tokens of plain sources.

  In a plain source every token can be told without regard to what stands around it. Anything
  that would need more is refused: closing tags, heredocs, commands, variables in strings,
  unusual numbers, and signs that fit nowhere. Comments go with the token behind them.
-/

namespace ClassOutline.Plain

open ClassOutline.Text ClassOutline.Tree ClassOutline.Scan

inductive Lexeme where
  | name
  | word (w : Word)
  | variable
  | integer
  | float
  | string
  | mark
  /-- The end of the source. -/
  | finish
  deriving DecidableEq, Repr

structure Token where
  lexeme : Lexeme
  text : Text
  span : Span
  /-- Comments before the token. -/
  before : List Node
  /-- The pieces of a string or variable. -/
  pieces : List Node

/-! ## Strings -/

def integerKind : Kind := .lexeme ['i', 'n', 't', 'e', 'g', 'e', 'r']

def floatKind : Kind := .lexeme ['f', 'l', 'o', 'a', 't']

def contentKind : Kind :=
  .lexeme ['s', 't', 'r', 'i', 'n', 'g', '_', 'c', 'o', 'n', 't', 'e', 'n', 't']

def escapeKind : Kind :=
  .lexeme ['e', 's', 'c', 'a', 'p', 'e', '_', 's', 'e', 'q', 'u', 'e', 'n', 'c', 'e']

/-- The first piece of a text between apostrophes. -/
def apostrophePiece? (t : Text) : Option (Kind × Nat) :=
  match quotedLength? t with
  | some n => some (contentKind, n)
  | none => (shapeLength? .quotedEscape t).map (escapeKind, ·)

/-- The first piece of a text between quotation marks, if it is no variable. -/
def quotePiece? (t : Text) : Option (Kind × Nat) :=
  match run? .quotes false [] t with
  | some n => some (contentKind, n)
  | none => (escapeLength? t).map (escapeKind, ·)

/-- The pieces of a string up to its end, and their length. -/
def piecesTo (quote : Char) (piece? : Text → Option (Kind × Nat)) :
    Nat → Pos → Text → Option (List Node × Nat)
  | 0, _, _ => none
  | _ + 1, _, [] => none
  | fuel + 1, p, c :: r =>
    if c == quote then some ([], 0)
    else
      (piece? (c :: r)).bind fun (kind, n) =>
        let stop := p.past ((c :: r).take n)
        (piecesTo quote piece? fuel stop ((c :: r).drop n)).map fun (nodes, m) =>
          (.leaf kind none ⟨p, stop⟩ :: nodes, n + m)

/-- The nodes of a string from its first quote on, and its length. -/
def stringNodes? (quote : Char) (p : Pos) (t : Text) : Option (List Node × Nat) :=
  let inside := p.step quote
  let piece? := if quote == '"' then quotePiece? else apostrophePiece?
  (piecesTo quote piece? (t.length + 1) inside (t.drop 1)).map fun (nodes, n) =>
    let close := inside.past ((t.drop 1).take n)
    (.leaf (.token [quote]) none ⟨p, inside⟩ :: nodes ++
      [.leaf (.token [quote]) none ⟨close, close.step quote⟩], n + 2)

/-! ## Signs -/

def threeSigns : List Text :=
  [['.', '.', '.'], ['=', '=', '='], ['!', '=', '='], ['<', '=', '>'], ['<', '<', '='], ['>', '>', '='],
    ['*', '*', '='], ['?', '?', '='], ['?', '-', '>']]

def twoSigns : List Text :=
  [['-', '>'], ['=', '>'], [':', ':'], ['+', '+'], ['-', '-'], ['+', '='], ['-', '='], ['*', '='],
    ['/', '='], ['.', '='], ['%', '='], ['&', '='], ['|', '='], ['^', '='], ['=', '='], ['!', '='],
    ['<', '>'], ['<', '='], ['>', '='], ['&', '&'], ['|', '|'], ['?', '?'], ['*', '*'], ['<', '<'],
    ['>', '>'], ['#', '[']]

def oneSigns : Text :=
  ['{', '}', '(', ')', '[', ']', ';', ':', ',', '=', '&', '|', '^', '~', '!', '@', '+', '-', '*', '/',
    '%', '.', '<', '>', '?', '\\']

/-- The beginnings of what is not plain. -/
def isPeculiar : Text → Bool
  | '?' :: '>' :: _ => true
  | '<' :: '?' :: _ => true
  | '<' :: '<' :: '<' :: _ => true
  | '/' :: '*' :: _ => true
  | '.' :: r => (floatLength? ('.' :: r)).any (1 < ·)
  | _ => false

def markLength? (t : Text) : Option Nat :=
  if isPeculiar t then none
  else if threeSigns.contains (t.take 3) then some 3
  else if twoSigns.contains (t.take 2) then some 2
  else t.head?.bind fun c => if oneSigns.elem c then some 1 else none

/-- What may stand right behind a number. -/
def endsNumber (t : Text) : Bool :=
  match t with
  | c :: _ => !isNamePart c && c != '.'
  | [] => true

/-- A number in decimal digits, with at most one dot between them. -/
def number? (t : Text) : Option (Lexeme × Nat) :=
  let digits := t.takeWhile Char.isDigit
  if digits.head? == some '0' && digits.length != 1 then none
  else
    match t.drop digits.length with
    | '.' :: r =>
      let more := (r.takeWhile Char.isDigit).length
      if more == 0 || !endsNumber (r.drop more) then none
      else some (.float, digits.length + 1 + more)
    | rest => if endsNumber rest then some (.integer, digits.length) else none

/-! ## Tokens -/

/-- A letter right before a quote changes the string. -/
def isStringLetter (word rest : Text) : Bool :=
  (word == ['b'] || word == ['B']) && (rest.head? == some '"' || rest.head? == some '\'')

/-- The token that a letter begins. Letters and underscores may also begin a number. -/
def nameToken? (p : Pos) (before : List Node) (t : Text) : Option Token :=
  let text := t.takeWhile isNamePart
  if isStringLetter text (t.drop text.length) || (floatLength? t).isSome then none
  else
    let lexeme := match word? text with
      | some w => .word w
      | none => .name
    some ⟨lexeme, text, ⟨p, p.past text⟩, before, []⟩

def variableToken? (p : Pos) (before : List Node) (t : Text) : Option Token :=
  (nameLength? t).map fun n =>
    let inside := p.step '$'
    let stop := inside.past (t.take n)
    ⟨.variable, '$' :: t.take n, ⟨p, stop⟩, before,
      [.leaf (.token ['$']) none ⟨p, inside⟩, .leaf .name none ⟨inside, stop⟩]⟩

/-- The token at the head of a text. -/
def token? (p : Pos) (before : List Node) (t : Text) : Option Token :=
  match t with
  | [] => some ⟨.finish, [], ⟨p, p⟩, before, []⟩
  | c :: r =>
    if isNameStart c then nameToken? p before t
    else if c == '$' then variableToken? p before r
    else if c.isDigit then
      (number? t).map fun (lexeme, n) => ⟨lexeme, t.take n, ⟨p, p.past (t.take n)⟩, before, []⟩
    else if c == '"' || c == '\'' then
      (stringNodes? c p t).map fun (nodes, n) =>
        ⟨.string, t.take n, ⟨p, p.past (t.take n)⟩, before, nodes⟩
    else
      (markLength? t).map fun n => ⟨.mark, t.take n, ⟨p, p.past (t.take n)⟩, before, []⟩

/-- The comment at the head of a text. A hash with a bracket begins no comment. -/
def plainComment? : Text → Option Nat
  | '#' :: '[' :: _ => none
  | t => commentLength? t

/-- The tokens of a text, `before` being the comments before the next one, last first. -/
def tokensFrom : Nat → Pos → List Node → Text → Option (List Token)
  | 0, _, _, _ => none
  | fuel + 1, p, before, t =>
    let gap := t.takeWhile isSeparator
    let p := p.past gap
    let t := t.drop gap.length
    match plainComment? t with
    | some n =>
      let stop := p.past (t.take n)
      tokensFrom fuel stop (.leaf .comment none ⟨p, stop⟩ :: before) (t.drop n)
    | none =>
      (token? p before.reverse t).bind fun token =>
        if t.isEmpty then some [token]
        else (tokensFrom fuel token.span.stop [] (t.drop token.text.length)).map (token :: ·)

/-- The open tag of a plain source and the tokens behind it. -/
def tokens? (source : Text) : Option (Node × List Token) :=
  match source with
  | '<' :: '?' :: a :: b :: c :: d :: r =>
    if [a, b, c].map Char.toLower == ['p', 'h', 'p'] && isSeparator d then
      let stop := Pos.past .origin ['<', '?', a, b, c]
      (tokensFrom (r.length + 2) stop [] (d :: r)).map fun ts =>
        (.leaf .openTag none ⟨.origin, stop⟩, ts)
    else none
  | _ => none

end ClassOutline.Plain
