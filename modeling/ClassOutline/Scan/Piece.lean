import ClassOutline.Scan.Extent
/-
  ClassOutline.Scan.Piece — pieces of strings and heredocs, and tokens of no width.

  The extent of a piece depends on the labels of the heredocs that are open, so a scan takes
  them and gives them back. Of the pieces asked for only the first in a fixed order is tried,
  up to those that stand between code: the end of text, a label, and the semicolon that a
  closing tag stands for.
-/

namespace ClassOutline.Scan

open ClassOutline.Grammar ClassOutline.Text

/-- A piece between two distances from the text's beginning, and the labels open behind it,
    the outermost first. -/
structure FoundPiece where
  piece : Piece
  first : Nat
  stop : Nat
  labels : List Text
  deriving DecidableEq, Repr

/-! ## Characters -/

/-- The ranges of characters that pieces take for blanks, first and last code point. -/
def spaceRanges : List (Nat × Nat) :=
  [(0x09, 0x0d), (0x20, 0x20), (0x1680, 0x1680), (0x2000, 0x2006), (0x2008, 0x200a),
    (0x2028, 0x2029), (0x205f, 0x205f), (0x3000, 0x3000)]

def isSpace (c : Char) : Bool := spaceRanges.any fun r => r.1 ≤ c.toNat && c.toNat ≤ r.2

def isLabelPart (c : Char) : Bool := c.isAlphanum || c == '_' || 0x80 ≤ c.toNat

def endsLabel (c : Char) : Bool := c == ';' || c == ',' || c == ')'

/-! ## The end of a heredoc -/

/-- How much of a label stands at the head of a text. -/
def labelShare : Text → Text → Nat
  | w :: ws, c :: r => if w == c then labelShare ws r + 1 else 0
  | _, _ => 0

/-- Looks for a heredoc's end: blanks, the label, and then the end of the line or of the
    expression. Also says how many characters had to be looked at. -/
def closesHeredoc (label t : Text) : Bool × Nat :=
  let spaces := (t.takeWhile isSpace).length
  let share := labelShare label (t.drop spaces)
  let rest := t.drop (spaces + share)
  let behind := match rest with
    | c :: _ => isSpace c || endsLabel c
    | [] => false
  if 0 < label.length && share == label.length && behind then
    let more := (rest.takeWhile fun c => isSpace c && !isLineBreak c).length
    let atEnd := match rest.drop more with
      | c :: _ => endsLabel c || isLineBreak c
      | [] => false
    (atEnd, spaces + share + more)
  else (false, spaces + share)

/-! ## Runs of text -/

/-- What a run of text stands in. -/
inductive Container where
  | quotes
  | command
  | heredoc
  deriving DecidableEq, Repr

/-- Whether a backslash with this text behind it is an escape, for which the run stops; if
    not, how many characters behind the backslash belong to the run. -/
def escapes (k : Container) : Text → Bool × Nat
  | '{' :: _ => (false, 1)
  | '\x60' :: _ => (k == .command, 0)
  | '\\' :: _ => (k != .heredoc, if k == .heredoc then 1 else 0)
  | 'x' :: r => ((r.head?.map isHex).getD false, 1)
  | c :: _ => ("nrtvef$\"u".toList.any (· == c) || isOctal c, 0)
  | [] => (false, 0)

/-- How many characters a run takes in one go at the head of a text; none where it stops. A
    run behind a variable also stops at what may index it. -/
def runStep (k : Container) (behindVariable : Bool) : Text → Nat
  | [] => 0
  | '"' :: _ => if k == .quotes then 0 else 1
  | '\x60' :: _ => if k == .command then 0 else 1
  | '\\' :: r =>
    match escapes k r with
    | (true, _) => 0
    | (false, n) => n + 1
  | '$' :: c :: _ => if (isLabelPart c && !c.isDigit) || c == '{' then 0 else 1
  | '-' :: '>' :: r =>
    if !behindVariable then 1 else if (r.head?.map isLabelPart).getD false then 0 else 2
  | '[' :: _ => if behindVariable then 0 else 1
  | '{' :: '$' :: _ => 0
  | c :: _ => if isLineBreak c && k == .heredoc then 0 else 1

/-- The length of a run, if it stops before the text does: `skip` characters ahead belong to
    it, and `n` were counted. -/
def runFrom (k : Container) : Text → Nat → Bool → Nat → Option Nat
  | [], _, _, _ => none
  | _ :: r, skip + 1, behindVariable, n => runFrom k r skip behindVariable (n + 1)
  | c :: r, 0, behindVariable, n =>
    match runStep k behindVariable (c :: r) with
    | 0 => some n
    | m + 1 => runFrom k r m false (n + 1)

/-- A run that is not empty. -/
def run? (k : Container) (behindVariable : Bool) (labels : List Text) (t : Text) : Option Nat :=
  let skipped := match k, labels.getLast? with
    | .heredoc, some label =>
      match closesHeredoc label t with
      | (true, _) => none
      | (false, n) => some n
    | _, _ => some 0
  skipped.bind fun n =>
    (runFrom k (t.drop n) 0 behindVariable n).bind fun m => if m == 0 then none else some m

/-- Text of a nowdoc up to the line's end. -/
def nowdocRun? (label t : Text) : Option Nat :=
  match closesHeredoc label t with
  | (true, _) => none
  | (false, n) =>
    let m := ((t.drop n).takeWhile (!isLineBreak ·)).length
    if (t.drop (n + m)).isEmpty || n + m == 0 then none else some (n + m)

/-! ## Labels -/

/-- A closing label: what is read must be the label of the innermost heredoc. -/
def closeLabel? (labels : List Text) (t : Text) : Option FoundPiece :=
  let spaces := (t.takeWhile isSpace).length
  let word := (t.drop spaces).takeWhile isLabelPart
  if labels.getLast? == some word then
    some ⟨.heredocClose, spaces, spaces + word.length, labels.dropLast⟩
  else none

/-- How many characters of blanks and line comments a text begins with, after `n`; none if a
    slash follows that begins no comment. -/
def gapFrom : Bool → Text → Nat → Option Nat
  | _, [], n => some n
  | true, c :: r, n =>
    if c == '\n' then gapFrom false r (n + 1) else if c == '\x00' then some n else gapFrom true r (n + 1)
  | false, '/' :: '/' :: r, n => gapFrom true r (n + 2)
  | false, c :: r, n =>
    if c == '/' then none else if isSpace c then gapFrom false r (n + 1) else some n

def openLabel? (labels : List Text) (gap : Nat) (t : Text) : Option FoundPiece :=
  let word := (t.drop gap).takeWhile isLabelPart
  if word.isEmpty then none
  else some ⟨.heredocLabel, 0, gap + word.length, labels ++ [word]⟩

/-- A token of no width that stands between code. -/
def betweenCode? (wanted : List Piece) (labels : List Text) (t : Text) : Option FoundPiece :=
  (gapFrom false t 0).bind fun gap =>
    let rest := t.drop gap
    if wanted.contains .endOfText && rest.isEmpty then some ⟨.endOfText, 0, 0, labels⟩
    else if wanted.contains .heredocLabel then openLabel? labels gap t
    else if wanted.contains .impliedSemicolon && startsWith rest "?>".toList then
      some ⟨.impliedSemicolon, 0, 0, labels⟩
    else none

/-! ## Scanning -/

/-- The piece at the head of a text, of those wanted. -/
def scan (wanted : List Piece) (labels : List Text) (t : Text) : Option FoundPiece :=
  let found (p : Piece) (n : Option Nat) := n.map fun n => FoundPiece.mk p 0 n labels
  if wanted.contains .stringRunBehindVariable then
    found .stringRunBehindVariable (run? .quotes true labels t)
  else if wanted.contains .stringRun then found .stringRun (run? .quotes false labels t)
  else if wanted.contains .commandRunBehindVariable then
    found .commandRunBehindVariable (run? .command true labels t)
  else if wanted.contains .commandRun then found .commandRun (run? .command false labels t)
  else if wanted.contains .heredocRunBehindVariable then
    found .heredocRunBehindVariable (run? .heredoc true labels t)
  else if wanted.contains .heredocRun then found .heredocRun (run? .heredoc false labels t)
  else if wanted.contains .nowdocRun then
    labels.getLast?.bind fun label => found .nowdocRun (nowdocRun? label t)
  else if wanted.contains .heredocClose then closeLabel? labels t
  else betweenCode? wanted labels t

end ClassOutline.Scan
