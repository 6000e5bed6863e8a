import ClassOutline.Scan.Extent
/-
  ClassOutline.Scan.Search — the next token of a text.

  Of the tokens looked for, the one of highest rank is found, among these the longest, then
  the most exact, then the first. Separators before a token are skipped, unless the token
  must stand right behind the one before it. Where line breaks are tokens they are not
  skipped; a token right behind a line break takes it along.
-/

namespace ClassOutline.Scan

open ClassOutline.Grammar ClassOutline.Text

/-- A terminal found in a text, between two distances from the text's beginning. -/
structure Found where
  number : Nat
  terminal : Terminal
  first : Nat
  stop : Nat
  deriving DecidableEq, Repr

/-- Whether one find is preferred to an earlier one. -/
def Found.beats (a b : Found) : Bool :=
  if a.terminal.rank != b.terminal.rank then b.terminal.rank < a.terminal.rank
  else if a.stop != b.stop then b.stop < a.stop
  else b.terminal.exactness < a.terminal.exactness

def better (best : Option Found) (f : Found) : Option Found :=
  match best with
  | some b => if f.beats b then some f else best
  | none => some f

/-- The best of the terminals whose text stands at `place`, with finds that begin at `first`. -/
def findAt (text : Text) (first place : Nat) (best : Option Found) (ts : List (Nat × Terminal)) :
    Option Found :=
  let text := text.drop place
  ts.foldl (fun best (n, t) =>
    match extent? t text with
    | some k => better best ⟨n, t, first, place + k⟩
    | none => best) best

def isLineBreakToken : Terminal → Bool
  | .shape .newline | .shape .carriageReturn => true
  | _ => false

def isTextRun (t : Terminal) : Bool := t == .shape .textRun

/-- The terminals to look for, by how they are looked for. -/
structure Vocabulary where
  adjoined : List (Nat × Terminal)
  textRuns : List (Nat × Terminal)
  lineBreaks : List (Nat × Terminal)
  others : List (Nat × Terminal)
  /-- Whether the end of the source is looked for. -/
  atEnd : Bool

def Vocabulary.of (ts : List (Nat × Terminal)) (atEnd : Bool) : Vocabulary :=
  let (adjoined, ts) := ts.partition (·.2.isAdjoined)
  let (textRuns, ts) := ts.partition (isTextRun ·.2)
  let (lineBreaks, others) := ts.partition (isLineBreakToken ·.2)
  ⟨adjoined, textRuns, lineBreaks, others, atEnd⟩

def lengthWhile (p : Char → Bool) (t : Text) : Nat := (t.takeWhile p).length

/-- Searches where line breaks are separators. -/
def searchPlain (v : Vocabulary) (text : Text) : Option Found :=
  let gap := lengthWhile isSeparator text
  let blanks := lengthWhile isCodeBlank text
  findAt text gap gap (findAt text blanks blanks (findAt text 0 0 none v.adjoined) v.textRuns)
    v.others

/-- Searches where line breaks are tokens. -/
def searchLines (v : Vocabulary) (text : Text) : Option Found :=
  let gap := lengthWhile (fun c => isSeparator c && !isLineBreak c) text
  match text.drop gap with
  | [] => none
  | c :: r =>
    if isLineBreak c then
      let best := findAt text gap gap none v.lineBreaks
      if (r.head?.map isSeparator).getD true then best else findAt text gap (gap + 1) best v.others
    else findAt text gap gap (findAt text 0 0 none v.adjoined) v.others

/-- The next token; the end of the text is found behind separators only. -/
def search (v : Vocabulary) (text : Text) : Option Found :=
  match if v.lineBreaks.isEmpty then searchPlain v text else searchLines v text with
  | some f => some f
  | none =>
    if v.atEnd && text.all isSeparator then some ⟨0, .finish, text.length, text.length⟩ else none

end ClassOutline.Scan
