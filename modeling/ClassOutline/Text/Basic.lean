/-
  ClassOutline.Text.Basic — source text as a list of characters.

  Everything the library reads or writes is a `Text`. Columns and lengths that leave the
  library are counted in UTF-8 bytes (`width`); a cut at a byte position exists only on a
  character boundary (`dropWidth?`, `takeWidth?`). Two ways to see lines: `splitLines`
  cuts at every newline and loses nothing, `lines` is the reader's view, in which a final
  newline opens no line and a carriage return before a newline belongs to it.
-/

namespace ClassOutline

abbrev Text := List Char

namespace Text

/-! ## Case -/

/-- ASCII letters in lower case; every other character unchanged. -/
def lower (t : Text) : Text := t.map Char.toLower

/-- Equality of names, ignoring the case of ASCII letters. -/
def sameName (a b : Text) : Bool := lower a == lower b

/-! ## Ends -/

def startsWith (t head : Text) : Bool := head.isPrefixOf t

/-- What follows `head`, if the text starts with it. -/
def after? (head t : Text) : Option Text := head.isPrefixOf? t

/-- What precedes `tail`, if the text ends with it. -/
def before? (tail t : Text) : Option Text := tail.isSuffixOf? t

def dropHead (head t : Text) : Text := (after? head t).getD t

def dropTail (tail t : Text) : Text := (before? tail t).getD t

def trimStart (p : Char → Bool) (t : Text) : Text := t.dropWhile p

def trimEnd (p : Char → Bool) (t : Text) : Text := (t.reverse.dropWhile p).reverse

def trim (p : Char → Bool) (t : Text) : Text := trimEnd p (trimStart p t)

/-! ## Search -/

/-- The text before the first occurrence of `part`, if there is one. -/
def beforeFirst? (part : Text) : Text → Option Text
  | [] => if part.isEmpty then some [] else none
  | c :: r => if startsWith (c :: r) part then some [] else (beforeFirst? part r).map (c :: ·)

def contains (part t : Text) : Bool := (beforeFirst? part t).isSome

/-! ## Lines -/

/-- The pieces between newlines; a text without newlines is its only piece. -/
def splitLines : Text → List Text
  | [] => [[]]
  | '\n' :: r => [] :: splitLines r
  | c :: r =>
    match splitLines r with
    | [] => [[c]]
    | l :: ls => (c :: l) :: ls

def dropReturn (line : Text) : Text := dropTail ['\r'] line

/-- The lines a reader sees: a newline ends a line, together with a carriage return just
    before it, and nothing after the last newline is no line. -/
def lines (t : Text) : List Text :=
  let pieces := splitLines t
  let rest := pieces.getLast?.getD []
  pieces.dropLast.map dropReturn ++ if rest.isEmpty then [] else [rest]

def join (sep : Text) (parts : List Text) : Text := sep.intercalate parts

def joinLines (ls : List Text) : Text := join ['\n'] ls

/-! ## Bytes -/

/-- Length in UTF-8 bytes. -/
def width : Text → Nat
  | [] => 0
  | c :: r => c.utf8Size + width r

/-- The text from byte `n` on; `none` inside a character or past the end. -/
def dropWidth? : Nat → Text → Option Text
  | 0, t => some t
  | _ + 1, [] => none
  | n + 1, c :: r => if c.utf8Size ≤ n + 1 then dropWidth? (n + 1 - c.utf8Size) r else none

/-- The first `n` bytes; `none` inside a character or past the end. -/
def takeWidth? : Nat → Text → Option Text
  | 0, _ => some []
  | _ + 1, [] => none
  | n + 1, c :: r =>
    if c.utf8Size ≤ n + 1 then (takeWidth? (n + 1 - c.utf8Size) r).map (c :: ·) else none

end Text
end ClassOutline
