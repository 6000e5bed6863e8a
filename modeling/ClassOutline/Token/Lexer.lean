import ClassOutline.Token.Extent
/-
  ClassOutline.Token.Lexer — cutting a source into tokens.

  `tokenize` never fails and loses nothing: every step takes at least one character, and
  what it does not understand is an `unknown` token. Outside the tags everything up to the
  next `<?` is one token; inside, `codeLexeme` decides by the first characters. The state
  remembers whether code is being read and the text of the last token that was not trivia.
-/

namespace ClassOutline.Token

open ClassOutline.Text

/-- The kind of the next token and its length in characters. -/
structure Lexeme where
  kind : Kind
  length : Nat
  deriving DecidableEq, Repr

/-! ## Outside code -/

/-- `<?php` in any case, `<?=`, or a bare `<?`. -/
def openTagLength (t : Text) : Nat :=
  if lower (t.take 5) == "<?php".toList then 5
  else if startsWith t "<?=".toList then 3
  else 2

def htmlLexeme (t : Text) : Lexeme :=
  if startsWith t "<?".toList then ⟨.openTag, openTagLength t⟩
  else ⟨.inlineHtml, ((beforeFirst? "<?".toList t).getD t).length⟩

/-! ## Inside code -/

/-- A closing tag swallows one line end behind it. -/
def closeTagLength (t : Text) : Nat := 2 + (lineEndLength? (t.drop 2)).getD 0

/-- Words, punctuation, and characters that are neither. -/
def plainLexeme (previous : Option Text) (c : Char) (t : Text) : Lexeme :=
  if isNameStart c then ⟨.ofWord previous (t.takeWhile isNameChar), nameLength t⟩
  else
    match compoundLength? t with
    | some n => ⟨.punct, n⟩
    | none => ⟨if isPunctChar c then .punct else .unknown, 1⟩

/-- The next token of code that starts with `c` and goes on with `r`. -/
def codeLexeme (previous : Option Text) (c : Char) (r : Text) : Lexeme :=
  let t := c :: r
  if isCodeBlank c then ⟨.whitespace, (t.takeWhile isCodeBlank).length⟩
  else if startsWith t "?>".toList then ⟨.closeTag, closeTagLength t⟩
  else if startsWith t "#[".toList then ⟨.punct, 2⟩
  else if c == '#' || startsWith t "//".toList then ⟨.comment, lineCommentLength t⟩
  else if startsWith t "/*".toList then
    ⟨if isDocComment t then .docComment else .comment, blockCommentLength t⟩
  else if c == '\'' || c == '"' || c == '`' then ⟨.stringLiteral, quotedLength '\\' t⟩
  else if startsWith t "<<<".toList then
    match heredocLength? t with
    | some n => ⟨.stringLiteral, n⟩
    | none => plainLexeme previous c t
  else if c == '$' && r.head?.any isNameStart then ⟨.var, 1 + nameLength r⟩
  else if c.isDigit || (c == '.' && r.head?.any Char.isDigit) then ⟨.numberLiteral, numberLength t⟩
  else if c == '\\' then ⟨.nsSeparator, 1⟩
  else plainLexeme previous c t

/-! ## The token stream -/

structure LexState where
  inCode : Bool
  line : Nat
  /-- The text of the last token that was not trivia. -/
  previous : Option Text
  deriving DecidableEq, Repr

def LexState.start : LexState := ⟨false, 1, none⟩

def lexeme (s : LexState) (c : Char) (r : Text) : Lexeme :=
  if s.inCode then codeLexeme s.previous c r else htmlLexeme (c :: r)

/-- Open and close tags switch between text and code. -/
def Kind.inCodeAfter (inCode : Bool) : Kind → Bool
  | .openTag => true
  | .closeTag => false
  | _ => inCode

def LexState.next (s : LexState) (tok : Token) : LexState where
  inCode := tok.kind.inCodeAfter s.inCode
  line := s.line + tok.text.count '\n'
  previous := if tok.kind.isTrivia then s.previous else some tok.text

/-- At most `fuel` tokens of the text. -/
def lexFrom : Nat → LexState → Text → List Token
  | 0, _, _ => []
  | _ + 1, _, [] => []
  | fuel + 1, s, c :: r =>
    let l := lexeme s c r
    let tok : Token := ⟨l.kind, (c :: r).take l.length, s.line⟩
    tok :: lexFrom fuel (s.next tok) ((c :: r).drop l.length)

/-- The tokens of a source. Each takes a character at least, so the source's length bounds
    their number. -/
def tokenize (source : Text) : List Token := lexFrom source.length .start source

end ClassOutline.Token
