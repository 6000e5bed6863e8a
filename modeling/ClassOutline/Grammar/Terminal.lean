import ClassOutline.Tree.Node
/-
  ClassOutline.Grammar.Terminal — the tokens a grammar is written in.

  Most tokens are an exact text or a word in any case. The rest have a shape of their own,
  or are pieces of strings and heredocs, whose extent depends on what was opened before.
  A token that shows in the tree has a kind; the others only hold a rule together.
-/

namespace ClassOutline.Grammar

open ClassOutline.Tree (Kind)

/-- Tokens with a shape of their own. -/
inductive Shape where
  /-- `<?`, `<?php` or `<?=`. -/
  | openTag
  | closeTag
  /-- A `<` of inline text that opens no code. -/
  | textAngle
  /-- Inline text up to the next `<`. -/
  | textRun
  | float
  | integer
  | truth
  | escape
  /-- What stands between apostrophes, up to an escape. -/
  | quotedRun
  /-- A backslash or an apostrophe that is escaped between apostrophes. -/
  | quotedEscape
  /-- A quotation mark with the letter of binary strings before it. -/
  | binaryQuote
  | binaryApostrophe
  | newline
  | carriageReturn
  | name
  | comment
  deriving DecidableEq, Hashable, Repr

/-- Pieces whose extent depends on the heredocs that are open. -/
inductive Piece where
  /-- Nothing, before a closing tag that ends a statement. -/
  | impliedSemicolon
  | stringRun
  | stringRunBehindVariable
  | commandRun
  | commandRunBehindVariable
  | heredocRun
  | heredocRunBehindVariable
  /-- Nothing, at the end of the source. -/
  | endOfText
  | heredocLabel
  | heredocClose
  | nowdocRun
  deriving DecidableEq, Hashable, Repr

inductive Terminal where
  /-- The end of the source. -/
  | finish
  /-- The end of an interlude, which may stand between any two tokens. -/
  | interludeEnd
  | mark (text : String)
  /-- An exact text right behind the token before it. -/
  | adjoined (text : String)
  /-- A word in any case. -/
  | word (text : String)
  | shape (s : Shape)
  | piece (p : Piece)
  deriving DecidableEq, Hashable, Repr

namespace Terminal

/-- The names of types in casts are words that do not show. -/
def silentWords : List String :=
  ["array", "binary", "bool", "boolean", "double", "float", "int", "integer", "object", "real",
    "string", "unset", "null"]

def shapeKind? : Shape → Option Kind
  | .openTag => some .openTag
  | .closeTag => some (.lexeme "php_end_tag".toList)
  | .float => some (.lexeme "float".toList)
  | .integer => some (.lexeme "integer".toList)
  | .escape | .quotedEscape => some (.lexeme "escape_sequence".toList)
  | .quotedRun => some (.lexeme "string_content".toList)
  | .name => some .name
  | .comment => some .comment
  | .textAngle | .textRun | .truth | .binaryQuote | .binaryApostrophe | .newline
  | .carriageReturn => none

def pieceKind? : Piece → Option Kind
  | .impliedSemicolon | .endOfText => none
  | .heredocLabel => some (.lexeme "heredoc_start".toList)
  | .heredocClose => some (.lexeme "heredoc_end".toList)
  | .nowdocRun => some (.lexeme "nowdoc_string".toList)
  | _ => some (.lexeme "string_content".toList)

/-- How a token shows in the tree. -/
def kind? : Terminal → Option Kind
  | .finish | .interludeEnd => none
  | .mark "never" => some (.lexeme "bottom_type".toList)
  | .mark "\\u" => some (.lexeme "string_content".toList)
  | .mark text | .adjoined text => some (.token text.toList)
  | .word "var" => some .varModifier
  | .word text => if silentWords.contains text then none else some (.token text.toList)
  | .shape s => shapeKind? s
  | .piece p => pieceKind? p

/-! ## Precedence among tokens that match at one place -/

/-- A token of higher rank is read even where another one is longer. -/
def rank : Terminal → Int
  | .shape .textAngle => -1
  | .shape .textRun | .shape .quotedRun => 1
  | _ => 0

/-- Of tokens with the same extent an exact text goes before a pattern, the more so if it
    must stand right behind the token before it, and a name goes last. -/
def exactness : Terminal → Nat
  | .shape .name => 0
  | .adjoined _ => 4
  | .mark _ | .shape .closeTag => 3
  | .shape .escape | .shape .quotedRun => 2
  | _ => 1

/-- Whether a token must stand right behind the one before it. -/
def isAdjoined : Terminal → Bool
  | .adjoined _ | .shape .escape | .shape .quotedRun => true
  | _ => false

/-! ## Words -/

/-- Words that are told from names by the text around them, not by looking them up. -/
def separateWords : List String :=
  ["array", "bool", "float", "int", "string", "unset", "null"]

/-- The text of a token that is read as a name first and then looked up, and whether its
    case is free. -/
def keyword? : Terminal → Option (String × Bool)
  | .mark text => if text.front.isAlpha then some (text, false) else none
  | .word text => if separateWords.contains text then none else some (text, true)
  | _ => none

/-- The end of the source, the end of an interlude and the pieces are not found by their
    text alone. -/
def isLexical : Terminal → Bool
  | .finish | .interludeEnd | .piece _ => false
  | _ => true

end Terminal
end ClassOutline.Grammar
