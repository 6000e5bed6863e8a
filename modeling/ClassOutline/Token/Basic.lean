import ClassOutline.Text.Blank
/-
  ClassOutline.Token.Basic — the tokens of a source file.

  A token is a kind, its text and the 1-based line of its first character. The character
  classes decide on single characters: every character outside ASCII may stand in a name.
  `Kind.ofWord` sorts words into names and reserved words, ignoring case; a word straight
  after a member or namespace operator is always a name.
-/

namespace ClassOutline

namespace Token

inductive Kind where
  /-- Text outside the code tags. -/
  | inlineHtml
  | openTag
  | closeTag
  | whitespace
  | comment
  | docComment
  | var
  | identifier
  | nsSeparator
  | namespaceKeyword
  | classKeyword
  /-- A reserved word other than `namespace` and `class`. -/
  | keyword
  | stringLiteral
  | numberLiteral
  | punct
  | unknown
  deriving DecidableEq, Repr

/-- White space and comments carry no meaning of their own. -/
def Kind.isTrivia : Kind → Bool
  | .whitespace | .comment | .docComment => true
  | _ => false

end Token

structure Token where
  kind : Token.Kind
  text : Text
  line : Nat
  deriving DecidableEq, Repr

namespace Token

/-! ## Characters -/

def isDigit (c : Char) : Bool := c.isDigit

def isNameStart (c : Char) : Bool := c.isAlpha || c == '_' || 0x80 ≤ c.toNat

def isNameChar (c : Char) : Bool := isNameStart c || c.isDigit

/-- The ASCII characters that are neither letters, digits, blanks nor controls. -/
def isPunctChar (c : Char) : Bool :=
  0x21 ≤ c.toNat && c.toNat ≤ 0x7e && !c.isAlphanum

/-! ## Words -/

/-- Reserved words other than `namespace` and `class`. -/
def reserved : List Text :=
  ["abstract".toList, "and".toList, "as".toList, "break".toList, "case".toList, "catch".toList,
   "clone".toList, "const".toList, "continue".toList, "declare".toList, "default".toList,
   "die".toList, "do".toList, "echo".toList, "else".toList, "elseif".toList, "empty".toList,
   "enddeclare".toList, "endfor".toList, "endforeach".toList, "endif".toList,
   "endswitch".toList, "endwhile".toList, "eval".toList, "exit".toList, "extends".toList,
   "final".toList, "finally".toList, "fn".toList, "for".toList, "foreach".toList,
   "function".toList, "global".toList, "goto".toList, "if".toList, "implements".toList,
   "include".toList, "include_once".toList, "instanceof".toList, "insteadof".toList,
   "interface".toList, "isset".toList, "list".toList, "match".toList, "new".toList,
   "or".toList, "print".toList, "private".toList, "protected".toList, "public".toList,
   "readonly".toList, "require".toList, "require_once".toList, "return".toList,
   "static".toList, "switch".toList, "throw".toList, "trait".toList, "try".toList,
   "unset".toList, "use".toList, "var".toList, "while".toList, "xor".toList, "yield".toList]

/-- The operators after which a word is a member or segment name. -/
def nameOperators : List Text := ["->".toList, "?->".toList, "::".toList, "\\".toList]

/-- The kind of a word, given the text of the last token that was not trivia. -/
def Kind.ofWord (previous : Option Text) (word : Text) : Kind :=
  if previous.any nameOperators.contains then .identifier
  else
    let w := word.lower
    if w == "namespace".toList then .namespaceKeyword
    else if w == "class".toList then .classKeyword
    else if reserved.contains w then .keyword
    else .identifier

end Token
end ClassOutline
