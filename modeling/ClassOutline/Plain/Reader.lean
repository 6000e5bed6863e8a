import ClassOutline.Plain.Token
/-
  ClassOutline.Plain.Reader — readers of tokens and how they combine.

  A reader takes tokens from the front of a list and gives the nodes they make, or refuses.
  Readers do not try one way and then another: what to read is told by the next tokens, so
  that a source has one reading or none. Comments before a token are given before its node.
-/

namespace ClassOutline.Plain

open ClassOutline.Tree

namespace Token

def isMark (t : Token) (text : Text) : Bool :=
  match t.lexeme with
  | .mark => t.text == text
  | _ => false

def isWord (t : Token) (w : Word) : Bool :=
  match t.lexeme with
  | .word v => v == w
  | _ => false

def isVariable (t : Token) : Bool :=
  match t.lexeme with
  | .variable => true
  | _ => false

/-- Whether a token can stand where only a name can. -/
def isNameLike (t : Token) : Bool :=
  match t.lexeme with
  | .name | .word _ => true
  | _ => false

def isFinish (t : Token) : Bool :=
  match t.lexeme with
  | .finish => true
  | _ => false

/-- The token as a leaf of some kind, behind the comments before it. -/
def nodes (t : Token) (kind : Kind) : List Node := t.before ++ [.leaf kind none t.span]

end Token

abbrev Reader := List Token → Option (List Node × List Token)

namespace Reader

/-! ## Looking ahead -/

/-- Whether the next token passes a test. -/
def next (test : Token → Bool) : List Token → Bool
  | t :: _ => test t
  | [] => false

/-- Whether the token behind the next one passes a test. -/
def second (test : Token → Bool) (ts : List Token) : Bool := next test (ts.drop 1)

def nextMark (text : Text) : List Token → Bool := next (·.isMark text)

def nextWord (w : Word) : List Token → Bool := next (·.isWord w)

def nextWordIn (ws : List Word) : List Token → Bool := next fun t => ws.any t.isWord

/-! ## Combining readers -/

def nothing : Reader := fun ts => some ([], ts)

def refuse : Reader := fun _ => none

def seq : List Reader → Reader
  | [], ts => some ([], ts)
  | r :: rs, ts =>
    match r ts with
    | some (ns, ts) => (seq rs ts).map fun (ms, ts) => (ns ++ ms, ts)
    | none => none

/-- One reader or another. -/
def either (test : List Token → Bool) (a b : Reader) : Reader := fun ts => if test ts then a ts else b ts

/-- A reader that is there only if a test passes. -/
def opt (test : List Token → Bool) (r : Reader) : Reader := either test r nothing

/-- A reader that refuses where a test does not pass. -/
def given (test : List Token → Bool) (r : Reader) : Reader := either test r refuse

/-- A reader that refuses where a test passes. -/
def except (test : List Token → Bool) (r : Reader) : Reader := either test refuse r

def manyUpTo (test : List Token → Bool) (r : Reader) : Nat → Reader
  | 0, _ => none
  | fuel + 1, ts =>
    if test ts then
      match r ts with
      | some (ns, ts) => (manyUpTo test r fuel ts).map fun (ms, ts) => (ns ++ ms, ts)
      | none => none
    else some ([], ts)

/-- A reader as long as a test passes. -/
def many (test : List Token → Bool) (r : Reader) : Reader := fun ts => manyUpTo test r (ts.length + 1) ts

/-- Makes what a reader gives the children of a new node. -/
def node (kind : Kind) (r : Reader) : Reader := fun ts =>
  (r ts).map fun (ns, ts) => (group kind none ns, ts)

def phrase (rs : List Reader) : Reader := node .phrase (seq rs)

def withRole (role : Role) (n : Node) : Node :=
  if n.isExtra || n.role.isSome then n else { n with role := some role }

/-- Gives what a reader reads a role. -/
def role (role : Role) (r : Reader) : Reader := fun ts =>
  (r ts).map fun (ns, ts) => (ns.map (withRole role), ts)

/-! ## Single tokens -/

/-- A token that passes a test, as a leaf. -/
def leaf (test : Token → Bool) (kind : Token → Kind) : Reader
  | t :: ts => if test t then some (t.nodes (kind t), ts) else none
  | [] => none

def mark (text : Text) : Reader := leaf (·.isMark text) fun _ => .token text

/-- Any mark, as it is. -/
def anyMark : Reader := leaf (fun t => t.isMark t.text) fun t => .token t.text

/-- How a word shows. -/
def wordKind (t : Token) : Kind :=
  match t.lexeme with
  | .word .var_ => .varModifier
  | _ => .token (t.text.map Scan.foldCase)

def word (w : Word) : Reader := leaf (·.isWord w) wordKind

/-- A name, or a word in the place of one. -/
def name : Reader := leaf Token.isNameLike fun _ => .name

def semicolon : Reader := mark [';']

def comma : Reader := mark [',']

/-- A variable, which is a sign and a name. -/
def simpleVariable : Reader
  | t :: ts => if t.isVariable then some (t.before ++ group .variableName none t.pieces, ts) else none
  | [] => none

/-! ## Lists -/

/-- One or more, with a mark between them. -/
def separated (separator : Text) (r : Reader) : Reader :=
  seq [r, many (nextMark separator) (seq [mark separator, r])]

/-- None or more up to a mark, with commas between them; a comma may stand behind the last. -/
def listed (close : Text) (r : Reader) : Reader :=
  opt (fun ts => !nextMark close ts)
    (seq [r, many (nextMark [',']) (seq [comma, opt (fun ts => !nextMark close ts) r])])

end Reader

/-- The readers that nest in one another: of expressions whose operators bind at some level
    or tighter, and of statements. -/
structure Nested where
  expression : Nat → Reader
  statement : Reader

end ClassOutline.Plain
