import ClassOutline.Plain.Member
/-
  ClassOutline.Plain.Expression — expressions.

  An operand is read with all that is attached to it: members, subscripts, arguments, an
  assignment or a class to test for. The operators between operands are then told by their
  levels. Casts, yields, matches and destructuring are refused.
-/

namespace ClassOutline.Plain

open ClassOutline.Tree Reader

/-! ## Operators -/

/-- How tightly an operator between two expressions binds. -/
def operatorLevel? (t : Token) : Option Nat :=
  match t.lexeme with
  | .word .or_ => some 1
  | .word .xor_ => some 2
  | .word .and_ => some 3
  | .mark =>
    match t.text with
    | ['?', '?'] => some 6
    | ['|', '|'] => some 7
    | ['&', '&'] => some 8
    | ['|'] => some 9
    | ['^'] => some 10
    | ['&'] => some 11
    | ['=', '='] | ['!', '='] | ['<', '>'] | ['=', '=', '='] | ['!', '=', '='] | ['<', '=', '>'] =>
      some 12
    | ['<'] | ['>'] | ['<', '='] | ['>', '='] => some 13
    | ['.'] => some 14
    | ['<', '<'] | ['>', '>'] => some 15
    | ['+'] | ['-'] => some 16
    | ['*'] | ['/'] | ['%'] => some 17
    | ['*', '*'] => some 18
    | _ => none
  | _ => none

/-- The least level on the right of an operator: the same again where it groups to the
    right, and the next one where it groups to the left. -/
def rightLevel (level : Nat) : Nat := if level == 6 || level == 18 then level else level + 1

def operator : Reader := leaf (fun t => (operatorLevel? t).isSome) fun t =>
  match t.lexeme with
  | .mark => .token t.text
  | _ => wordKind t

def augmentations : List Text :=
  [['+', '='], ['-', '='], ['*', '='], ['/', '='], ['.', '='], ['%', '='], ['&', '='], ['|', '='],
    ['^', '='], ['*', '*', '='], ['<', '<', '='], ['>', '>', '='], ['?', '?', '=']]

def nextAugmentation : List Token → Bool := next fun t => augmentations.any t.isMark

def nextUpdate : List Token → Bool := next fun t => t.isMark ['+', '+'] || t.isMark ['-', '-']

/-! ## Chains -/

/-- Nodes read so far, whether they can be assigned to, and the tokens left. -/
structure Chain where
  nodes : List Node
  isPlace : Bool
  rest : List Token

/-- Goes on behind some nodes with a reader and puts both in a phrase. -/
def attach (left : List Node) (r : Reader) (ts : List Token) : Option (List Node × List Token) :=
  (r ts).map fun (ns, ts) => (group .phrase none (left ++ ns), ts)

def memberName (n : Nested) : Reader :=
  either (next Token.isVariable) simpleVariable
    (either (nextMark ['{']) (seq [mark ['{'], n.expression 0, mark ['}']])
      (either (next isRelative) (relative .name) name))

/-- A member, and the arguments it is called with. -/
def access (n : Nested) (operator : Text) (member : Reader) : Reader :=
  seq [mark operator, member, opt (nextMark ['(']) (arguments n)]

/-- Whether what stands behind a double colon is a constant. -/
def isConstant (ts : List Token) : Bool :=
  !second Token.isVariable ts && !next (·.isMark ['(']) (ts.drop 2)

def chainFrom (n : Nested) : Nat → Chain → Option Chain
  | 0, _ => none
  | fuel + 1, c =>
    let go (isPlace : Bool) (r : Reader) : Option Chain :=
      match attach c.nodes r c.rest with
      | some (ns, ts) => chainFrom n fuel ⟨ns, isPlace, ts⟩
      | none => none
    if nextMark ['-', '>'] c.rest then go true (access n ['-', '>'] (memberName n))
    else if nextMark ['?', '-', '>'] c.rest then go true (access n ['?', '-', '>'] (memberName n))
    else if nextMark ['['] c.rest then
      go true (seq [mark ['['], opt (fun ts => !nextMark [']'] ts) (n.expression 0), mark [']']])
    else if nextMark ['('] c.rest then go true (arguments n)
    else if nextMark [':', ':'] c.rest then
      go (!isConstant c.rest)
        (access n [':', ':'] (except (nextMark ['{']) (memberName n)))
    else some c

/-- What stands at the front of a chain and what is attached to it. -/
def chain (n : Nested) (isPlace : Bool) (first : Reader) (ts : List Token) : Option Chain :=
  match first ts with
  | some (ns, rest) => chainFrom n (rest.length + 1) ⟨ns, isPlace, rest⟩
  | none => none

/-! ## Operands -/

/-- Names that make a cast of what they stand alone in parentheses. -/
def castNames : List Text :=
  [['a', 'r', 'r', 'a', 'y'], ['b', 'i', 'n', 'a', 'r', 'y'], ['b', 'o', 'o', 'l'],
    ['b', 'o', 'o', 'l', 'e', 'a', 'n'], ['d', 'o', 'u', 'b', 'l', 'e'], ['f', 'l', 'o', 'a', 't'],
    ['i', 'n', 't'], ['i', 'n', 't', 'e', 'g', 'e', 'r'], ['o', 'b', 'j', 'e', 'c', 't'],
    ['r', 'e', 'a', 'l'], ['s', 't', 'r', 'i', 'n', 'g'], ['u', 'n', 's', 'e', 't']]

def isCastName (t : Token) : Bool := t.isNameLike && castNames.contains (t.text.map Scan.foldCase)

def parenthesized (n : Nested) : Reader :=
  except (second isCastName) (phrase [mark ['('], n.expression 0, mark [')']])

/-- Something assignable behind an ampersand. -/
def byReference (n : Nested) : Reader := fun ts =>
  match mark ['&'] ts with
  | some (ns, ts) =>
    match chain n true simpleVariable ts with
    | some c => if c.isPlace then some (group .phrase none (ns ++ c.nodes), c.rest) else none
    | none => none
  | none => none

def elementValue (n : Nested) : Reader := either (nextMark ['&']) (byReference n) (n.expression 0)

def element (n : Nested) : Reader :=
  phrase [either (nextMark dots) (phrase [mark dots, n.expression 0])
    (seq [elementValue n, opt (nextMark ['=', '>']) (seq [mark ['=', '>'], elementValue n])])]

def array_ (n : Nested) : Reader :=
  either (nextMark ['[']) (phrase [mark ['['], listed [']'] (element n), mark [']']])
    (phrase [word .array_, mark ['('], listed [')'] (element n), mark [')']])

def capture : Reader := either (nextMark ['&']) (phrase [mark ['&'], simpleVariable]) simpleVariable

def captures : Reader :=
  opt (nextWord .use_)
    (phrase [word .use_, mark ['('], except (nextMark [')']) (listed [')'] capture), mark [')']])

/-- A function without a name. -/
def closure (n : Nested) : Reader :=
  phrase [opt (nextWord .static_) (node .staticModifier (word .static_)),
    either (nextWord .fn_)
      (seq [word .fn_, reference, parameters n, returnType, mark ['=', '>'], n.expression 0])
      (seq [word .function_, reference, parameters n, captures, returnType, compound n])]

/-- A class named where one is made or tested for. -/
def classReference : Reader :=
  either (next Token.isVariable)
    (except (second fun t => t.isMark ['-', '>'] || t.isMark ['['] || t.isMark [':', ':'] ||
      t.isMark ['?', '-', '>']) simpleVariable) className

def anonymousClass (n : Nested) : Reader :=
  phrase [word .class_, opt (nextMark ['(']) (arguments n), extending, implementing, classBody n]

def creation (n : Nested) : Reader :=
  phrase [word .new_, either (nextWord .class_) (anonymousClass n)
    (seq [classReference, opt (nextMark ['(']) (arguments n)])]

/-- Gives a reader's nodes as a chain that nothing is attached to. -/
def alone (r : Reader) (ts : List Token) : Option Chain := (r ts).map fun (ns, ts) => ⟨ns, false, ts⟩

def stringReader : Reader
  | t :: ts => some (t.before ++ group .phrase none t.pieces, ts)
  | [] => none

/-- The operands that a class test or an operator may follow and that begin with a word. -/
def wordOperand (n : Nested) (w : Word) (ts : List Token) : Option Chain :=
  match w with
  | .true_ | .false_ | .null_ => alone (leaf Token.isNameLike fun _ => .phrase) ts
  | .array_ => given (second (·.isMark ['('])) (array_ n) ts |>.map fun (ns, ts) => ⟨ns, false, ts⟩
  | .new_ => alone (creation n) ts
  | .function_ | .fn_ => alone (closure n) ts
  | .static_ =>
    if second (fun t => t.isWord .function_ || t.isWord .fn_) ts then alone (closure n) ts
    else if second (·.isMark [':', ':']) ts then chain n false (relative .phrase) ts
    else none
  | .self_ | .parent_ =>
    if second (·.isMark [':', ':']) ts then chain n false (relative .phrase) ts else none
  | _ => none

/-- Something that can be copied. -/
def primary (n : Nested) (ts : List Token) : Option Chain :=
  match ts with
  | t :: _ =>
    match t.lexeme with
    | .variable => chain n true simpleVariable ts
    | .name => chain n false path ts
    | .integer => alone (leaf (fun _ => true) fun _ => integerKind) ts
    | .float => alone (leaf (fun _ => true) fun _ => floatKind) ts
    | .string => alone stringReader ts
    | .word w => wordOperand n w ts
    | .mark =>
      if t.isMark ['('] then chain n false (parenthesized n) ts
      else if t.isMark ['['] then alone (array_ n) ts
      else if t.isMark ['\\'] then chain n false path ts
      else none
    | .finish => none
  | [] => none

def instanceTest (c : Chain) : Option (List Node × List Token) :=
  if nextWord .instanceof_ c.rest then attach c.nodes (seq [word .instanceof_, classReference]) c.rest
  else some (c.nodes, c.rest)

/-- What may follow something at most once. -/
def settle (n : Nested) (c : Chain) : Option (List Node × List Token) :=
  if c.isPlace && nextUpdate c.rest then
    match attach c.nodes anyMark c.rest with
    | some (ns, ts) => instanceTest ⟨ns, false, ts⟩
    | none => none
  else if c.isPlace && nextMark ['='] c.rest then
    attach c.nodes (seq [mark ['='], opt (nextMark ['&']) (mark ['&']), n.expression 5]) c.rest
  else if c.isPlace && nextAugmentation c.rest then
    attach c.nodes (seq [anyMark, n.expression 5]) c.rest
  else instanceTest c

/-- A sign before something assignable. -/
def updateBefore (n : Nested) : Reader := fun ts =>
  match anyMark ts with
  | some (ns, ts) =>
    match chain n true simpleVariable ts with
    | some c => if c.isPlace then some (group .phrase none (ns ++ c.nodes), c.rest) else none
    | none => none
  | none => none

def clone (n : Nested) : Reader := fun ts =>
  match word .clone_ ts with
  | some (ns, ts) => (primary n ts).map fun c => (group .phrase none (ns ++ c.nodes), c.rest)
  | none => none

/-- The words that take a whole expression. -/
def leadingWords : List Word :=
  [.print_, .throw_, .include_, .includeOnce, .require_, .requireOnce]

def operand (n : Nested) : Reader := fun ts =>
  if next (fun t => t.isMark ['!'] || t.isMark ['-'] || t.isMark ['+'] || t.isMark ['~']) ts then
    phrase [anyMark, n.expression 20] ts
  else if nextMark ['@'] ts then phrase [anyMark, n.expression 22] ts
  else if nextUpdate ts then (updateBefore n ts).bind fun (ns, ts) => instanceTest ⟨ns, false, ts⟩
  else if nextWord .clone_ ts then (clone n ts).bind fun (ns, ts) => instanceTest ⟨ns, false, ts⟩
  else if nextWordIn leadingWords ts then
    phrase [leaf (fun _ => true) wordKind, n.expression 0] ts
  else (primary n ts).bind (settle n)

/-! ## Operators between operands -/

def conditionRest (n : Nested) : Reader :=
  seq [mark ['?'], opt (fun ts => !nextMark [':'] ts) (n.expression 0), mark [':'], n.expression 6]

def operatorsFrom (n : Nested) (level : Nat) : Nat → List Node → Reader
  | 0, _, _ => none
  | fuel + 1, left, ts =>
    match ts.head?.bind operatorLevel? with
    | some l =>
      if level ≤ l then
        match attach left (seq [operator, n.expression (rightLevel l)]) ts with
        | some (ns, ts) => operatorsFrom n level fuel ns ts
        | none => none
      else some (left, ts)
    | none =>
      if level ≤ 5 && nextMark ['?'] ts then
        match attach left (conditionRest n) ts with
        | some (ns, ts) => operatorsFrom n level fuel ns ts
        | none => none
      else some (left, ts)

/-- An expression whose operators bind at a level or tighter. -/
def expressionAt (n : Nested) (level : Nat) : Reader := fun ts =>
  match operand n ts with
  | some (ns, ts) => operatorsFrom n level (ts.length + 1) ns ts
  | none => none

end ClassOutline.Plain
