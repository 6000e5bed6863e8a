import ClassOutline.Plain.Expression
/-
  ClassOutline.Plain.Statement — statements and whole sources.

  A statement is told by its first word. Blocks behind a colon, labels and jumps to them are
  refused, and so is whatever could leave it open which condition an `else` belongs to.
-/

namespace ClassOutline.Plain

open ClassOutline.Tree Reader

/-! ## Namespaces and imports -/

def namespacePath : Reader := fun ts =>
  node .namespaceName (seq [name, segments (segmentCount ts.length (ts.drop 1))]) ts

def namespaceDefinition (n : Nested) : Reader :=
  node .namespaceDefinition (seq [word .namespace_, either (nextMark ['{']) (role .body (compound n))
    (seq [role .name namespacePath, either (nextMark ['{']) (role .body (compound n)) semicolon])])

def importType : Reader :=
  opt (nextWordIn [.function_, .const_]) (leaf Token.isNameLike wordKind)

def aliased : Reader := opt (nextWord .as_) (seq [word .as_, role .localName name])

def useClause : Reader := node .useClause (seq [importType, className, aliased])

/-- Whether a brace comes behind a path and its last separator. -/
def nextGroup (ts : List Token) : Bool :=
  let ts := if nextWordIn [.function_, .const_] ts then ts.drop 1 else ts
  let ts := if nextSeparator ts then ts.drop 1 else ts
  let behind := ts.drop (1 + 2 * segmentCount ts.length (ts.drop 1))
  nextSeparator behind && second (·.isMark ['{']) behind

/-- The path before a group. -/
def groupPath : Reader := fun ts =>
  let behind := if nextSeparator ts then ts.drop 2 else ts.drop 1
  node .namespaceName (seq [opt nextSeparator (mark ['\\']), given (next isProperName) name,
    segments (segmentCount ts.length behind)]) ts

def useGroup : Reader := node .useGroup (seq [mark ['{'], separated [','] useClause, mark ['}']])

def useDeclaration : Reader :=
  node .useDeclaration (seq [word .use_,
    either nextGroup (seq [importType, groupPath, mark ['\\'], useGroup]) (separated [','] useClause),
    semicolon])

/-! ## Control flow -/

/-- Expressions with commas, each in one phrase with all that follow. -/
def sequenceUpTo (n : Nested) : Nat → Reader
  | 0, _ => none
  | fuel + 1, ts =>
    match n.expression 0 ts with
    | some (ns, ts) =>
      if nextMark [','] ts then attach ns (seq [comma, sequenceUpTo n fuel]) ts else some (ns, ts)
    | none => none

def sequence (n : Nested) : Reader := fun ts => sequenceUpTo n (ts.length + 1) ts

/-- A body that cannot be taken for a lone semicolon. -/
def loopBody (n : Nested) : Reader := except (fun ts => nextMark [';'] ts || nextMark [':'] ts) n.statement

/-- Whether a statement comes next that holds no condition which an `else` could belong to. -/
def nextClosed (ts : List Token) : Bool :=
  nextMark ['{'] ts || next Token.isVariable ts ||
    nextWordIn [.return_, .break_, .continue_, .echo_, .throw_] ts

def ifBody (n : Nested) : Reader := given nextClosed n.statement

def ifStatement (n : Nested) : Reader :=
  phrase [word .if_, parenthesized n, ifBody n,
    many (nextWord .elseif_) (phrase [word .elseif_, parenthesized n, ifBody n]),
    opt (nextWord .else_) (phrase [word .else_, loopBody n])]

def caseStatements (n : Nested) : Reader :=
  many (fun ts => !nextMark ['}'] ts && !nextWordIn [.case_, .default_] ts) n.statement

def switchCase (n : Nested) : Reader :=
  either (nextWord .case_)
    (phrase [word .case_, n.expression 0, mark [':'], caseStatements n])
    (phrase [word .default_, mark [':'], caseStatements n])

def switchStatement (n : Nested) : Reader :=
  phrase [word .switch_, parenthesized n,
    phrase [mark ['{'], many (fun ts => !nextMark ['}'] ts) (switchCase n), mark ['}']]]

def forStatement (n : Nested) : Reader :=
  phrase [word .for_, mark ['('], opt (fun ts => !nextMark [';'] ts) (sequence n), semicolon,
    opt (fun ts => !nextMark [';'] ts) (sequence n), semicolon,
    opt (fun ts => !nextMark [')'] ts) (sequence n), mark [')'], loopBody n]

/-- What an element of a loop goes to; destructuring is refused. -/
def loopVariable (n : Nested) : Reader :=
  either (nextMark ['&']) (byReference n) (except (nextMark ['[']) (n.expression 0))

def loopTarget (n : Nested) : Reader := fun ts =>
  match loopVariable n ts with
  | some (ns, rest) =>
    if nextMark ['=', '>'] rest then
      if nextMark ['&'] ts then none
      else attach ns (seq [mark ['=', '>'], loopVariable n]) rest
    else some (ns, rest)
  | none => none

def foreachStatement (n : Nested) : Reader :=
  phrase [word .foreach_, mark ['('], n.expression 0, word .as_, loopTarget n, mark [')'], loopBody n]

def whileStatement (n : Nested) : Reader := phrase [word .while_, parenthesized n, loopBody n]

def doStatement (n : Nested) : Reader :=
  phrase [word .do_, loopBody n, word .while_, parenthesized n, semicolon]

def catchClause (n : Nested) : Reader :=
  phrase [word .catch_, mark ['('], node .phrase (separated ['|'] (given nextPath (phrase [path]))),
    opt (next Token.isVariable) simpleVariable, mark [')'], compound n]

def finallyClause (n : Nested) : Reader := phrase [word .finally_, compound n]

def handler (n : Nested) : Reader := either (nextWord .catch_) (catchClause n) (finallyClause n)

def tryStatement (n : Nested) : Reader :=
  phrase [word .try_, compound n, handler n, many (nextWordIn [.catch_, .finally_]) (handler n)]

/-! ## Simple statements -/

def directives : List Text :=
  [['t', 'i', 'c', 'k', 's'], ['e', 'n', 'c', 'o', 'd', 'i', 'n', 'g'],
    ['s', 't', 'r', 'i', 'c', 't', '_', 't', 'y', 'p', 'e', 's']]

def declareStatement : Reader :=
  phrase [word .declare_, mark ['('],
    phrase [leaf (fun t => directives.contains t.text) fun t => .token t.text, mark ['='],
      leaf (fun t => t.lexeme == .integer) fun _ => integerKind],
    mark [')'], semicolon]

/-- A word, an expression if there is one, and a semicolon. -/
def jump (n : Nested) (w : Word) : Reader :=
  phrase [word w, opt (fun ts => !nextMark [';'] ts) (n.expression 0), semicolon]

def place (n : Nested) : Reader := fun ts =>
  match chain n true simpleVariable ts with
  | some c => if c.isPlace then some (c.nodes, c.rest) else none
  | none => none

def isUnset (t : Token) : Bool := t.text == ['u', 'n', 's', 'e', 't']

def unsetStatement (n : Nested) : Reader :=
  phrase [leaf isUnset wordKind, mark ['('], except (nextMark [')']) (listed [')'] (place n)),
    mark [')'], semicolon]

def staticVariable (n : Nested) : Reader :=
  phrase [simpleVariable, opt (nextMark ['=']) (seq [mark ['='], n.expression 0])]

def staticDeclaration (n : Nested) : Reader :=
  phrase [word .static_, separated [','] (staticVariable n), semicolon]

def globalDeclaration : Reader := phrase [word .global_, separated [','] simpleVariable, semicolon]

def constStatement (n : Nested) : Reader := node .constDeclaration (constRest n)

def expressionStatement (n : Nested) : Reader := phrase [expressionAt n 0, semicolon]

/-! ## Choosing -/

/-- Whether a function with a name comes next. -/
def namesFunction (ts : List Token) : Bool :=
  second Token.isNameLike ts || (second (·.isMark ['&']) ts && next Token.isNameLike (ts.drop 2))

def wordStatement (n : Nested) (w : Word) : Reader := fun ts =>
  match w with
  | .namespace_ => given (next fun t => t.text == ['n', 'a', 'm', 'e', 's', 'p', 'a', 'c', 'e'])
    (namespaceDefinition n) ts
  | .use_ => useDeclaration ts
  | .if_ => ifStatement n ts
  | .switch_ => switchStatement n ts
  | .for_ => forStatement n ts
  | .foreach_ => foreachStatement n ts
  | .while_ => whileStatement n ts
  | .do_ => doStatement n ts
  | .try_ => tryStatement n ts
  | .declare_ => declareStatement ts
  | .return_ | .break_ | .continue_ => jump n w ts
  | .echo_ => phrase [word .echo_, sequence n, semicolon] ts
  | .unset_ => unsetStatement n ts
  | .global_ => globalDeclaration ts
  | .const_ => constStatement n ts
  | .abstract_ | .final_ | .readonly_ | .class_ | .interface_ | .trait_ | .enum_ => declaration n ts
  | .function_ => if namesFunction ts then declaration n ts else expressionStatement n ts
  | .static_ =>
    if second Token.isVariable ts then staticDeclaration n ts else expressionStatement n ts
  | _ => expressionStatement n ts

def statementOf (n : Nested) : Reader := fun ts =>
  match ts with
  | t :: _ =>
    match t.lexeme with
    | .word w => wordStatement n w ts
    | .mark =>
      if t.isMark [';'] then phrase [semicolon] ts
      else if t.isMark ['{'] then compound n ts
      else if t.isMark ['#', '['] then declaration n ts
      else expressionStatement n ts
    | _ => expressionStatement n ts
  | [] => none

/-! ## Sources -/

/-- The readers that may nest so deep. -/
def nested : Nat → Nested
  | 0 => ⟨fun _ => refuse, refuse⟩
  | depth + 1 => ⟨expressionAt (nested depth), statementOf (nested depth)⟩

/-- The syntax tree of a plain source. Every level of nesting takes a token of its own. -/
def read? (source : Text) : Option Node :=
  match tokens? source with
  | some (tag, ts) =>
    match many (fun ts => !next Token.isFinish ts) (nested (2 * ts.length)).statement ts with
    | some (ns, [finish]) =>
      some ⟨.program, none, ⟨.origin, finish.span.stop⟩, false, tag :: ns ++ finish.before⟩
    | _ => none
  | none => none

end ClassOutline.Plain
