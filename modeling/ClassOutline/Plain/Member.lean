import ClassOutline.Plain.Signature
/-
  ClassOutline.Plain.Member — members of class-likes and the headers before their bodies.

  Attributes and modifiers belong to the member they stand before. Properties with
  accessors, constants with a type and adaptations of traits are refused.
-/

namespace ClassOutline.Plain

open ClassOutline.Tree Reader

/-- Statements between braces. -/
def compound (n : Nested) : Reader :=
  node .compound (seq [mark ['{'], many (fun ts => !nextMark ['}'] ts) n.statement, mark ['}']])

/-- A function from its keyword to the type behind its parameters. -/
def functionHeader (n : Nested) : Reader :=
  seq [word .function_, reference, role .name (either (next isRelative) (relative .name) name),
    role .parameters (parameters n), returnType]

/-! ## Modifiers -/

def modifierKind? : Word → Option Kind
  | .public_ | .protected_ | .private_ => some .visibilityModifier
  | .static_ => some .staticModifier
  | .final_ => some .finalModifier
  | .abstract_ => some .abstractModifier
  | .readonly_ => some .phrase
  | _ => none

def modifierWords : List Word :=
  [.public_, .protected_, .private_, .static_, .final_, .abstract_, .readonly_, .var_]

def modifier : Reader := fun ts =>
  match ts with
  | t :: _ =>
    match t.lexeme with
    | .word .var_ => word .var_ ts
    | .word w =>
      match modifierKind? w with
      | some kind => except (second (·.isMark ['('])) (node kind (word w)) ts
      | none => none
    | _ => none
  | [] => none

def modifiers : Reader := many (nextWordIn modifierWords) modifier

/-! ## Members -/

/-- Words that could begin the type of a constant. -/
def isTypeLike (t : Token) : Bool :=
  isBuiltIn t || isRelative t || t.isWord .namespace_ || t.isWord .callable_

def constElement (n : Nested) : Reader :=
  node .constElement (seq [except (next isTypeLike) name, mark ['='], role .value (n.expression 0)])

def constRest (n : Nested) : Reader :=
  seq [word .const_, separated [','] (constElement n), semicolon]

def propertyElement (n : Nested) : Reader :=
  node .propertyElement (seq [role .name simpleVariable, initializer n])

def propertyRest (n : Nested) : Reader :=
  seq [opt (fun ts => !next Token.isVariable ts) type, separated [','] (propertyElement n), semicolon]

def methodRest (n : Nested) : Reader :=
  seq [functionHeader n, either (nextMark ['{']) (role .body (compound n)) semicolon]

/-- A member behind its attributes: its kind, and what it reads behind its modifiers. A
    property has one modifier at least. -/
def memberRest (n : Nested) (isModified : Bool) (ts : List Token) : Kind × Reader :=
  if nextWord .function_ ts then (.methodDeclaration, methodRest n)
  else if nextWord .const_ ts then (.constDeclaration, constRest n)
  else (.propertyDeclaration, if isModified then propertyRest n else refuse)

def modifiedMember (n : Nested) : Reader := fun ts =>
  match attributes n ts with
  | some (before, ts) =>
    match modifiers ts with
    | some (mods, rest) =>
      let (kind, r) := memberRest n (!mods.isEmpty) rest
      (r rest).map fun (ns, ts) => (group kind none (before ++ mods ++ ns), ts)
    | none => none
  | none => none

def traitUse : Reader := phrase [word .use_, separated [','] className, semicolon]

def member (n : Nested) : Reader := either (nextWord .use_) traitUse (modifiedMember n)

def enumCase (n : Nested) : Reader :=
  phrase [word .case_, name, opt (nextMark ['=']) (seq [mark ['='], n.expression 0]),
    semicolon]

/-! ## Bodies and headers -/

def bodyOf (member : Reader) : Reader :=
  node .declarationList (seq [mark ['{'], many (fun ts => !nextMark ['}'] ts) member, mark ['}']])

def classBody (n : Nested) : Reader := bodyOf (member n)

/-- A member of an enumeration; one with attributes is refused. -/
def enumMember (n : Nested) : Reader :=
  either (nextWord .case_) (enumCase n)
    (either (nextWord .use_) traitUse
      (except nextAttribute (node .methodDeclaration (seq [modifiers, methodRest n]))))

def enumBody (n : Nested) : Reader := bodyOf (enumMember n)

def extending : Reader :=
  opt (nextWord .extends_) (node .baseClause (seq [word .extends_, separated [','] className]))

def implementing : Reader :=
  opt (nextWord .implements_) (node .interfaceClause (seq [word .implements_, separated [','] className]))

/-- What stands behind the keyword of a class-like. -/
def classRest (n : Nested) : Reader :=
  seq [role .name name, extending, implementing, role .body (classBody n)]

def enumType : Reader :=
  opt (nextMark [':']) (seq [mark [':'], leaf (fun t => isProperName t &&
    (t.text == ['s', 't', 'r', 'i', 'n', 'g'] || t.text == ['i', 'n', 't'])) fun _ => .phrase])

/-- A class-like or function behind its attributes. -/
def declarationRest (n : Nested) : Reader := fun ts =>
  if nextWord .function_ ts then seq [functionHeader n, compound n] ts
  else if nextWord .interface_ ts then
    seq [word .interface_, role .name name, extending, role .body (classBody n)] ts
  else if nextWord .trait_ ts then seq [word .trait_, role .name name, role .body (classBody n)] ts
  else if nextWord .enum_ ts then
    seq [word .enum_, role .name name, enumType, implementing, role .body (enumBody n)] ts
  else seq [many (nextWordIn [.abstract_, .final_, .readonly_]) modifier, word .class_, classRest n] ts

def declarationKind (ts : List Token) : Kind :=
  if nextWord .function_ ts then .phrase
  else if nextWord .interface_ ts then .interfaceDeclaration
  else if nextWord .trait_ ts then .traitDeclaration
  else if nextWord .enum_ ts then .enumDeclaration
  else .classDeclaration

def declaration (n : Nested) : Reader := fun ts =>
  match attributes n ts with
  | some (before, ts) =>
    (declarationRest n ts).map fun (ns, rest) => (group (declarationKind ts) none (before ++ ns), rest)
  | none => none

end ClassOutline.Plain
