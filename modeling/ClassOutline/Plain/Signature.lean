import ClassOutline.Plain.Reader
/-
  ClassOutline.Plain.Signature — names, types, arguments, attributes and parameters.

  An ampersand behind a type belongs to it unless a parameter's own marks or variable
  follow. Named arguments and types in parentheses are refused.
-/

namespace ClassOutline.Plain

open ClassOutline.Tree Reader

/-! ## Names -/

def nextSeparator : List Token → Bool := nextMark ['\\']

/-- The number of segments behind names that come next, each with its separator. -/
def segmentCount : Nat → List Token → Nat
  | fuel + 1, t :: u :: ts => if t.isMark ['\\'] && u.isNameLike then segmentCount fuel ts + 1 else 0
  | _, _ => 0

def segment : Reader := seq [mark ['\\'], name]

def segments : Nat → Reader
  | 0 => nothing
  | n + 1 => seq [segment, segments n]

/-- Segments, all but the last of which are a namespace. -/
def qualified (n : Nat) (first : Reader) : Reader :=
  node .qualifiedName (seq [node .namespaceName (seq [first, segments n]), segment])

/-- A plain name or a qualified one. -/
def path : Reader := fun ts =>
  if nextSeparator ts then
    match segmentCount ts.length ts with
    | 0 => none
    | 1 => node .qualifiedName segment ts
    | n + 2 => qualified n segment ts
  else
    match segmentCount ts.length (ts.drop 1) with
    | 0 => name ts
    | n + 1 => qualified n name ts

/-- The words for the class around, which are lower case. -/
def isRelative (t : Token) : Bool :=
  match t.lexeme with
  | .word .static_ => true
  | .word .self_ => t.text == ['s', 'e', 'l', 'f']
  | .word .parent_ => t.text == ['p', 'a', 'r', 'e', 'n', 't']
  | _ => false

def relative (kind : Kind) : Reader := node kind (leaf isRelative wordKind)

def isProperName (t : Token) : Bool :=
  match t.lexeme with
  | .name => true
  | _ => false

/-- Whether a name that is no reserved word comes next, or a qualified one. -/
def nextPath (ts : List Token) : Bool := next isProperName ts || nextSeparator ts

/-- A class, by its name or by a word for the class around. -/
def className : Reader := either (next isRelative) (relative .name) (given nextPath path)

/-! ## Types -/

def builtInTypes : List Text :=
  [['i', 'n', 't'], ['s', 't', 'r', 'i', 'n', 'g'], ['b', 'o', 'o', 'l'], ['f', 'l', 'o', 'a', 't'],
    ['v', 'o', 'i', 'd'], ['m', 'i', 'x', 'e', 'd'], ['i', 't', 'e', 'r', 'a', 'b', 'l', 'e'],
    ['a', 'r', 'r', 'a', 'y'], ['c', 'a', 'l', 'l', 'a', 'b', 'l', 'e'], ['n', 'u', 'l', 'l'],
    ['t', 'r', 'u', 'e'], ['f', 'a', 'l', 's', 'e']]

def isBuiltIn (t : Token) : Bool := t.isNameLike && builtInTypes.contains t.text

def builtIn : Reader := phrase [leaf isBuiltIn fun t => .token t.text]

/-- A type of one name. -/
def atomType : Reader :=
  either (next isBuiltIn) (except (second (·.isMark ['\\'])) builtIn)
    (either (next isRelative) (except (second (·.isMark ['\\'])) (phrase [name]))
      (given nextPath (phrase [path])))

def simpleType : Reader :=
  either (nextMark ['?']) (phrase [mark ['?'], atomType]) atomType

/-- Whether an ampersand comes next that joins two types. -/
def nextJoin (ts : List Token) : Bool :=
  nextMark ['&'] ts && !second (fun t => t.isVariable || t.isMark ['.', '.', '.'] || t.isMark ['&']) ts

def type : Reader := fun ts =>
  match simpleType ts with
  | some (ns, rest) =>
    if nextMark ['|'] rest then node .phrase (separated ['|'] simpleType) ts
    else if nextJoin rest then
      phrase [simpleType, many nextJoin (seq [mark ['&'], simpleType])] ts
    else some (ns, rest)
  | none => none

def isNever (t : Token) : Bool := isProperName t && t.text == ['n', 'e', 'v', 'e', 'r']

def bottomKind : Kind := .lexeme ['b', 'o', 't', 't', 'o', 'm', '_', 't', 'y', 'p', 'e']

def returnType : Reader :=
  opt (nextMark [':']) (seq [mark [':'], role .returnType
    (either (next isNever) (except (second (·.isMark ['|'])) (leaf isNever fun _ => bottomKind)) type)])

/-! ## Arguments and attributes -/

def dots : Text := ['.', '.', '.']

def argument (n : Nested) : Reader :=
  phrase [either (nextMark dots) (phrase [mark dots, n.expression 0]) (n.expression 0)]

/-- Arguments between parentheses, or the dots that stand for all of them. -/
def arguments (n : Nested) : Reader :=
  phrase [mark ['('],
    either (fun ts => nextMark dots ts && second (·.isMark [')']) ts) (phrase [mark dots])
      (listed [')'] (argument n)),
    mark [')']]

def attributeUse (n : Nested) : Reader := phrase [className, opt (nextMark ['(']) (arguments n)]

def attributeGroup (n : Nested) : Reader :=
  phrase [mark ['#', '['], except (nextMark [']']) (listed [']'] (attributeUse n)), mark [']']]

def nextAttribute : List Token → Bool := nextMark ['#', '[']

/-- The attributes before something, if it has any. -/
def attributes (n : Nested) : Reader :=
  opt nextAttribute (node .phrase (many nextAttribute (attributeGroup n)))

/-! ## Parameters -/

def visibilityWords : List Word := [.public_, .protected_, .private_]

def visibility : Reader :=
  except (second (·.isMark ['('])) (node .visibilityModifier
    (leaf (fun t => visibilityWords.any t.isWord) wordKind))

def readonly : Reader := phrase [word .readonly_]

def initializer (n : Nested) : Reader :=
  opt (nextMark ['=']) (seq [mark ['='], role .value (n.expression 0)])

/-- Whether a type comes before the variable of a parameter or property. -/
def beforeType (ts : List Token) : Bool :=
  !next (fun t => t.isVariable || t.isMark ['&'] || t.isMark dots) ts

def reference : Reader := opt (nextMark ['&']) (node .referenceModifier (mark ['&']))

def promotedVariable : Reader :=
  either (nextMark ['&']) (phrase [mark ['&'], simpleVariable]) simpleVariable

/-- A parameter behind its attributes. -/
def parameterRest (n : Nested) : Reader := fun ts =>
  if nextWordIn visibilityWords ts then
    seq [visibility, opt (nextWord .readonly_) readonly, opt beforeType type,
      role .name promotedVariable, initializer n] ts
  else seq [opt beforeType type, reference, opt (nextMark dots) (mark dots), role .name simpleVariable,
    initializer n] ts

/-- A promoted parameter has a visibility and a variadic one dots. -/
def parameterKind (ns : List Node) : Kind :=
  if ns.any (·.kind == .visibilityModifier) then .promotedParameter
  else if ns.any (·.kind == .token dots) then .variadicParameter
  else .simpleParameter

/-- A parameter that is given away by its dots has no value. -/
def isSound (kind : Kind) (ns : List Node) : Bool :=
  kind != .variadicParameter || !ns.any (·.kind == .token ['='])

def parameter (n : Nested) : Reader := fun ts =>
  match attributes n ts with
  | some (before, ts) =>
    match parameterRest n ts with
    | some (ns, ts) =>
      let kind := parameterKind ns
      if isSound kind ns then some (group kind none (before ++ ns), ts) else none
    | none => none
  | none => none

def parameters (n : Nested) : Reader := phrase [mark ['('], listed [')'] (parameter n), mark [')']]

end ClassOutline.Plain
