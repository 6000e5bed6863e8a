import ClassOutline.Grammar.Rule
/-
  ClassOutline.Grammar.Construct — what the language is made of.

  A construct either shows as a node of its own or is transparent: then its parts are parts
  of what it stands in. Most constructs are of no interest to an outline and show as plain
  phrases.
-/

namespace ClassOutline.Grammar

open ClassOutline.Tree (Kind)

inductive Construct where
  -- Files and names
  | file | program | interlude | text | statement | emptyStatement | referenceModifier
  | staticDeclaration | staticVariable | globalDeclaration
  | namespaceDefinition | useDeclaration | useClause | qualifiedName | namespaceHead
  | namespaceName | useGroup
  -- Class-likes and their members
  | traitDeclaration | interfaceDeclaration | baseClause | enumDeclaration | enumBody | enumMember
  | enumCase | classDeclaration | classBody | finalModifier | abstractModifier | readonlyModifier
  | interfaceClause | member | constDeclaration | propertyDeclaration | modifier | propertyElement
  | propertyHooks | propertyHook | propertyHookBody | methodDeclaration | staticModifier
  | traitUse | traitAdaptations | traitPrecedence | traitAlias | visibilityModifier
  -- Functions and types
  | functionDefinition | functionHeader | closure | closureUse | returnType | arrowFunction
  | parameters | promotedParameter | simpleParameter | variadicParameter
  | type | simpleType | namedType | optionalType | unionType | intersectionType | mixedType
  | primitiveType | castType | constElement
  -- Statements
  | echoStatement | exitStatement | unsetStatement | declareStatement | declareDirective | literal
  | tryStatement | catchClause | typeList | finallyClause | gotoStatement | continueStatement
  | breakStatement | returnStatement | throwExpression | whileStatement | doStatement | forStatement
  | expressions | sequence | foreachStatement | foreachPair | foreachValue | ifStatement | colonBlock
  | elseIfClause | elseClause | elseIfColonClause | elseColonClause | matchExpression | matchBlock
  | matchConditions | matchArm | matchDefault | switchStatement | switchBlock | caseStatement
  | defaultStatement | compound | label | expressionStatement
  -- Expressions
  | expression | unary | unaryOperation | suppression | clone | primary | parenthesized
  | constantAccess | print | anonymousClass | creation | bareCreation | calledCreation
  | classReference | update | castExpression | variableCast | assignment | referenceAssignment | conditional
  | augmentedAssignment | memberAccess | nullsafeAccess | staticAccess | listPattern
  | listDestructuring | arrayDestructuring | arrayDestructuringElement | callableVariable | functionCall
  | callable | staticCall | scopeQualifier | relativeScope | placeholder | arguments | argument
  | argumentName | memberCall | nullsafeCall | unpacking | memberName | subscript | dereferencable
  | dereferencableScalar | arrayCreation | attributeGroup | attributeList | attributeUse
  -- Strings
  | complexPart | simpleMemberAccess | simpleNegation | simpleIndex | simpleSubscript | simplePart
  | stringBody | heredocPart | encapsedString | string | heredocBody | heredoc | lineBreak
  | nowdocBody | nowdoc | commandBody | command | boolean | null | anyString
  -- Variables and operators
  | dynamicVariable | simpleVariable | newVariable | newSubscript | newMemberAccess
  | newNullsafeAccess | newStaticAccess | variableName | byReference | yield | arrayElement
  | binary | includeOnce | include_ | require_ | requireOnce | anyName | reservedName | semicolon
  /-- One or more of the same. -/
  | repeated (i : Nat)
  deriving DecidableEq, Hashable, Repr

namespace Construct

/-- Constructs whose parts belong to what they stand in. -/
def isTransparent : Construct → Bool
  | .statement | .namespaceHead | .enumMember | .member | .modifier | .propertyHookBody
  | .functionHeader | .returnType | .type | .simpleType | .literal | .expressions | .foreachValue
  | .expression | .unary | .primary | .bareCreation | .calledCreation | .classReference
  | .listDestructuring | .arrayDestructuring | .arrayDestructuringElement | .callableVariable
  | .callable | .scopeQualifier | .argumentName | .memberName | .dereferencable
  | .dereferencableScalar | .complexPart | .simpleIndex | .simplePart | .stringBody | .heredocPart
  | .lineBreak | .commandBody | .anyString | .simpleVariable | .newVariable | .anyName | .semicolon
  | .repeated _ => true
  | _ => false

/-- How a construct shows in the tree. -/
def kind? (c : Construct) : Option Kind :=
  if c.isTransparent then none
  else some <| match c with
    | .program => .program
    | .interlude => .interpolation
    | .text => .inlineText
    | .namespaceDefinition => .namespaceDefinition
    | .namespaceName => .namespaceName
    | .useDeclaration => .useDeclaration
    | .useClause => .useClause
    | .useGroup => .useGroup
    | .qualifiedName => .qualifiedName
    | .reservedName => .name
    | .variableName => .variableName
    | .classDeclaration => .classDeclaration
    | .interfaceDeclaration => .interfaceDeclaration
    | .traitDeclaration => .traitDeclaration
    | .enumDeclaration => .enumDeclaration
    | .baseClause => .baseClause
    | .interfaceClause => .interfaceClause
    | .classBody | .enumBody => .declarationList
    | .constDeclaration => .constDeclaration
    | .constElement => .constElement
    | .propertyDeclaration => .propertyDeclaration
    | .propertyElement => .propertyElement
    | .methodDeclaration => .methodDeclaration
    | .abstractModifier => .abstractModifier
    | .finalModifier => .finalModifier
    | .staticModifier => .staticModifier
    | .visibilityModifier => .visibilityModifier
    | .referenceModifier => .referenceModifier
    | .simpleParameter => .simpleParameter
    | .variadicParameter => .variadicParameter
    | .promotedParameter => .promotedParameter
    | .compound => .compound
    | _ => .phrase

end Construct
end ClassOutline.Grammar
