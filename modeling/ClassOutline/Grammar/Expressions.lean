import ClassOutline.Grammar.Statements
/-
  ClassOutline.Grammar.Expressions — the rules for expressions.

  What can be assigned to, called, subscripted or dereferenced is told apart by construct;
  how operators nest is left to their levels. The colon behind the name of an argument may
  stand without the name.
-/

namespace ClassOutline.Grammar

open Rule Construct

def operators (texts : List String) : Body := choices (texts.map mark)

/-- An operator between two expressions. -/
def between (level : Level) (operator : Body) : Body :=
  leftAt level.value (seqs [expression, operator, expression])

def augmentations : List String :=
  ["**=", "*=", "/=", "%=", "+=", "-=", ".=", "<<=", ">>=", "&=", "^=", "|=", "??="]

/-- What an element of a destructured list goes to. -/
def destination (pattern : Construct) : Body :=
  choices [.shown .phrase pattern, anyVariable, byReference]

def expressionRules : List (Construct × Body) := [
  (expression, choices [conditional, matchExpression, augmentedAssignment, assignment,
    referenceAssignment, yield, unary, suppression, binary, include_, includeOnce, require_,
    requireOnce]),
  (unary, choices [clone, primary, unaryOperation, castExpression]),
  (unaryOperation, leftAt Level.negation.value
    (.seq (operators ["+", "-", "~", "!"]) expression)),
  (suppression, levelled Level.increment.value (.seq (mark "@") expression)),
  (clone, .seq (word "clone") primary),
  (primary, choices [anyVariable, literal, constantAccess, anyName, arrayCreation, print, closure,
    arrowFunction, creation, update, command, parenthesized, throwExpression]),
  (parenthesized, parens expression),
  (constantAccess, seqs [scopeQualifier, mark "::", choices [name, reservedName,
    braced (.shown .name expression)]]),
  (print, .seq (word "print") expression),
  (anonymousClass, rightAt 0 (seqs [attributes, many modifier, word "class", opt arguments,
    opt baseClause, opt interfaceClause, classBody])),
  (creation, choices [calledCreation, bareCreation]),
  (bareCreation, rightAt Level.creation.value (.seq (word "new") classReference)),
  (calledCreation, rightAt Level.creation.value (.seq (word "new")
    (choices [.seq classReference arguments, anonymousClass]))),
  (classReference, choices [anyName, reservedName, newVariable, parenthesized]),
  (update, leftAt Level.increment.value (choices [
    .seq anyVariable (operators ["--", "++"]), .seq (operators ["--", "++"]) anyVariable])),
  (castExpression, levelled (-1) (seqs [mark "(", castType, mark ")",
    choices [unary, include_, includeOnce, suppression]])),
  (variableCast, levelled (-1) (seqs [mark "(", castType, mark ")", anyVariable])),
  (assignment, rightAt Level.assignment.value
    (seqs [choices [anyVariable, listPattern], mark "=", expression])),
  (referenceAssignment, rightAt Level.assignment.value
    (seqs [choices [anyVariable, listPattern], mark "=", mark "&", expression])),
  (conditional, leftAt Level.ternary.value
    (seqs [expression, mark "?", opt expression, mark ":", expression])),
  (augmentedAssignment, rightAt Level.assignment.value
    (seqs [anyVariable, operators augmentations, expression])),
  (memberAccess, levelled Level.member.value (seqs [dereferencable, mark "->", memberName])),
  (nullsafeAccess, levelled Level.member.value (seqs [dereferencable, mark "?->", memberName])),
  (staticAccess, levelled Level.member.value (seqs [scopeQualifier, mark "::", simpleVariable])),
  (listPattern, choices [listDestructuring, arrayDestructuring]),
  (listDestructuring, .seq (word "list") (parens (commaList (opt (choices [
    destination listDestructuring, seqs [expression, mark "=>", destination listDestructuring]]))))),
  (arrayDestructuring, seqs [mark "[", commaList (opt arrayDestructuringElement), mark "]"]),
  (arrayDestructuringElement, choices [destination arrayDestructuring,
    seqs [expression, mark "=>", destination arrayDestructuring]]),
  (callableVariable, choices [simpleVariable, subscript, memberCall, nullsafeCall, staticCall,
    functionCall]),
  (functionCall, levelled Level.call.value (.seq callable arguments)),
  (callable, choices [anyName, reservedName, callableVariable, parenthesized,
    dereferencableScalar, .shown .phrase calledCreation]),
  (staticCall, levelled Level.call.value (seqs [scopeQualifier, mark "::", memberName, arguments])),
  (scopeQualifier, choices [relativeScope, anyName, dereferencable]),
  (relativeScope, levelled Level.scope.value (choices [mark "self", mark "parent", word "static"])),
  (placeholder, mark "..."),
  (arguments, parens (choices [.seq (opt (commaList argument)) (opt (mark ",")), placeholder])),
  (argument, seqs [opt argumentName, opt referenceModifier,
    choices [reservedName, unpacking, expression]]),
  (argumentName, .seq (opt (.shown .name (choices [name, word "array", word "fn",
    word "function", word "match", word "namespace", word "null", word "static", word "throw",
    mark "parent", mark "self", shape .truth]))) (mark ":")),
  (memberCall, levelled Level.call.value (seqs [dereferencable, mark "->", memberName, arguments])),
  (nullsafeCall, levelled Level.call.value
    (seqs [dereferencable, mark "?->", memberName, arguments])),
  (unpacking, .seq (mark "...") expression),
  (memberName, choices [reservedName, name, simpleVariable, braced expression]),
  (subscript, seqs [dereferencable, mark "[", opt expression, mark "]"]),
  (dereferencable, levelled Level.dereference.value (choices [anyVariable, constantAccess,
    parenthesized, dereferencableScalar, anyName, reservedName,
    .shown .phrase calledCreation])),
  (dereferencableScalar, levelled Level.dereference.value (choices [arrayCreation, anyString])),
  (arrayCreation, choices [
    .seq (.shown (.token "array".toList) (word "array"))
      (parens (.seq (opt (commaList arrayElement)) (opt (mark ",")))),
    seqs [mark "[", opt (commaList arrayElement), opt (mark ","), mark "]"]]),
  (attributeGroup, seqs [mark "#[", commaList attributeUse, opt (mark ","), mark "]"]),
  (attributeList, .many1 attributeGroup),
  (attributeUse, .seq anyNameOrReserved (opt arguments))]

def operatorRules : List (Construct × Body) := [
  (dynamicVariable, choices [.seq (mark "$") simpleVariable,
    .seq (mark "$") (braced expression)]),
  (simpleVariable, choices [variableName, dynamicVariable]),
  (newVariable, levelled 1 (choices [simpleVariable, newSubscript, newMemberAccess,
    newNullsafeAccess, newStaticAccess])),
  (newSubscript, seqs [newVariable, mark "[", opt expression, mark "]"]),
  (newMemberAccess, levelled Level.member.value (seqs [newVariable, mark "->", memberName])),
  (newNullsafeAccess, levelled Level.member.value (seqs [newVariable, mark "?->", memberName])),
  (newStaticAccess, levelled Level.member.value
    (seqs [choices [anyName, reservedName, newVariable], mark "::", simpleVariable])),
  (variableName, .seq (mark "$") name),
  (byReference, .seq (mark "&") anyVariable),
  (yield, rightAt 0 (.seq (word "yield")
    (opt (choices [arrayElement, .seq (word "from") expression])))),
  (arrayElement, rightAt 0 (choices [byReference, expression,
    seqs [expression, mark "=>", choices [byReference, expression]], unpacking])),
  (binary, choices [
    levelled Level.instanceOf.value (seqs [unary, word "instanceof", classReference]),
    rightAt Level.coalesce.value (seqs [expression, mark "??", expression]),
    rightAt Level.power.value (seqs [expression, mark "**", expression]),
    between .andWord (word "and"), between .orWord (word "or"), between .xorWord (word "xor"),
    between .orSign (mark "||"), between .andSign (mark "&&"),
    between .bitOr (mark "|"), between .bitXor (mark "^"), between .bitAnd (mark "&"),
    between .equality (mark "=="), between .equality (mark "!="), between .equality (mark "<>"),
    between .equality (mark "==="), between .equality (mark "!=="),
    between .inequality (mark "<"), between .inequality (mark ">"), between .inequality (mark "<="),
    between .inequality (mark ">="), between .equality (mark "<=>"),
    between .shift (mark "<<"), between .shift (mark ">>"),
    between .plus (mark "+"), between .plus (mark "-"), between .concatenation (mark "."),
    between .times (mark "*"), between .times (mark "/"), between .times (mark "%")]),
  (include_, .seq (word "include") expression),
  (includeOnce, .seq (word "include_once") expression),
  (require_, .seq (word "require") expression),
  (requireOnce, .seq (word "require_once") expression),
  (anyName, choices [name, qualifiedName]),
  (reservedName, choices [mark "self", mark "parent", word "static"]),
  (semicolon, choices [piece .impliedSemicolon, mark ";"])]

end ClassOutline.Grammar
