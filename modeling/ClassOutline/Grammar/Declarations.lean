import ClassOutline.Grammar.Construct
/-
  ClassOutline.Grammar.Declarations — the rules for files, namespaces, class-likes and types.

  Code begins behind the first open tag. A closing tag, the text behind it and the next open
  tag make an interlude, which may stand wherever a comment may.
-/

namespace ClassOutline.Grammar

open Rule Construct

abbrev Body := Rule Construct

instance : Coe Construct Body := ⟨.call⟩

def openBrace : Body := mark "\x7b"

def closeBrace : Body := mark "\x7d"

def braced (a : Body) : Body := seqs [openBrace, a, closeBrace]

def parens (a : Body) : Body := seqs [mark "(", a, mark ")"]

def name : Body := shape .name

def nameOrReserved : Body := choices [name, reservedName]

def anyNameOrReserved : Body := choices [anyName, reservedName]

def attributes : Body := opt attributeList

/-- Code starts with a tag. -/
def code : Body := .seq (shape .openTag) (many statement)

/-- What can be assigned to. -/
def anyVariable : Body :=
  choices [variableCast, callableVariable, staticAccess, memberAccess, nullsafeAccess]

def useType : Body := choices [word "function", word "const"]

def fileRules : List (Construct × Body) := [
  (file, program),
  (program, .seq (opt text) (opt code)),
  (interlude, seqs [shape .closeTag, opt text, choices [shape .openTag, piece .endOfText]]),
  (text, .many1 (choices [shape .textAngle, shape .textRun])),
  (statement, choices [emptyStatement, compound, label, expressionStatement, ifStatement,
    switchStatement, whileStatement, doStatement, forStatement, foreachStatement, gotoStatement,
    continueStatement, breakStatement, returnStatement, tryStatement, declareStatement,
    echoStatement, exitStatement, unsetStatement, constDeclaration, functionDefinition,
    classDeclaration, interfaceDeclaration, traitDeclaration, enumDeclaration, namespaceDefinition,
    useDeclaration, globalDeclaration, staticDeclaration]),
  (emptyStatement, levelled (-1) (mark ";")),
  (referenceModifier, mark "&"),
  (staticDeclaration, seqs [word "static", commaList staticVariable, semicolon]),
  (staticVariable, .seq variableName (opt (.seq (mark "=") expression))),
  (globalDeclaration, seqs [word "global", commaList simpleVariable, semicolon]),
  (namespaceDefinition, .seq (word "namespace") (choices [
    .seq (.role .name namespaceName) semicolon,
    .seq (opt (.role .name namespaceName)) (.role .body compound)])),
  (useDeclaration, seqs [word "use", choices [commaList useClause,
    seqs [opt useType, namespaceName, mark "\\", useGroup]], semicolon]),
  (useClause, seqs [opt useType, choices [name, reservedName, qualifiedName],
    opt (.seq (word "as") (.role .localName name))]),
  (qualifiedName, .seq namespaceHead name),
  (namespaceHead, choices [mark "\\", .seq namespaceName (mark "\\")]),
  (namespaceName, seqs [opt (mark "\\"), name, many (.seq (mark "\\") name)]),
  (useGroup, braced (commaList useClause))]

def classRules : List (Construct × Body) := [
  (traitDeclaration, seqs [attributes, word "trait", .role .name name, .role .body classBody]),
  (interfaceDeclaration, seqs [attributes, word "interface", .role .name name, opt baseClause,
    .role .body classBody]),
  (baseClause, .seq (word "extends") (commaList anyNameOrReserved)),
  (enumDeclaration, rightAt 0 (seqs [attributes, word "enum", .role .name name,
    opt (.seq (mark ":") (.shown .phrase (choices [mark "string", mark "int"]))),
    opt interfaceClause, .role .body enumBody])),
  (enumBody, braced (many enumMember)),
  (enumMember, choices [enumCase, methodDeclaration, traitUse]),
  (enumCase, seqs [attributes, word "case", name, opt (.seq (mark "=") expression), semicolon]),
  (classDeclaration, rightAt 0 (seqs [attributes, many modifier, word "class", .role .name name,
    opt baseClause, opt interfaceClause, .role .body classBody])),
  (classBody, braced (many member)),
  (finalModifier, word "final"),
  (abstractModifier, word "abstract"),
  (readonlyModifier, word "readonly"),
  (interfaceClause, .seq (word "implements") (commaList anyNameOrReserved)),
  (member, choices [constDeclaration, propertyDeclaration, methodDeclaration, traitUse]),
  (constDeclaration, seqs [attributes, many modifier, word "const", opt type,
    commaList constElement, semicolon]),
  (propertyDeclaration, seqs [attributes, .many1 modifier, opt type, commaList propertyElement,
    choices [semicolon, propertyHooks]]),
  (modifier, leftAt 0 (choices [.token (.word "var"), visibilityModifier, staticModifier,
    finalModifier, abstractModifier, readonlyModifier])),
  (propertyElement, .seq (.role .name variableName)
    (opt (.seq (mark "=") (.role .value expression)))),
  (propertyHooks, braced (many propertyHook)),
  (propertyHook, seqs [attributes, opt finalModifier, opt referenceModifier, name, opt parameters,
    propertyHookBody]),
  (propertyHookBody, choices [seqs [mark "=>", expression, semicolon], compound, semicolon]),
  (methodDeclaration, seqs [attributes, many modifier, functionHeader,
    choices [.role .body compound, semicolon]]),
  (staticModifier, word "static"),
  (traitUse, seqs [word "use", commaList anyNameOrReserved,
    choices [traitAdaptations, semicolon]]),
  (traitAdaptations, braced (many (choices [.seq traitPrecedence semicolon,
    .seq traitAlias semicolon]))),
  (traitPrecedence, leftAt 0 (seqs [choices [constantAccess, name], word "insteadof", name])),
  (traitAlias, seqs [choices [constantAccess, name], word "as", choices [
    .seq (opt visibilityModifier) name, .seq visibilityModifier (opt name)]]),
  (visibilityModifier, .seq (choices [word "public", word "protected", word "private"])
    (opt (seqs [.token (.adjoined "("), .shown .phrase name, mark ")"])))]

def functionRules : List (Construct × Body) := [
  (functionDefinition, seqs [attributes, functionHeader, compound]),
  (functionHeader, seqs [word "function", opt referenceModifier, .role .name nameOrReserved,
    .role .parameters parameters, opt returnType]),
  (closure, seqs [attributes, opt staticModifier, word "function", opt referenceModifier,
    parameters, opt closureUse, opt returnType, compound]),
  (closureUse, .seq (word "use") (parens
    (.seq (commaList (choices [byReference, variableName])) (opt (mark ","))))),
  (returnType, .seq (mark ":") (.role .returnType (choices [type, mark "never"]))),
  (arrowFunction, seqs [attributes, opt staticModifier, word "fn", opt referenceModifier,
    parameters, opt returnType, mark "=>", expression]),
  (parameters, parens (.seq
    (opt (commaList (choices [simpleParameter, variadicParameter, promotedParameter])))
    (opt (mark ",")))),
  (promotedParameter, seqs [attributes, visibilityModifier, opt readonlyModifier, opt type,
    .role .name (choices [byReference, variableName]),
    opt (.seq (mark "=") (.role .value expression)), opt propertyHooks]),
  (simpleParameter, seqs [attributes, opt type, opt referenceModifier, .role .name variableName,
    opt (.seq (mark "=") (.role .value expression))]),
  (variadicParameter, seqs [attributes, opt type, opt referenceModifier, mark "...",
    .role .name variableName]),
  (type, choices [simpleType, unionType, intersectionType, mixedType]),
  (simpleType, choices [optionalType, namedType, primitiveType]),
  (namedType, choices [name, qualifiedName]),
  (optionalType, .seq (mark "?") (choices [namedType, primitiveType])),
  (unionType, separated "|" simpleType),
  (intersectionType, separated "&" simpleType),
  (mixedType, .weight (-1) (separated "|" (choices [parens intersectionType, simpleType]))),
  (primitiveType, choices [mark "array", word "callable", mark "iterable", mark "bool",
    mark "float", mark "int", mark "string", mark "void", mark "mixed", mark "false", mark "null",
    mark "true"]),
  (castType, choices [word "array", word "binary", word "bool", word "boolean", word "double",
    word "float", word "int", word "integer", word "object", word "real", word "string",
    word "unset"]),
  (constElement, seqs [nameOrReserved, mark "=", .role .value expression])]

end ClassOutline.Grammar
