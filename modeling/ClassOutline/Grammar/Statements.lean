import ClassOutline.Grammar.Declarations
/-
  ClassOutline.Grammar.Statements — the rules for statements.

  A statement ends with a semicolon or, without one, before a closing tag.
-/

namespace ClassOutline.Grammar

open Rule Construct

/-- How tightly operators bind. -/
inductive Level where
  | comma | orWord | xorWord | andWord | assignment | ternary | coalesce | orSign | andSign
  | bitOr | bitXor | bitAnd | equality | inequality | concatenation | shift | plus | times | power
  | negation | instanceOf | increment | scope | creation | call | member | dereference

def Level.value : Level → Int
  | .comma => -1
  | .orWord => 1
  | .xorWord => 2
  | .andWord => 3
  | .assignment => 4
  | .ternary => 5
  | .coalesce => 6
  | .orSign => 7
  | .andSign => 8
  | .bitOr => 9
  | .bitXor => 10
  | .bitAnd => 11
  | .equality => 12
  | .inequality => 13
  | .concatenation => 14
  | .shift => 15
  | .plus => 16
  | .times => 17
  | .power => 18
  | .negation => 19
  | .instanceOf => 20
  | .increment => 21
  | .scope => 22
  | .creation => 23
  | .call => 24
  | .member => 25
  | .dereference => 26

/-- A body behind a colon, up to the word that ends it. -/
def colonForm (body : Body) (ending : String) : Body := seqs [body, word ending, semicolon]

def statementRules : List (Construct × Body) := [
  (echoStatement, seqs [word "echo", expressions, semicolon]),
  (exitStatement, seqs [word "exit", opt (parens (opt expression)), semicolon]),
  (unsetStatement, seqs [mark "unset", parens (.seq (commaList anyVariable) (opt (mark ","))),
    semicolon]),
  (declareStatement, seqs [word "declare", parens declareDirective, choices [statement,
    colonForm (.seq (mark ":") (many statement)) "enddeclare", semicolon]]),
  (declareDirective, seqs [choices [mark "ticks", mark "encoding", mark "strict_types"], mark "=",
    literal]),
  (literal, choices [shape .float, shape .integer, anyString, boolean, null]),
  (tryStatement, seqs [word "try", compound, .many1 (choices [catchClause, finallyClause])]),
  (catchClause, seqs [word "catch", parens (.seq typeList (opt variableName)), compound]),
  (typeList, separated "|" namedType),
  (finallyClause, .seq (word "finally") compound),
  (gotoStatement, seqs [word "goto", name, semicolon]),
  (continueStatement, seqs [word "continue", opt expression, semicolon]),
  (breakStatement, seqs [word "break", opt expression, semicolon]),
  (returnStatement, seqs [word "return", opt expression, semicolon]),
  (throwExpression, .seq (word "throw") expression),
  (whileStatement, seqs [word "while", parenthesized, choices [statement,
    colonForm colonBlock "endwhile"]]),
  (doStatement, seqs [word "do", statement, word "while", parenthesized, semicolon]),
  (forStatement, seqs [word "for", parens (seqs [opt expressions, mark ";", opt expressions,
    mark ";", opt expressions]), choices [semicolon, statement,
    colonForm (.seq (mark ":") (many statement)) "endfor"]]),
  (expressions, choices [expression, sequence]),
  (sequence, levelled Level.comma.value
    (seqs [expression, mark ",", choices [sequence, expression]])),
  (foreachStatement, seqs [word "foreach",
    parens (seqs [expression, word "as", choices [foreachPair, foreachValue]]),
    choices [semicolon, statement, colonForm colonBlock "endforeach"]]),
  (foreachPair, seqs [expression, mark "=>", foreachValue]),
  (foreachValue, choices [byReference, expression, listPattern]),
  (ifStatement, seqs [word "if", parenthesized, choices [
    seqs [statement, many elseIfClause, opt elseClause],
    seqs [colonBlock, many elseIfColonClause, opt elseColonClause, word "endif", semicolon]]]),
  (colonBlock, .seq (mark ":") (many statement)),
  (elseIfClause, seqs [word "elseif", parenthesized, statement]),
  (elseClause, .seq (word "else") statement),
  (elseIfColonClause, seqs [word "elseif", parenthesized, colonBlock]),
  (elseColonClause, .seq (word "else") colonBlock),
  (matchExpression, seqs [word "match", parenthesized, matchBlock]),
  (matchBlock, leftAt 0 (braced
    (.seq (opt (commaList (choices [matchArm, matchDefault]))) (opt (mark ","))))),
  (matchConditions, .seq (commaList expression) (opt (mark ","))),
  (matchArm, seqs [matchConditions, mark "=>", expression]),
  (matchDefault, seqs [word "default", mark "=>", expression]),
  (switchStatement, seqs [word "switch", parenthesized, switchBlock]),
  (switchBlock, choices [braced (many (choices [caseStatement, defaultStatement])),
    seqs [mark ":", many (choices [caseStatement, defaultStatement]), word "endswitch",
      semicolon]]),
  (caseStatement, seqs [word "case", expression, choices [mark ":", semicolon], many statement]),
  (defaultStatement, seqs [word "default", choices [mark ":", semicolon], many statement]),
  (compound, braced (many statement)),
  (label, .seq name (mark ":")),
  (expressionStatement, .seq expression semicolon)]

end ClassOutline.Grammar
