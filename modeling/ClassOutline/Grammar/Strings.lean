import ClassOutline.Grammar.Expressions
/-
  ClassOutline.Grammar.Strings — the rules for strings, heredocs and commands.

  Text between quotation marks is cut into runs, escapes and the variables in it. A variable
  may stand alone, with one arrow or one index behind it, or as an expression in braces.
-/

namespace ClassOutline.Grammar

open Rule Construct

def content (t : Terminal) : Body := .shown (.lexeme "string_content".toList) (.token t)

/-- The parts of a text with variables in it: `run` is plain text and `behind` plain text
    that follows a variable with nothing attached to it. -/
def interpolated (run behind : Piece) (others : List Body) : Body :=
  .many1 (choices ([shape .escape, .seq variableName (piece behind), piece run, simplePart,
    complexPart, mark "\\u"] ++ others))

def stringRules : List (Construct × Body) := [
  (complexPart, braced expression),
  (simpleMemberAccess, levelled Level.member.value (seqs [variableName, mark "->", name])),
  (simpleNegation, leftAt 0 (.seq (mark "-") (shape .integer))),
  (simpleIndex, choices [shape .integer, simpleNegation, name, variableName]),
  (simpleSubscript, levelled Level.dereference.value
    (seqs [variableName, mark "[", simpleIndex, mark "]"])),
  (simplePart, choices [simpleMemberAccess, simpleVariable, simpleSubscript]),
  (stringBody, interpolated .stringRun .stringRunBehindVariable [content (.mark "'")]),
  (heredocPart, interpolated .heredocRun .heredocRunBehindVariable [content (.mark "'")]),
  (encapsedString, rightAt 0 (seqs [choices [shape .binaryQuote, mark "\""], opt stringBody,
    mark "\""])),
  (string, seqs [choices [shape .binaryApostrophe, mark "'"],
    many (choices [shape .quotedEscape, shape .quotedRun]), mark "'"]),
  (heredocBody, .seq lineBreak (.many1 (rightAt 0 (.seq (opt lineBreak) heredocPart)))),
  (heredoc, seqs [mark "<<<",
    choices [piece .heredocLabel,
      seqs [mark "\"", piece .heredocLabel, .token (.adjoined "\"")]],
    choices [.seq heredocBody lineBreak, opt heredocBody], piece .heredocClose]),
  (lineBreak, choices [shape .newline, shape .carriageReturn]),
  (nowdocBody, .seq lineBreak (.many1 (piece .nowdocRun))),
  (nowdoc, seqs [mark "<<<", mark "'", piece .heredocLabel, .token (.adjoined "'"),
    choices [.seq nowdocBody lineBreak, opt nowdocBody], piece .heredocClose]),
  (commandBody, interpolated .commandRun .commandRunBehindVariable []),
  (command, seqs [mark "`", opt commandBody, mark "`"]),
  (boolean, shape .truth),
  (null, word "null"),
  (anyString, choices [encapsedString, string, heredoc, nowdoc])]

end ClassOutline.Grammar
