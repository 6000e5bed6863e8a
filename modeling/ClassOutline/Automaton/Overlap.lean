import ClassOutline.Automaton.Lookahead
/-
  ClassOutline.Automaton.Overlap — tokens that can be taken for others.

  A state that has a use for one token may be given a use for another as well, as long as the
  other can never be found in place of the first. `overlaps` lists where it can: where one
  text begins with the other, or both patterns match the same text.
-/

namespace ClassOutline.Automaton

open ClassOutline.Grammar

/-- Of a token, those in whose place it can be found. -/
def overlaps : List (Terminal × List Terminal) :=
  let name : Terminal := .shape .name
  let angle : Terminal := .shape .textAngle
  (Terminal.separateWords.map fun w => (.word w, [name])) ++ [
    -- Words
    (name, [.word "namespace", .word "null", .shape .truth, .shape .float]),
    (.shape .truth, [name]),
    (.shape .binaryQuote, [name]),
    (.shape .binaryApostrophe, [name]),
    (.mark "namespace", [.word "namespace"]),
    (.mark "array", [.word "array"]),
    (.mark "bool", [.word "bool"]),
    (.mark "float", [.word "float"]),
    (.mark "int", [.word "int"]),
    (.mark "string", [.word "string"]),
    (.mark "unset", [.word "unset"]),
    (.mark "null", [.word "null"]),
    (.mark "true", [.shape .truth]),
    (.mark "false", [.shape .truth]),
    (.word "interface", [.mark "int"]),
    (.word "integer", [.mark "int"]),
    (.word "boolean", [.mark "bool"]),
    (.word "double", [.word "do"]),
    (.word "finally", [.word "final"]),
    (.word "elseif", [.word "else"]),
    (.word "include_once", [.word "include"]),
    (.word "require_once", [.word "require"]),
    -- Numbers and dots
    (.shape .float, [.shape .integer, name]),
    (.mark ".", [.shape .float]),
    (.mark ".=", [.shape .float]),
    (.mark "...", [.shape .float, .mark "."]),
    -- Angles
    (.shape .openTag, [angle]),
    (.mark "<", [angle]),
    (.mark "<>", [angle]),
    (.mark "<=", [angle]),
    (.mark "<=>", [angle]),
    (.mark "<<", [angle, .mark "<"]),
    (.mark "<<=", [angle, .mark "<"]),
    (.mark "<<<", [angle, .mark "<", .mark "<<"]),
    -- Other signs
    (.mark "--", [.mark "-"]),
    (.mark "++", [.mark "+"]),
    (.mark "?->", [.mark "?"]),
    (.mark "#[", [.shape .comment]),
    (.shape .comment, [.mark "/"]),
    (.mark "\\u", [.mark "\\"]),
    (.shape .escape, [.mark "\\", .mark "\\u", .shape .quotedEscape]),
    (.adjoined "(", [.mark "("]),
    (.adjoined "\"", [.mark "\""]),
    (.adjoined "'", [.mark "'"])]

/-- Text, which can be found in place of any other token. -/
def texts : List Terminal := [.shape .textRun, .shape .quotedRun]

/-- Line breaks are separators elsewhere; only what can stand behind a variable in a heredoc
    is looked for together with them. -/
def lineBreaks : List Terminal := [.shape .newline, .shape .carriageReturn]

def besideLineBreaks : List Terminal := [.mark "->", .mark "["]

def lexicalTerminals : List Terminal := terminals.toList.filter Terminal.isLexical

/-- By terminal: the tokens in whose place it can be found. -/
def overlapped : Array Terminals :=
  let row := terminals.map fun t =>
    if texts.contains t then Terminals.ofList lexicalTerminals
    else if lineBreaks.contains t then
      .ofList (lexicalTerminals.filter (!besideLineBreaks.contains ·))
    else 0
  overlaps.foldl (fun row (t, ts) => row.modify (numberOf t) (· ||| Terminals.ofList ts)) row

/-- The terminals by which states are told apart: those that overlap, those that are not found
    by their text, and two that many lists go on with. -/
def distinguishing : Terminals :=
  Terminals.ofList (.interludeEnd :: .mark "," :: .mark "&" :: pieces.map .piece) |||
    Terminals.ofList (overlaps.flatMap fun (t, ts) => t :: ts)

end ClassOutline.Automaton
