import ClassOutline.Text.Blank
/-
  ClassOutline.DocComment — documentation blocks as lines of text.

  `decode?` takes the delimiters and each line's leading star away and drops blank lines at
  both ends; a block without text documents nothing. `block` writes lines back as a block.
-/

namespace ClassOutline.DocComment

open ClassOutline.Text

/-- The inside of a block comment; each delimiter is taken off only if it is there. -/
def inside (comment : Text) : Text :=
  let body := ((after? "/**".toList comment).orElse fun _ => after? "/*".toList comment).getD comment
  dropTail "*/".toList body

/-- A line without its leading star and the blanks around both. -/
def lineText (line : Text) : Text := trimBlank (dropHead ['*'] (trimBlank line))

/-- The lines of a block, from the first that holds text to the last. -/
def decode? (comment : Text) : Option (List Text) :=
  let ls := (lines (inside (trimBlank comment))).map lineText
  let kept := ((ls.reverse.dropWhile List.isEmpty).reverse).dropWhile List.isEmpty
  if kept.isEmpty then none else some kept

/-- The documented lines of a comment that may be absent. -/
def linesOf (comment : Option Text) : List Text := (comment.bind decode?).getD []

def blockLine (line : Text) : Text :=
  if line.isEmpty then " *\n".toList else " * ".toList ++ line ++ ['\n']

/-- A documentation block of these lines, ready to stand before a declaration. -/
def block (ls : List Text) : Text :=
  if ls.isEmpty then [] else "/**\n".toList ++ (ls.map blockLine).flatten ++ " */\n".toList

end ClassOutline.DocComment
