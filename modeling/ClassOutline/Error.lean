import ClassOutline.Body
/-
  ClassOutline.Error — why a file has no outline.

  Each cause has one wording (`message`).
-/

namespace ClassOutline

open ClassOutline.Text

/-- Why a class cannot be outlined. -/
inductive ClassFault where
  /-- The tree declares no such class. -/
  | undeclared
  /-- The namespace already holds a class of that name; the line is that of this one. -/
  | repeated (line : Nat)
  deriving DecidableEq, Repr

/-- Why a file cannot be read. -/
inductive ReadFault where
  | isDirectory
  | notUtf8
  deriving DecidableEq, Repr

inductive ExtractError where
  | sourceNotFound (path : Text)
  | unreadable (path : Text) (fault : ReadFault)
  | malformed (fqn : Text) (fault : ClassFault)
  | badBounds (b : BadBounds)
  deriving DecidableEq, Repr

def natText (n : Nat) : Text := Nat.toDigits 10 n

def ClassFault.message : ClassFault → Text
  | .undeclared => "no class declaration found in the syntax tree".toList
  | .repeated line => "declared more than once (again on line ".toList ++ natText line ++ [')']

def ReadFault.message : ReadFault → Text
  | .isDirectory => "Is a directory (os error 21)".toList
  | .notUtf8 => "stream did not contain valid UTF-8".toList

def BadBounds.message (b : BadBounds) : Text :=
  "body bounds ".toList ++ natText b.first ++ "..".toList ++ natText b.last ++
    " outside source of ".toList ++ natText b.lineCount ++ " lines".toList

def ExtractError.message : ExtractError → Text
  | .sourceNotFound path => "source not found: ".toList ++ path
  | .unreadable path fault => "failed to read ".toList ++ path ++ ": ".toList ++ fault.message
  | .malformed fqn fault =>
    "malformed declaration of class `".toList ++ fqn ++ "`: ".toList ++ fault.message
  | .badBounds b => b.message

end ClassOutline
