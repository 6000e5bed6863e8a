import ClassOutline.Token.Basic
/-
  ClassOutline.Discovery — classes and their namespaces, found in a token stream.

  Only anchors count: `class`, one white-space token and a name is a class; `namespace`
  followed, trivia aside, by a name opens a namespace path, and by `{` the global
  namespace. A path goes on for as long as a separator and a name follow it directly.
  The automaton (`step`) reads one token at a time and never looks ahead: a token that
  breaks an anchor is read again as if none had begun.
-/

namespace ClassOutline

/-- A class declaration found by its anchor; the line is that of its name. -/
structure FoundClass where
  scope : Text
  name : Text
  line : Nat
  deriving DecidableEq, Repr

/-- A name in a namespace; the global namespace is the empty text. -/
def qualify (scope name : Text) : Text := if scope.isEmpty then name else scope ++ '\\' :: name

def FoundClass.fqn (c : FoundClass) : Text := qualify c.scope c.name

namespace Discovery

/-- How much of an anchor has been read. -/
inductive Progress where
  | seeking
  /-- Behind `namespace`, with nothing but trivia since. -/
  | afterNamespace
  /-- Behind a segment of a namespace path. -/
  | inPath
  /-- Behind a segment and a separator. -/
  | afterSeparator
  | afterClass
  /-- Behind `class` and its white space. -/
  | afterClassBlank
  deriving DecidableEq, Repr

structure State where
  progress : Progress
  scope : Text
  deriving DecidableEq, Repr

def State.start : State := ⟨.seeking, []⟩

/-- Whether the token is the brace that opens a global namespace block. -/
def isOpenBrace (tok : Token) : Bool := tok.kind == .punct && tok.text == ['{']

/-- Reads a token outside every anchor. -/
def seek (scope : Text) (tok : Token) : State :=
  match tok.kind with
  | .namespaceKeyword => ⟨.afterNamespace, scope⟩
  | .classKeyword => ⟨.afterClass, scope⟩
  | _ => ⟨.seeking, scope⟩

def step (s : State) (tok : Token) : State × Option FoundClass :=
  match s.progress with
  | .afterNamespace =>
    if tok.kind.isTrivia then (s, none)
    else if tok.kind == .identifier then (⟨.inPath, tok.text⟩, none)
    else if isOpenBrace tok then (⟨.seeking, []⟩, none)
    else (seek s.scope tok, none)
  | .inPath =>
    if tok.kind == .nsSeparator then (⟨.afterSeparator, s.scope⟩, none) else (seek s.scope tok, none)
  | .afterSeparator =>
    if tok.kind == .identifier then (⟨.inPath, s.scope ++ '\\' :: tok.text⟩, none)
    else (seek s.scope tok, none)
  | .afterClass =>
    if tok.kind == .whitespace then (⟨.afterClassBlank, s.scope⟩, none) else (seek s.scope tok, none)
  | .afterClassBlank =>
    if tok.kind == .identifier then (⟨.seeking, s.scope⟩, some ⟨s.scope, tok.text, tok.line⟩)
    else (seek s.scope tok, none)
  | .seeking => (seek s.scope tok, none)

def run : State → List Token → List FoundClass
  | _, [] => []
  | s, tok :: rest =>
    let (s', found) := step s tok
    found.toList ++ run s' rest

/-- The classes of a token stream, in order. -/
def classes (tokens : List Token) : List FoundClass := run .start tokens

end Discovery
end ClassOutline
