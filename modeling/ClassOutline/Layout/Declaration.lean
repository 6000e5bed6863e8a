import ClassOutline.Model.Basic
import ClassOutline.DocComment
import ClassOutline.Layout.Indent
/-
  ClassOutline.Layout.Declaration — class models written as source.

  A class is its documentation, its header and a body of up to three sections: constants on
  lines of their own, properties one blank line apart, methods two. Names of parents and
  interfaces are written fully qualified, with a leading separator. A method body is moved
  to its place by `dedent` and `indent`; everything else is written as the model holds it.
-/

namespace ClassOutline.Layout

open ClassOutline.Text

/-- The text if the flag is set. -/
def textIf (flag : Bool) (t : String) : Text := if flag then t.toList else []

def parameter (p : Parameter) : Text :=
  (match p.typeHint with | some t => t ++ [' '] | none => []) ++
  textIf p.byReference "&" ++ textIf p.variadic "..." ++ '$' :: p.name ++
  (match p.default with | some d => " = ".toList ++ d | none => [])

def constant (name value : Text) : Text :=
  "const ".toList ++ name ++ " = ".toList ++ value ++ [';']

def property (p : Property) : Text :=
  DocComment.block p.doc ++ p.visibility.keyword ++ textIf p.isStatic " static" ++
  " $".toList ++ p.name ++
  (match p.default with | some d => " = ".toList ++ d | none => []) ++ [';']

def methodHeader (m : Method) : Text :=
  DocComment.block m.doc ++ textIf m.isAbstract "abstract " ++ textIf m.isFinal "final " ++
  m.visibility.keyword ++ [' '] ++ textIf m.isStatic "static " ++ "function ".toList ++
  textIf m.returnsReference "&" ++ m.name ++
  '(' :: join ", ".toList (m.parameters.map parameter) ++ [')'] ++
  (match m.returnType with | some t => ": ".toList ++ t | none => [])

/-- A body between braces of its own lines, one level in. -/
def block (u : IndentUnit) (body : Text) : Text :=
  let inner := dedent body
  "\n\x7b\n".toList ++ (if inner.isEmpty then [] else indent u inner ++ ['\n']) ++ ['}']

def method (u : IndentUnit) (m : Method) : Text :=
  methodHeader m ++ if m.isAbstract then [';'] else block u (m.body.getD [])

def classHeader (c : ClassModel) : Text :=
  DocComment.block c.doc ++ textIf c.isAbstract "abstract " ++ textIf c.isFinal "final " ++
  "class ".toList ++ c.name ++
  (match c.parent with | some p => " extends \\".toList ++ p | none => []) ++
  if c.interfaces.items.isEmpty then []
  else " implements ".toList ++ join ", ".toList (c.interfaces.items.map ('\\' :: ·))

/-- The sections of a class body, those without members left out. -/
def sections (u : IndentUnit) (c : ClassModel) : List Text :=
  (if c.constants.isEmpty then []
   else [join "\n".toList (c.constants.entries.map fun e => constant e.1 e.2)]) ++
  (if c.properties.isEmpty then [] else [join "\n\n".toList (c.properties.map property)]) ++
  (if c.methods.isEmpty then [] else [join "\n\n\n".toList (c.methods.map (method u))])

def classText (u : IndentUnit) (c : ClassModel) : Text :=
  let members := sections u c
  classHeader c ++ "\n\x7b\n".toList ++
  (if members.isEmpty then []
   else '\n' :: indent u (join "\n\n".toList members) ++ "\n\n".toList) ++ ['}']

end ClassOutline.Layout
