import ClassOutline.Token.Lexer
import ClassOutline.Declaration.OfTree
import ClassOutline.Model.Build
import ClassOutline.Error
/-
  ClassOutline.Extraction — the outline of a source.

  The classes are those found in the token stream, in order; each is built from the
  declarations of the syntax tree. A class declared in a method of another found class
  stays in that method's text. Two classes of one name in a namespace, or a found class the
  tree does not declare, leave the file without an outline.
-/

namespace ClassOutline

open ClassOutline.Text

/-- The class whose method holds a found class: it was declared on the same line under the
    same name, and its owner is found, too. -/
def carrier? (d : Declarations) (found : List FoundClass) (c : FoundClass) : Option Text := do
  let decl ← d.classes.find? fun decl => decl.line == c.line && sameName decl.fqn c.fqn
  let owner ← decl.enclosing
  if found.any fun f => sameName f.fqn owner then some owner else none

/-- The classes that get a model of their own. -/
def ownClasses (d : Declarations) (found : List FoundClass) : List FoundClass :=
  found.filter fun c => (carrier? d found c).isNone

/-- Adds the models of classes to a file, until one cannot be built. -/
def FileModel.addAll (build : Text → Option ClassModel) :
    FileModel → List FoundClass → Except ExtractError FileModel
  | f, [] => .ok f
  | f, c :: cs =>
    if f.containsClass c.scope c.name then .error (.malformed c.fqn (.repeated c.line))
    else
      match build c.fqn with
      | none => .error (.malformed c.fqn .undeclared)
      | some m => addAll build (f.add c.scope m) cs

/-- The outline from declarations and found classes. -/
def FileModel.ofFound (source : Text) (known : KnownNames) (d : Declarations)
    (found : List FoundClass) : Except ExtractError FileModel :=
  FileModel.empty.addAll (ClassModel.build? d (lines source) known) (ownClasses d found)

/-- The outline of a source; one without classes is never parsed. -/
def extract (source : Text) (known : KnownNames) : Except ExtractError FileModel :=
  let found := Discovery.classes (Token.tokenize source)
  if found.isEmpty then .ok .empty
  else FileModel.ofFound source known (.ofSource source) found

end ClassOutline
