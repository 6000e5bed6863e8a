import ClassOutline.Discovery
/-
  ClassOutline.Declaration.Scope — what a class name means where it is written.

  A scope is a namespace and the imports made in it. A name with a leading separator is
  fully qualified; one that begins with `namespace` belongs to the current namespace; the
  three words for classes around are themselves; any other takes the first import that its
  first segment names, ignoring case, and else the current namespace.
-/

namespace ClassOutline

open ClassOutline.Text

structure Import where
  fqn : Text
  localName : Option Text
  deriving DecidableEq, Repr

/-- The text behind the last separator. -/
def lastSegment (fqn : Text) : Text := (fqn.reverse.takeWhile (· != '\\')).reverse

/-- The name an import is used by. -/
def Import.visibleName (i : Import) : Text := i.localName.getD (lastSegment i.fqn)

structure Scope where
  namespaceName : Text
  imports : List Import
  deriving DecidableEq, Repr

namespace Scope

def inNamespace (name : Text) : Scope := ⟨name, []⟩

def addImports (s : Scope) (is : List Import) : Scope := { s with imports := s.imports ++ is }

def relativeHead : Text := "namespace\\".toList

/-- The words that name a class by its place. -/
def placeWords : List Text := ["self".toList, "static".toList, "parent".toList]

/-- Whether a name is relative to the current namespace. -/
def isRelative (name : Text) : Bool :=
  relativeHead.length < name.length && lower (name.take relativeHead.length) == relativeHead

/-- The qualified name a written class name stands for. -/
def resolve (s : Scope) (name : Text) : Text :=
  match name with
  | '\\' :: absolute => absolute
  | _ =>
    if isRelative name then qualify s.namespaceName (name.drop relativeHead.length)
    else if placeWords.contains (lower name) then name
    else
      let first := name.takeWhile (· != '\\')
      match s.imports.find? fun i => sameName i.visibleName first with
      | some i => i.fqn ++ name.drop first.length
      | none => qualify s.namespaceName name

end Scope
end ClassOutline
