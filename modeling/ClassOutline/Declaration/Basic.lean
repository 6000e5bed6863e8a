import ClassOutline.Model.Basic
import ClassOutline.Body
/-
  ClassOutline.Declaration.Basic — the declarations of one file.

  Class-likes and members are kept in two lists, each member under the qualified name of
  the class that declares it. Names of classes are compared ignoring case; a look-up takes
  an exact match first.
-/

namespace ClassOutline

open ClassOutline.Text

inductive DeclarationKind where
  | isClass
  | isInterface
  | isTrait
  | isEnum
  deriving DecidableEq, Repr

/-- The kind a grammar's node name stands for. -/
def DeclarationKind.ofNodeName? (name : Text) : Option DeclarationKind :=
  if name == "class_declaration".toList then some .isClass
  else if name == "interface_declaration".toList then some .isInterface
  else if name == "trait_declaration".toList then some .isTrait
  else if name == "enum_declaration".toList then some .isEnum
  else none

structure ClassDecl where
  kind : DeclarationKind
  fqn : Text
  scope : Text
  name : Text
  isAbstract : Bool
  isFinal : Bool
  /-- Resolved names: at most one for a class, any number for an interface. -/
  parents : List Text
  interfaces : List Text
  doc : Option Text
  /-- The 1-based line of the name. -/
  line : Nat
  /-- The class whose method holds the declaration. -/
  enclosing : Option Text
  deriving DecidableEq, Repr

structure ParameterDecl where
  name : Text
  /-- The source up to and with the variable. -/
  signature : Text
  byReference : Bool
  variadic : Bool
  default : Option Text
  deriving DecidableEq, Repr

structure PropertyDecl where
  name : Text
  default : Option Text
  visibility : Visibility
  isStatic : Bool
  doc : Option Text
  deriving DecidableEq, Repr

structure MethodDecl where
  name : Text
  visibility : Visibility
  isAbstract : Bool
  isStatic : Bool
  isFinal : Bool
  returnsReference : Bool
  returnType : Option Text
  parameters : List ParameterDecl
  doc : Option Text
  body : Option Bounds
  deriving DecidableEq, Repr

inductive MemberDecl where
  | constant (name value : Text)
  | property (p : PropertyDecl)
  | method (m : MethodDecl)
  deriving DecidableEq, Repr

/-- A member and the qualified name of the class that declares it. -/
structure Member where
  owner : Text
  decl : MemberDecl
  deriving DecidableEq, Repr

structure Declarations where
  classes : List ClassDecl
  members : List Member
  deriving DecidableEq, Repr

namespace Declarations

def empty : Declarations := ⟨[], []⟩

def append (a b : Declarations) : Declarations := ⟨a.classes ++ b.classes, a.members ++ b.members⟩

instance : Append Declarations := ⟨append⟩

/-- The class, and nothing but a class, of a qualified name. -/
def findClass? (d : Declarations) (fqn : Text) : Option ClassDecl :=
  let classes := d.classes.filter (·.kind == .isClass)
  (classes.find? (·.fqn == fqn)).orElse fun _ => classes.find? (sameName ·.fqn fqn)

/-- Whether any class-like has the qualified name. -/
def declares (d : Declarations) (fqn : Text) : Bool := d.classes.any (sameName ·.fqn fqn)

def membersOf (d : Declarations) (fqn : Text) : List MemberDecl :=
  (d.members.filter (·.owner == fqn)).map (·.decl)

end Declarations
end ClassOutline
