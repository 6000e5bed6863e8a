import ClassOutline.Declaration.Basic
import ClassOutline.DocComment
import ClassOutline.TypeHint
/-
  ClassOutline.Model.Build — a class model from declarations.

  A class is looked up by its qualified name and gets the members recorded under the name
  it was declared with. A parent or interface is unresolved when neither the file declares
  it nor `known`, the names from outside the file, holds it. A body whose bounds do not fit
  the source is absent; nothing else depends on the bounds.
-/

namespace ClassOutline

open ClassOutline.Text

/-- Which qualified names are declared outside the file. -/
abbrev KnownNames := Text → Bool

def KnownNames.none : KnownNames := fun _ => false

def KnownNames.ofList (names : List Text) : KnownNames := names.contains

def Parameter.ofDecl (p : ParameterDecl) : Parameter :=
  .ofDefault p.name p.byReference p.variadic (TypeHint.ofSignature? p.signature) p.default

def Property.ofDecl (p : PropertyDecl) : Property :=
  ⟨p.name, p.default, p.visibility, p.isStatic, DocComment.linesOf p.doc⟩

/-- The body of a method: empty without one, absent when its bounds do not fit. -/
def MethodDecl.bodyText (m : MethodDecl) (ls : List Text) : Option Text :=
  match m.isAbstract, m.body with
  | false, some b => (Body.extract ls b).toOption
  | _, _ => some []

def Method.ofDecl (ls : List Text) (m : MethodDecl) : Method where
  name := m.name
  isAbstract := m.isAbstract
  isStatic := m.isStatic
  isFinal := m.isFinal
  returnsReference := m.returnsReference
  visibility := m.visibility
  parameters := m.parameters.map Parameter.ofDecl
  returnType := m.returnType
  doc := DocComment.linesOf m.doc
  body := m.bodyText ls

/-- The first parent and all interfaces of a header, in order. -/
def ClassDecl.references (c : ClassDecl) : List UnresolvedName :=
  c.parents.head?.toList.map (⟨·, .parent⟩) ++ c.interfaces.map (⟨·, .interface⟩)

def Declarations.isKnown (d : Declarations) (known : KnownNames) (fqn : Text) : Bool :=
  d.declares fqn || known fqn

namespace ClassModel

/-- Adds a member to the class it belongs to. -/
def addMember (ls : List Text) (c : ClassModel) : MemberDecl → ClassModel
  | .constant name value => { c with constants := c.constants.insert name value }
  | .property p => { c with properties := c.properties ++ [.ofDecl p] }
  | .method m => { c with methods := c.methods ++ [.ofDecl ls m] }

/-- A declared class without its members. -/
def ofHeader (d : Declarations) (known : KnownNames) (c : ClassDecl) : ClassModel :=
  { ClassModel.named c.name with
    isAbstract := c.isAbstract
    isFinal := c.isFinal
    parent := c.parents.head?
    interfaces := .ofList c.interfaces
    doc := DocComment.linesOf c.doc
    unresolved := c.references.filter fun r => !d.isKnown known r.name }

def ofDecl (d : Declarations) (ls : List Text) (known : KnownNames) (c : ClassDecl) : ClassModel :=
  (d.membersOf c.fqn).foldl (addMember ls) (ofHeader d known c)

/-- The model of the class declared under a qualified name, over the lines of the source. -/
def build? (d : Declarations) (ls : List Text) (known : KnownNames) (fqn : Text) : Option ClassModel :=
  (d.findClass? fqn).map (ofDecl d ls known)

end ClassModel
end ClassOutline
