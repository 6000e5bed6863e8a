import ClassOutline.Model.Ordered
/-
  ClassOutline.Model.Basic — the outline of a file's classes.

  A file groups its classes by namespace, in the order both were found; the empty name is
  the global namespace. Values, defaults, types and bodies are kept as they were written.
  Names of methods and classes are looked up ignoring case, names of properties exactly.
-/

namespace ClassOutline

open ClassOutline.Text

inductive Visibility where
  | isPublic
  | isProtected
  | isPrivate
  deriving DecidableEq, Repr

namespace Visibility

def keyword : Visibility → Text
  | .isPublic => "public".toList
  | .isProtected => "protected".toList
  | .isPrivate => "private".toList

/-- The visibility a modifier stands for, in any case; `var` is the old word for public. -/
def ofKeyword? (word : Text) : Option Visibility :=
  let w := lower word
  if w == "public".toList || w == "var".toList then some .isPublic
  else if w == "protected".toList then some .isProtected
  else if w == "private".toList then some .isPrivate
  else none

end Visibility

/-- The clause of a class header a name was written in. -/
inductive Clause where
  | parent
  | interface
  deriving DecidableEq, Repr

/-- A parent or interface that no known declaration matches. -/
structure UnresolvedName where
  name : Text
  clause : Clause
  deriving DecidableEq, Repr

structure Parameter where
  name : Text
  byReference : Bool
  variadic : Bool
  typeHint : Option Text
  isOptional : Bool
  default : Option Text
  deriving DecidableEq, Repr

/-- A parameter is optional when it has a default. -/
def Parameter.ofDefault (name : Text) (byReference variadic : Bool) (typeHint default : Option Text) :
    Parameter :=
  ⟨name, byReference, variadic, typeHint, default.isSome, default⟩

structure Property where
  name : Text
  default : Option Text
  visibility : Visibility
  isStatic : Bool
  doc : List Text
  deriving DecidableEq, Repr

structure Method where
  name : Text
  isAbstract : Bool
  isStatic : Bool
  isFinal : Bool
  returnsReference : Bool
  visibility : Visibility
  parameters : List Parameter
  returnType : Option Text
  doc : List Text
  /-- Empty for a method without a body, absent when the body could not be cut out. -/
  body : Option Text
  deriving DecidableEq, Repr

structure ClassModel where
  name : Text
  isAbstract : Bool
  isFinal : Bool
  parent : Option Text
  interfaces : NameSet
  doc : List Text
  constants : NameMap Text
  properties : List Property
  methods : List Method
  unresolved : List UnresolvedName
  deriving DecidableEq, Repr

namespace ClassModel

def named (name : Text) : ClassModel := ⟨name, false, false, none, .empty, [], .empty, [], [], []⟩

def method? (c : ClassModel) (name : Text) : Option Method :=
  c.methods.find? fun m => sameName m.name name

def property? (c : ClassModel) (name : Text) : Option Property :=
  c.properties.find? fun p => p.name == name

end ClassModel

/-- The classes of a file under their namespaces. -/
structure FileModel where
  groups : NameMap (List ClassModel)
  deriving DecidableEq, Repr

namespace FileModel

def empty : FileModel := ⟨.empty⟩

def classes (f : FileModel) (scope : Text) : List ClassModel := (f.groups.get? scope).getD []

/-- Appends a class to its namespace, which joins the file on its first class. -/
def add (f : FileModel) (scope : Text) (c : ClassModel) : FileModel :=
  ⟨f.groups.insert scope (f.classes scope ++ [c])⟩

def containsClass (f : FileModel) (scope name : Text) : Bool :=
  (f.classes scope).any fun c => sameName c.name name

def namespaceCount (f : FileModel) : Nat := f.groups.size

def classCount (f : FileModel) : Nat := (f.groups.entries.flatMap (·.2)).length

def isEmpty (f : FileModel) : Bool := f.groups.isEmpty

def classNames (f : FileModel) : List (Text × List Text) :=
  f.groups.entries.map fun g => (g.1, g.2.map (·.name))

/-- The classes of all groups, added in order; a group without classes leaves no trace. -/
def ofGroups (groups : List (Text × List ClassModel)) : FileModel :=
  groups.foldl (fun f g => g.2.foldl (fun f c => f.add g.1 c) f) empty

end FileModel
end ClassOutline
