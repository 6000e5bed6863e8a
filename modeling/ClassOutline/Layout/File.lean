import ClassOutline.Layout.Canonical
import ClassOutline.Layout.Declaration
/-
  ClassOutline.Layout.File — file models written as source.

  Groups are printed in order, each in canonical white space with two blank lines behind
  it. A named group gets a `namespace` line; the global group is put in a braced block
  when it is not the only one.
-/

namespace ClassOutline.Layout

open ClassOutline.Text

structure Options where
  unit : IndentUnit := .tab
  /-- Begin with an open tag. -/
  openTag : Bool := true
  deriving DecidableEq, Repr

def group (o : Options) (alone : Bool) (scope : Text) (classes : List ClassModel) : Text :=
  let rendered := join "\n\n\n".toList (classes.map (classText o.unit))
  if !scope.isEmpty then "namespace ".toList ++ scope ++ ";\n\n".toList ++ rendered
  else if alone then rendered
  else "namespace \x7b\n\n".toList ++ rendered ++ "\n\n\n\x7d".toList

def file (o : Options) (f : FileModel) : Text :=
  textIf o.openTag "<?php\n\n" ++
  (f.groups.entries.map fun g =>
    canonical (group o (f.namespaceCount ≤ 1) g.1 g.2) ++ "\n\n\n".toList).flatten

end ClassOutline.Layout
