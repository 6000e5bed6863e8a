import ClassOutline.Tree.Node
/-
  ClassOutline.Tree.Issue — what is wrong with a source.

  Every error and every missing token of a tree is an issue at its place; parts of the tree
  without any are not entered.
-/

namespace ClassOutline.Tree

/-- A fault at a line (from 1) and byte column (from 0). -/
structure Issue where
  line : Nat
  column : Nat
  message : Text
  deriving DecidableEq, Repr

namespace Node

/-- What is wrong with the node itself. -/
def fault? (n : Node) : Option Text :=
  if n.isError then some "Syntax error".toList
  else if n.missing then some ("Missing ".toList ++ n.kind.label)
  else none

def ownIssue (n : Node) : List Issue :=
  (n.fault?.map fun m => ⟨n.span.first.row + 1, n.span.first.column, m⟩).toList

mutual

/-- The issues of a tree, in source order. -/
def issues : Node → List Issue
  | ⟨kind, role, span, missing, children⟩ =>
    let n : Node := ⟨kind, role, span, missing, children⟩
    if n.hasIssue then n.ownIssue ++ issuesOf children else []

def issuesOf : List Node → List Issue
  | [] => []
  | n :: ns => n.issues ++ issuesOf ns

end

end Node
end ClassOutline.Tree
