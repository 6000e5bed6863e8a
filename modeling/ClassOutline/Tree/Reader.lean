import ClassOutline.Plain.Statement
import ClassOutline.Recovery.Outline
/-
  ClassOutline.Tree.Reader — the syntax tree of a source.

  A plain source is read token by token. Where that reader is not certain, because the
  source is broken or needs more than a look at the next tokens, it refuses the source, and
  the machine that follows all readings at once finds the tree.
-/

namespace ClassOutline.Tree

/-- The tree of a source. -/
def read (source : Text) : Node :=
  match Plain.read? source with
  | some n => n
  | none => Recovery.read source

end ClassOutline.Tree
