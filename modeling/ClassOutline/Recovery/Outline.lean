import ClassOutline.Recovery.Machine
/-
  ClassOutline.Recovery.Outline — the syntax tree of any source.

  What does not show gives way to its parts. A role of something that does not show is the
  role of each of its parts that has none of its own.
-/

namespace ClassOutline.Recovery

open ClassOutline.Automaton
open ClassOutline.Tree (Kind Role Node Span)

def kindOf (label : Label) (cost : Nat) : Kind :=
  match label with
  | .symbol n => ((Grammar.symbolKinds.getD n none).getD .phrase)
  | .skipped => .phrase
  | .error => if cost == 0 then .unread else .error

mutual

/-- Puts the nodes of a subtree before others. -/
def outline (src : Source) (shown : Option Kind) (role : Option Role) : Subtree → List Node → List Node
  | ⟨label, first, stop, parts, children, _, _, isMissing, isVisible, cost, _, _, _, _⟩, rest =>
    if label == .symbol (Grammar.numberOf .finish) then rest
    else if shown.isSome || isVisible then
      ⟨shown.getD (kindOf label cost), role, ⟨src.placeAt first, src.placeAt stop⟩, isMissing,
        outlineAll src none children parts []⟩ :: rest
    else outlineAll src role children parts rest

/-- Puts the nodes of the children of something before others. -/
def outlineAll (src : Source) (role : Option Role) : List Subtree → List Part → List Node → List Node
  | [], _, rest => rest
  | t :: ts, parts, rest =>
    if t.isExtra then outline src none none t (outlineAll src role ts parts rest)
    else
      let part := parts.head?.getD ⟨none, none⟩
      outline src part.shown (part.role.or role) t (outlineAll src role ts parts.tail rest)

end

/-- The syntax tree of a source, which has a tree whatever it is. -/
def read (source : Text) : Node :=
  let src := Source.of source
  match (bestTree src).map fun t => outline src none none t [] with
  | some (n :: _) => n
  | _ => ⟨.error, none, ⟨src.placeAt 0, src.placeAt source.length⟩, false, []⟩

end ClassOutline.Recovery
