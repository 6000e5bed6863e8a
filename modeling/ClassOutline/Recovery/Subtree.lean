import ClassOutline.Automaton.Merge
/-
  ClassOutline.Recovery.Subtree — what was read, while it is not settled how.

  A subtree stands for a token or a construct between two places of the source. It knows what
  the faults in it cost, so that of several readings the cheapest can be kept: a token that
  had to be assumed has a price, and source that had to be skipped is charged by tokens,
  characters and lines.
-/

namespace ClassOutline.Recovery

open ClassOutline.Grammar ClassOutline.Automaton
open ClassOutline.Tree (Pos)

/-! ## Sources -/

/-- A source with what is asked of each place in it: the text from there on, the row and
    column, and the bytes before it. -/
structure Source where
  texts : Array Text
  places : Array Pos
  widths : Array Nat

def Source.addRest (s : Source) (t : Text) (p : Pos) (width : Nat) : Source :=
  ⟨s.texts.push t, s.places.push p, s.widths.push width⟩

def Source.extend : Source → Pos → Nat → Text → Source
  | s, p, w, [] => s.addRest [] p w
  | s, p, w, c :: r => (s.addRest (c :: r) p w).extend (p.step c) (w + c.utf8Size) r

def Source.of (t : Text) : Source := Source.extend ⟨#[], #[], #[]⟩ .origin 0 t

namespace Source

def textAt (s : Source) (i : Nat) : Text := s.texts.getD i []

def placeAt (s : Source) (i : Nat) : Pos := s.places.getD i .origin

/-- What it costs to skip the characters between two places. -/
def skipCost (s : Source) (i j : Nat) : Nat :=
  (s.widths.getD j 0 - s.widths.getD i 0) + 30 * ((s.placeAt j).row - (s.placeAt i).row)

end Source

/-! ## Costs -/

def tokenCost : Nat := 100

def recoveryCost : Nat := 500

def missingCost : Nat := 610

/-! ## Subtrees -/

inductive Label where
  | symbol (n : Nat)
  /-- Tokens skipped so far, on the way out of a fault. -/
  | skipped
  | error
  deriving DecidableEq, Repr

/-- Symbols by number, then what is skipped, then errors. -/
def Label.order : Label → Nat
  | .symbol n => n
  | .skipped => symbolCount
  | .error => symbolCount + 1

structure Subtree where
  label : Label
  first : Nat
  stop : Nat
  /-- How the children show. -/
  parts : List Part
  children : List Subtree
  childCount : Nat
  /-- Whether it stands between the parts of a construct. -/
  isExtra : Bool
  isMissing : Bool
  isVisible : Bool
  /-- What the faults inside cost. -/
  innerCost : Nat
  weight : Int
  /-- Nodes below it that show. -/
  visibleBelow : Nat
  /-- Nodes that show as parts of it. -/
  visibleParts : Nat
  /-- The labels of the heredocs open behind it, if it has a token that keeps track of them. -/
  memory : Option (List Text)

namespace Subtree

def cost (t : Subtree) : Nat := if t.isMissing then missingCost else t.innerCost

/-- How many nodes it makes. -/
def size (t : Subtree) : Nat :=
  t.visibleBelow + (if t.isVisible then 1 else 0) + (if t.label == .skipped then 1 else 0)

def isFault (l : Label) : Bool :=
  match l with
  | .symbol _ => false
  | _ => true

def token (n first stop : Nat) (memory : Option (List Text)) : Subtree where
  label := .symbol n
  first := first
  stop := stop
  parts := []
  children := []
  childCount := 0
  isExtra := n == numberOf .finish
  isMissing := false
  isVisible := (symbolKinds.getD n none).isSome
  innerCost := 0
  weight := 0
  visibleBelow := 0
  visibleParts := 0
  memory := memory

/-- A token assumed at a place. -/
def missing (n place : Nat) : Subtree :=
  { token n place place none with isExtra := false, isMissing := true }

/-- Characters that begin no token. -/
def unread (first stop : Nat) : Subtree :=
  { token 0 first stop none with label := .error, isExtra := false, isVisible := true }

/-! ## Branches -/

/-- What a branch gathers from its children, from left to right. -/
structure Tally where
  parts : List Part
  cost : Nat
  weight : Int
  visibleBelow : Nat
  visibleParts : Nat
  memory : Option (List Text)

/-- What a child costs in a fault, besides its own faults: every token that shows. -/
def skippedCost (c : Subtree) : Nat :=
  if c.isExtra || (c.label == .error && c.childCount == 0) then 0
  else if c.isVisible then tokenCost
  else if 0 < c.childCount then tokenCost * c.visibleParts
  else 0

def Tally.add (inFault : Bool) (t : Tally) (c : Subtree) : Tally :=
  let shows := (!c.isExtra && (t.parts.head?.bind (·.shown)).isSome) || c.isVisible
  { parts := if c.isExtra then t.parts else t.parts.tail
    cost := t.cost + (if c.label == .skipped then 0 else c.cost) +
      (if inFault then c.skippedCost else 0)
    weight := t.weight + c.weight
    visibleBelow := t.visibleBelow + c.visibleBelow + (if shows then 1 else 0)
    visibleParts := t.visibleParts +
      (if shows then 1 else if 0 < c.childCount then c.visibleParts else 0)
    memory := c.memory.or t.memory }

/-- A subtree over children; one without any stands at `place`. -/
def branch (s : Source) (label : Label) (parts : List Part) (weight : Int) (place : Nat)
    (children : List Subtree) : Subtree :=
  let inFault := isFault label
  let tally := children.foldl (Tally.add inFault) ⟨parts, 0, 0, 0, 0, none⟩
  let first := (children.head?.map (·.first)).getD place
  let stop := (children.getLast?.map (·.stop)).getD place
  { label := label
    first := first
    stop := stop
    parts := parts
    children := children
    childCount := children.length
    isExtra := false
    isMissing := false
    isVisible := match label with
      | .symbol n => (symbolKinds.getD n none).isSome
      | .skipped => false
      | .error => true
    innerCost := tally.cost + (if inFault then recoveryCost + s.skipCost first stop else 0)
    weight := tally.weight + weight
    visibleBelow := tally.visibleBelow
    visibleParts := tally.visibleParts
    memory := tally.memory }

/-! ## Choice -/

mutual

/-- Compares two readings of the same text, parent before children and left before right. -/
def order : Subtree → Subtree → Ordering
  | ⟨label, _, _, _, children, count, _, _, _, _, _, _, _, _⟩, b =>
    (compare label.order b.label.order).then
      ((compare count b.childCount).then (orderAll children b.children))

def orderAll : List Subtree → List Subtree → Ordering
  | a :: as, b :: bs => (order a b).then (orderAll as bs)
  | _, _ => .eq

end

/-- Whether the second of two readings is to be kept: the cheaper, then the weightier; of two
    faulty ones the later, else the smaller. -/
def prefersSecond (a b : Subtree) : Bool :=
  if b.cost < a.cost then true
  else if a.cost < b.cost then false
  else if a.weight < b.weight then true
  else if b.weight < a.weight then false
  else if 0 < a.cost then true
  else order a b == .gt

def choose (a b : Subtree) : Subtree := if prefersSecond a b then b else a

end Subtree

/-- The part of a list before its last extras, and these. -/
def splitTrailing (l : List Subtree) : List Subtree × List Subtree :=
  let extras := (l.reverse.takeWhile (·.isExtra)).reverse
  (l.take (l.length - extras.length), extras)

end ClassOutline.Recovery
