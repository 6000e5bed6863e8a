import ClassOutline.Grammar.Language
/-
  ClassOutline.Automaton.Item — productions read up to some place.

  Of what was read an item keeps only what the node to be built needs. Productions that go
  on alike are therefore one item from there on, and their readings need not be told apart.
-/

namespace ClassOutline.Automaton

open ClassOutline.Grammar
open ClassOutline.Tree (Kind Role)

/-- How a part of a construct shows in its node, if that is not as usual, and its role. -/
structure Part where
  shown : Option Kind
  role : Option Role
  deriving DecidableEq, Hashable, Repr

structure Item where
  construct : Nat
  weight : Int
  /-- The parts read, last first, each with its symbol if that hands roles of its parts on. -/
  parts : List (Part × Option Nat)
  /-- The precedence behind the last part read. -/
  level : Int
  side : Option Side
  rest : List (Step Nat)
  deriving DecidableEq, Hashable, Repr

/-! ## Constructs that hand roles on -/

def isTransparentSymbol (symbol : Nat) : Bool := (symbolKinds.getD symbol none).isNone

/-- One round: a production with a role in it, or with a symbol that hands roles on. -/
def carriersAfter (carriers : Array Bool) : Array Bool :=
  carriers.mapIdx fun i known =>
    known || (isTransparentSymbol (terminalCount + i) && (productionsOf.getD i []).any fun p =>
      p.steps.any fun s => s.role.isSome ||
        (terminalCount ≤ s.symbol && carriers.getD (s.symbol - terminalCount) false))

def carriersIn : Nat → Array Bool → Array Bool
  | 0, carriers => carriers
  | rounds + 1, carriers => carriersIn rounds (carriersAfter carriers)

/-- The transparent constructs whose parts have roles in what the construct stands in. -/
def carriers : Array Bool := carriersIn 8 (.replicate definitions.size false)

def handsRolesOn (symbol : Nat) : Bool :=
  terminalCount ≤ symbol && carriers.getD (symbol - terminalCount) false

/-! ## Items -/

namespace Item

def start (construct : Nat) (p : Production Nat) : Item :=
  ⟨construct, p.weight, [], 0, none, p.steps⟩

/-- The item with the next symbol read. -/
def advance (i : Item) : Item :=
  match i.rest with
  | [] => i
  | s :: rest =>
    { i with
      parts := (⟨s.shown, s.role⟩, if handsRolesOn s.symbol then some s.symbol else none) :: i.parts
      level := s.level
      side := s.side
      rest := rest }

/-- The item and all that follow it. -/
def course : Nat → Item → List Item
  | 0, i => [i]
  | n + 1, i => i :: course n i.advance

def isComplete (i : Item) : Bool := i.rest.isEmpty

def next? (i : Item) : Option Nat := i.rest.head?.map (·.symbol)

/-- The symbol behind the next one. -/
def follow? (i : Item) : Option Nat := (i.rest.drop 1).head?.map (·.symbol)

end Item

def startItems (construct : Nat) : List Item :=
  (productionsOf.getD (construct - terminalCount) []).map (.start construct)

/-- The items of a list, each once, numbered in order. -/
structure Numbering where
  items : Array Item
  numbers : Std.HashMap Item Nat

def Numbering.add (n : Numbering) (i : Item) : Numbering :=
  if n.numbers.contains i then n else ⟨n.items.push i, n.numbers.insert i n.items.size⟩

def numbering : Numbering :=
  (List.range definitions.size).foldl (fun n c =>
    (startItems (terminalCount + c)).foldl (fun n i =>
      (i.course i.rest.length).foldl Numbering.add n) n) ⟨#[], {}⟩

def items : Array Item := numbering.items

def itemNumber (i : Item) : Nat := numbering.numbers.getD i 0

/-- What the construction of states asks of an item. -/
structure Entry where
  next : Option Nat
  follow : Option Nat
  /-- The item with the next symbol read. -/
  after : Nat

def entries : Array Entry := items.map fun i => ⟨i.next?, i.follow?, itemNumber i.advance⟩

/-- The first symbols of a construct, each with the item behind it. -/
def beginnings : Array (Array (Nat × Nat)) :=
  (Array.range definitions.size).map fun c =>
    ((startItems (terminalCount + c)).filterMap fun i =>
      i.next?.map fun s => (s, itemNumber i.advance)).toArray

end ClassOutline.Automaton
