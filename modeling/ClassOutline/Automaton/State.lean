import ClassOutline.Automaton.Overlap
/-
  ClassOutline.Automaton.State — the states a reader of the language can be in.

  A state is a set of items with the terminals that may follow each. Two states with the same
  items are told apart only by the `distinguishing` terminals among what may follow; their
  other terminals are united. State 0 is for sources that fit
  nowhere, state 1 is the beginning, and state 2 stands behind a closing tag.
-/

namespace ClassOutline.Automaton

open ClassOutline.Grammar

/-- Where an item of the next state comes from: an item of this state, or the beginning of a
    construct. -/
inductive Origin where
  | item (i : Nat)
  | construct (c : Nat)

structure Transition where
  symbol : Nat
  target : Nat
  /-- For each item of the target, where it comes from. -/
  origins : Array (List Origin)

structure State where
  /-- Numbers of items, ascending. -/
  kernel : Array Nat
  /-- What may follow each of them. -/
  lookaheads : Array Terminals
  transitions : Array Transition
  explored : Bool

/-! ## Inside a state -/

/-- What may follow each construct that can begin here, and these constructs in the order
    they are met. -/
structure Closure where
  lookaheads : Array Terminals
  reached : Array Bool
  met : Array Nat

def Closure.empty : Closure :=
  ⟨.replicate definitions.size 0, .replicate definitions.size false, #[]⟩

def Closure.add (f : Terminals) (c : Closure) (a : Addition) : Closure :=
  let more := if a.toEnd then a.lookahead ||| f else a.lookahead
  if c.reached.getD a.construct false then
    { c with lookaheads := c.lookaheads.modify a.construct (· ||| more) }
  else
    ⟨c.lookaheads.set! a.construct more, c.reached.set! a.construct true, c.met.push a.construct⟩

/-- Puts what may follow a construct to what is known of it. -/
def addFollow (construct : Nat) (f : Terminals) :
    List (Nat × Terminals) → List (Nat × Terminals)
  | [] => [(construct, f)]
  | (c, g) :: rest =>
    if c == construct then (c, g ||| f) :: rest else (c, g) :: addFollow construct f rest

/-- The constructs that the items of a state go on with, and what may follow these. -/
def nextConstructs (s : State) : List (Nat × Terminals) :=
  (s.kernel.zip s.lookaheads).foldl (fun known (i, lookahead) =>
    match entries[i]? with
    | some ⟨some next, follow, _⟩ =>
      if next < terminalCount then known
      else
        let f := match follow with
          | some x => firsts.getD x 0
          | none => lookahead
        addFollow (next - terminalCount) f known
    | _ => known) []

def closureOf (s : State) : Closure :=
  (nextConstructs s).foldl (fun c (next, f) =>
    (additions.getD next #[]).foldl (Closure.add f) c) .empty

def Origin.lookahead (s : State) (c : Closure) : Origin → Terminals
  | .item i => s.lookaheads.getD i 0
  | .construct x => c.lookaheads.getD x 0

/-! ## From state to state -/

/-- The items behind each symbol, with their origins, and the symbols in the order they are
    met. -/
structure Moves where
  behind : Array (List (Nat × Origin))
  met : Array Nat

def Moves.add (m : Moves) (symbol item : Nat) (o : Origin) : Moves :=
  let known := m.behind.getD symbol []
  ⟨m.behind.set! symbol ((item, o) :: known), if known.isEmpty then m.met.push symbol else m.met⟩

def movesOf (s : State) (c : Closure) : Moves :=
  let own := (List.range s.kernel.size).foldl (fun m i =>
    match entries[s.kernel.getD i 0]? with
    | some ⟨some next, _, after⟩ => m.add next after (.item i)
    | _ => m) (⟨.replicate symbolCount [], #[]⟩ : Moves)
  c.met.foldl (fun m x =>
    (beginnings.getD x #[]).foldl (fun m (next, after) => m.add next after (.construct x)) m) own

/-- Puts an origin to its item in an ascending list. -/
def insertOrigin (item : Nat) (o : Origin) : List (Nat × List Origin) → List (Nat × List Origin)
  | [] => [(item, [o])]
  | (x, os) :: rest =>
    if item < x then (item, [o]) :: (x, os) :: rest
    else if item == x then (x, o :: os) :: rest
    else (x, os) :: insertOrigin item o rest

/-! ## All states -/

structure Builder where
  states : Array State
  /-- States by items and what tells them apart. -/
  numbers : Std.HashMap (Array Nat × Array Terminals) Nat
  queue : Array Nat
  isQueued : Array Bool

namespace Builder

def empty : Builder := ⟨#[], {}, #[], #[]⟩

/-- Adds terminals to what may follow the items of a state, which is looked at again if any
    is new. -/
def widen (b : Builder) (n : Nat) (lookaheads : Array Terminals) : Builder :=
  match b.states[n]? with
  | none => b
  | some s =>
    let wider := s.lookaheads.zipWith (· ||| ·) lookaheads
    if wider == s.lookaheads then b
    else
      { b with
        states := b.states.set! n { s with lookaheads := wider }
        queue := if b.isQueued.getD n false then b.queue else b.queue.push n
        isQueued := b.isQueued.set! n true }

/-- The number of a state with these items and lookaheads, which is made if it is new. -/
def stateFor (b : Builder) (kernel : Array Nat) (lookaheads : Array Terminals) : Nat × Builder :=
  let key := (kernel, lookaheads.map (· &&& distinguishing))
  match b.numbers[key]? with
  | some n => (n, b.widen n lookaheads)
  | none =>
    let n := b.states.size
    (n, ⟨b.states.push ⟨kernel, lookaheads, #[], false⟩, b.numbers.insert key n, b.queue.push n,
      b.isQueued.push true⟩)

def lookaheadsFrom (s : State) (c : Closure) (origins : Array (List Origin)) : Array Terminals :=
  origins.map fun os => os.foldl (fun m o => m ||| o.lookahead s c) 0

/-- The transitions of a state that is looked at for the first time. -/
def explore (b : Builder) (s : State) (c : Closure) : Array Transition × Builder :=
  let moves := movesOf s c
  moves.met.foldl (fun (ts, b) symbol =>
    let behind := (moves.behind.getD symbol []).foldl (fun l (i, o) => insertOrigin i o l) []
    let origins := (behind.map (·.2)).toArray
    let (target, b) := b.stateFor (behind.map (·.1)).toArray (lookaheadsFrom s c origins)
    (ts.push ⟨symbol, target, origins⟩, b)) (#[], b)

/-- Looks at a state: hands what may follow its items on to the states behind it. -/
def visit (b : Builder) (n : Nat) : Builder :=
  match b.states[n]? with
  | none => b
  | some s =>
    let c := closureOf s
    let b := { b with isQueued := b.isQueued.set! n false }
    if s.explored then
      s.transitions.foldl (fun b t => b.widen t.target (lookaheadsFrom s c t.origins)) b
    else
      let (transitions, b) := b.explore s c
      { b with
        states := b.states.modify n ({ · with transitions := transitions, explored := true }) }

/-- Looks at every state in the queue, from place `i` on. -/
def run : Nat → Nat → Builder → Builder
  | 0, _, b => b
  | fuel + 1, i, b =>
    match b.queue[i]? with
    | none => b
    | some n => run fuel (i + 1) (b.visit n)

end Builder

/-- The items behind the closing tag of an interlude. -/
def interludeKernel : List Nat :=
  (unseenItems ((startItems (numberOfConstruct .interlude)).map fun i => itemNumber i.advance))
where
  unseenItems (l : List Nat) : List Nat := l.eraseDups.mergeSort (· ≤ ·)

def fileKernel : List Nat := (startItems (numberOfConstruct .file)).map itemNumber

def states : Array State :=
  let (_, b) := Builder.empty.stateFor #[] #[]
  let (_, b) := b.stateFor fileKernel.toArray #[Terminals.only (numberOf .finish)]
  let (_, b) := b.stateFor interludeKernel.toArray
    (interludeKernel.map fun _ => Terminals.only (numberOf .interludeEnd)).toArray
  (b.run 100000 0).states

end ClassOutline.Automaton
