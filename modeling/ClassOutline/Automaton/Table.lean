import ClassOutline.Automaton.State
/-
  ClassOutline.Automaton.Table — what to do in a state with the next terminal.

  A terminal can be shifted, or a complete item be reduced to its construct. Where both or
  several are possible, precedence decides: the higher level, and at equal levels the side of
  the production. What stays undecided is all kept, and the readings are followed side by
  side.
-/

namespace ClassOutline.Automaton

open ClassOutline.Grammar

/-- A construct made of the parts read last. -/
structure Reduction where
  construct : Nat
  weight : Int
  count : Nat
  parts : List Part
  deriving DecidableEq, Repr

inductive Action where
  /-- Reads the terminal; one that only goes on with a repetition is taken in no other way
      than by reducing first. -/
  | shift (state : Nat) (onlyRepeats : Bool)
  /-- Reads a comment, which belongs to no construct. -/
  | skip
  | reduce (r : Reduction)
  /-- The source is read. -/
  | accept
  /-- Looks for a way on from a source that fits nowhere. -/
  | recover
  deriving DecidableEq, Repr

def reductions : Array Reduction :=
  items.map fun i => ⟨i.construct, i.weight, i.parts.length, (i.parts.map (·.1)).reverse⟩

def completion (item : Nat) : Action :=
  match reductions[item]? with
  | some r => if r.construct == numberOfConstruct .file then .accept else .reduce r
  | none => .recover

/-! ## Reductions -/

/-- The actions for a terminal, with the level of the reductions among them, the sides these
    lean to, and whether something is to be decided. -/
structure Cell where
  actions : List Action
  level : Int
  leansLeft : Bool
  leansRight : Bool
  leansNowhere : Bool
  isContested : Bool

def Cell.empty : Cell := ⟨[], 0, false, false, false, false⟩

def Cell.leaning (c : Cell) : Option Side → Cell
  | some .left => { c with leansLeft := true }
  | some .right => { c with leansRight := true }
  | none => { c with leansNowhere := true }

/-- Adds the reduction of an item; of two levels the higher stays. -/
def Cell.addReduction (c : Cell) (i : Item) (a : Action) : Cell :=
  if c.actions.isEmpty then Cell.leaning { c with actions := [a], level := i.level } i.side
  else if c.level < i.level then Cell.leaning { Cell.empty with actions := [a], level := i.level } i.side
  else if i.level < c.level then c
  else
    Cell.leaning { c with
      actions := if c.actions.contains a then c.actions else c.actions ++ [a]
      isContested := true } i.side

/-- Of each construct, the productions without any symbol. -/
def emptyItems : Array (List Item) :=
  (Array.range definitions.size).map fun c =>
    (startItems (terminalCount + c)).filter Item.isComplete

/-- The complete items of a state with what may follow them, in the order in which their
    reductions are tried. -/
def completeItems (s : State) (c : Closure) : List (Nat × Item × Terminals) :=
  let own := (s.kernel.zip s.lookaheads).toList.filterMap fun (n, m) =>
    (items[n]?).bind fun i => if i.isComplete then some (n, i, m) else none
  let fresh := c.met.toList.flatMap fun x =>
    (emptyItems.getD x []).map fun i => (itemNumber i, i, c.lookaheads.getD x 0)
  (own ++ fresh).mergeSort fun (n, i, _) (n', i', _) => before n i n' i'
where
  before (n : Nat) (i : Item) (n' : Nat) (i' : Item) : Bool :=
    let k := i.parts.length
    let k' := i'.parts.length
    if k != k' then k < k'
    else if i.construct != i'.construct then i.construct < i'.construct
    else if i.weight != i'.weight then i.weight < i'.weight
    else n ≤ n'

def reductionRow (complete : List (Nat × Item × Terminals)) : Array Cell :=
  complete.foldl (fun row (n, i, m) =>
    (List.range terminalCount).foldl (fun row t =>
      if m.testBit t then row.modify t (·.addReduction i (completion n)) else row) row)
    (.replicate terminalCount .empty)

/-! ## Shifts against reductions -/

def Cell.addShift (c : Cell) (target : Nat) : Cell :=
  { c with
    actions := c.actions ++ [.shift target false]
    isContested := c.isContested || !c.actions.isEmpty }

/-- The kernel items that are to be decided between at a terminal. -/
def candidates (s : State) (t : Nat) : List Item :=
  (s.kernel.zip s.lookaheads).toList.filterMap fun (n, m) =>
    (items[n]?).bind fun i =>
      match i.next? with
      | some next =>
        if !i.parts.isEmpty && (firsts.getD next 0).testBit t then some i else none
      | none => if m.testBit t then some i else none

def isRepetition (construct : Nat) : Bool :=
  (definitions[construct - terminalCount]?.map (·.isRepetition)).getD false

/-- Whether every candidate is part of one and the same repetition. -/
def repeatOnly : List Item → Bool
  | [] => false
  | i :: is => isRepetition i.construct && is.all (·.construct == i.construct)

/-- Decides between a shift, which comes last, and the reductions before it. -/
def Cell.settle (c : Cell) (candidates : List Item) : List Action :=
  match c.actions.getLast? with
  | some (.shift target _) =>
    if repeatOnly candidates then c.actions.dropLast ++ [.shift target true]
    else
      let goingOn := candidates.filter (!·.isComplete)
      let isMore := goingOn.any (c.level < ·.level)
      let isLess := goingOn.any (·.level < c.level)
      if isMore && !isLess then [.shift target false]
      else if isLess && !isMore then c.actions.dropLast
      else if isMore || isLess then c.actions
      else if c.leansLeft && !c.leansRight && !c.leansNowhere then c.actions.dropLast
      else if c.leansRight && !c.leansLeft && !c.leansNowhere then [.shift target false]
      else c.actions
  | _ => c.actions

/-! ## Rows -/

structure Row where
  /-- By terminal. -/
  actions : Array (List Action)
  /-- By construct: the state behind it, or 0. -/
  gotos : Array Nat

/-- The state behind a closing tag. -/
def interludeState : Nat := 2

/-- Comments and interludes may stand in any state that is not inside an interlude. -/
def withExtras (number : Nat) (r : Row) : Row :=
  if !(r.actions.getD (numberOf .interludeEnd) []).isEmpty then r
  else
    let put (a : Action) (l : List Action) := if l.isEmpty then [a] else l
    ⟨(r.actions.modify (numberOf (.shape .closeTag)) (put (.shift interludeState false))).modify
        (numberOf (.shape .comment)) (put .skip),
      r.gotos.set! (numberOfConstruct .interlude - terminalCount) number⟩

def rowOf (number : Nat) (s : State) : Row :=
  let cells := s.transitions.foldl (fun row t =>
    if t.symbol < terminalCount then row.modify t.symbol (·.addShift t.target) else row)
    (reductionRow (completeItems s (closureOf s)))
  let actions := cells.mapIdx fun t c => if c.isContested then c.settle (candidates s t) else c.actions
  let gotos := s.transitions.foldl (fun row t =>
    if t.symbol < terminalCount then row else row.set! (t.symbol - terminalCount) t.target)
    (.replicate definitions.size 0)
  withExtras number ⟨actions, gotos⟩

/-- Tokens that are not looked for where the source fits nowhere, because another one would
    be read in their place. -/
def unsearched : List Terminal :=
  [.shape .textRun, .mark ".=", .mark "<<=", .shape .escape, .mark "\\u", .shape .quotedRun,
    .mark "<<<", .shape .newline, .shape .carriageReturn, .mark "<>", .mark "<=", .mark "<=>",
    .mark "<<", .interludeEnd]

/-- The row of state 0: all that is not an extra leads to recovery. -/
def errorRow (r : Row) : Row :=
  { r with
    actions := r.actions.mapIdx fun t l =>
      if l.isEmpty && !(unsearched.any (numberOf · == t)) then [.recover] else l }

/-- The rows of all states. -/
def stateRows : Array Row := (states.mapIdx rowOf).modify 0 errorRow

end ClassOutline.Automaton
