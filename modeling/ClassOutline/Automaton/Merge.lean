import ClassOutline.Automaton.Table
/-
  ClassOutline.Automaton.Merge — states that need not be told apart.

  States with the same items become one, unless they would do different things with a
  terminal, or a terminal that only one of them has a use for overlaps with one of the
  other's, or the states behind them are not one.
-/

namespace ClassOutline.Automaton

open ClassOutline.Grammar

/-- Groups of states, with the group of each. -/
structure Partition where
  groups : Array (List Nat)
  groupOf : Array Nat

/-- States with the same items. -/
def Partition.byItems : Partition :=
  let groupFor (p : Std.HashMap (Array Nat) Nat × Partition) (n : Nat) (s : State) :=
    match p.1[s.kernel]? with
    | some g => (p.1, ⟨p.2.groups.modify g (· ++ [n]), p.2.groupOf.push g⟩)
    | none =>
      let g := p.2.groups.size
      (p.1.insert s.kernel g, ⟨p.2.groups.push [n], p.2.groupOf.push g⟩)
  ((List.range states.size).foldl (fun p n =>
    match states[n]? with
    | some s => groupFor p n s
    | none => p) ({}, (⟨#[], #[]⟩ : Partition))).2

/-- Keeps of a group the states that differ from none kept before. -/
def keepAlike (differ : Nat → Nat → Bool) (group : List Nat) : List Nat :=
  group.foldl (fun kept n => if kept.any (differ · n) then kept else kept ++ [n]) []

/-- Splits the groups from `g` on; what does not fit becomes a new group. Also says whether
    there was anything to split. -/
def Partition.splitFrom (differ : Array Nat → Nat → Nat → Bool) :
    Nat → Nat → Bool → Partition → Bool × Partition
  | 0, _, hasSplit, p => (hasSplit, p)
  | fuel + 1, g, hasSplit, p =>
    match p.groups[g]? with
    | none => (hasSplit, p)
    | some group =>
      let kept := keepAlike (differ p.groupOf) group
      if kept.length == group.length then p.splitFrom differ fuel (g + 1) hasSplit
      else
        let moved := group.filter (!kept.contains ·)
        let number := p.groups.size
        let p : Partition := ⟨(p.groups.set! g kept).push moved,
          moved.foldl (fun groupOf n => groupOf.set! n number) p.groupOf⟩
        p.splitFrom differ fuel (g + 1) true

def Partition.split (p : Partition) (differ : Array Nat → Nat → Nat → Bool) : Bool × Partition :=
  p.splitFrom differ (states.size + 1) 0 false

/-! ## Terminals -/

/-- By state: the terminals it has a use for. -/
def usedTerminals : Array Terminals :=
  stateRows.map fun r =>
    (List.range terminalCount).foldl (fun m t =>
      if (r.actions.getD t []).isEmpty then m else m ||| Terminals.only t) 0

def unfound : Terminals := .ofList (.interludeEnd :: pieces.map .piece)

/-- The terminals that can overlap with another. -/
def overlapping : List (Nat × Terminals) :=
  (overlapped.toList.mapIdx fun t m => (t, m)).filter (·.2 != 0)

/-- Whether some terminals cannot be added to others: they are not found by their text, or
    they overlap. -/
def cannotAdd (new old : Terminals) : Bool :=
  new != 0 && ((new &&& unfound) != 0 ||
    overlapping.any fun (t, m) => new.testBit t && (m &&& old) != 0)

def sameAction (groupOf : Array Nat) : Action → Action → Bool
  | .shift s r, .shift s' r' => groupOf.getD s 0 == groupOf.getD s' 0 && r == r'
  | a, b => a == b

def sameActions (groupOf : Array Nat) : List Action → List Action → Bool
  | [], [] => true
  | a :: as, b :: bs => sameAction groupOf a b && sameActions groupOf as bs
  | _, _ => false

/-- By state: what it does with the terminals it has a use for, ascending. -/
def usedActions : Array (List (Nat × List Action)) :=
  stateRows.map fun r =>
    (r.actions.toList.mapIdx fun t l => (t, l)).filter fun (_, l) => !l.isEmpty

/-- Whether some key that two ascending lists share has values that are not alike. -/
def differAtKey {α : Type} (alike : α → α → Bool) : Nat → List (Nat × α) → List (Nat × α) → Bool
  | 0, _, _ => false
  | fuel + 1, (x, a) :: l, (y, b) :: l' =>
    if x < y then differAtKey alike fuel l ((y, b) :: l')
    else if y < x then differAtKey alike fuel ((x, a) :: l) l'
    else !alike a b || differAtKey alike fuel l l'
  | _, _, _ => false

/-- Whether two states cannot be one because of a terminal. -/
def differInTerminals (groupOf : Array Nat) (m n : Nat) : Bool :=
  let a := usedTerminals.getD m 0
  let b := usedTerminals.getD n 0
  let both := a &&& b
  cannotAdd (a ^^^ both) b || cannotAdd (b ^^^ both) a ||
    differAtKey (sameActions groupOf) (2 * terminalCount) (usedActions.getD m []) (usedActions.getD n [])

/-! ## What comes behind -/

/-- The states behind a state, by ascending symbol. -/
def successors (r : Row) : List (Nat × Nat) :=
  let shifts := (r.actions.toList.mapIdx fun t l => (t, l)).filterMap fun (t, l) =>
    match l.getLast? with
    | some (.shift s _) => some (t, s)
    | _ => none
  shifts ++ (r.gotos.toList.mapIdx fun c s => (terminalCount + c, s)).filter (·.2 != 0)

def stateSuccessors : Array (List (Nat × Nat)) := stateRows.map successors

/-- Whether there is a symbol behind which two states are in different groups. -/
def differInSuccessors (groupOf : Array Nat) (m n : Nat) : Bool :=
  differAtKey (fun s t => groupOf.getD s 0 == groupOf.getD t 0) (2 * symbolCount)
    (stateSuccessors.getD m []) (stateSuccessors.getD n [])

/-- Splits by what comes behind until nothing changes. -/
def Partition.refine : Nat → Partition → Partition
  | 0, p => p
  | fuel + 1, p =>
    match p.split differInSuccessors with
    | (true, p) => p.refine fuel
    | (false, p) => p

def partition : Partition :=
  (Partition.byItems.split differInTerminals).2.refine states.size

/-! ## Rows of groups -/

def uniteRows (a b : Row) : Row :=
  ⟨(a.actions.zip b.actions).map fun (l, l') => if l.isEmpty then l' else l,
    (a.gotos.zip b.gotos).map fun (s, s') => if s == 0 then s' else s⟩

def Action.inGroups (groupOf : Array Nat) : Action → Action
  | .shift s r => .shift (groupOf.getD s 0) r
  | a => a

def Row.inGroups (groupOf : Array Nat) (r : Row) : Row :=
  ⟨r.actions.map fun l => l.map (·.inGroups groupOf), r.gotos.map fun s => groupOf.getD s 0⟩

/-- The rows of the states that are left. The first three keep their numbers. -/
def rows : Array Row :=
  partition.groups.map fun group =>
    let united := group.foldl (fun r n =>
      match r, stateRows[n]? with
      | some a, some b => some (uniteRows a b)
      | none, b => b
      | a, none => a) none
    (united.getD ⟨#[], #[]⟩).inGroups partition.groupOf

/-! ## Questions -/

def actionsAt (state terminal : Nat) : List Action :=
  match rows[state]? with
  | some r => r.actions.getD terminal []
  | none => []

/-- The state behind a symbol, or 0. -/
def nextState (state symbol : Nat) : Nat :=
  if symbol < terminalCount then
    match (actionsAt state symbol).getLast? with
    | some (.shift target _) => target
    | some .skip => state
    | _ => 0
  else
    match rows[state]? with
    | some r => r.gotos.getD (symbol - terminalCount) 0
    | none => 0

/-- Whether a terminal is met by a reduction first. -/
def reducesAt (state terminal : Nat) : Bool :=
  match actionsAt state terminal with
  | .reduce _ :: _ => true
  | _ => false

end ClassOutline.Automaton
