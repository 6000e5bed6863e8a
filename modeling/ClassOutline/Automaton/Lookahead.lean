import ClassOutline.Automaton.Item
/-
  ClassOutline.Automaton.Lookahead — the terminals that may come next.

  A set of terminals is a number with one bit for each. `firsts` has the terminals each
  symbol can begin with. `additions` has, for a construct that is about to be read, the
  constructs it can begin with and what can follow them there.
-/

namespace ClassOutline.Automaton

open ClassOutline.Grammar

/-- A set of terminals: bit `t` stands for terminal `t`. -/
abbrev Terminals := Nat

def Terminals.only (t : Nat) : Terminals := 1 <<< t

def Terminals.ofList (ts : List Terminal) : Terminals :=
  ts.foldl (fun m t => m ||| Terminals.only (numberOf t)) 0

/-- Adds what each production begins with to its construct. -/
def firstsAfter (firsts : Array Terminals) : Array Terminals :=
  (List.range definitions.size).foldl (fun firsts c =>
    (beginnings.getD c #[]).foldl (fun firsts b =>
      let more := firsts.getD b.1 0
      firsts.modify (terminalCount + c) (· ||| more)) firsts) firsts

def firstsIn : Nat → Array Terminals → Array Terminals
  | 0, firsts => firsts
  | rounds + 1, firsts =>
    let more := firstsAfter firsts
    if more == firsts then firsts else firstsIn rounds more

/-- The terminals that each symbol can begin with. -/
def firsts : Array Terminals :=
  firstsIn definitions.size
    ((Array.range symbolCount).map fun s => if s < terminalCount then Terminals.only s else 0)

/-! ## Beginnings of beginnings -/

/-- A construct that another one can begin with. -/
structure Addition where
  construct : Nat
  /-- What can follow it inside the other. -/
  lookahead : Terminals
  /-- Whether what follows the other can follow it too. -/
  toEnd : Bool

/-- Additions that are being collected: what is known of each construct, the constructs in
    the order they were met, and those to look into. -/
structure Collection where
  known : Array (Option (Terminals × Bool))
  met : Array Nat
  pending : List Nat

def Collection.meet (c : Collection) (construct : Nat) (lookahead : Terminals) (toEnd : Bool) :
    Collection :=
  match c.known.getD construct none with
  | none =>
    ⟨c.known.set! construct (some (lookahead, toEnd)), c.met.push construct, construct :: c.pending⟩
  | some (old, oldEnd) =>
    let new := old ||| lookahead
    let newEnd := oldEnd || toEnd
    if new == old && newEnd == oldEnd then c
    else
      { c with
        known := c.known.set! construct (some (new, newEnd))
        pending := if c.pending.contains construct then c.pending else construct :: c.pending }

/-- Looks into a construct: the constructs its productions begin with. -/
def Collection.enter (c : Collection) (construct : Nat) : Collection :=
  let (lookahead, toEnd) := (c.known.getD construct none).getD (0, false)
  (startItems (terminalCount + construct)).foldl (fun c i =>
    match i.next? with
    | some s =>
      if s < terminalCount then c
      else
        match i.follow? with
        | some f => c.meet (s - terminalCount) (firsts.getD f 0) false
        | none => c.meet (s - terminalCount) lookahead toEnd
    | none => c) c

def collect : Nat → Collection → Collection
  | 0, c => c
  | fuel + 1, c =>
    match c.pending with
    | [] => c
    | construct :: pending => collect fuel (Collection.enter { c with pending := pending } construct)

/-- What a construct about to be read can begin with, itself included. -/
def additionsOf (construct : Nat) : Array Addition :=
  let empty : Collection := ⟨.replicate definitions.size none, #[], []⟩
  let c := collect (definitions.size * definitions.size) (empty.meet construct 0 true)
  c.met.map fun x =>
    let (lookahead, toEnd) := (c.known.getD x none).getD (0, false)
    ⟨x, lookahead, toEnd⟩

def additions : Array (Array Addition) := (Array.range definitions.size).map additionsOf

end ClassOutline.Automaton
