import ClassOutline.Automaton.Merge
import ClassOutline.Scan.Search
/-
  ClassOutline.Automaton.Mode — which tokens are looked for in a state.

  States that look for different tokens share a mode as long as no token of one can be taken
  for a token of another; the mode then looks for the tokens of all of them. So a token may
  be found in a state that has no use for it, and the source is at fault there. Modes are
  filled in the order of how much their states allow.
-/

namespace ClassOutline.Automaton

open ClassOutline.Grammar

/-- Tokens that keep others from being found though they are not found in their place. -/
def hindrances : List (Terminal × List Terminal) :=
  [(.shape .float, [.mark ".="]),
    (.shape .openTag, [.mark "<"]),
    (.mark "<", [.shape .openTag]),
    (.shape .textAngle, [.mark "<<=", .mark "<<<", .mark "<>", .mark "<=", .mark "<=>", .mark "<<"]),
    (.mark "\\", [.shape .escape, .mark "\\u", .shape .quotedEscape]),
    (.shape .quotedEscape, [.mark "\\"])]

/-- The tokens that overlap with others or hinder them, with these. -/
def rivals : List (Nat × Terminals) :=
  let row := hindrances.foldl (fun row (t, ts) =>
    row.modify (numberOf t) (· ||| Terminals.ofList ts)) overlapped
  (row.toList.mapIdx fun t m => (t, m)).filter (·.2 != 0)

/-- The tokens whose text decides in a state; a word to be looked up stands for a name. -/
def searchedTokens (r : Row) : Terminals :=
  (terminals.zip r.actions).foldl (fun m (t, l) =>
    if l.isEmpty || !t.isLexical then m
    else m ||| Terminals.only (numberOf (if t.keyword?.isSome then .shape .name else t))) 0

/-- Whether some token of `a` that is not in `b` keeps the two from being one mode. -/
def clash (a b : Terminals) : Bool :=
  let new := a ^^^ (a &&& b)
  new != 0 && ((b &&& Terminals.ofList texts) != 0 ||
    ((b &&& Terminals.ofList lineBreaks) != 0 &&
      (new &&& Terminals.ofList besideLineBreaks) != new) ||
    rivals.any fun (t, m) => new.testBit t && (m &&& b) != 0)

structure Mode where
  tokens : Terminals
  /-- Whether the end of the source is looked for. -/
  atEnd : Bool
  deriving DecidableEq

/-- The first mode that tokens fit in, with its place. -/
def fitting? (tokens : Terminals) : Nat → List Mode → Option Nat
  | _, [] => none
  | i, m :: ms =>
    if !clash tokens m.tokens && !clash m.tokens tokens then some i else fitting? tokens (i + 1) ms

/-- Modes that are being filled, and the mode of each state so far. -/
structure Modes where
  all : Array Mode
  ofState : Array Nat
  /-- Tokens that were given a mode before. -/
  known : Std.HashMap (Terminals × Bool) Nat

def Modes.add (ms : Modes) (state : Nat) (r : Row) : Modes :=
  let tokens := searchedTokens r
  let atEnd := !(r.actions.getD (numberOf .finish) []).isEmpty
  let place := match ms.known[(tokens, atEnd)]? with
    | some i => i
    | none => (fitting? tokens 0 ms.all.toList).getD ms.all.size
  ⟨if place < ms.all.size then
      ms.all.modify place fun m =>
        ⟨if ms.known.contains (tokens, atEnd) then m.tokens else m.tokens ||| tokens, m.atEnd || atEnd⟩
    else ms.all.push ⟨tokens, atEnd⟩,
    ms.ofState.set! state place, ms.known.insert (tokens, atEnd) place⟩

/-- How much a state allows. -/
def extentOf (r : Row) : Nat :=
  r.actions.foldl (fun n l => if l.isEmpty then n else n + 1) 0 +
    r.gotos.foldl (fun n g => if g == 0 then n else n + 1) 0

/-- States that are inside an interlude and about to leave it read no token. -/
def readsNothing (r : Row) : Bool := !(r.actions.getD (numberOf .interludeEnd) []).isEmpty

/-- The first two states, then the others, those that allow most first. -/
def statesByExtent : List Nat :=
  let others := (rows.toList.mapIdx fun i r => (i, extentOf r)).drop 2
  0 :: 1 :: (others.mergeSort fun a b => b.2 < a.2 || (a.2 == b.2 && a.1 ≤ b.1)).map (·.1)

def modes : Modes :=
  statesByExtent.foldl (fun ms i =>
    match rows[i]? with
    | some r => if readsNothing r then ms else ms.add i r
    | none => ms) ⟨#[], .replicate rows.size 0, {}⟩

/-- By state: the pieces it has a use for. -/
def piecesAt : Array (List Piece) :=
  rows.map fun r => pieces.filter fun p => !(r.actions.getD (numberOf (.piece p)) []).isEmpty

/-- By mode: what it looks for. -/
def vocabularies : Array Scan.Vocabulary :=
  modes.all.map fun m =>
    .of ((terminals.toList.mapIdx fun i t => (i, t)).filter fun (i, _) => m.tokens.testBit i) m.atEnd

end ClassOutline.Automaton
