import ClassOutline.Grammar.Strings
import Std.Data.HashMap
import Std.Data.HashSet
/-
  ClassOutline.Grammar.Language — the whole grammar, with its symbols numbered.

  Terminals come first: the end of the source, names, the other tokens in the order in which
  the rules use them, the pieces of strings and heredocs, and the end of an interlude. The
  constructs follow, repetitions last. Where a token has to be assumed, the first that fits
  is taken, so this order shows.
-/

namespace ClassOutline.Grammar

open Rule
open ClassOutline.Tree (Kind)

def rules : List (Construct × Body) :=
  fileRules ++ classRules ++ functionRules ++ statementRules ++ expressionRules ++ stringRules ++
    operatorRules

/-! ## Repetitions -/

/-- A construct with its rule, in which nothing is repeated any more. -/
structure Definition where
  construct : Construct
  /-- One or more of the same: the construct twice, or what is repeated. -/
  isRepetition : Bool
  body : Body

def repetition (c : Construct) (content : Body) : Definition :=
  ⟨c, true, .choice (.seq (.call c) (.call c)) content⟩

/-- A rule and the contents of repetitions, after those that were `found`. A transparent
    construct that is nothing but a repetition repeats itself. -/
def define (found : List Body) : Construct × Body → Definition × List Body
  | (c, .many1 a) =>
    if c.isTransparent then
      let (a, found) := a.liftRepeats .repeated found
      (repetition c a, found)
    else
      let (a, found) := (Rule.many1 a).liftRepeats .repeated found
      (⟨c, false, a⟩, found)
  | (c, a) =>
    let (a, found) := a.liftRepeats .repeated found
    (⟨c, false, a⟩, found)

def defineAll : List Body → List (Construct × Body) → List Definition × List Body
  | found, [] => ([], found)
  | found, r :: rs =>
    let (d, found) := define found r
    let (ds, found) := defineAll found rs
    (d :: ds, found)

def definitions : Array Definition :=
  let (ds, contents) := defineAll [] rules
  (ds ++ contents.mapIdx fun i content => repetition (.repeated i) content).toArray

/-! ## Symbols -/

def terminalsOf : Body → List Terminal
  | .token t => [t]
  | .seq a b | .choice a b => terminalsOf a ++ terminalsOf b
  | .many1 a | .role _ a | .shown _ a | .prec _ _ a | .weight _ a => terminalsOf a
  | .empty | .call _ => []

def pieces : List Piece :=
  [.impliedSemicolon, .stringRun, .stringRunBehindVariable, .commandRun, .commandRunBehindVariable,
    .heredocRun, .heredocRunBehindVariable, .endOfText, .heredocLabel, .heredocClose, .nowdocRun]

/-- Those of a list that were not seen before, each once. -/
def unseen (seen : Std.HashSet Terminal) : List Terminal → List Terminal
  | [] => []
  | t :: ts => if seen.contains t then unseen seen ts else t :: unseen (seen.insert t) ts

def terminals : Array Terminal :=
  let first : List Terminal := [.finish, .shape .name]
  let last : List Terminal := .shape .comment :: pieces.map .piece ++ [.interludeEnd]
  let used := rules.flatMap fun r => terminalsOf r.2
  (first ++ unseen (.ofList (first ++ last)) used ++ last).toArray

def terminalCount : Nat := terminals.size

def terminalNumbers : Std.HashMap Terminal Nat :=
  .ofList (terminals.toList.mapIdx fun i t => (t, i))

/-- The number of a terminal; the number of all for one that no rule uses. -/
def numberOf (t : Terminal) : Nat := terminalNumbers.getD t terminalCount

def constructNumbers : Std.HashMap Construct Nat :=
  .ofList (definitions.toList.mapIdx fun i d => (d.construct, terminalCount + i))

def numberOfConstruct (c : Construct) : Nat := constructNumbers.getD c terminalCount

def symbolCount : Nat := terminalCount + definitions.size

/-- How a symbol shows in the tree where nothing else is said. -/
def symbolKinds : Array (Option Kind) :=
  terminals.map Terminal.kind? ++ definitions.map (·.construct.kind?)

/-- The productions of every construct, over numbered symbols. -/
def productionsOf : Array (List (Production Nat)) :=
  definitions.map (·.body.productions numberOf numberOfConstruct)

end ClassOutline.Grammar
