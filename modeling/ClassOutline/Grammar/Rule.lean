import ClassOutline.Grammar.Terminal
/-
  ClassOutline.Grammar.Rule — rules and the productions they stand for.

  A rule is written with sequence, choice and repetition; `Rule.productions` multiplies the
  choices out. Every symbol of a production is a `Step` and knows the kind it shows as, the
  role it plays in the node, and the precedence that decides between going on and stopping
  behind it.
-/

namespace ClassOutline.Grammar

open ClassOutline.Tree (Kind Role)

inductive Side where
  | left
  | right
  deriving DecidableEq, Hashable, Repr

/-- A rule over nonterminals named by `ν`. -/
inductive Rule (ν : Type) where
  | empty
  | token (t : Terminal)
  | call (n : ν)
  | seq (a b : Rule ν)
  | choice (a b : Rule ν)
  /-- Once or more. -/
  | many1 (a : Rule ν)
  | role (r : Role) (a : Rule ν)
  /-- Shows its symbols as a kind of node. -/
  | shown (k : Kind) (a : Rule ν)
  | prec (level : Int) (side : Option Side) (a : Rule ν)
  /-- Of two readings the one that weighs more is taken. -/
  | weight (w : Int) (a : Rule ν)
  deriving DecidableEq, Hashable, Repr

namespace Rule

variable {ν : Type}

def seqs : List (Rule ν) → Rule ν
  | [] => .empty
  | [a] => a
  | a :: as => .seq a (seqs as)

def choices : List (Rule ν) → Rule ν
  | [] => .empty
  | [a] => a
  | a :: as => .choice a (choices as)

def opt (a : Rule ν) : Rule ν := .choice a .empty

def many (a : Rule ν) : Rule ν := opt (.many1 a)

def mark (text : String) : Rule ν := .token (.mark text)

def word (text : String) : Rule ν := .token (.word text)

def shape (s : Shape) : Rule ν := .token (.shape s)

def piece (p : Piece) : Rule ν := .token (.piece p)

/-- One or more, with a separator between them. -/
def separated (separator : String) (a : Rule ν) : Rule ν := .seq a (many (.seq (mark separator) a))

def commaList (a : Rule ν) : Rule ν := separated "," a

def leftAt (level : Int) (a : Rule ν) : Rule ν := .prec level (some .left) a

def rightAt (level : Int) (a : Rule ν) : Rule ν := .prec level (some .right) a

def levelled (level : Int) (a : Rule ν) : Rule ν := .prec level none a

/-- The rule with every choice taken, one by one. -/
def alternatives : Rule ν → List (Rule ν)
  | .seq a b => a.alternatives.flatMap fun x => b.alternatives.map fun y => .seq x y
  | .choice a b => a.alternatives ++ b.alternatives
  | .role r a => a.alternatives.map (.role r)
  | .shown k a => a.alternatives.map (.shown k)
  | .prec level side a => a.alternatives.map (.prec level side)
  | .weight w a => a.alternatives.map (.weight w)
  | r => [r]

end Rule

/-! ## Productions -/

/-- A symbol in a production, over symbols of type `σ`. -/
structure Step (σ : Type) where
  symbol : σ
  level : Int
  side : Option Side
  shown : Option Kind
  role : Option Role
  deriving DecidableEq, Hashable, Repr

structure Production (σ : Type) where
  steps : List (Step σ)
  weight : Int
  deriving DecidableEq, Hashable, Repr

/-- What the rules around a symbol say about it. -/
structure Setting where
  level : Int
  side : Option Side
  shown : Option Kind
  role : Option Role

def Setting.plain : Setting := ⟨0, none, none, none⟩

/-- The last step takes the precedence of the rule around it. -/
def Setting.closeLast {σ : Type} (s : Setting) (keepsSide : Bool) : List (Step σ) → List (Step σ)
  | [] => []
  | [x] => [{ x with level := s.level, side := if keepsSide then x.side else s.side }]
  | x :: y :: r => x :: s.closeLast keepsSide (y :: r)

namespace Rule

variable {ν σ : Type}

/-- The steps of a rule without choices. A precedence holds up to the last step inside it,
    which belongs to the rule outside unless it ends the production. -/
def steps (terminal : Terminal → σ) (nonterminal : ν → σ) (s : Setting) (atEnd : Bool) :
    Rule ν → List (Step σ)
  | .token t => [⟨terminal t, s.level, s.side, s.shown, s.role⟩]
  | .call n => [⟨nonterminal n, s.level, s.side, s.shown, s.role⟩]
  | .seq a b => a.steps terminal nonterminal s false ++ b.steps terminal nonterminal s atEnd
  | .role r a => a.steps terminal nonterminal { s with role := some r } atEnd
  | .shown k a => a.steps terminal nonterminal { s with shown := some k } atEnd
  | .prec level side a =>
    let inner := a.steps terminal nonterminal { s with level := level, side := side.or s.side } atEnd
    if atEnd then inner else s.closeLast side.isNone inner
  | .weight _ a => a.steps terminal nonterminal s atEnd
  | .empty | .choice .. | .many1 _ => []

/-- The weight farthest from zero. -/
def weightOf : Rule ν → Int
  | .seq a b => if b.weightOf.natAbs > a.weightOf.natAbs then b.weightOf else a.weightOf
  | .role _ a | .shown _ a | .prec _ _ a => a.weightOf
  | .weight w a => if a.weightOf.natAbs > w.natAbs then a.weightOf else w
  | _ => 0

/-- The productions of a rule without repetitions. -/
def productions [DecidableEq σ] (terminal : Terminal → σ) (nonterminal : ν → σ) (r : Rule ν) :
    List (Production σ) :=
  (r.alternatives.map fun a => ⟨a.steps terminal nonterminal .plain true, a.weightOf⟩).eraseDups

/-! ## Repetitions -/

/-- Replaces every repetition by a symbol of its own, the same one for the same content.
    `found` lists the contents so far. -/
def liftRepeats [DecidableEq ν] (repeated : Nat → ν) (found : List (Rule ν)) :
    Rule ν → Rule ν × List (Rule ν)
  | .seq a b =>
    let (a, found) := a.liftRepeats repeated found
    let (b, found) := b.liftRepeats repeated found
    (.seq a b, found)
  | .choice a b =>
    let (a, found) := a.liftRepeats repeated found
    let (b, found) := b.liftRepeats repeated found
    (.choice a b, found)
  | .many1 a =>
    let (a, found) := a.liftRepeats repeated found
    match found.idxOf? a with
    | some i => (.call (repeated i), found)
    | none => (.call (repeated found.length), found ++ [a])
  | .role r a => let (a, found) := a.liftRepeats repeated found; (.role r a, found)
  | .shown k a => let (a, found) := a.liftRepeats repeated found; (.shown k a, found)
  | .prec l s a => let (a, found) := a.liftRepeats repeated found; (.prec l s a, found)
  | .weight w a => let (a, found) := a.liftRepeats repeated found; (.weight w a, found)
  | r => (r, found)

end Rule
end ClassOutline.Grammar
