import ClassOutline.Automaton.Mode
import ClassOutline.Recovery.Stack
import ClassOutline.Scan.Piece
/-
  ClassOutline.Recovery.Lookahead — the next token of a reading.

  What is looked for depends on the state. If nothing is found, all tokens are looked for,
  and characters that begin none of them are put together. Pieces come before other tokens.
  The labels of open heredocs are those of the reading, but a scan also sees labels that
  other readings left behind, as far as the reading has fewer.
-/

namespace ClassOutline.Recovery

open ClassOutline.Grammar ClassOutline.Automaton ClassOutline.Scan

/-! ## Words -/

def keywordsWhere (freeCase : Bool) : Std.HashMap String Nat :=
  .ofList (terminals.toList.mapIdx (fun i t => (i, t)) |>.filterMap fun (i, t) =>
    t.keyword?.bind fun (w, free) => if free == freeCase then some (w, i) else none)

def exactKeywords : Std.HashMap String Nat := keywordsWhere false

def foldedKeywords : Std.HashMap String Nat := keywordsWhere true

/-- The terminal of a word that is more than a name. -/
def keyword? (word : Text) : Option Nat :=
  exactKeywords[String.ofList word]?.or foldedKeywords[String.ofList (word.map foldCase)]?

/-! ## Tokens by their text -/

def vocabularyOf (state : Nat) : Vocabulary :=
  vocabularies.getD (modes.ofState.getD state 0) ⟨[], [], [], [], false⟩

def piecesOf (state : Nat) : List Piece := piecesAt.getD state []

/-- The token that was found behind a place; a word is what the state has a use for. -/
def Token.ofFound (s : Source) (state place : Nat) (f : Found) : Token :=
  let first := place + f.first
  let stop := place + f.stop
  let plain : Token := ⟨.token f.number first stop none, state, false, false⟩
  if f.terminal != .shape .name then plain
  else
    match keyword? ((s.textAt first).take (stop - first)) with
    | none => plain
    | some k =>
      let number := if (actionsAt state k).isEmpty then f.number else k
      ⟨.token number first stop none, state, true, false⟩

/-- Where characters that begin no token end, the one at `place` being one. -/
def unreadEnd (s : Source) : Nat → Nat → Nat
  | 0, place => place + 1
  | fuel + 1, place =>
    match s.textAt (place + 1) with
    | [] => place + 1
    | text =>
      if (search (vocabularyOf 0) text).isSome then place + 1
      else unreadEnd s fuel (place + 1 + lengthWhile isSeparator text)

/-- The next token where all are looked for. -/
def anyToken (s : Source) (state place : Nat) : Token :=
  let text := s.textAt place
  match search (vocabularyOf 0) text with
  | some f => .ofFound s state place f
  | none =>
    let first := place + lengthWhile isSeparator text
    ⟨.unread first (unreadEnd s s.texts.size first), state, false, false⟩

/-! ## Pieces -/

/-- The labels a scan goes by. -/
def openLabels (memory : Option (List Text)) (left : List Text) : List Text :=
  match memory with
  | none => []
  | some labels => labels ++ left.drop labels.length

/-- A piece the state has a use for. One of no width that leaves the labels as they are is
    found only if the reading gets on by it. -/
def pieceToken? (s : Source) (state place : Nat) (memory : Option (List Text)) (hasAdvanced : Bool)
    (labels : List Text) : Option Token × List Text :=
  match scan (piecesOf state) labels (s.textAt place) with
  | none => (none, labels)
  | some f =>
    let n := numberOf (.piece f.piece)
    let isChanged := memory != some f.labels
    if f.stop == 0 && !isChanged && (!hasAdvanced || nextState state n == state) then (none, f.labels)
    else
      (some ⟨.token n (place + f.first) (place + f.stop) (some f.labels), state, false, isChanged⟩,
        f.labels)

/-! ## All tokens -/

def leavesInterlude (state : Nat) : Bool := !(actionsAt state (numberOf .interludeEnd)).isEmpty

/-- The next token of a reading, and the labels left behind. A state that is about to leave
    an interlude reads none. -/
def nextToken (s : Source) (state place : Nat) (memory : Option (List Text)) (hasAdvanced : Bool)
    (left : List Text) : Option Token × List Text :=
  if leavesInterlude state then (none, left)
  else
    let labels := openLabels memory left
    if state == 0 then (some (anyToken s state place), labels)
    else
      let (piece, labels) :=
        if (piecesOf state).isEmpty then (none, left)
        else pieceToken? s state place memory hasAdvanced labels
      match piece with
      | some t => (some t, labels)
      | none =>
        match search (vocabularyOf state) (s.textAt place) with
        | some f => (some (.ofFound s state place f), labels)
        | none => (some (anyToken s state place), openLabels memory labels)

end ClassOutline.Recovery
