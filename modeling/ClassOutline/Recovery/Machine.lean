import ClassOutline.Recovery.Lookahead
/-
  ClassOutline.Recovery.Machine — reading on, with or without faults.

  All readings are carried on together, the one that lags first. A reading that meets a token
  it has no use for is paused; when it is its turn it goes on in two ways: it assumes a
  missing token, or it goes back to a state further down that has a use for the token, and
  what lies above becomes an error. As long as neither is possible tokens are skipped.
  Readings that cost more than others by too much are given up.
-/

namespace ClassOutline.Recovery

open ClassOutline.Grammar ClassOutline.Automaton

structure Machine where
  stack : Stack
  /-- The best tree of the whole source so far. -/
  finished : Option Subtree
  accepted : Nat
  /-- The token found last, with the place and labels it was looked for at. -/
  cached : Option (Nat × Option (List Text) × Token)
  /-- Labels that the last scan left behind. -/
  labels : List Text
  /-- How far a reading has come. -/
  farthest : Nat

def Machine.start : Machine := ⟨.start, none, 0, none, [], 0⟩

def maxReadings : Nat := 6

def maxOverflow : Nat := 4

/-! ## Comparing readings -/

structure Standing where
  cost : Nat
  count : Nat
  weight : Int
  isAtFault : Bool

inductive Verdict where
  | takeLeft
  | preferLeft
  | undecided
  | preferRight
  | takeRight
  deriving DecidableEq, Repr

/-- A reading may cost so much more than another, divided by what the other read since its
    last fault. -/
def maxCostDifference : Nat := 1600

def Standing.compare (a b : Standing) : Verdict :=
  if !a.isAtFault && b.isAtFault then if a.cost < b.cost then .takeLeft else .preferLeft
  else if a.isAtFault && !b.isAtFault then if b.cost < a.cost then .takeRight else .preferRight
  else if a.cost < b.cost then
    if maxCostDifference < (b.cost - a.cost) * (1 + a.count) then .takeLeft else .preferLeft
  else if b.cost < a.cost then
    if maxCostDifference < (a.cost - b.cost) * (1 + b.count) then .takeRight else .preferRight
  else if b.weight < a.weight then .preferLeft
  else if a.weight < b.weight then .preferRight
  else .undecided

def Stack.standing (s : Stack) (v : Nat) : Standing × Stack :=
  let s := s.settleCount v
  let isPaused := (s.head v).status.isPaused
  (⟨s.cost v + (if isPaused then tokenCost else 0), s.countSinceFault v, (s.top v).weight,
    isPaused || s.state v == 0⟩, s)

/-- Whether one of some readings makes it useless to go on with `v` at a standing. -/
def Stack.beatenBy (v : Nat) (own : Standing) : List Nat → Stack → Bool × Stack
  | [], s => (false, s)
  | w :: ws, s =>
    if w == v || !(s.head w).status.isActive || s.place w < s.place v then s.beatenBy v own ws
    else
      let (other, s) := s.standing w
      match own.compare other with
      | .takeRight => (true, s)
      | .preferRight => if s.canMerge w v then (true, s) else s.beatenBy v own ws
      | _ => s.beatenBy v own ws

/-- Whether there is something better than reading `v` at a cost. -/
def Machine.isBeaten (m : Machine) (v cost : Nat) : Bool × Machine :=
  if (m.finished.map fun t => decide (t.cost ≤ cost)).getD false then (true, m)
  else
    let ⟨stack, finished, accepted, cached, labels, farthest⟩ := m
    let stack := stack.settleCount v
    let own : Standing := ⟨cost, stack.countSinceFault v, (stack.top v).weight, false⟩
    let (beaten, stack) := stack.beatenBy v own (List.range stack.size)
    (beaten, ⟨stack, finished, accepted, cached, labels, farthest⟩)

/-! ## Reducing -/

/-- The best of several readings of the same construct, and the extras behind it. -/
def bestReading (s : Source) (r : Reduction) (place : Nat) (readings : List (List Subtree)) :
    Option (Subtree × List Subtree) :=
  readings.foldl (fun best trees =>
    let (inner, extras) := splitTrailing trees
    let tree := Subtree.branch s (.symbol r.construct) r.parts r.weight place inner
    match best with
    | none => some (tree, extras)
    | some (old, _) => if old.prefersSecond tree then some (tree, extras) else best) none

/-- Reduces the readings of each new head, from `version` on. -/
def reduceHeads (src : Source) (r : Reduction) (atInterludeEnd : Bool) (v limit : Nat) :
    Nat → List (Nat × List (List Subtree)) → Stack → Stack
  | _, [], s => s
  | version, (_, readings) :: rest, s =>
    if limit < version then reduceHeads src r atInterludeEnd v limit version rest (s.remove version)
    else
      match bestReading src r (s.place version) readings with
      | none => reduceHeads src r atInterludeEnd v limit (version + 1) rest s
      | some (tree, extras) =>
        let state := s.state version
        let next := nextState state r.construct
        let tree := if atInterludeEnd && next == state then { tree with isExtra := true } else tree
        let s := (s.push version (some tree) next).pushAll version extras next
        match s.mergeInto? 0 version (some v) with
        | some s => reduceHeads src r atInterludeEnd v limit version rest s
        | none => reduceHeads src r atInterludeEnd v limit (version + 1) rest s

/-- Reduces the last parts of a head. The results are new heads; the first of them is given,
    if there is one. -/
def Stack.reduce (src : Source) (s : Stack) (v : Nat) (r : Reduction) (atInterludeEnd : Bool) :
    Option Nat × Stack :=
  let first := s.size
  let groups := s.below v r.count
  let limit := maxReadings + maxOverflow + (s.heads.filter (·.status.isHalted)).size
  let s := reduceHeads src r atInterludeEnd v limit first groups (s.addHeads v groups)
  (if first < s.size then some first else none, s)

/-! ## The end of the source -/

/-- Puts the parts of the last tree that is no extra among the others, under its label. -/
def rootOf (src : Source) (trees : List Subtree) : Option Subtree :=
  let (front, extras) := splitTrailing trees
  front.getLast?.map fun t =>
    .branch src t.label t.parts 0 t.first (front.dropLast ++ t.children ++ extras)

/-- Takes a reading that is complete into account. -/
def Machine.accept (src : Source) (m : Machine) (v : Nat) (token : Token) : Machine :=
  let stack := m.stack.push v (some token.tree) 1
  let roots := (stack.contents v).filterMap (rootOf src)
  { m with
    stack := stack.setStatus v .halted
    accepted := m.accepted + roots.length
    finished := roots.foldl (fun best t =>
      match best with
      | some old => some (old.choose t)
      | none => some t) m.finished }

/-! ## Skipping -/

/-- Goes back to a refuge: what lies above it becomes an error. -/
def recoverHeads (src : Source) (goal : Nat) :
    Nat → List (Nat × List (List Subtree)) → Bool → Stack → Bool × Stack
  | _, [], done, s => (done, s)
  | version, (_, readings) :: rest, done, s =>
    match readings.head?, s.state version == goal with
    | some trees, true =>
      let (old, s) := s.popError version
      let trees := (old.map (·.children)).getD [] ++ trees
      let (inner, extras) := splitTrailing trees
      let s := if inner.isEmpty then s
        else
          let error := Subtree.branch src .error [] 0 (s.place version) inner
          s.push version (some { error with isExtra := true }) goal
      recoverHeads src goal (version + 1) rest true (s.pushAll version extras goal)
    | _, _ => recoverHeads src goal (version + 1) rest done (s.setStatus version .halted)

def Stack.recoverTo (src : Source) (s : Stack) (v depth goal : Nat) : Bool × Stack :=
  let groups := s.below v depth
  recoverHeads src goal s.size groups false (s.addHeads v groups)

/-- Tries refuges in turn, until one has a use for the token or it becomes too costly. -/
def Machine.tryRefuges (src : Source) (v symbol cost count heads : Nat) :
    List Refuge → Machine → Bool × Machine
  | [], m => (false, m)
  | r :: rs, m =>
    let place := m.stack.place v
    let isTaken := (List.range heads).any fun w => m.stack.state w == r.state && m.stack.place w == place
    if r.state == 0 || r.place == place || isTaken then m.tryRefuges src v symbol cost count heads rs
    else
      let (beaten, m) := m.isBeaten v (cost + r.depth * tokenCost + src.skipCost r.place place)
      if beaten then (false, m)
      else if (actionsAt r.state symbol).isEmpty then m.tryRefuges src v symbol cost count heads rs
      else
        let ⟨stack, finished, accepted, cached, labels, farthest⟩ := m
        let depth := if 0 < count then r.depth + 1 else r.depth
        let (done, stack) := stack.recoverTo src v depth r.state
        let m : Machine := ⟨stack, finished, accepted, cached, labels, farthest⟩
        if done then (true, m) else m.tryRefuges src v symbol cost count heads rs

/-- Removes heads from `first` on that are not active. -/
def Stack.dropInactive (s : Stack) (first : Nat) : Stack :=
  { s with heads := s.heads.extract 0 first ++
      (s.heads.extract first s.heads.size).filter (·.status.isActive) }

def isComment (t : Token) : Bool := t.tree.label == .symbol (numberOf (.shape .comment))

/-- Skips a token, together with what was skipped before it. -/
def Stack.skip (src : Source) (s : Stack) (v count : Nat) (token : Token) : Stack :=
  let tree := if isComment token then { token.tree with isExtra := true } else token.tree
  let skipped := Subtree.branch src .skipped [] 0 tree.first [tree]
  let (s, skipped) :=
    if count == 0 then (s, skipped)
    else
      match s.below v 1 with
      | (below, trees :: _) :: _ =>
        (s.modifyHead v ({ · with node := below, status := .active }),
          Subtree.branch src .skipped [] 0 skipped.first (trees ++ [skipped]))
      | _ => (s, skipped)
  let s := s.push v (some skipped) 0
  match token.tree.memory with
  | some labels => s.modifyHead v ({ · with memory := some labels })
  | none => s

/-- Goes on from a fault: back to a refuge, and also by skipping the token. -/
def Machine.recover (src : Source) (m : Machine) (v : Nat) (token : Token) : Machine :=
  let heads := m.stack.size
  let m := { m with stack := m.stack.settleCount v }
  let count := m.stack.countSinceFault v
  let cost := m.stack.cost v
  let (done, m) := match token.tree.label with
    | .symbol n => m.tryRefuges src v n cost count heads (m.stack.head v).refuges
    | _ => (false, m)
  let m := { m with stack := m.stack.dropInactive heads }
  if token.tree.label == .symbol (numberOf .finish) then
    let place := m.stack.place v
    let m := { m with stack := m.stack.push v (some (.branch src .error [] 0 place [])) 1 }
    m.accept src v token
  else if done && (maxReadings < m.stack.size || token.changesMemory) then
    { m with stack := m.stack.setStatus v .halted }
  else
    let (beaten, m) := m.isBeaten v (cost + tokenCost + src.skipCost (m.stack.place v) token.tree.stop)
    if beaten then { m with stack := m.stack.setStatus v .halted }
    else { m with stack := m.stack.skip src v count token }

/-! ## Faults -/

/-- The reductions a state has for a terminal, or for any, each once; and whether it could
    shift. -/
def choicesAt (state terminal : Nat) : List Reduction × Bool :=
  let ts := if terminal == 0 then List.range' 1 (terminalCount - 2) else [terminal]
  ts.foldl (fun acc t => (actionsAt state t).foldl (fun (rs, shifts) a =>
    match a with
    | .shift _ onlyRepeats => (rs, shifts || !onlyRepeats)
    | .reduce r =>
      let isNew := 0 < r.count && !rs.any fun x => x.construct == r.construct && x.count == r.count
      (if isNew then rs ++ [r] else rs, shifts)
    | .recover => (rs, true)
    | _ => (rs, shifts)) acc) ([], false)

/-- Does all reductions that a terminal, or any, allows, from head `start` on. Heads that do
    not get as far as to shift the terminal are dropped. -/
def reduceAll (src : Source) (start terminal first : Nat) :
    Nat → Nat → Nat → Bool → Stack → Bool × Stack
  | 0, _, _, canShift, s => (canShift, s)
  | fuel + 1, round, v, canShift, s =>
    if s.size ≤ v then (canShift, s)
    else
      match s.mergeInto? first v none with
      | some s => reduceAll src start terminal first fuel (round + 1) v canShift s
      | none =>
        let heads := s.size
        let (rs, shifts) := choicesAt (s.state v) terminal
        let (last, s) := rs.foldl (fun (_, s) r => s.reduce src v r false) ((none : Option Nat), s)
        let next := if v == start then heads else v + 1
        if shifts then reduceAll src start terminal first fuel (round + 1) next true s
        else
          match last with
          | some w =>
            if round < maxReadings then
              reduceAll src start terminal first fuel (round + 1) v canShift (s.replace w v)
            else
              reduceAll src start terminal first fuel (round + 1) next canShift
                (if terminal == 0 then s else s.remove v)
          | none =>
            reduceAll src start terminal first fuel (round + 1) next canShift
              (if terminal == 0 then s else s.remove v)

def Stack.reduceAll (src : Source) (s : Stack) (v terminal : Nat) : Bool × Stack :=
  Recovery.reduceAll src v terminal s.size 1000 0 v false s

/-- Assumes a missing token on a copy of a head, the first one behind which the next token
    has a use. -/
def assumeMissing (src : Source) (v place symbol : Nat) : List Nat → Stack → Bool × Stack
  | [], s => (false, s)
  | t :: ts, s =>
    let state := s.state v
    let next := nextState state t
    if next == 0 || next == state || !reducesAt next symbol then assumeMissing src v place symbol ts s
    else
      let w := s.size
      let s := (s.copy v).push w (some (.missing t place)) next
      match s.reduceAll src w symbol with
      | (true, s) => (true, s)
      | (false, s) => assumeMissing src v place symbol ts s

/-- Brings heads into the state of faults, after trying to assume a missing token. -/
def enterFault (src : Source) (place : Nat) (symbol : Option Nat) :
    List Nat → Bool → Stack → Stack
  | [], _, s => s
  | v :: vs, done, s =>
    let (done, s) := match done, symbol with
      | false, some n => assumeMissing src v place n (List.range' 1 (terminalCount - 2)) s
      | _, _ => (done, s)
    enterFault src place symbol vs done (s.push v none 0)

/-- Merges a head behind `v` into it, as often as told. -/
def mergeNext (v w : Nat) : Nat → Stack → Stack
  | 0, s => s
  | n + 1, s => mergeNext v w n (if s.canMerge v w then s.merge v w else s)

/-- Handles a token that does not fit. -/
def Machine.handleFault (src : Source) (m : Machine) (v : Nat) (token : Token) : Machine :=
  let ⟨stack, finished, accepted, cached, labels, farthest⟩ := m
  let first := stack.size
  let (_, stack) := stack.reduceAll src v 0
  let count := stack.size - first
  let symbol := match token.tree.label with
    | .symbol n => some n
    | _ => none
  let place := stack.place v
  let stack := enterFault src place symbol (v :: List.range' first count) false stack
  let stack := (mergeNext v first count stack).recordRefuges v
  Machine.recover src ⟨stack, finished, accepted, cached, labels, farthest⟩ v token

/-! ## Reading on -/

/-- The next token of a head. The one found last is taken again if it was looked for in the
    same way. -/
def Machine.lookahead (src : Source) (m : Machine) (v : Nat) : Option Token × Machine :=
  let state := m.stack.state v
  let (token, labels) := nextToken src state (m.stack.place v) (m.stack.head v).memory
    (m.stack.hasAdvanced v) m.labels
  match token with
  | some t =>
    (token, { m with labels := labels, cached := some (m.stack.place v, (m.stack.head v).memory, t) })
  | none => (none, { m with labels := labels })

def sameSearch (a b : Nat) : Bool :=
  modes.ofState.getD a 0 == modes.ofState.getD b 0 && piecesOf a == piecesOf b &&
    leavesInterlude a == leavesInterlude b

def nameNumber : Nat := numberOf (.shape .name)

def symbolOf (t : Token) : Nat :=
  match t.tree.label with
  | .symbol n => n
  | _ => symbolCount

def Machine.cached? (m : Machine) (v : Nat) : Option Token :=
  m.cached.bind fun (place, memory, t) =>
    let state := m.stack.state v
    if place == m.stack.place v && memory == (m.stack.head v).memory && !leavesInterlude state &&
        !(actionsAt state (symbolOf t)).isEmpty && sameSearch t.state state &&
        (symbolOf t != nameNumber || (!t.isKeyword && t.state == state)) then some t
    else none

def actionsFor (state : Nat) : Option Token → List Action
  | some t => actionsAt state (symbolOf t)
  | none => actionsAt state (numberOf .interludeEnd)

def Machine.shift (m : Machine) (v : Nat) (t : Token) (isExtra : Bool) (state : Nat) : Machine :=
  let stack := m.stack.push v (some { t.tree with isExtra := isExtra }) state
  match t.tree.memory with
  | some labels => { m with stack := stack.modifyHead v ({ · with memory := some labels }) }
  | none => { m with stack := stack }

/-- Does what the actions say. If that was only to reduce, the first head of the last
    reduction is left to go on with. -/
def Machine.perform (src : Source) (v : Nat) (token : Option Token) :
    List Action → Option Nat → Machine → Bool × Option Nat × Machine
  | [], last, m => (false, last, m)
  | .shift _ true :: as, last, m => m.perform src v token as last
  | .shift state false :: _, _, m =>
    match token with
    | some t => (true, none, m.shift v t false state)
    | none => (true, none, m)
  | .skip :: _, _, m =>
    match token with
    | some t => (true, none, m.shift v t true (m.stack.state v))
    | none => (true, none, m)
  | .reduce r :: as, last, m =>
    let ⟨stack, finished, accepted, cached, labels, farthest⟩ := m
    let (made, stack) := stack.reduce src v r token.isNone
    Machine.perform src v token as (made.or last) ⟨stack, finished, accepted, cached, labels, farthest⟩
  | .accept :: _, _, m =>
    match token with
    | some t => (true, none, m.accept src v t)
    | none => (true, none, m)
  | .recover :: _, _, m =>
    match token with
    | some t => (true, none, m.recover src v t)
    | none => (true, none, m)

def Token.asName (t : Token) : Token :=
  { t with tree := { t.tree with label := .symbol nameNumber, isVisible := true } }

def Machine.proceed (src : Source) (v : Nat) : Nat → Option Token → List Action → Machine → Machine
  | 0, _, _, m => { m with stack := m.stack.setStatus v .halted }
  | fuel + 1, token, actions, m =>
    match m.perform src v token actions none with
    | (true, _, m) => m
    | (false, some w, m) =>
      let m := { m with stack := m.stack.replace w v }
      let (token, m) := match token with
        | some _ => (token, m)
        | none => m.lookahead src v
      m.proceed src v fuel token (actionsFor (m.stack.state v) token)
    | (false, none, m) =>
      match token with
      | none => { m with stack := m.stack.setStatus v .halted }
      | some t =>
        let state := m.stack.state v
        let asName := actionsAt state nameNumber
        if t.isKeyword && symbolOf t != nameNumber && !asName.isEmpty then
          m.proceed src v fuel (some t.asName) asName
        else if state == 0 then m.recover src v t
        else
          let count := (m.stack.top v).count
          let pause (h : Head) : Head := { h with status := .paused t, countAtFault := count }
          { m with stack := m.stack.modifyHead v pause }

/-- Carries a head on by one token. -/
def Machine.advance (src : Source) (m : Machine) (v : Nat) : Machine :=
  let (token, m) := match m.cached? v with
    | some t => (some t, m)
    | none => m.lookahead src v
  let fuel := src.texts.size + 10000
  m.proceed src v fuel token (actionsFor (m.stack.state v) token)

/-! ## Weeding -/

/-- Compares head `i` with those before it, from `j` on. Gives the place to go on at. -/
def weedAt (own : Standing) : Nat → Nat → Nat → Stack → Nat × Stack
  | 0, i, _, s => (i + 1, s)
  | fuel + 1, i, j, s =>
    if i ≤ j then (i + 1, s)
    else
      let (other, s) := s.standing j
      match other.compare own with
      | .takeLeft => (i, s.remove i)
      | .takeRight => weedAt own fuel (i - 1) j (s.remove j)
      | .preferRight =>
        if s.canMerge j i then (i, s.merge j i)
        else weedAt own fuel i (j + 1) { s with heads := s.heads.swapIfInBounds i j }
      | _ => if s.canMerge j i then (i, s.merge j i) else weedAt own fuel i (j + 1) s

/-- Drops heads that were given up or are beaten, and finds the least cost of a reading that
    is not at a fault. -/
def weed : Nat → Nat → Option Nat → Stack → Option Nat × Stack
  | 0, _, least, s => (least, s)
  | fuel + 1, i, least, s =>
    if s.size ≤ i then (least, s)
    else if (s.head i).status.isHalted then weed fuel i least (s.remove i)
    else
      let (own, s) := s.standing i
      let least := if own.isAtFault then least
        else some (match least with
          | some n => min n own.cost
          | none => own.cost)
      let (next, s) := weedAt own (2 * s.size + 2) i 0 s
      weed fuel next least s

/-- Resumes the first paused head, unless one before it is active, and drops the others. -/
def Machine.resume (src : Source) :
    Nat → Nat → Bool → Option Nat → Machine → Option Nat × Machine
  | 0, _, _, least, m => (least, m)
  | remaining + 1, i, done, least, m =>
    match (m.stack.head i).status with
    | .paused t =>
      if !done && m.accepted < maxReadings then
        let least := some (m.stack.cost i)
        let m := { m with stack := m.stack.setStatus i .active }
        (m.handleFault src i t).resume src remaining (i + 1) true least
      else ({ m with stack := m.stack.remove i } : Machine).resume src remaining i done least
    | _ => m.resume src remaining (i + 1) true least

def Machine.condense (src : Source) (m : Machine) : Option Nat × Machine :=
  let ⟨stack, finished, accepted, cached, labels, farthest⟩ := m
  let (least, stack) := weed (4 * stack.size + 4) 0 none stack
  let stack := { stack with heads := stack.heads.extract 0 maxReadings }
  let n := stack.size
  Machine.resume src n 0 false least ⟨stack, finished, accepted, cached, labels, farthest⟩

/-! ## The whole source -/

/-- Carries a head on until it is ahead of the others. -/
def Machine.runHead (src : Source) (v : Nat) : Nat → Machine → Machine
  | 0, m => m
  | fuel + 1, m =>
    if m.stack.size ≤ v || !(m.stack.head v).status.isActive then m
    else
      let m := m.advance src v
      if m.stack.size ≤ v then m
      else
        let place := m.stack.place v
        if m.farthest < place || (0 < v && place == m.farthest) then { m with farthest := place }
        else m.runHead src v fuel

def Machine.runHeads (src : Source) (limit : Nat) : Nat → Nat → Machine → Machine
  | 0, _, m => m
  | fuel + 1, v, m =>
    if m.stack.size ≤ v then m else (m.runHead src v limit).runHeads src limit fuel (v + 1)

def Machine.run (src : Source) (limit : Nat) : Nat → Machine → Option Subtree
  | 0, m => m.finished
  | fuel + 1, m =>
    let (least, m) := (m.runHeads src limit 100 0).condense src
    let isBest := match m.finished, least with
      | some t, some n => t.cost < n
      | some _, none => true
      | none, _ => false
    if m.stack.size == 0 || isBest then m.finished else m.run src limit fuel

/-- The best tree of a source. -/
def bestTree (src : Source) : Option Subtree :=
  let limit := 100 * (src.texts.size + 10)
  Machine.start.run src limit limit

end ClassOutline.Recovery
