import ClassOutline.Recovery.Subtree
/-
  ClassOutline.Recovery.Stack — readings side by side, on one stack.

  Readings that differ share what they have in common: the stack is a graph of nodes, each
  with a state and links to the nodes below it, and every reading has a head. Readings that
  reach the same state at the same place become one, whose top node then has several links.
-/

namespace ClassOutline.Recovery

open ClassOutline.Automaton

structure Link where
  below : Nat
  /-- What was read in between; nothing where a fault begins. -/
  tree : Option Subtree

def Link.weight (l : Link) : Int := (l.tree.map (·.weight)).getD 0

def Link.size (l : Link) : Nat := (l.tree.map (·.size)).getD 0

structure StackNode where
  state : Nat
  links : List Link
  place : Nat
  cost : Nat
  /-- How many nodes of the tree are on the stack up to here. -/
  count : Nat
  weight : Int

def StackNode.bottom : StackNode := ⟨1, [], 0, 0, 0, 0⟩

/-- The next token, the state it was looked for in, whether it is a word that could be a name,
    and whether it opens or closes a heredoc. -/
structure Token where
  tree : Subtree
  state : Nat
  isKeyword : Bool
  changesMemory : Bool

inductive Status where
  | active
  /-- Stopped at a token that does not fit. -/
  | paused (lookahead : Token)
  /-- Given up. -/
  | halted

def Status.isActive : Status → Bool
  | .active => true
  | _ => false

def Status.isPaused : Status → Bool
  | .paused _ => true
  | _ => false

def Status.isHalted : Status → Bool
  | .halted => true
  | _ => false

/-- A state further down the stack, to which a reading could go back. -/
structure Refuge where
  place : Nat
  depth : Nat
  state : Nat

structure Head where
  node : Nat
  /-- The count of the stack when the last fault was met. -/
  countAtFault : Nat
  memory : Option (List Text)
  status : Status
  refuges : List Refuge

structure Stack where
  nodes : Array StackNode
  heads : Array Head

namespace Stack

def start : Stack := ⟨#[.bottom], #[⟨0, 0, none, .active, []⟩]⟩

def nodeAt (s : Stack) (n : Nat) : StackNode := s.nodes.getD n .bottom

def head (s : Stack) (v : Nat) : Head := s.heads.getD v ⟨0, 0, none, .halted, []⟩

def top (s : Stack) (v : Nat) : StackNode := s.nodeAt (s.head v).node

def state (s : Stack) (v : Nat) : Nat := (s.top v).state

def place (s : Stack) (v : Nat) : Nat := (s.top v).place

def size (s : Stack) : Nat := s.heads.size

def modifyHead (s : Stack) (v : Nat) (f : Head → Head) : Stack :=
  { s with heads := s.heads.modify v f }

def setStatus (s : Stack) (v : Nat) (status : Status) : Stack :=
  s.modifyHead v ({ · with status := status })

def remove (s : Stack) (v : Nat) : Stack := { s with heads := s.heads.eraseIdxIfInBounds v }

/-- Puts the head `source` in the place of `target`. -/
def replace (s : Stack) (source target : Nat) : Stack :=
  if source == target then s
  else
    let h := s.head source
    let refuges := if h.refuges.isEmpty then (s.head target).refuges else h.refuges
    Stack.remove { s with heads := s.heads.set! target { h with refuges := refuges } } source

def copy (s : Stack) (v : Nat) : Stack :=
  { s with heads := s.heads.push { s.head v with refuges := [] } }

/-! ## Pushing -/

def nodeAbove (s : Stack) (below : Nat) (tree : Option Subtree) (state : Nat) : StackNode :=
  let b := s.nodeAt below
  match tree with
  | some t =>
    ⟨state, [⟨below, tree⟩], t.stop, b.cost + t.cost, b.count + t.size, b.weight + t.weight⟩
  | none => ⟨state, [⟨below, none⟩], b.place, b.cost, b.count, b.weight⟩

def push (s : Stack) (v : Nat) (tree : Option Subtree) (state : Nat) : Stack :=
  let x := s.nodeAbove (s.head v).node tree state
  let number := s.nodes.size
  let s : Stack := { s with nodes := s.nodes.push x }
  s.modifyHead v fun h =>
    { h with node := number, countAtFault := if tree.isNone then x.count else h.countAtFault }

def pushAll (s : Stack) (v : Nat) (trees : List Subtree) (state : Nat) : Stack :=
  trees.foldl (fun s t => s.push v (some t) state) s

/-! ## Walking down -/

/-- A way down from a head: the node it is at, what lies above it in source order, and how
    much of that counts. -/
structure Walk where
  node : Nat
  trees : List Subtree
  count : Nat

def maxWalks : Nat := 64

def Walk.follow (w : Walk) (l : Link) : Walk :=
  match l.tree with
  | some t => ⟨l.below, t :: w.trees, if t.isExtra then w.count else w.count + 1⟩
  | none => ⟨l.below, w.trees, w.count + 1⟩

/-- One step of every walk: the walks that go on, those that branch off, and those that are
    done. `room` is how many more walks there may be. -/
def stepWalks (s : Stack) (isDone : Walk → StackNode → Bool) :
    Nat → List Walk → List Walk × List Walk × List Walk
  | _, [] => ([], [], [])
  | room, w :: ws =>
    let node := s.nodeAt w.node
    if isDone w node then
      let (on, off, done) := s.stepWalks isDone (room + 1) ws
      (on, off, w :: done)
    else
      match node.links with
      | [] => s.stepWalks isDone (room + 1) ws
      | l :: ls =>
        let branches := (ls.take room).map w.follow
        let (on, off, done) := s.stepWalks isDone (room - branches.length) ws
        (w.follow l :: on, branches ++ off, done)

def walks (s : Stack) (isDone : Walk → StackNode → Bool) : Nat → List Walk → List Walk
  | 0, _ => []
  | _ + 1, [] => []
  | fuel + 1, w :: ws =>
    let all := w :: ws
    let (on, off, done) := s.stepWalks isDone (maxWalks - all.length) all
    done ++ s.walks isDone fuel (on ++ off)

/-- Walks by the node they end at, in the order these nodes were met. -/
def group : List Walk → List (Nat × List (List Subtree)) → List (Nat × List (List Subtree))
  | [], groups => groups
  | w :: ws, groups => group ws (put w groups)
where
  put (w : Walk) : List (Nat × List (List Subtree)) → List (Nat × List (List Subtree))
    | [] => [(w.node, [w.trees])]
    | (n, ts) :: rest => if n == w.node then (n, ts ++ [w.trees]) :: rest else (n, ts) :: put w rest

def groupsFrom (s : Stack) (v : Nat) (isDone : Walk → StackNode → Bool) :
    List (Nat × List (List Subtree)) :=
  group (s.walks isDone (s.nodes.size + 1) [⟨(s.head v).node, [], 0⟩]) []

/-- What the last `count` parts of a head can be, by the node below them. -/
def below (s : Stack) (v count : Nat) : List (Nat × List (List Subtree)) :=
  s.groupsFrom v fun w _ => w.count == count

/-- All that a head can be. -/
def contents (s : Stack) (v : Nat) : List (List Subtree) :=
  (s.groupsFrom v fun _ n => n.links.isEmpty).flatMap (·.2)

/-- Adds a head like `v` at every node of some groups. -/
def addHeads (s : Stack) (v : Nat) (groups : List (Nat × List (List Subtree))) : Stack :=
  let h := s.head v
  let put (heads : Array Head) (n : Nat) := heads.push ⟨n, h.countAtFault, h.memory, .active, []⟩
  { s with heads := groups.foldl (fun heads g => put heads g.1) s.heads }

/-- Takes an error off the top of a head, if one is there. -/
def popError (s : Stack) (v : Nat) : Option Subtree × Stack :=
  let isError (l : Link) := (l.tree.map (·.label == .error)).getD false
  match (s.top v).links.find? isError with
  | some ⟨below, tree⟩ => (tree, s.modifyHead v ({ · with node := below, status := .active }))
  | none => (none, s)

/-! ## Refuges -/

def maxDepth : Nat := 16

/-- Whether a state at a depth is among refuges, the last ones first. -/
def isKnown (depth state : Nat) : List Refuge → Bool
  | [] => false
  | r :: rs => depth ≤ r.depth && ((r.depth == depth && r.state == state) || isKnown depth state rs)

/-- The states below a head down to a depth, the deepest first: `found` lists those above. -/
def refugesFrom (s : Stack) : Nat → List Walk → List Refuge → List Refuge
  | 0, _, found => found
  | _ + 1, [], found => found
  | fuel + 1, w :: ws, found =>
    let all := w :: ws
    let (on, off, _) := s.stepWalks (fun w _ => maxDepth < w.count) (maxWalks - all.length) all
    s.refugesFrom fuel (on ++ off) (all.foldl (fun found w =>
      let n := s.nodeAt w.node
      if maxDepth < w.count || isKnown w.count n.state found then found
      else ⟨n.place, w.count, n.state⟩ :: found) found)

def recordRefuges (s : Stack) (v : Nat) : Stack :=
  let found := s.refugesFrom (s.nodes.size + 1) [⟨(s.head v).node, [], 0⟩] []
  s.modifyHead v ({ · with refuges := found.reverse })

/-! ## Merging -/

/-- Whether two links can stand for each other. -/
def sameLink (s : Stack) (a b : Link) : Bool :=
  match a.tree, b.tree with
  | none, none => true
  | some x, some y =>
    x.label == y.label && ((0 < x.cost && 0 < y.cost) ||
      (x.first - (s.nodeAt a.below).place == y.first - (s.nodeAt b.below).place &&
        x.stop - x.first == y.stop - y.first && x.childCount == y.childCount &&
        x.isExtra == y.isExtra && x.memory == y.memory))
  | _, _ => false

def sameNode (s : Stack) (a b : Nat) : Bool :=
  let x := s.nodeAt a
  let y := s.nodeAt b
  x.state == y.state && x.place == y.place && x.cost == y.cost

def maxLinks : Nat := 8

/-- Gives a node one more link. A link that can stand for an old one is united with it, down
    the stack; of two trees over the same node the weightier stays. -/
def addLink : Nat → Stack → Nat → Link → Stack
  | 0, s, _, _ => s
  | fuel + 1, s, n, l =>
    if l.below == n then s
    else
      let node := s.nodeAt n
      let b := s.nodeAt l.below
      let weight := b.weight + l.weight
      let fits (e : Link) := s.sameLink e l && (e.below == l.below || s.sameNode e.below l.below)
      match node.links.findIdx? fits with
      | some i =>
        let e := node.links.getD i l
        if e.below == l.below then
          if e.weight < l.weight then
            { s with nodes := s.nodes.set! n { node with links := node.links.set i l, weight := weight } }
          else s
        else
          let s := b.links.foldl (fun s x => addLink fuel s e.below x) s
          { s with nodes := s.nodes.modify n fun x => { x with weight := max x.weight weight } }
      | none =>
        if maxLinks ≤ node.links.length then s
        else
          { s with nodes := s.nodes.set! n { node with
              links := node.links ++ [l]
              count := max node.count (b.count + l.size)
              weight := max node.weight weight } }

def canMerge (s : Stack) (v w : Nat) : Bool :=
  let a := s.head v
  let b := s.head w
  a.status.isActive && b.status.isActive && s.sameNode a.node b.node && a.memory == b.memory

/-- Makes head `w` part of head `v`. -/
def merge (s : Stack) (v w : Nat) : Stack :=
  let n := (s.head v).node
  let fuel := s.nodes.size
  let s := (s.top w).links.foldl (fun s l => addLink fuel s n l) s
  let count := (s.nodeAt n).count
  let s := if s.state v == 0 then s.modifyHead v ({ · with countAtFault := count }) else s
  s.remove w

/-- Makes a head part of the first other one it fits, among those from `first` up to itself. -/
def mergeInto? (s : Stack) (first v : Nat) (except : Option Nat) : Option Stack :=
  let others := (List.range' first (v - first)).filter (some · != except)
  (others.find? (s.canMerge · v)).map (s.merge · v)

/-! ## Standing -/

/-- How many nodes were made since the last fault. The count at the fault never stays above
    the count now. -/
def countSinceFault (s : Stack) (v : Nat) : Nat := (s.top v).count - (s.head v).countAtFault

def settleCount (s : Stack) (v : Nat) : Stack :=
  let count := (s.top v).count
  s.modifyHead v fun h => { h with countAtFault := min h.countAtFault count }

/-- What the faults of a head cost so far; one that is just met counts too. -/
def cost (s : Stack) (v : Nat) : Nat :=
  let n := s.top v
  let isAtFault := n.state == 0 && ((n.links.head?.map (·.tree.isNone)).getD false)
  if (s.head v).status.isPaused || isAtFault then n.cost + recoveryCost else n.cost

/-- Whether something was read since the last fault. -/
def advancedFrom (s : Stack) (countAtFault : Nat) : Nat → StackNode → Bool
  | 0, _ => false
  | fuel + 1, n =>
    match n.links.head? with
    | some ⟨below, some t⟩ =>
      let b := s.nodeAt below
      b.place < n.place ||
        (countAtFault < n.count && t.cost == 0 && s.advancedFrom countAtFault fuel b)
    | _ => false

def hasAdvanced (s : Stack) (v : Nat) : Bool :=
  let n := s.top v
  n.cost == 0 || s.advancedFrom (s.head v).countAtFault (s.nodes.size + 1) n

end Stack
end ClassOutline.Recovery
