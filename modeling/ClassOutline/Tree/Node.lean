import ClassOutline.Text.Basic
/-
  ClassOutline.Tree.Node — concrete syntax trees.

  A node has a kind, the role it plays in its parent, the span of source it covers, and
  children in source order. Comments and interpolated text may stand between any two
  children. Broken sources have trees too: text that fits nowhere lies in `error` nodes,
  and a token that had to be assumed is a `missing` node of no width.
-/

namespace ClassOutline.Tree

/-! ## Places -/

/-- A place in a source: the characters before it, its row from 0, and the bytes between
    it and the row's start. -/
structure Pos where
  offset : Nat
  row : Nat
  column : Nat
  deriving DecidableEq, Repr

def Pos.origin : Pos := ⟨0, 0, 0⟩

def Pos.step (p : Pos) (c : Char) : Pos :=
  if c == '\n' then ⟨p.offset + 1, p.row + 1, 0⟩ else ⟨p.offset + 1, p.row, p.column + c.utf8Size⟩

def Pos.past (p : Pos) (t : Text) : Pos := t.foldl Pos.step p

/-- From the first character of something to just behind its last. -/
structure Span where
  first : Pos
  stop : Pos
  deriving DecidableEq, Repr

/-- The source a span covers. -/
def Span.text (s : Span) (source : Text) : Text :=
  (source.drop s.first.offset).take (s.stop.offset - s.first.offset)

/-! ## Nodes -/

inductive Kind where
  | program
  | openTag
  | inlineText
  /-- A closing tag, the text behind it and the next open tag. -/
  | interpolation
  | comment
  | namespaceDefinition
  | namespaceName
  | useDeclaration
  | useClause
  | useGroup
  | qualifiedName
  | name
  | variableName
  | classDeclaration
  | interfaceDeclaration
  | traitDeclaration
  | enumDeclaration
  | baseClause
  | interfaceClause
  | declarationList
  | constDeclaration
  | constElement
  | propertyDeclaration
  | propertyElement
  | methodDeclaration
  | abstractModifier
  | finalModifier
  | staticModifier
  | visibilityModifier
  | varModifier
  | referenceModifier
  | simpleParameter
  | variadicParameter
  | promotedParameter
  | compound
  /-- Any other construct. -/
  | phrase
  /-- Punctuation or a keyword. -/
  | token (text : Text)
  /-- A token of a class with a name. -/
  | lexeme (label : Text)
  /-- Source that fits no rule. -/
  | error
  /-- Characters that begin no token. -/
  | unread
  deriving DecidableEq, Repr

/-- Kinds that differ in a text alone share a hash. -/
instance : Hashable Kind := ⟨fun k => hash k.ctorIdx⟩

/-- What a missing node of this kind is called. -/
def Kind.label : Kind → Text
  | .token text => text
  | .lexeme label => label
  | .name => "name".toList
  | .openTag => "php_tag".toList
  | .comment => "comment".toList
  | .varModifier => "var_modifier".toList
  | _ => []

inductive Role where
  | name
  | body
  | localName
  | value
  | returnType
  | parameters
  deriving DecidableEq, Hashable, Repr

structure Node where
  kind : Kind
  role : Option Role
  span : Span
  missing : Bool
  children : List Node
  deriving Repr

namespace Node

def leaf (kind : Kind) (role : Option Role) (span : Span) : Node := ⟨kind, role, span, false, []⟩

/-- A token assumed at a place. -/
def assumed (kind : Kind) (role : Option Role) (place : Pos) : Node :=
  ⟨kind, role, ⟨place, place⟩, true, []⟩

/-- Comments and interpolations stand anywhere and belong to no rule. -/
def isExtra (n : Node) : Bool := n.kind == .comment || n.kind == .interpolation

def isError (n : Node) : Bool := n.kind == .error

def childWith? (n : Node) (role : Role) : Option Node := n.children.find? (·.role == some role)

def hasChild (n : Node) (kind : Kind) : Bool := n.children.any (·.kind == kind)

def text (n : Node) (source : Text) : Text := n.span.text source

mutual

/-- Whether the node or something below it is an error or missing. -/
def hasIssue : Node → Bool
  | ⟨kind, _, _, missing, children⟩ => kind == .error || missing || anyIssue children

def anyIssue : List Node → Bool
  | [] => false
  | n :: ns => n.hasIssue || anyIssue ns

end

end Node

/-! ## Grouping -/

/-- The span from the first of some nodes to the last. -/
def Span.ofNodes (first last : Node) : Span := ⟨first.span.first, last.span.stop⟩

/-- Makes nodes the children of a new one; leading extras stay outside, before it. -/
def group (kind : Kind) (role : Option Role) (nodes : List Node) : List Node :=
  let inner := nodes.dropWhile Node.isExtra
  nodes.takeWhile Node.isExtra ++
    match inner.head?, inner.getLast? with
    | some first, some last => [⟨kind, role, .ofNodes first last, false, inner⟩]
    | _, _ => []

end ClassOutline.Tree
