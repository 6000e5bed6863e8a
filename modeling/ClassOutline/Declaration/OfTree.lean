import ClassOutline.Declaration.Basic
import ClassOutline.Declaration.Scope
import ClassOutline.Tree.Reader
/-
  ClassOutline.Declaration.OfTree — declarations read off a syntax tree.

  One walk in source order records every class-like that has a name, wherever it stands,
  and the members written directly in its body. The walk carries the scope, which imports
  change from their place on, and knows the class-like around it and the class-like that
  owns the method around it. Only a namespace definition right under the root counts: with
  a body it is a scope of its own, without one it holds for the rest of the file. The
  documentation of a declaration is the documentation comment just before it.
-/

namespace ClassOutline

open ClassOutline.Text ClassOutline.Tree

/-! ## Pieces of declarations -/

/-- The documentation comment that `previous`, the node before a declaration, is. -/
def docOf (source : Text) (previous : Option Node) : Option Text :=
  match previous with
  | some n =>
    let t := n.text source
    if n.kind == .comment && startsWith t "/**".toList then some t else none
  | none => none

def dropSeparators (t : Text) : Text := trimStart (· == '\\') t

/-- The first visibility, or `var`, of a member; public if it has none that is known. -/
def visibilityOf (source : Text) (n : Node) : Visibility :=
  match n.children.find? fun c => c.kind == .visibilityModifier || c.kind == .varModifier with
  | some c => (Visibility.ofKeyword? (c.text source)).getD .isPublic
  | none => .isPublic

/-- The names of a header clause, resolved. -/
def clauseNames (source : Text) (scope : Scope) (kind : Tree.Kind) (n : Node) : List Text :=
  match (n.children.filter (·.kind == kind)).getLast? with
  | some clause =>
    (clause.children.filter fun c => c.kind == .name || c.kind == .qualifiedName).map
      fun c => scope.resolve (c.text source)
  | none => []

/-! ## Imports -/

def importOf? (source : Text) (clause : Node) : Option Import :=
  let isTarget := fun c : Node =>
    (c.kind == .name || c.kind == .qualifiedName || c.kind == .namespaceName) && c.role != some .localName
  (clause.children.find? isTarget).map fun c =>
    ⟨dropSeparators (c.text source), (clause.childWith? .localName).map (·.text source)⟩

def importsOfGroup (source headName : Text) (hasHead : Bool) (n : Node) : List Import :=
  ((n.children.filter (·.kind == .useClause)).filterMap (importOf? source)).map fun i =>
    if hasHead then { i with fqn := headName ++ '\\' :: i.fqn } else i

/-- The imports of a declaration; one whose text begins as an import of functions or
    constants makes none. -/
def importsOf (source : Text) (n : Node) : List Import :=
  let t := lower (n.text source)
  if startsWith t "use function".toList || startsWith t "use const".toList then []
  else
    let head := (n.children.find? (·.kind == .namespaceName)).map fun c => dropSeparators (c.text source)
    n.children.flatMap fun c =>
      if c.kind == .useClause then (importOf? source c).toList
      else if c.kind == .useGroup then importsOfGroup source (head.getD []) head.isSome c
      else []

/-! ## Members -/

def constantsOf (source : Text) (n : Node) : List MemberDecl :=
  (n.children.filter (·.kind == .constElement)).filterMap fun e =>
    (e.children.find? (·.kind == .name)).map fun name =>
      .constant (name.text source) (((e.childWith? .value).map (·.text source)).getD [])

def propertiesOf (source : Text) (previous : Option Node) (n : Node) : List MemberDecl :=
  (n.children.filter (·.kind == .propertyElement)).filterMap fun e =>
    (e.childWith? .name).map fun name => .property {
      name := trimStart (· == '$') (name.text source)
      default := (e.childWith? .value).map fun v => trimBlank (trimStart (· == '=') (v.text source))
      visibility := visibilityOf source n
      isStatic := n.hasChild .staticModifier
      doc := docOf source previous }

def isParameter (n : Node) : Bool :=
  n.kind == .simpleParameter || n.kind == .variadicParameter || n.kind == .promotedParameter

/-- The text before the last `$`; all of it if there is none. -/
def beforeVariable (signature : Text) : Text :=
  if signature.any (· == '$') then
    trimEnd isBlank ((signature.reverse.dropWhile (· != '$')).drop 1).reverse
  else signature

/-- Whether a signature marks its variable as a reference, before the dots if it has any. -/
def marksReference (signature : Text) : Bool :=
  (trimEnd isBlank (dropTail "...".toList (beforeVariable signature))).getLast? == some '&'

def isNameMark (c : Char) : Bool := c == '&' || c == '$' || c == ' ' || c == '\t'

def parameterOf? (source : Text) (n : Node) : Option ParameterDecl :=
  (n.childWith? .name).map fun name =>
    let signature := (Tree.Span.mk n.span.first name.span.stop).text source
    { name := trimStart isNameMark (name.text source)
      signature := signature
      byReference := n.hasChild .referenceModifier || marksReference signature
      variadic := n.kind == .variadicParameter || contains "...".toList signature
      default := (n.childWith? .value).map (·.text source) }

def parametersOf (source : Text) (method : Node) : List ParameterDecl :=
  match method.childWith? .parameters with
  | some list => (list.children.filter isParameter).filterMap (parameterOf? source)
  | none => []

/-- The braces of a body; its span ends behind the second. -/
def boundsOf (body : Node) : Bounds :=
  ⟨body.span.first.row + 1, body.span.first.column, body.span.stop.row + 1, body.span.stop.column - 1⟩

def methodOf (source : Text) (previous : Option Node) (n : Node) : MethodDecl where
  name := ((n.childWith? .name).map (·.text source)).getD []
  visibility := visibilityOf source n
  isAbstract := n.hasChild .abstractModifier
  isStatic := n.hasChild .staticModifier
  isFinal := n.hasChild .finalModifier
  returnsReference := n.hasChild .referenceModifier
  returnType := (n.childWith? .returnType).map (·.text source)
  parameters := parametersOf source n
  doc := docOf source previous
  body := (n.childWith? .body).map boundsOf

/-- The members a node of a class body declares. -/
def membersOfNode (source : Text) (previous : Option Node) (n : Node) : List MemberDecl :=
  match n.kind with
  | .constDeclaration => constantsOf source n
  | .propertyDeclaration => propertiesOf source previous n
  | .methodDeclaration => [.method (methodOf source previous n)]
  | _ => []

def membersOfBody (source owner : Text) : Option Node → List Node → List Member
  | _, [] => []
  | previous, n :: ns =>
    (membersOfNode source previous n).map (⟨owner, ·⟩) ++ membersOfBody source owner (some n) ns

/-! ## Class-likes -/

def DeclarationKind.ofKind? : Tree.Kind → Option DeclarationKind
  | .classDeclaration => some .isClass
  | .interfaceDeclaration => some .isInterface
  | .traitDeclaration => some .isTrait
  | .enumDeclaration => some .isEnum
  | _ => none

/-- Where the walk is: the innermost class-like with a name, and the one that owns the
    innermost method. -/
structure Surroundings where
  classLike : Option Text
  methodOwner : Option Text
  deriving DecidableEq, Repr

def Surroundings.none : Surroundings := ⟨.none, .none⟩

def classDeclOf (source : Text) (scope : Scope) (s : Surroundings) (kind : DeclarationKind)
    (previous : Option Node) (n name : Node) : ClassDecl where
  kind := kind
  fqn := qualify scope.namespaceName (name.text source)
  scope := scope.namespaceName
  name := name.text source
  isAbstract := n.hasChild .abstractModifier
  isFinal := n.hasChild .finalModifier
  parents := clauseNames source scope .baseClause n
  interfaces := clauseNames source scope .interfaceClause n
  doc := docOf source previous
  line := name.span.first.row + 1
  enclosing := s.methodOwner

/-- A class-like with its name: what it declares itself. -/
def classLikeOf? (source : Text) (scope : Scope) (s : Surroundings) (previous : Option Node)
    (n : Node) : Option (Text × Declarations) := do
  let kind ← DeclarationKind.ofKind? n.kind
  let name ← n.childWith? .name
  let decl := classDeclOf source scope s kind previous n name
  let body := ((n.childWith? .body).map (·.children)).getD []
  return (decl.fqn, ⟨[decl], membersOfBody source decl.fqn .none body⟩)

/-! ## The walk -/

/-- What holds below a node, given what the node itself declares. -/
def Surroundings.below (s : Surroundings) (n : Node) (declared : Option (Text × Declarations)) :
    Surroundings :=
  if n.kind == .methodDeclaration then { s with methodOwner := s.classLike }
  else
    match declared with
    | some (fqn, _) => { s with classLike := some fqn }
    | .none => s

mutual

/-- The scope behind a node and the declarations in it. -/
def walk (source : Text) (scope : Scope) (s : Surroundings) (previous : Option Node) :
    Node → Scope × Declarations
  | ⟨kind, role, span, missing, children⟩ =>
    let n : Node := ⟨kind, role, span, missing, children⟩
    if kind == .useDeclaration then (scope.addImports (importsOf source n), .empty)
    else
      let own := classLikeOf? source scope s previous n
      let (scope, inner) := walkAll source scope (s.below n own) .none children
      (scope, (own.map (·.2)).getD .empty ++ inner)

def walkAll (source : Text) (scope : Scope) (s : Surroundings) (previous : Option Node) :
    List Node → Scope × Declarations
  | [] => (scope, .empty)
  | n :: ns =>
    let (scope, first) := walk source scope s previous n
    let (scope, rest) := walkAll source scope s (some n) ns
    (scope, first ++ rest)

end

/-- The nodes right under the root, where namespaces are defined. -/
def walkTop (source : Text) : Scope → Option Node → List Node → Declarations
  | _, _, [] => .empty
  | scope, previous, n :: ns =>
    if n.kind == .namespaceDefinition then
      let name := ((n.childWith? .name).map fun c => dropSeparators (c.text source)).getD []
      match n.childWith? .body with
      | some body =>
        (walkAll source (.inNamespace name) .none .none body.children).2 ++
          walkTop source scope (some n) ns
      | .none => walkTop source (.inNamespace name) (some n) ns
    else
      let (scope, first) := walk source scope .none previous n
      first ++ walkTop source scope (some n) ns

/-- The declarations of a tree over its source. -/
def Declarations.ofTree (source : Text) (root : Node) : Declarations :=
  walkTop source (.inNamespace []) .none root.children

def Declarations.ofSource (source : Text) : Declarations := .ofTree source (Tree.read source)

end ClassOutline
