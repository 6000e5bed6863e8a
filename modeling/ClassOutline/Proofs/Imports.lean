import ClassOutline.Proofs.Outcome
import ClassOutline.Tree.Issue
/-
  ClassOutline.Proofs.Imports — what the names in a class header mean.

  A header name is given by its segments, and so is an import, which is read off the nodes of
  its declaration: a clause imports a class unless the keyword of functions or constants
  stands before it (`classImports`). The first segment of a plain name is looked up among the
  imports in effect, and else the name belongs to the current namespace (`meaning`). In effect
  at a header are the imports before it in its namespace, wherever they stand
  (`headings`); the walk has just these there (`forall₂_headings`).

  What an import declares is decided by the first letters of its text, and the keyword of a
  single clause is not looked at. Where that agrees with the nodes, and no blank or comment
  stands within a name (`isClear`), plain names are recorded with their meaning
  (`names_of_headings`); elsewhere they need not be (`misread_imports`).
-/

namespace ClassOutline

open ClassOutline.Text ClassOutline.Tree

/-! ## Names by their segments -/

mutual

/-- The names a node is made of, in source order. -/
def segments (source : Text) : Node → List Text
  | ⟨kind, _, span, _, children⟩ => if kind == .name then [span.text source] else segmentsAll source children

def segmentsAll (source : Text) : List Node → List Text
  | [] => []
  | n :: ns => segments source n ++ segmentsAll source ns

end

/-- Segments with separators between them. -/
def joined : List Text → Text
  | [] => []
  | w :: ws => w ++ ws.flatMap ('\\' :: ·)

/-- Segments of a name: there is one at least, none is empty and none holds a separator. -/
def areSegments (ws : List Text) : Bool := !ws.isEmpty && ws.all fun w => !w.isEmpty && w.all (· != '\\')

/-- A text that is segments and separators, and nothing between them. -/
def isSpelled (ws : List Text) (t : Text) : Bool := areSegments ws && t == joined ws

/-! ## Imports of classes -/

/-- An imported class, by the segments of its qualified name. -/
structure ClassImport where
  segments : List Text
  localName : Option Text
  deriving DecidableEq, Repr

/-- The name it is used by. -/
def ClassImport.usedAs (i : ClassImport) : Text := i.localName.getD (i.segments.getLast?.getD [])

/-- Whether the keyword of functions or constants stands right in a node. -/
def isMarked (n : Node) : Bool :=
  n.children.any fun c => c.kind == .token "function".toList || c.kind == .token "const".toList

/-- The keyword behind `use`: it belongs to the first clause, if there is no group. -/
def importsOther (n : Node) : Bool := isMarked n || (n.children.find? (·.kind == .useClause)).any isMarked

/-- The name a clause imports. -/
def importedName? (clause : Node) : Option Node :=
  clause.children.find? fun c =>
    (c.kind == .name || c.kind == .qualifiedName || c.kind == .namespaceName) && c.role != some .localName

/-- The class a clause imports; `head` is what stands before its group. -/
def clauseImport? (source : Text) (head : List Text) (clause : Node) : Option ClassImport :=
  if isMarked clause then none
  else
    (importedName? clause).map fun c =>
      ⟨head ++ segments source c, (clause.childWith? .localName).map (·.text source)⟩

def groupHead? (n : Node) : Option Node := n.children.find? (·.kind == .namespaceName)

def groupClauses (n : Node) : List Node := n.children.filter (·.kind == .useClause)

/-- The segments that stand before a group, if there is one. -/
def headSegments (source : Text) (head : Option Node) : List Text := (head.map (segments source)).getD []

/-- The classes that a part of an import declaration imports: a clause, or a group of them. -/
def classImportsIn (source : Text) (head : Option Node) (c : Node) : List ClassImport :=
  if c.kind == .useClause then (clauseImport? source [] c).toList
  else if c.kind == .useGroup then (groupClauses c).filterMap (clauseImport? source (headSegments source head))
  else []

/-- The classes an import declaration imports, in order. -/
def classImports (source : Text) (n : Node) : List ClassImport :=
  if importsOther n then [] else n.children.flatMap (classImportsIn source (groupHead? n))

/-- The class that segments name in a namespace under some imports. -/
def meaning (scope : Text) (imports : List ClassImport) : List Text → Text
  | [] => []
  | first :: rest =>
    match imports.find? fun i => sameName i.usedAs first with
    | some i => joined (i.segments ++ rest)
    | none => qualify scope (joined (first :: rest))

/-- Whether a name is neither absolute, nor relative to the namespace, nor one of the words
    for classes around, and is written in one piece. -/
def isPlain (source : Text) (c : Node) : Bool :=
  match segments source c with
  | [] => false
  | first :: rest =>
    isSpelled (first :: rest) (c.text source) && !(lower first == "namespace".toList && !rest.isEmpty) &&
      !(rest.isEmpty && Scope.placeWords.contains (lower first))

/-! ## Headers and the imports before them -/

mutual

/-- The nodes in a node, in source order. An import is not entered. -/
def nodesIn : Node → List Node
  | ⟨kind, role, span, missing, children⟩ =>
    ⟨kind, role, span, missing, children⟩ :: if kind == .useDeclaration then [] else nodesInAll children

def nodesInAll : List Node → List Node
  | [] => []
  | n :: ns => nodesIn n ++ nodesInAll ns

end

/-- A class-like in its namespace, with the import declarations in effect there. -/
structure Heading where
  scope : Text
  imports : List Node
  node : Node

def isImport (n : Node) : Bool := n.kind == .useDeclaration

def isClassLike (n : Node) : Bool := (DeclarationKind.ofKind? n.kind).isSome && (n.childWith? .name).isSome

/-- The class-likes among nodes of one namespace, behind some imports. -/
def headingsFrom (scope : Text) : List Node → List Node → List Heading
  | _, [] => []
  | imports, n :: ns =>
    if isImport n then headingsFrom scope (imports ++ [n]) ns
    else (if isClassLike n then [⟨scope, imports, n⟩] else []) ++ headingsFrom scope imports ns

/-- The same under the root, where namespaces are defined. Each has imports of its own. -/
def headingsTop (source : Text) : Text → List Node → List Node → List Heading
  | _, _, [] => []
  | scope, imports, n :: ns =>
    if n.kind == .namespaceDefinition then
      match n.childWith? .body with
      | some body =>
        headingsFrom (scopeName source n) [] (nodesInAll body.children) ++ headingsTop source scope imports ns
      | none => headingsTop source (scopeName source n) [] ns
    else
      headingsFrom scope imports (nodesIn n) ++ headingsTop source scope (imports ++ (nodesIn n).filter isImport) ns

def headings (source : Text) (root : Node) : List Heading := headingsTop source [] [] root.children

/-- The names written in a clause of a header. -/
def clauseNodes (kind : Tree.Kind) (n : Node) : List Node :=
  match (n.children.filter (·.kind == kind)).getLast? with
  | some clause => clause.children.filter fun c => c.kind == .name || c.kind == .qualifiedName
  | none => []

/-- What the walk knows of names at a heading. -/
def Heading.known (source : Text) (h : Heading) : Scope := ⟨h.scope, h.imports.flatMap (importsOf source)⟩

/-- A declaration says of a heading what it is, and what its names are there. -/
structure DeclaredBy (source : Text) (d : ClassDecl) (h : Heading) : Prop where
  kind : DeclarationKind.ofKind? h.node.kind = some d.kind
  name : (h.node.childWith? .name).map (·.text source) = some d.name
  scope : d.scope = h.scope
  parents : d.parents = (clauseNodes .baseClause h.node).map fun c => (h.known source).resolve (c.text source)
  interfaces : d.interfaces =
    (clauseNodes .interfaceClause h.node).map fun c => (h.known source).resolve (c.text source)

/-! ## The walk has the imports before it -/

theorem headingsFrom_append (scope : Text) (imports ns ms : List Node) :
    headingsFrom scope imports (ns ++ ms) =
      headingsFrom scope imports ns ++ headingsFrom scope (imports ++ ns.filter isImport) ms := by
  induction ns generalizing imports with
  | nil => rw [List.filter_nil, List.append_nil]; rfl
  | cons n ns ih =>
    rw [List.cons_append, headingsFrom, headingsFrom]
    by_cases hn : isImport n = true
    · rw [if_pos hn, if_pos hn, ih, List.filter_cons_of_pos hn, List.append_assoc, List.singleton_append]
    · rw [if_neg hn, if_neg hn, ih, List.filter_cons_of_neg hn, List.append_assoc]

theorem addImports_flatMap (source scope : Text) (uses more : List Node) :
    (Scope.mk scope (uses.flatMap (importsOf source))).addImports (more.flatMap (importsOf source)) =
      ⟨scope, (uses ++ more).flatMap (importsOf source)⟩ := by
  rw [Scope.addImports, List.flatMap_append]

section

variable (source scope : Text) (uses : List Node) (s : Surroundings) (previous : Option Node)

mutual

/-- Behind a node its imports are in effect, too. -/
theorem scope_walk (uses : List Node) (s : Surroundings) (previous : Option Node) (n : Node) :
    (walk source ⟨scope, uses.flatMap (importsOf source)⟩ s previous n).1 =
      ⟨scope, (uses ++ (nodesIn n).filter isImport).flatMap (importsOf source)⟩ := by
  obtain ⟨kind, role, span, missing, children⟩ := n
  rw [walk, nodesIn]
  by_cases hu : kind = .useDeclaration
  · have himport : isImport ⟨kind, role, span, missing, children⟩ = true := beq_iff_eq.mpr hu
    rw [if_pos (beq_iff_eq.mpr hu), if_pos (beq_iff_eq.mpr hu), List.filter_cons_of_pos himport, List.filter_nil,
      ← addImports_flatMap, List.flatMap_singleton]
  · have himport : ¬ isImport ⟨kind, role, span, missing, children⟩ = true := fun h => hu (beq_iff_eq.mp h)
    rw [if_neg (by simpa using hu), if_neg (by simpa using hu), List.filter_cons_of_neg himport]
    exact scope_walkAll uses _ none children

theorem scope_walkAll (uses : List Node) (s : Surroundings) (previous : Option Node) (ns : List Node) :
    (walkAll source ⟨scope, uses.flatMap (importsOf source)⟩ s previous ns).1 =
      ⟨scope, (uses ++ (nodesInAll ns).filter isImport).flatMap (importsOf source)⟩ := by
  cases ns with
  | nil => rw [walkAll, nodesInAll, List.filter_nil, List.append_nil]
  | cons n ns =>
    rw [walkAll, nodesInAll, List.filter_append, ← List.append_assoc]
    show (walkAll source (walk source _ s previous n).1 s (some n) ns).1 = _
    rw [scope_walk uses s previous n]
    exact scope_walkAll _ s (some n) ns

end

/-- What a node declares itself. -/
theorem forall₂_classLikeOf? (n : Node) :
    List.Forall₂ (DeclaredBy source)
      (Declarations.classes
        (((classLikeOf? source ⟨scope, uses.flatMap (importsOf source)⟩ s previous n).map (·.2)).getD .empty))
      (if isClassLike n then [⟨scope, uses, n⟩] else []) := by
  unfold classLikeOf? isClassLike
  cases hk : DeclarationKind.ofKind? n.kind with
  | none => exact .nil
  | some kind =>
    cases hname : n.childWith? .name with
    | none => exact .nil
    | some name =>
      refine .cons ⟨hk, ?_, rfl, ?_, ?_⟩ .nil
      · rw [hname]
        rfl
      · show clauseNames source _ .baseClause n = _
        unfold clauseNames clauseNodes
        cases (n.children.filter (·.kind == .baseClause)).getLast? <;> rfl
      · show clauseNames source _ .interfaceClause n = _
        unfold clauseNames clauseNodes
        cases (n.children.filter (·.kind == .interfaceClause)).getLast? <;> rfl

mutual

/-- The walk through a node declares its class-likes under the imports before each. -/
theorem forall₂_walk (uses : List Node) (s : Surroundings) (previous : Option Node) (n : Node) :
    List.Forall₂ (DeclaredBy source)
      (walk source ⟨scope, uses.flatMap (importsOf source)⟩ s previous n).2.classes
      (headingsFrom scope uses (nodesIn n)) := by
  obtain ⟨kind, role, span, missing, children⟩ := n
  rw [walk, nodesIn, headingsFrom]
  by_cases hu : kind = .useDeclaration
  · have himport : isImport ⟨kind, role, span, missing, children⟩ = true := beq_iff_eq.mpr hu
    rw [if_pos (beq_iff_eq.mpr hu), if_pos himport, if_pos (beq_iff_eq.mpr hu)]
    exact .nil
  · have himport : ¬ isImport ⟨kind, role, span, missing, children⟩ = true := fun h => hu (beq_iff_eq.mp h)
    have hkind : ¬ (kind == .useDeclaration) = true := himport
    rw [if_neg himport, if_neg hkind, if_neg hkind]
    exact List.rel_append (forall₂_classLikeOf? ..) (forall₂_walkAll uses _ none children)

theorem forall₂_walkAll (uses : List Node) (s : Surroundings) (previous : Option Node) (ns : List Node) :
    List.Forall₂ (DeclaredBy source)
      (walkAll source ⟨scope, uses.flatMap (importsOf source)⟩ s previous ns).2.classes
      (headingsFrom scope uses (nodesInAll ns)) := by
  cases ns with
  | nil =>
    rw [walkAll, nodesInAll]
    exact .nil
  | cons n ns =>
    have hrest := forall₂_walkAll (uses ++ (nodesIn n).filter isImport) s (some n) ns
    rw [← scope_walk source scope uses s previous n] at hrest
    rw [walkAll, nodesInAll, headingsFrom_append]
    exact List.rel_append (forall₂_walk uses s previous n) hrest

end

end

theorem forall₂_walkTop (source scope : Text) (uses : List Node) (previous : Option Node) (ns : List Node) :
    List.Forall₂ (DeclaredBy source) (walkTop source ⟨scope, uses.flatMap (importsOf source)⟩ previous ns).classes
      (headingsTop source scope uses ns) := by
  induction ns generalizing scope uses previous with
  | nil => exact .nil
  | cons n ns ih =>
    rw [walkTop, headingsTop]
    by_cases hn : n.kind = .namespaceDefinition
    · rw [if_pos (beq_iff_eq.mpr hn), if_pos (beq_iff_eq.mpr hn)]
      cases n.childWith? .body with
      | none => exact ih (scopeName source n) [] (some n)
      | some body =>
        exact List.rel_append (forall₂_walkAll source (scopeName source n) [] .none none body.children)
          (ih scope uses (some n))
    · rw [if_neg (by simpa using hn), if_neg (by simpa using hn)]
      have hrest := ih scope (uses ++ (nodesIn n).filter isImport) (some n)
      rw [← scope_walk source scope uses .none previous n] at hrest
      exact List.rel_append (forall₂_walk source scope uses .none previous n) hrest

/-- One declaration for each heading, whose names are resolved under the imports before it. -/
theorem forall₂_headings (source : Text) (root : Node) :
    List.Forall₂ (DeclaredBy source) (Declarations.ofTree source root).classes (headings source root) :=
  forall₂_walkTop source [] [] none root.children

/-! ## Imports that are read as they are meant -/

def isClearName (source : Text) (c : Node) : Bool := isSpelled (segments source c) (dropSeparators (c.text source))

def isClearClause (source : Text) (clause : Node) : Bool :=
  !isMarked clause && (importedName? clause).all (isClearName source)

/-- Whether the text of a declaration begins as an import of functions or constants. -/
def looksOther (source : Text) (n : Node) : Bool :=
  let t := lower (n.text source)
  startsWith t "use function".toList || startsWith t "use const".toList

def isClearPart (source : Text) (c : Node) : Bool :=
  if c.kind == .useClause then isClearClause source c
  else if c.kind == .useGroup then (groupClauses c).all (isClearClause source)
  else true

/-- An import declaration whose text tells what its nodes do: whether it imports classes, and
    under which names. No clause among classes has a keyword of its own. -/
def isClear (source : Text) (n : Node) : Bool :=
  looksOther source n == importsOther n &&
    (importsOther n || (groupHead? n).all (isClearName source) && n.children.all (isClearPart source))

/-- An imported class as the walk has it. -/
def ClassImport.asImport (i : ClassImport) : Import := ⟨joined i.segments, i.localName⟩

theorem of_areSegments {ws : List Text} (h : areSegments ws = true) : ws ≠ [] ∧ ∀ w ∈ ws, w ≠ [] ∧ '\\' ∉ w := by
  obtain ⟨hne, hall⟩ := Bool.and_eq_true_iff.mp h
  refine ⟨by simpa using hne, ?_⟩
  intro w hw
  obtain ⟨hw, hsep⟩ := Bool.and_eq_true_iff.mp (List.all_eq_true.mp hall w hw)
  refine ⟨by simpa using hw, ?_⟩
  intro hmem
  have := List.all_eq_true.mp hsep _ hmem
  simp at this

theorem joined_append {ws : List Text} (hne : ws ≠ []) (vs : List Text) :
    joined (ws ++ vs) = joined ws ++ vs.flatMap ('\\' :: ·) := by
  cases ws with
  | nil => exact absurd rfl hne
  | cons w ws => rw [List.cons_append, joined, joined, List.flatMap_append, List.append_assoc]

theorem flatMap_eq_joined {vs : List Text} (hne : vs ≠ []) : vs.flatMap ('\\' :: ·) = '\\' :: joined vs := by
  cases vs with
  | nil => exact absurd rfl hne
  | cons v vs => rfl

theorem areSegments_append {ws vs : List Text} (hw : areSegments ws = true) (hv : areSegments vs = true) :
    areSegments (ws ++ vs) = true := by
  obtain ⟨hne, hws⟩ := Bool.and_eq_true_iff.mp hw
  obtain ⟨-, hvs⟩ := Bool.and_eq_true_iff.mp hv
  rw [areSegments, List.all_append, hws, hvs]
  simpa using fun he => absurd he (of_areSegments hw).1

section

variable {source : Text}

theorem of_isClearName {c : Node} (h : isClearName source c = true) :
    areSegments (segments source c) = true ∧ dropSeparators (c.text source) = joined (segments source c) := by
  obtain ⟨hs, ht⟩ := Bool.and_eq_true_iff.mp h
  exact ⟨hs, beq_iff_eq.mp ht⟩

/-- What the walk makes of an import behind the head of its group. -/
def underHead (source : Text) (head : Option Node) (i : Import) : Import :=
  if head.isSome then { i with fqn := (head.map fun c => dropSeparators (c.text source)).getD [] ++ '\\' :: i.fqn } else i

theorem joined_headSegments {head : Option Node} (hhead : head.all (isClearName source) = true) {ws : List Text}
    (hws : areSegments ws = true) (localName : Option Text) :
    underHead source head ⟨joined ws, localName⟩ = ⟨joined (headSegments source head ++ ws), localName⟩ ∧
      areSegments (headSegments source head ++ ws) = true := by
  cases head with
  | none => exact ⟨rfl, hws⟩
  | some hd =>
    obtain ⟨hs, ht⟩ := of_isClearName hhead
    refine ⟨?_, areSegments_append hs hws⟩
    show Import.mk (dropSeparators (hd.text source) ++ '\\' :: joined ws) localName =
      ⟨joined (segments source hd ++ ws), localName⟩
    rw [ht, joined_append (of_areSegments hs).1, flatMap_eq_joined (of_areSegments hws).1]

/-- A clear clause imports what is read off its nodes. -/
theorem importOf?_of_isClearClause {clause : Node} (h : isClearClause source clause = true) {head : Option Node}
    (hhead : head.all (isClearName source) = true) :
    (importOf? source clause).map (underHead source head) =
        (clauseImport? source (headSegments source head) clause).map ClassImport.asImport ∧
      ∀ i ∈ clauseImport? source (headSegments source head) clause, areSegments i.segments = true := by
  obtain ⟨hmark, hname⟩ := Bool.and_eq_true_iff.mp h
  have hmark' : isMarked clause = false := by simpa using hmark
  unfold importOf? clauseImport?
  rw [hmark', if_neg Bool.false_ne_true]
  change Option.map _ ((importedName? clause).map _) = _ ∧ _
  cases hc : importedName? clause with
  | none => exact ⟨rfl, nofun⟩
  | some c =>
    rw [hc] at hname
    obtain ⟨hs, ht⟩ := of_isClearName hname
    obtain ⟨hunder, hsegments⟩ := joined_headSegments hhead hs ((clause.childWith? .localName).map (·.text source))
    refine ⟨?_, ?_⟩
    · rw [Option.map_some, Option.map_some, Option.map_some, Option.map_some, ht, hunder]
      rfl
    · intro i hi
      cases hi
      exact hsegments

theorem importsOfGroup_of_isClear {n : Node} {head : Option Node} (hhead : head.all (isClearName source) = true)
    (h : (groupClauses n).all (isClearClause source) = true) :
    importsOfGroup source ((head.map fun c => dropSeparators (c.text source)).getD []) head.isSome n =
        ((groupClauses n).filterMap (clauseImport? source (headSegments source head))).map ClassImport.asImport ∧
      ∀ i ∈ (groupClauses n).filterMap (clauseImport? source (headSegments source head)),
        areSegments i.segments = true := by
  have hclause := fun c hc => importOf?_of_isClearClause (List.all_eq_true.mp h c hc) hhead
  refine ⟨?_, ?_⟩
  · show ((groupClauses n).filterMap (importOf? source)).map (underHead source head) = _
    rw [List.map_filterMap, List.map_filterMap]
    exact List.filterMap_congr fun c hc => (hclause c hc).1
  · intro i hi
    obtain ⟨c, hc, hi⟩ := List.mem_filterMap.mp hi
    exact (hclause c hc).2 i hi

theorem importsOfPart_of_isClear {c : Node} {head : Option Node} (hhead : head.all (isClearName source) = true)
    (h : isClearPart source c = true) :
    (if c.kind == .useClause then (importOf? source c).toList
      else if c.kind == .useGroup then
        importsOfGroup source ((head.map fun c => dropSeparators (c.text source)).getD []) head.isSome c
      else []) = (classImportsIn source head c).map ClassImport.asImport ∧
      ∀ i ∈ classImportsIn source head c, areSegments i.segments = true := by
  unfold isClearPart at h
  unfold classImportsIn
  by_cases hclause : (c.kind == .useClause) = true
  · rw [if_pos hclause] at h
    rw [if_pos hclause, if_pos hclause]
    have hnone : Option.all (isClearName source) none = true := rfl
    obtain ⟨himport, hsegments⟩ := importOf?_of_isClearClause h hnone
    change _ = (clauseImport? source [] c).map ClassImport.asImport at himport
    refine ⟨?_, fun i hi => hsegments i (Option.mem_toList.mp hi)⟩
    rw [← Option.toList_map, ← himport]
    cases importOf? source c <;> rfl
  · rw [if_neg hclause] at h
    rw [if_neg hclause, if_neg hclause]
    by_cases hgroup : (c.kind == .useGroup) = true
    · rw [if_pos hgroup] at h
      rw [if_pos hgroup, if_pos hgroup]
      exact importsOfGroup_of_isClear hhead h
    · rw [if_neg hgroup, if_neg hgroup]
      exact ⟨rfl, nofun⟩

/-- A clear declaration imports what is read off its nodes. -/
theorem importsOf_of_isClear {n : Node} (h : isClear source n = true) :
    importsOf source n = (classImports source n).map ClassImport.asImport ∧
      ∀ i ∈ classImports source n, areSegments i.segments = true := by
  obtain ⟨hlooks, hclear⟩ := Bool.and_eq_true_iff.mp h
  have hlooks' : looksOther source n = importsOther n := beq_iff_eq.mp hlooks
  unfold importsOf classImports
  change (if looksOther source n = true then [] else _) = _ ∧ _
  rw [hlooks']
  by_cases hother : importsOther n = true
  · rw [if_pos hother, if_pos hother]
    exact ⟨rfl, nofun⟩
  · rw [if_neg hother, if_neg hother]
    have hother' : importsOther n = false := by simpa using hother
    rw [hother', Bool.false_or] at hclear
    obtain ⟨hhead, hall⟩ := Bool.and_eq_true_iff.mp hclear
    have hpart := fun c hc => importsOfPart_of_isClear hhead (List.all_eq_true.mp hall c hc)
    refine ⟨?_, ?_⟩
    · rw [List.map_flatMap]
      simp only [Option.isSome_map]
      exact List.flatMap_congr fun c hc => (hpart c hc).1
    · intro i hi
      obtain ⟨c, hc, hi⟩ := List.mem_flatMap.mp hi
      exact (hpart c hc).2 i hi

/-- Behind clear declarations the walk has the imports of their nodes. -/
theorem imports_of_isClear {uses : List Node} (h : uses.all (isClear source) = true) :
    uses.flatMap (importsOf source) = (uses.flatMap (classImports source)).map ClassImport.asImport ∧
      ∀ i ∈ uses.flatMap (classImports source), areSegments i.segments = true := by
  have hclear := fun n hn => importsOf_of_isClear (List.all_eq_true.mp h n hn)
  refine ⟨?_, ?_⟩
  · rw [List.map_flatMap]
    exact List.flatMap_congr fun n hn => (hclear n hn).1
  · intro i hi
    obtain ⟨n, hn, hi⟩ := List.mem_flatMap.mp hi
    exact (hclear n hn).2 i hi

end

/-! ## Names that are resolved -/

theorem lastSegment_joined {ws : List Text} (h : areSegments ws = true) :
    lastSegment (joined ws) = ws.getLast?.getD [] := by
  obtain ⟨hne, hall⟩ := of_areSegments h
  rcases List.eq_nil_or_concat ws with rfl | ⟨init, w, rfl⟩
  · exact absurd rfl hne
  · rw [List.concat_eq_append] at hall ⊢
    have hw := (hall w (by simp)).2
    rw [List.getLast?_concat, Option.getD_some]
    cases init with
    | nil =>
      have hone : joined ([] ++ [w]) = qualify [] w := List.append_nil w
      rw [hone]
      exact lastSegment_qualify [] hw
    | cons v init =>
      rw [joined_append (List.cons_ne_nil v init), List.flatMap_singleton]
      exact lastSegment_append _ hw

theorem visibleName_asImport {i : ClassImport} (h : areSegments i.segments = true) :
    i.asImport.visibleName = i.usedAs := by
  show i.localName.getD (lastSegment (joined i.segments)) = _
  rw [lastSegment_joined h]
  rfl

theorem takeWhile_joined {first : Text} (h : '\\' ∉ first) (rest : List Text) :
    (joined (first :: rest)).takeWhile (· != '\\') = first := by
  refine Token.takeWhile_append_eq (ne_separator_of_mem h) ?_
  intro c hc
  cases rest with
  | nil => cases hc
  | cons w rest =>
    cases hc
    rfl

/-- A name that is taken for a relative one begins with the word for that. -/
theorem of_isRelative {t : Text} (h : Scope.isRelative t = true) :
    ∃ a r, t = a ++ '\\' :: r ∧ lower a = "namespace".toList ∧ '\\' ∉ a := by
  have hwords : Scope.relativeHead = "namespace".toList ++ ['\\'] ∧ '\\' ∉ "namespace".toList := by decide +kernel
  obtain ⟨hhead, hmem⟩ := hwords
  have hlower : lower (t.take Scope.relativeHead.length) = "namespace".toList ++ ['\\'] :=
    (beq_iff_eq.mp (Bool.and_eq_true_iff.mp h).2).trans hhead
  obtain ⟨a, b, hab, ha, hb⟩ := List.map_eq_append_iff.mp hlower
  obtain ⟨d, rfl, hd⟩ := List.map_eq_singleton_iff.mp hb
  have hsep : d = '\\' := by
    by_contra hne
    exact toLower_ne_separator hne hd
  subst hsep
  refine ⟨a, t.drop Scope.relativeHead.length, ?_, ha, ?_⟩
  · calc t = t.take Scope.relativeHead.length ++ t.drop Scope.relativeHead.length := (List.take_append_drop ..).symm
      _ = a ++ '\\' :: t.drop Scope.relativeHead.length := by rw [hab, List.append_assoc, List.singleton_append]
  · intro hin
    exact hmem (ha ▸ List.mem_map_of_mem hin)

section

variable {first : Text} {rest : List Text}

theorem not_isRelative (hsep : '\\' ∉ first) (h : ¬ (lower first = "namespace".toList ∧ rest ≠ [])) :
    Scope.isRelative (joined (first :: rest)) = false := by
  rw [← Bool.not_eq_true]
  intro hrel
  obtain ⟨a, r, heq, ha, hmem⟩ := of_isRelative hrel
  have hfirst : a = first := by
    rw [← takeWhile_joined hsep rest, heq]
    exact (Token.takeWhile_append_eq (ne_separator_of_mem hmem) (fun c hc => by cases hc; rfl)).symm
  subst hfirst
  refine h ⟨ha, ?_⟩
  rintro rfl
  have hjoined : joined [a] = a := List.append_nil a
  rw [hjoined] at heq
  exact hmem (heq ▸ by simp)

theorem not_placeWord (h : ¬ (rest = [] ∧ Scope.placeWords.contains (lower first) = true)) :
    Scope.placeWords.contains (lower (joined (first :: rest))) = false := by
  rw [← Bool.not_eq_true]
  intro hword
  cases rest with
  | nil =>
    have hjoined : joined [first] = first := List.append_nil first
    rw [hjoined] at hword
    exact h ⟨rfl, hword⟩
  | cons w rest =>
    have hnone : Scope.placeWords.all (fun v => v.all (· != '\\')) = true := by decide +kernel
    have hall := List.all_eq_true.mp hnone _ (List.contains_iff_mem.mp hword)
    have hmem : '\\' ∈ lower (joined (first :: w :: rest)) := by
      refine List.mem_map.mpr ⟨'\\', ?_, rfl⟩
      simp [joined]
    have := List.all_eq_true.mp hall _ hmem
    simp at this

theorem resolve_of_head {s : Scope} {name : Text} (h : name.head? ≠ some '\\') (hrel : Scope.isRelative name = false)
    (hplace : Scope.placeWords.contains (lower name) = false) :
    s.resolve name =
      match s.imports.find? fun i => sameName i.visibleName (name.takeWhile (· != '\\')) with
      | some i => i.fqn ++ name.drop (name.takeWhile (· != '\\')).length
      | none => qualify s.namespaceName name := by
  unfold Scope.resolve
  split
  · exact absurd rfl h
  · rw [hrel, hplace]
    rfl

/-- The walk finds an import by the name it is used by. -/
theorem find?_asImport {imports : List ClassImport} (himports : ∀ i ∈ imports, areSegments i.segments = true)
    (name : Text) :
    (imports.map ClassImport.asImport).find? (fun i => sameName i.visibleName name) =
      (imports.find? fun i => sameName i.usedAs name).map ClassImport.asImport := by
  rw [List.find?_map]
  refine congrArg (Option.map _) (List.find?_congr fun i hi => ?_)
  rw [Function.comp_apply, visibleName_asImport (himports i hi)]

/-- A plain name, under imports that are read as they are meant, is resolved to its meaning. -/
theorem resolve_joined (hsegments : areSegments (first :: rest) = true)
    (hrel : ¬ (lower first = "namespace".toList ∧ rest ≠ []))
    (hplace : ¬ (rest = [] ∧ Scope.placeWords.contains (lower first) = true)) (scope : Text)
    {imports : List ClassImport} (himports : ∀ i ∈ imports, areSegments i.segments = true) :
    (Scope.mk scope (imports.map ClassImport.asImport)).resolve (joined (first :: rest)) =
      meaning scope imports (first :: rest) := by
  obtain ⟨hne, hsep⟩ := (of_areSegments hsegments).2 first (by simp)
  have hhead : (joined (first :: rest)).head? ≠ some '\\' := by
    obtain ⟨c, r, rfl⟩ := List.exists_cons_of_ne_nil hne
    intro he
    exact hsep (Option.some.inj he ▸ List.mem_cons_self)
  have hdrop : (joined (first :: rest)).drop first.length = rest.flatMap ('\\' :: ·) := List.drop_left' rfl
  rw [resolve_of_head hhead (not_isRelative hsep hrel) (not_placeWord hplace), takeWhile_joined hsep, hdrop,
    find?_asImport himports, meaning]
  cases hfind : imports.find? fun i => sameName i.usedAs first with
  | none => rfl
  | some i =>
    have hi := (of_areSegments (himports i (List.mem_of_find?_eq_some hfind))).1
    exact (joined_append hi rest).symm

end

theorem of_isPlain {source : Text} {c : Node} (h : isPlain source c = true) :
    ∃ first rest, segments source c = first :: rest ∧ areSegments (first :: rest) = true ∧
      c.text source = joined (first :: rest) ∧ ¬ (lower first = "namespace".toList ∧ rest ≠ []) ∧
      ¬ (rest = [] ∧ Scope.placeWords.contains (lower first) = true) := by
  unfold isPlain at h
  cases hs : segments source c with
  | nil =>
    rw [hs] at h
    cases h
  | cons first rest =>
    rw [hs] at h
    simp only [Bool.and_eq_true, Bool.not_eq_true', Bool.and_eq_false_iff] at h
    obtain ⟨⟨hspelled, hrel⟩, hplace⟩ := h
    obtain ⟨hsegments, htext⟩ := Bool.and_eq_true_iff.mp hspelled
    refine ⟨first, rest, rfl, hsegments, beq_iff_eq.mp htext, ?_, ?_⟩
    · rintro ⟨hfirst, hne⟩
      rcases hrel with hrel | hrel
      · exact absurd hfirst (by simpa using hrel)
      · exact hne (by simpa using hrel)
    · rintro ⟨rfl, hword⟩
      rcases hplace with hplace | hplace
      · cases hplace
      · rw [hword] at hplace
        cases hplace

/-- The names of a clause, recorded for the nodes they are written in: each plain one has its
    meaning under the imports in effect. -/
def HaveMeaning (source : Text) (h : Heading) (kind : Tree.Kind) (names : List Text) : Prop :=
  List.Forall₂
    (fun c name => isPlain source c = true →
      name = meaning h.scope (h.imports.flatMap (classImports source)) (segments source c))
    (clauseNodes kind h.node) names

theorem haveMeaning_map {source : Text} {h : Heading} (hclear : h.imports.all (isClear source) = true) (kind : Tree.Kind) :
    HaveMeaning source h kind
      ((clauseNodes kind h.node).map fun c => (h.known source).resolve (c.text source)) := by
  obtain ⟨himports, hsegments⟩ := imports_of_isClear hclear
  rw [HaveMeaning, List.forall₂_map_right_iff, List.forall₂_same]
  intro c _ hplain
  obtain ⟨first, rest, hs, hall, htext, hrel, hplace⟩ := of_isPlain hplain
  rw [htext, hs, Heading.known, himports]
  exact resolve_joined hall hrel hplace h.scope hsegments

/-- Every class-like of a tree is recorded with the names of its header, resolved in its
    namespace under the imports that stand before it there. If these are clear, each plain
    name has its meaning: its first segment is replaced by the first class import used by
    that name, ignoring case, and else the namespace is put before it. -/
theorem names_of_headings (source : Text) (root : Node) :
    List.Forall₂
      (fun d h => DeclaredBy source d h ∧
        (h.imports.all (isClear source) = true →
          HaveMeaning source h .baseClause d.parents ∧ HaveMeaning source h .interfaceClause d.interfaces))
      (Declarations.ofTree source root).classes (headings source root) := by
  refine (forall₂_headings source root).imp fun d h hd => ⟨hd, ?_⟩
  intro hclear
  rw [hd.parents, hd.interfaces]
  exact ⟨haveMeaning_map hclear .baseClause, haveMeaning_map hclear .interfaceClause⟩

def importSample : Text :=
  "<?php namespace App; use Lib\\Base as B; use \\Lib\\\x7bCountable, Sub\\Thing\x7d; use function F\\g, E; class A extends b implements Countable, THING\\Inner, E \x7b\x7d".toList

theorem names_of_importSample :
    ∃ d h, (Declarations.ofTree importSample (Tree.read importSample)).classes = [d] ∧
      headings importSample (Tree.read importSample) = [h] ∧ h.imports.length = 3 ∧
      h.imports.all (isClear importSample) = true ∧
      (clauseNodes .interfaceClause h.node).map (isPlain importSample) = [true, true, true] ∧
      HaveMeaning importSample h .baseClause d.parents ∧ HaveMeaning importSample h .interfaceClause d.interfaces ∧
      d.parents = ["Lib\\Base".toList] ∧
      d.interfaces = ["Lib\\Countable".toList, "Lib\\Sub\\Thing\\Inner".toList, "App\\E".toList] := by
  obtain ⟨hnames, hclear⟩ :
      (Declarations.ofTree importSample (Tree.read importSample)).classes.map (fun d => (d.parents, d.interfaces)) =
        [(["Lib\\Base".toList], ["Lib\\Countable".toList, "Lib\\Sub\\Thing\\Inner".toList, "App\\E".toList])] ∧
      (headings importSample (Tree.read importSample)).map (fun h => (h.imports.length,
        h.imports.all (isClear importSample), (clauseNodes .interfaceClause h.node).map (isPlain importSample))) =
        [(3, true, [true, true, true])] := by
    decide +kernel
  have hall := names_of_headings importSample (Tree.read importSample)
  obtain ⟨d, hd, hdnames⟩ := List.map_eq_singleton_iff.mp hnames
  obtain ⟨h, hh, hhclear⟩ := List.map_eq_singleton_iff.mp hclear
  rw [hd, hh] at hall
  obtain ⟨-, hmeaning⟩ := (List.forall₂_cons.mp hall).1
  simp only [Prod.mk.injEq] at hdnames hhclear
  obtain ⟨hlength, hclear, hplain⟩ := hhclear
  obtain ⟨hparents, hinterfaces⟩ := hmeaning hclear
  exact ⟨d, h, hd, hh, hlength, hclear, hplain, hparents, hinterfaces, hdnames⟩

/-- A source without issues whose one class records another parent than the plain name in its
    header means. -/
def Misreads (source recorded meant : Text) : Prop :=
  recorded ≠ meant ∧ (Tree.read source).issues = [] ∧
    (Declarations.ofSource source).classes.map (·.parents) = [[recorded]] ∧
    (headings source (Tree.read source)).map (fun h => (clauseNodes .baseClause h.node).map fun c =>
      (isPlain source c, meaning h.scope (h.imports.flatMap (classImports source)) (segments source c))) =
      [[(true, meant)]]

instance (source recorded meant : Text) : Decidable (Misreads source recorded meant) := by
  unfold Misreads; infer_instance

/-- Imports that are not read as they are meant: of a class in a namespace whose name begins
    with the keyword of functions, of a function two blanks behind `use`, and of a function
    among classes. -/
theorem misread_imports :
    Misreads "<?php namespace App; use Functions\\Base; class A extends Base \x7b\x7d".toList
        "App\\Base".toList "Functions\\Base".toList ∧
      Misreads "<?php namespace App; use  function Lib\\Base; class A extends Base \x7b\x7d".toList
        "Lib\\Base".toList "App\\Base".toList ∧
      Misreads "<?php namespace App; use Lib\\\x7bfunction Base, X\x7d; class A extends Base \x7b\x7d".toList
        "Lib\\Base".toList "App\\Base".toList := by
  decide +kernel

end ClassOutline
