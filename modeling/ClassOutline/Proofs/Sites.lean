import ClassOutline.Declaration.OfTree
import Mathlib.Data.List.Perm.Basic
/-
  ClassOutline.Proofs.Sites — the class declarations of a tree, where their names stand.

  The walk records a class before anything inside it, and so before a class that its own
  attributes hold. `sites` lists the class declarations by their names instead, in the order
  the names have in the source, and says of each whether nothing but white space stands
  between the keyword and the name. Up to the order the two agree, scope by scope
  (`walk_perm_sites`, `ofTree_perm_declared`).
-/

namespace ClassOutline

open ClassOutline.Text ClassOutline.Tree

/-! ## Sites -/

/-- The name of a class declaration. Blanks are no nodes, so only white space separates it
    from the keyword if the keyword is the node before it. -/
structure Site where
  name : Node
  isSeparated : Bool

def isClassKeyword (n : Node) : Bool := n.kind == .token "class".toList

mutual

/-- The names of the class declarations in a node, in source order. -/
def sites : Node → List Site
  | ⟨kind, _, _, _, children⟩ =>
    if kind == .useDeclaration then [] else sitesAll (kind == .classDeclaration) none children

/-- The same for children, of which the first with the role of a name names a class if one
    is pending. -/
def sitesAll (isPending : Bool) (previous : Option Node) : List Node → List Site
  | [] => []
  | c :: cs =>
    (if isPending && c.role == some .name then [⟨c, previous.any isClassKeyword⟩] else []) ++
      (sites c ++ sitesAll (isPending && c.role != some .name) (some c) cs)

end

/-- A class declaration in its namespace. -/
structure DeclaredClass where
  scope : Text
  site : Site

def DeclaredClass.name (source : Text) (d : DeclaredClass) : Text := d.site.name.text source

def DeclaredClass.fqn (source : Text) (d : DeclaredClass) : Text := qualify d.scope (d.name source)

def DeclaredClass.line (d : DeclaredClass) : Nat := d.site.name.span.first.row + 1

/-- The name of a namespace definition. -/
def scopeName (source : Text) (n : Node) : Text :=
  ((n.childWith? .name).map fun c => dropSeparators (c.text source)).getD []

/-- The class declarations under the root, in source order. -/
def declaredTop (source : Text) : Text → List Node → List DeclaredClass
  | _, [] => []
  | scope, n :: ns =>
    if n.kind == .namespaceDefinition then
      match n.childWith? .body with
      | some body =>
        (sitesAll false none body.children).map (⟨scopeName source n, ·⟩) ++ declaredTop source scope ns
      | none => declaredTop source (scopeName source n) ns
    else (sites n).map (⟨scope, ·⟩) ++ declaredTop source scope ns

def declared (source : Text) (root : Node) : List DeclaredClass := declaredTop source [] root.children

/-! ## The walk lists the same classes -/

/-- What both lists say of a class. -/
abbrev Entry := Text × Nat

def DeclaredClass.entry (source : Text) (d : DeclaredClass) : Entry := (d.fqn source, d.line)

def ClassDecl.entry (c : ClassDecl) : Entry := (c.fqn, c.line)

def Declarations.classEntries (d : Declarations) : List Entry :=
  (d.classes.filter (·.kind == .isClass)).map ClassDecl.entry

def siteEntry (source scope : Text) (s : Site) : Entry := DeclaredClass.entry source ⟨scope, s⟩

@[simp] theorem classEntries_empty : Declarations.empty.classEntries = [] := rfl

@[simp] theorem classEntries_append (a b : Declarations) :
    (a ++ b).classEntries = a.classEntries ++ b.classEntries := by
  show ((a.classes ++ b.classes).filter _).map _ = _
  rw [List.filter_append, List.map_append]
  rfl

theorem sitesAll_append (isPending : Bool) (previous : Option Node) (c : Node) (cs : List Node) :
    sitesAll isPending previous (c :: cs) =
      (if isPending && c.role == some .name then [⟨c, previous.any isClassKeyword⟩] else []) ++
        (sites c ++ sitesAll (isPending && c.role != some .name) (some c) cs) := by
  rw [sitesAll]

/-- Without a pending class the node before does not matter. -/
theorem sitesAll_false (previous : Option Node) (cs : List Node) :
    sitesAll false previous cs = cs.flatMap sites := by
  induction cs generalizing previous with
  | nil => simp [sitesAll]
  | cons c cs ih => simp [sitesAll, ih]

/-- The class that is pending is the one of the first name. -/
theorem sitesAll_true_perm (source scope : Text) (previous : Option Node) (cs : List Node) :
    ((sitesAll true previous cs).map (siteEntry source scope)).Perm
      (((cs.find? (·.role == some .name)).map fun c => siteEntry source scope ⟨c, false⟩).toList ++
        (cs.flatMap sites).map (siteEntry source scope)) := by
  induction cs generalizing previous with
  | nil => simp [sitesAll]
  | cons c cs ih =>
    by_cases hc : c.role = some .name
    · have hne : (c.role != some .name) = false := by simp [hc]
      simp [sitesAll, hc, sitesAll_false, siteEntry, DeclaredClass.entry, DeclaredClass.fqn,
        DeclaredClass.name, DeclaredClass.line]
    · have hne : (c.role == some .name) = false := by simpa using hc
      simp only [sitesAll_append, hne, Bool.and_false, Bool.false_eq_true, if_false, List.nil_append,
        Bool.true_and, bne, Bool.not_false, List.map_append, List.find?_cons, List.flatMap_cons]
      refine (List.Perm.append_left _ (ih (some c))).trans ?_
      rw [← List.append_assoc, ← List.append_assoc]
      exact List.Perm.append_right _ List.perm_append_comm

theorem kind_of_isClass {k : Tree.Kind} (h : DeclarationKind.ofKind? k = some .isClass) :
    k = .classDeclaration := by
  cases k <;> simp_all [DeclarationKind.ofKind?]

/-- What a node declares itself is a class if it is a class declaration with a name. -/
theorem ownEntries (source : Text) (scope : Scope) (s : Surroundings) (previous : Option Node) (n : Node) :
    Declarations.classEntries (((classLikeOf? source scope s previous n).map (·.2)).getD .empty) =
      if n.kind = .classDeclaration then
        ((n.children.find? (·.role == some .name)).map fun c =>
          siteEntry source scope.namespaceName ⟨c, false⟩).toList
      else [] := by
  unfold classLikeOf?
  cases hk : DeclarationKind.ofKind? n.kind with
  | none =>
    have hne : n.kind ≠ .classDeclaration := by
      intro h
      rw [h] at hk
      cases hk
    simp [hne]
  | some kind =>
    cases hc : n.childWith? .name with
    | none =>
      have hf : n.children.find? (·.role == some .name) = none := hc
      simp [hf]
    | some c =>
      have hf : n.children.find? (·.role == some .name) = some c := hc
      by_cases hn : n.kind = .classDeclaration
      · rw [hn] at hk
        cases hk
        simp [hn, hf, Declarations.classEntries, classDeclOf, ClassDecl.entry, siteEntry, DeclaredClass.entry,
          DeclaredClass.fqn, DeclaredClass.name, DeclaredClass.line]
      · have hkind : kind ≠ .isClass := by
          intro heq
          subst heq
          exact hn (kind_of_isClass hk)
        simp [hn, Declarations.classEntries, classDeclOf, hkind]

mutual

theorem walk_perm_sites (source : Text) (scope : Scope) (s : Surroundings) (previous : Option Node) (n : Node) :
    (walk source scope s previous n).1.namespaceName = scope.namespaceName ∧
      (walk source scope s previous n).2.classEntries.Perm
        ((sites n).map (siteEntry source scope.namespaceName)) := by
  obtain ⟨kind, role, span, missing, children⟩ := n
  rw [walk, sites]
  by_cases hu : kind = .useDeclaration
  · simp [hu, Scope.addImports]
  · simp only [beq_eq_false_iff_ne.mpr hu, Bool.false_eq_true, if_false]
    obtain ⟨hscope, hperm⟩ := walkAll_perm_sites source scope
      (s.below ⟨kind, role, span, missing, children⟩
        (classLikeOf? source scope s previous ⟨kind, role, span, missing, children⟩)) none children
    refine ⟨hscope, ?_⟩
    rw [classEntries_append, ownEntries]
    by_cases hk : kind = .classDeclaration
    · rw [if_pos hk, beq_iff_eq.mpr hk]
      refine (List.Perm.append_left _ hperm).trans ?_
      exact (sitesAll_true_perm source scope.namespaceName none children).symm
    · rw [if_neg hk, beq_eq_false_iff_ne.mpr hk, sitesAll_false]
      exact hperm

theorem walkAll_perm_sites (source : Text) (scope : Scope) (s : Surroundings) (previous : Option Node)
    (ns : List Node) :
    (walkAll source scope s previous ns).1.namespaceName = scope.namespaceName ∧
      (walkAll source scope s previous ns).2.classEntries.Perm
        ((ns.flatMap sites).map (siteEntry source scope.namespaceName)) := by
  cases ns with
  | nil => simp [walkAll]
  | cons n ns =>
    rw [walkAll]
    obtain ⟨hscope, hperm⟩ := walk_perm_sites source scope s previous n
    obtain ⟨hscope', hperm'⟩ :=
      walkAll_perm_sites source (walk source scope s previous n).1 s (some n) ns
    refine ⟨hscope'.trans hscope, ?_⟩
    rw [classEntries_append, List.flatMap_cons, List.map_append]
    rw [hscope] at hperm'
    exact hperm.append hperm'

end

theorem walkTop_perm_declaredTop (source : Text) (scope : Scope) (previous : Option Node) (ns : List Node) :
    (walkTop source scope previous ns).classEntries.Perm
      ((declaredTop source scope.namespaceName ns).map (DeclaredClass.entry source)) := by
  induction ns generalizing scope previous with
  | nil => simp [walkTop, declaredTop]
  | cons n ns ih =>
    rw [walkTop, declaredTop]
    split
    · cases hb : n.childWith? .body with
      | none => exact ih (.inNamespace (scopeName source n)) (some n)
      | some body =>
        obtain ⟨-, hperm⟩ := walkAll_perm_sites source (.inNamespace (scopeName source n)) .none none body.children
        simp only [classEntries_append, List.map_append, List.map_map, sitesAll_false]
        exact hperm.append (ih scope (some n))
    · obtain ⟨hscope, hperm⟩ := walk_perm_sites source scope .none previous n
      simp only [classEntries_append, List.map_append, List.map_map]
      have := ih (walk source scope .none previous n).1 (some n)
      rw [hscope] at this
      exact hperm.append this

/-- The classes of a tree are those of its sites, in another order perhaps. -/
theorem ofTree_perm_declared (source : Text) (root : Node) :
    (Declarations.ofTree source root).classEntries.Perm
      ((declared source root).map (DeclaredClass.entry source)) :=
  walkTop_perm_declaredTop source (.inNamespace []) none root.children

end ClassOutline
