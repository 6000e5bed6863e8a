import ClassOutline.Proofs.Sites
/-
  ClassOutline.Proofs.ClassLikes — the class-likes of a tree, with all that is around them.

  `places` lists the nodes of a tree in source order, each in its namespace and with the nodes
  around it. The class-likes are the places of class-like kinds that have a name. Said this
  way, the members of a class-like are those its own body holds (`ClassLike.members`), and its
  owner, if it stands in a method, is the innermost class-like around that method
  (`ClassLike.owner?`). The owner is a class-like of the tree itself (`owner?_eq_some`).

  The walk records just these: one declaration for each class-like, and each member under the
  qualified name of the class-like whose body holds it (`lists_ofTree`). So what is looked up
  by a name comes from all class-likes of that name (`membersOf_ofTree`).
-/

namespace ClassOutline

open ClassOutline.Text ClassOutline.Tree

/-! ## Places -/

/-- A node of a tree in its namespace, with the nodes around it, the innermost first. -/
structure Place where
  scope : Text
  node : Node
  around : List Node

mutual

/-- The places in a node, in source order. An import holds nothing. -/
def placesIn (scope : Text) (around : List Node) : Node → List Place
  | ⟨kind, role, span, missing, children⟩ =>
    if kind == .useDeclaration then []
    else
      let n : Node := ⟨kind, role, span, missing, children⟩
      ⟨scope, n, around⟩ :: placesInAll scope (n :: around) children

def placesInAll (scope : Text) (around : List Node) : List Node → List Place
  | [] => []
  | n :: ns => placesIn scope around n ++ placesInAll scope around ns

end

/-- The places right under the root and below, where namespaces are defined. -/
def placesTop (source : Text) : Text → List Node → List Place
  | _, [] => []
  | scope, n :: ns =>
    if n.kind == .namespaceDefinition then
      match n.childWith? .body with
      | some body => placesInAll (scopeName source n) [] body.children ++ placesTop source scope ns
      | none => placesTop source (scopeName source n) ns
    else placesIn scope [] n ++ placesTop source scope ns

def places (source : Text) (root : Node) : List Place := placesTop source [] root.children

/-! ## Class-likes -/

/-- A class-like and the node that names it. -/
structure ClassLike where
  place : Place
  kind : DeclarationKind
  name : Node

def Place.classLike? (p : Place) : Option ClassLike := do
  let kind ← DeclarationKind.ofKind? p.node.kind
  let name ← p.node.childWith? .name
  return ⟨p, kind, name⟩

theorem place_of_classLike? {p : Place} {c : ClassLike} (h : p.classLike? = some c) : c.place = p := by
  obtain ⟨kind, -, h⟩ := Option.bind_eq_some_iff.mp h
  obtain ⟨name, -, h⟩ := Option.bind_eq_some_iff.mp h
  cases h
  rfl

/-- The class-likes of a tree, in source order. -/
def classLikes (source : Text) (root : Node) : List ClassLike :=
  (places source root).filterMap Place.classLike?

/-- The members that the nodes of a body declare; `previous` is the node before them. -/
def membersIn (source : Text) : Option Node → List Node → List MemberDecl
  | _, [] => []
  | previous, n :: ns => membersOfNode source previous n ++ membersIn source (some n) ns

/-- The innermost class-like among the nodes around a place. -/
def innermost? (scope : Text) : List Node → Option ClassLike
  | [] => none
  | n :: outer => (Place.mk scope n outer).classLike?.or (innermost? scope outer)

/-- The class-like that owns the innermost method around a place. -/
def methodOwner? (scope : Text) : List Node → Option ClassLike
  | [] => none
  | n :: outer => if n.kind == .methodDeclaration then innermost? scope outer else methodOwner? scope outer

namespace ClassLike

def fqn (source : Text) (c : ClassLike) : Text := qualify c.place.scope (c.name.text source)

/-- The line of the name. -/
def line (c : ClassLike) : Nat := c.name.span.first.row + 1

def body (c : ClassLike) : List Node := ((c.place.node.childWith? .body).map (·.children)).getD []

/-- The members written directly in the body. -/
def members (source : Text) (c : ClassLike) : List MemberDecl := membersIn source none c.body

def owner? (c : ClassLike) : Option ClassLike := methodOwner? c.place.scope c.place.around

end ClassLike

/-! ## What is around a place -/

/-- The nodes around a place that lie within the region of some places are such places. -/
def ClosedOver (ps : List Place) (scope : Text) (around : List Node) (p : Place) : Prop :=
  p.scope = scope ∧ ∃ inner, p.around = inner ++ around ∧
    ∀ pre n post, inner = pre ++ n :: post → ⟨scope, n, post ++ around⟩ ∈ ps

theorem ClosedOver.mono {ps qs : List Place} {scope : Text} {around : List Node} {p : Place}
    (h : ClosedOver ps scope around p) (hsub : ∀ q ∈ ps, q ∈ qs) : ClosedOver qs scope around p := by
  obtain ⟨hscope, inner, haround, hmem⟩ := h
  exact ⟨hscope, inner, haround, fun pre n post heq => hsub _ (hmem pre n post heq)⟩

mutual

theorem closedOver_placesIn (scope : Text) (around : List Node) (n : Node) {p : Place}
    (h : p ∈ placesIn scope around n) : ClosedOver (placesIn scope around n) scope around p := by
  obtain ⟨kind, role, span, missing, children⟩ := n
  rw [placesIn] at h ⊢
  by_cases hu : kind = .useDeclaration
  · simp [hu] at h
  · simp only [beq_eq_false_iff_ne.mpr hu, Bool.false_eq_true, if_false] at h ⊢
    rcases List.mem_cons.mp h with rfl | h
    · exact ⟨rfl, [], rfl, by simp⟩
    · obtain ⟨hscope, inner, haround, hmem⟩ := closedOver_placesInAll scope _ children h
      refine ⟨hscope, inner ++ [⟨kind, role, span, missing, children⟩], by simpa using haround, ?_⟩
      -- The node itself is the last of the nodes around, the others lie within it.
      intro pre x post heq
      rcases List.eq_nil_or_concat post with rfl | ⟨post, y, rfl⟩
      · obtain ⟨-, hx⟩ := List.append_inj' heq rfl
        cases hx
        exact List.mem_cons_self
      · rw [List.concat_eq_append, ← List.cons_append, ← List.append_assoc] at heq
        obtain ⟨hinner, hy⟩ := List.append_inj' heq rfl
        cases hy
        refine List.mem_cons_of_mem _ ?_
        rw [List.concat_eq_append, List.append_assoc]
        exact hmem pre x post hinner

theorem closedOver_placesInAll (scope : Text) (around : List Node) (ns : List Node) {p : Place}
    (h : p ∈ placesInAll scope around ns) : ClosedOver (placesInAll scope around ns) scope around p := by
  cases ns with
  | nil => simp [placesInAll] at h
  | cons n ns =>
    rw [placesInAll] at h ⊢
    rcases List.mem_append.mp h with h | h
    · exact (closedOver_placesIn scope around n h).mono fun _ hq => List.mem_append_left _ hq
    · exact (closedOver_placesInAll scope around ns h).mono fun _ hq => List.mem_append_right _ hq

end

theorem closedOver_placesTop (source scope : Text) (ns : List Node) {p : Place} (h : p ∈ placesTop source scope ns) :
    ClosedOver (placesTop source scope ns) p.scope [] p := by
  induction ns generalizing scope with
  | nil => simp [placesTop] at h
  | cons n ns ih =>
    rw [placesTop] at h ⊢
    by_cases hn : n.kind = .namespaceDefinition
    · rw [if_pos (beq_iff_eq.mpr hn)] at h ⊢
      cases hb : n.childWith? .body with
      | none =>
        rw [hb] at h
        exact ih (scopeName source n) h
      | some body =>
        rw [hb] at h
        rcases List.mem_append.mp h with h | h
        · have hclosed := closedOver_placesInAll (scopeName source n) [] body.children h
          rw [hclosed.1]
          exact hclosed.mono fun _ hq => List.mem_append_left _ hq
        · exact (ih scope h).mono fun _ hq => List.mem_append_right _ hq
    · rw [if_neg (by simpa using hn)] at h ⊢
      rcases List.mem_append.mp h with h | h
      · have hclosed := closedOver_placesIn scope [] n h
        rw [hclosed.1]
        exact hclosed.mono fun _ hq => List.mem_append_left _ hq
      · exact (ih scope h).mono fun _ hq => List.mem_append_right _ hq

/-- The nodes around a place of a tree are places of the tree. -/
theorem mem_places_of_around {source : Text} {root : Node} {p : Place} (h : p ∈ places source root)
    {pre post : List Node} {n : Node} (haround : p.around = pre ++ n :: post) :
    ⟨p.scope, n, post⟩ ∈ places source root := by
  obtain ⟨-, inner, hinner, hmem⟩ := closedOver_placesTop source [] root.children h
  rw [List.append_nil] at hinner
  have := hmem pre n post (hinner.symm.trans haround)
  rwa [List.append_nil] at this

theorem innermost?_eq_some {scope : Text} {around : List Node} {o : ClassLike} (h : innermost? scope around = some o) :
    ∃ pre n post, around = pre ++ n :: post ∧ (Place.mk scope n post).classLike? = some o := by
  induction around with
  | nil => cases h
  | cons n outer ih =>
    rw [innermost?] at h
    rcases Option.or_eq_some_iff.mp h with h | ⟨-, h⟩
    · exact ⟨[], n, outer, rfl, h⟩
    · obtain ⟨pre, x, post, rfl, hx⟩ := ih h
      exact ⟨n :: pre, x, post, rfl, hx⟩

theorem methodOwner?_eq_some {scope : Text} {around : List Node} {o : ClassLike}
    (h : methodOwner? scope around = some o) :
    ∃ pre n post, around = pre ++ n :: post ∧ (Place.mk scope n post).classLike? = some o := by
  induction around with
  | nil => cases h
  | cons n outer ih =>
    rw [methodOwner?] at h
    have hrest : ∃ pre x post, outer = pre ++ x :: post ∧ (Place.mk scope x post).classLike? = some o := by
      split at h
      · exact innermost?_eq_some h
      · exact ih h
    obtain ⟨pre, x, post, rfl, hx⟩ := hrest
    exact ⟨n :: pre, x, post, rfl, hx⟩

/-- The owner of a class-like is around it, and is a class-like of the tree, too. -/
theorem owner?_eq_some {source : Text} {root : Node} {u o : ClassLike} (hu : u ∈ classLikes source root)
    (h : u.owner? = some o) :
    o ∈ classLikes source root ∧ o.place.scope = u.place.scope ∧
      ∃ path, u.place.around = path ++ o.place.node :: o.place.around := by
  obtain ⟨p, hp, hup⟩ := List.mem_filterMap.mp hu
  have hplace := place_of_classLike? hup
  subst hplace
  obtain ⟨pre, n, post, haround, ho⟩ := methodOwner?_eq_some h
  have hplace := place_of_classLike? ho
  refine ⟨List.mem_filterMap.mpr ⟨_, mem_places_of_around hp haround, ho⟩, ?_, pre, ?_⟩
  · rw [hplace]
  · rw [hplace]
    exact haround

/-! ## What the walk records -/

/-- A declaration says of a class-like what it is, where it is and who owns it. -/
structure Records (source : Text) (d : ClassDecl) (c : ClassLike) : Prop where
  kind : d.kind = c.kind
  fqn : d.fqn = c.fqn source
  scope : d.scope = c.place.scope
  name : d.name = c.name.text source
  line : d.line = c.line
  enclosing : d.enclosing = c.owner?.map (·.fqn source)

/-- The declarations of class-likes and the members of their bodies. -/
structure Lists (source : Text) (d : Declarations) (cs : List ClassLike) : Prop where
  classes : List.Forall₂ (Records source) d.classes cs
  members : d.members = cs.flatMap fun c => (c.members source).map (⟨c.fqn source, ·⟩)

theorem Lists.empty (source : Text) : Lists source .empty [] := ⟨.nil, rfl⟩

theorem Lists.append {source : Text} {d e : Declarations} {cs ds : List ClassLike} (hd : Lists source d cs)
    (he : Lists source e ds) : Lists source (d ++ e) (cs ++ ds) := by
  refine ⟨List.rel_append hd.classes he.classes, ?_⟩
  rw [List.flatMap_append, ← hd.members, ← he.members]
  rfl

theorem membersOfBody_eq (source owner : Text) (previous : Option Node) (ns : List Node) :
    membersOfBody source owner previous ns = (membersIn source previous ns).map (⟨owner, ·⟩) := by
  induction ns generalizing previous with
  | nil => rfl
  | cons n ns ih => rw [membersOfBody, membersIn, ih, List.map_append]

/-- What the walk knows at a place. -/
def surroundings (source scope : Text) (around : List Node) : Surroundings :=
  ⟨(innermost? scope around).map (·.fqn source), (methodOwner? scope around).map (·.fqn source)⟩

section

variable (source : Text) (scope : Scope) (s : Surroundings) (previous : Option Node) (n : Node) (around : List Node)

theorem classLikeOf?_eq :
    classLikeOf? source scope s previous n =
      (Place.mk scope.namespaceName n around).classLike?.map fun c =>
        (c.fqn source, ⟨[classDeclOf source scope s c.kind previous n c.name],
          (c.members source).map (⟨c.fqn source, ·⟩)⟩) := by
  unfold classLikeOf? Place.classLike?
  cases DeclarationKind.ofKind? n.kind with
  | none => rfl
  | some kind =>
    cases n.childWith? .name with
    | none => rfl
    | some name =>
      show some (_, Declarations.mk _ (membersOfBody ..)) = _
      rw [membersOfBody_eq]
      rfl

/-- Below a node the walk knows what is around there. -/
theorem surroundings_below :
    (surroundings source scope.namespaceName around).below n (classLikeOf? source scope s previous n) =
      surroundings source scope.namespaceName (n :: around) := by
  rw [classLikeOf?_eq source scope s previous n around]
  by_cases hm : n.kind = .methodDeclaration
  · have hnone : (Place.mk scope.namespaceName n around).classLike? = none := by
      simp [Place.classLike?, hm, DeclarationKind.ofKind?]
    simp [Surroundings.below, surroundings, innermost?, methodOwner?, hm, hnone]
  · have hm' : (n.kind == .methodDeclaration) = false := beq_eq_false_iff_ne.mpr hm
    cases h : (Place.mk scope.namespaceName n around).classLike? with
    | none => simp [Surroundings.below, surroundings, innermost?, methodOwner?, hm', h]
    | some c => simp [Surroundings.below, surroundings, innermost?, methodOwner?, hm', h]

/-- What a node declares itself. -/
theorem lists_classLikeOf? :
    Lists source
      (((classLikeOf? source scope (surroundings source scope.namespaceName around) previous n).map (·.2)).getD .empty)
      (Place.mk scope.namespaceName n around).classLike?.toList := by
  rw [classLikeOf?_eq source scope _ previous n around]
  cases h : (Place.mk scope.namespaceName n around).classLike? with
  | none => exact Lists.empty source
  | some c =>
    have hplace := place_of_classLike? h
    refine ⟨.cons ?_ .nil, by simp⟩
    refine ⟨rfl, ?_, ?_, rfl, rfl, ?_⟩
    · rw [ClassLike.fqn, hplace]
      rfl
    · rw [hplace]
      rfl
    · rw [ClassLike.owner?, hplace]
      rfl

end

mutual

theorem lists_walk (source : Text) (scope : Scope) (around : List Node) (previous : Option Node) (n : Node) :
    Lists source (walk source scope (surroundings source scope.namespaceName around) previous n).2
      ((placesIn scope.namespaceName around n).filterMap Place.classLike?) := by
  obtain ⟨kind, role, span, missing, children⟩ := n
  rw [walk, placesIn]
  by_cases hu : kind = .useDeclaration
  · simpa [hu] using Lists.empty source
  · simp only [beq_eq_false_iff_ne.mpr hu, Bool.false_eq_true, if_false]
    rw [surroundings_below, List.filterMap_eq_flatMap_toList, List.flatMap_cons, ← List.filterMap_eq_flatMap_toList]
    exact (lists_classLikeOf? ..).append (lists_walkAll source scope _ none children)

theorem lists_walkAll (source : Text) (scope : Scope) (around : List Node) (previous : Option Node) (ns : List Node) :
    Lists source (walkAll source scope (surroundings source scope.namespaceName around) previous ns).2
      ((placesInAll scope.namespaceName around ns).filterMap Place.classLike?) := by
  cases ns with
  | nil => simpa [walkAll, placesInAll] using Lists.empty source
  | cons n ns =>
    have hscope := (walk_perm_sites source scope (surroundings source scope.namespaceName around) previous n).1
    have hfirst := lists_walk source scope around previous n
    have hrest := lists_walkAll source
      (walk source scope (surroundings source scope.namespaceName around) previous n).1 around (some n) ns
    rw [hscope] at hrest
    rw [walkAll, placesInAll, List.filterMap_append]
    exact hfirst.append hrest

end

theorem lists_walkTop (source : Text) (scope : Scope) (previous : Option Node) (ns : List Node) :
    Lists source (walkTop source scope previous ns)
      ((placesTop source scope.namespaceName ns).filterMap Place.classLike?) := by
  induction ns generalizing scope previous with
  | nil => exact Lists.empty source
  | cons n ns ih =>
    rw [walkTop, placesTop]
    split
    · cases hb : n.childWith? .body with
      | none => exact ih (.inNamespace (scopeName source n)) (some n)
      | some body =>
        simp only [List.filterMap_append]
        exact (lists_walkAll source (.inNamespace (scopeName source n)) [] none body.children).append
          (ih scope (some n))
    · have hscope := (walk_perm_sites source scope .none previous n).1
      have hrest := ih (walk source scope .none previous n).1 (some n)
      rw [hscope] at hrest
      rw [List.filterMap_append]
      exact (lists_walk source scope [] previous n).append hrest

/-- The declarations of a tree are those of its class-likes. -/
theorem lists_ofTree (source : Text) (root : Node) :
    Lists source (.ofTree source root) (classLikes source root) :=
  lists_walkTop source (.inNamespace []) none root.children

theorem exists_of_mem_forall₂ {α β : Type} {R : α → β → Prop} {as : List α} {bs : List β} (h : List.Forall₂ R as bs)
    {a : α} (ha : a ∈ as) : ∃ b ∈ bs, R a b := by
  induction h with
  | nil => cases ha
  | cons hab _ ih =>
    rcases List.mem_cons.mp ha with rfl | ha
    · exact ⟨_, List.mem_cons_self, hab⟩
    · obtain ⟨b, hb, hr⟩ := ih ha
      exact ⟨b, List.mem_cons_of_mem _ hb, hr⟩

theorem fqn_of_mem_ofTree {source : Text} {root : Node} {d : ClassDecl}
    (h : d ∈ (Declarations.ofTree source root).classes) : d.fqn = qualify d.scope d.name := by
  obtain ⟨c, -, hc⟩ := exists_of_mem_forall₂ (lists_ofTree source root).classes h
  rw [hc.fqn, hc.scope, hc.name, ClassLike.fqn]

/-- The members under a name are those of all class-likes of the name. -/
theorem membersOf_ofTree (source : Text) (root : Node) (fqn : Text) :
    (Declarations.ofTree source root).membersOf fqn =
      ((classLikes source root).filter (·.fqn source == fqn)).flatMap (·.members source) := by
  rw [Declarations.membersOf, (lists_ofTree source root).members]
  induction classLikes source root with
  | nil => rfl
  | cons c cs ih =>
    rw [List.flatMap_cons, List.filter_append, List.map_append, ih]
    by_cases h : c.fqn source = fqn
    · simp [h, List.filter_map, Function.comp_def]
    · simp [h, List.filter_map, Function.comp_def]

end ClassOutline
