import ClassOutline.Proofs.ClassLikes
import ClassOutline.Tree.Issue
import Mathlib.Data.List.Forall2
import Mathlib.Data.List.Lex
/-
  ClassOutline.Proofs.Addresses — the class-likes of a tree, told by where they stand.

  An address says which child is next on the way from the root to a node. Compared as
  sequences, addresses are in document order: a node comes before what is below it, and
  all that is below it before its next sibling. A node is around another if its address is
  the beginning of the other's. In these words, which know no walk and no stacks, the
  declarations of a tree are those of its class-likes with a name, each once and in document
  order, in the namespace of the definition that holds it or the last one without a body
  before it, and owned by the innermost class-like around the innermost method around it
  (`declarations_by_address`). This is of the nodes that are looked at: not those in an import
  or in the head of a namespace definition, where no class-like stands in a file (`IsReached`).

  A namespace definition that is not right under the root names nothing
  (`nested_namespace_names_nothing`).

  The places of a tree are enumerated by the addresses of the nodes that are looked at
  (`Enumerates`), part by part along the recursion of `places`; what the walk knows of the
  nodes around a place is then said by beginnings of its address (`innermost?_iff`,
  `methodOwner?_iff`).
-/

namespace ClassOutline

open ClassOutline.Text ClassOutline.Tree

/-! ## Addresses -/

/-- The way from the root of a tree to a node: which child is next, at each node on it. -/
abbrev Address := List Nat

/-- The node at an address. -/
def Tree.Node.at? (n : Node) : Address → Option Node
  | [] => some n
  | i :: rest => n.children[i]?.bind (·.at? rest)

theorem at?_append (n : Node) (a b : Address) : n.at? (a ++ b) = (n.at? a).bind (·.at? b) := by
  induction a generalizing n with
  | nil => rfl
  | cons i a ih =>
    rw [List.cons_append, Node.at?, Node.at?, Option.bind_assoc]
    exact congrArg _ (funext ih)

@[simp] theorem at?_singleton (n : Node) (i : Nat) : n.at? [i] = n.children[i]? := by
  rw [Node.at?]
  exact Option.bind_fun_some _

theorem at?_concat {root n : Node} {a : Address} (h : root.at? a = some n) (k : Nat) :
    root.at? (a ++ [k]) = n.children[k]? := by
  rw [at?_append, h, Option.bind_some, at?_singleton]

/-- Around a node there are nodes. -/
theorem exists_at?_above {root n : Node} {a b : Address} (h : root.at? b = some n) (hab : a <+: b) :
    ∃ m, root.at? a = some m := by
  obtain ⟨c, rfl⟩ := hab
  rw [at?_append] at h
  obtain ⟨m, hm, -⟩ := Option.bind_eq_some_iff.mp h
  exact ⟨m, hm⟩

theorem lt_of_below {a b : Address} {k : Nat} (h : a ++ [k] <+: b) : a < b := by
  obtain ⟨c, rfl⟩ := h
  have hlt : List.Lex (· < ·) (a ++ []) (a ++ k :: c) := .append_left _ .nil a
  rwa [List.append_nil, List.append_cons] at hlt

theorem lt_of_siblings {a b c : Address} {i k : Nat} (hik : i < k) (hb : a ++ [i] <+: b) (hc : a ++ [k] <+: c) :
    b < c := by
  obtain ⟨u, rfl⟩ := hb
  obtain ⟨v, rfl⟩ := hc
  rw [← List.append_cons, ← List.append_cons]
  exact .append_left _ (.rel hik) a

/-- An address behind another takes a first step from it. -/
theorem exists_step {a b : Address} (h : a <+: b) (hne : b ≠ a) : ∃ k, a ++ [k] <+: b := by
  obtain ⟨c, rfl⟩ := h
  cases c with
  | nil => exact absurd (List.append_nil a) hne
  | cons k c => exact ⟨k, c, by rw [← List.append_cons]⟩

theorem not_child_above (a : Address) (k : Nat) : ¬ a ++ [k] <+: a := by
  intro h
  have := h.length_le
  rw [List.length_append, List.length_singleton] at this
  omega

/-! ## What is looked at -/

def bodyIndex? (n : Node) : Option Nat := n.children.findIdx? (·.role == some .body)

/-- Where namespaces hold: right under the root, and right in the body of a namespace
    definition that stands there. -/
inductive IsStart (root : Node) : Address → Prop
  | underRoot {i : Nat} {n : Node} (hn : root.children[i]? = some n) (hkind : n.kind ≠ .namespaceDefinition) :
      IsStart root [i]
  | inBody {i j : Nat} {n : Node} (k : Nat) (hn : root.children[i]? = some n) (hkind : n.kind = .namespaceDefinition)
      (hbody : bodyIndex? n = some j) : IsStart root [i, j, k]

/-- A node is looked at if it is at a start or below, and neither is an import nor stands in
    one. -/
inductive IsReached (root : Node) : Address → Prop
  | start {s : Address} {n : Node} (hs : IsStart root s) (hn : root.at? s = some n)
      (hkind : n.kind ≠ .useDeclaration) : IsReached root s
  | child {a : Address} {k : Nat} {n : Node} (ha : IsReached root a) (hn : root.at? (a ++ [k]) = some n)
      (hkind : n.kind ≠ .useDeclaration) : IsReached root (a ++ [k])

/-- A class-like of some kind, with the node that names it. -/
structure ClassLikeAt (root : Node) (a : Address) (kind : DeclarationKind) (name : Node) : Prop where
  reached : IsReached root a
  node : ∃ n, root.at? a = some n ∧ DeclarationKind.ofKind? n.kind = some kind ∧ n.childWith? .name = some name

def IsClassLike (root : Node) (a : Address) : Prop := ∃ kind name, ClassLikeAt root a kind name

def IsMethod (root : Node) (a : Address) : Prop :=
  IsReached root a ∧ ∃ n, root.at? a = some n ∧ n.kind = .methodDeclaration

/-- The innermost address around another that something holds of. -/
structure Innermost (P : Address → Prop) (a b : Address) : Prop where
  around : b <+: a
  proper : b ≠ a
  holds : P b
  innermost : ∀ c, c <+: a → c ≠ a → P c → c <+: b

/-- A namespace definition that holds for what follows it. -/
def isUnbraced (n : Node) : Bool := n.kind == .namespaceDefinition && (n.childWith? .body).isNone

/-- The name that the last namespace definition without a body gives. -/
def unbracedName (source : Text) (before : List Node) : Text :=
  ((before.filter isUnbraced).getLast?.map (scopeName source)).getD []

/-- The namespace at an address: that of the namespace definition it is in, or else that of the
    last one without a body before it. -/
def namespaceAt (source : Text) (root : Node) : Address → Text
  | [] => []
  | i :: _ =>
    match root.children[i]? with
    | some n =>
      if n.kind == .namespaceDefinition then scopeName source n else unbracedName source (root.children.take i)
    | none => []

/-- The qualified name of the class-like at an address. -/
def IsFqnAt (source : Text) (root : Node) (a : Address) (fqn : Text) : Prop :=
  ∃ kind name, ClassLikeAt root a kind name ∧ fqn = qualify (namespaceAt source root a) (name.text source)

/-- A declaration says of the class-like at an address what it is, where it is and who owns it. -/
structure DeclaredAt (source : Text) (root : Node) (d : ClassDecl) (a : Address) : Prop where
  node : ∃ name, ClassLikeAt root a d.kind name ∧ d.name = name.text source ∧ d.line = name.span.first.row + 1
  scope : d.scope = namespaceAt source root a
  fqn : d.fqn = qualify d.scope d.name
  enclosing : ∀ fqn, d.enclosing = some fqn ↔
    ∃ m o, Innermost (IsMethod root) a m ∧ Innermost (IsClassLike root) m o ∧ IsFqnAt source root o fqn

/-! ## Starts -/

section

variable {root : Node} {a b s t : Address}

theorem IsReached.exists_node (h : IsReached root a) : ∃ n, root.at? a = some n ∧ n.kind ≠ .useDeclaration := by
  cases h with
  | start _ hn hkind => exact ⟨_, hn, hkind⟩
  | child _ hn hkind => exact ⟨_, hn, hkind⟩

/-- No start is below another. -/
theorem IsStart.eq_of_above (hs : IsStart root s) (ht : IsStart root t) (h : s <+: t) : s = t := by
  cases hs with
  | underRoot hn hkind =>
    cases ht with
    | underRoot => exact h.eq_of_length rfl
    | inBody k hn' hkind' _ =>
      obtain ⟨rfl, -⟩ := List.cons_prefix_cons.mp h
      cases hn.symm.trans hn'
      exact absurd hkind' hkind
  | inBody k hn hkind hbody =>
    cases ht with
    | underRoot => simp at h
    | inBody k' hn' _ hbody' => exact h.eq_of_length rfl

/-- What is looked at stands at a start or below, never above one. -/
theorem IsReached.eq_of_above (h : IsReached root a) (hs : IsStart root s) (hp : a <+: s) : a = s := by
  induction h with
  | start ht => exact ht.eq_of_above hs hp
  | child _ _ _ ih =>
    cases ih ((List.prefix_append _ _).trans hp)
    exact absurd hp (not_child_above _ _)

theorem IsReached.exists_start (h : IsReached root a) : ∃ s, IsStart root s ∧ s <+: a := by
  induction h with
  | start hs => exact ⟨_, hs, List.prefix_rfl⟩
  | child _ _ _ ih =>
    obtain ⟨s, hs, hsa⟩ := ih
    exact ⟨s, hs, hsa.trans (List.prefix_append _ _)⟩

theorem IsStart.ne_nil (h : IsStart root s) : s ≠ [] := by
  cases h <;> simp

theorem IsReached.ne_nil (h : IsReached root a) : a ≠ [] := by
  obtain ⟨s, hs, hsa⟩ := h.exists_start
  rintro rfl
  exact hs.ne_nil (List.prefix_nil.mp hsa)

/-! ## What is around an address -/

/-- The nodes from a start down to an address, the innermost first, without the node itself. -/
inductive Around (root : Node) : Address → List Node → Prop
  | start {s : Address} (hs : IsStart root s) : Around root s []
  | child {a : Address} {n : Node} {around : List Node} (k : Nat) (ha : Around root a around)
      (hreached : IsReached root a) (hn : root.at? a = some n) : Around root (a ++ [k]) (n :: around)

theorem Around.eq_of_above {around : List Node} (h : Around root a around) (hs : IsStart root s) (hp : a <+: s) :
    a = s := by
  cases h with
  | start ht => exact ht.eq_of_above hs hp
  | child k _ hreached _ =>
    cases hreached.eq_of_above hs ((List.prefix_append _ _).trans hp)
    exact absurd hp (not_child_above _ _)

theorem Around.isReached {around : List Node} {n : Node} (h : Around root a around) (hn : root.at? a = some n)
    (hkind : n.kind ≠ .useDeclaration) : IsReached root a := by
  cases h with
  | start hs => exact .start hs hn hkind
  | child k _ hreached _ => exact .child hreached hn hkind

/-- On the way from a start to a node that is looked at, all nodes are. -/
theorem IsReached.inward {around : List Node} (h : IsReached root b) (ha : Around root a around) (hp : a <+: b) :
    IsReached root a := by
  induction h with
  | start hs hn hkind =>
    cases ha.eq_of_above hs hp
    exact .start hs hn hkind
  | child hb hn hkind ih =>
    rcases List.prefix_concat_iff.mp hp with rfl | hp
    · exact .child hb hn hkind
    · exact ih hp

theorem namespaceAt_append (source : Text) (root : Node) (ha : a ≠ []) (b : Address) :
    namespaceAt source root (a ++ b) = namespaceAt source root a := by
  cases a with
  | nil => exact absurd rfl ha
  | cons i a => rfl

/-- What is around a child: the node itself, if it is one of those sought. -/
theorem innermost_concat {P : Address → Prop} {k : Nat} :
    Innermost P (a ++ [k]) b ↔ P a ∧ b = a ∨ ¬ P a ∧ Innermost P a b := by
  have hproper : ∀ {c}, c <+: a → c <+: a ++ [k] ∧ c ≠ a ++ [k] := by
    refine fun hc => ⟨hc.trans (List.prefix_append _ _), ?_⟩
    rintro rfl
    exact not_child_above a k hc
  have hwithin : ∀ {c}, c <+: a ++ [k] → c ≠ a ++ [k] → c <+: a :=
    fun hc hne => (List.prefix_concat_iff.mp hc).resolve_left hne
  constructor
  · intro h
    have hba := hwithin h.around h.proper
    by_cases ha : P a
    · have hab := h.innermost a (hproper List.prefix_rfl).1 (hproper List.prefix_rfl).2 ha
      exact .inl ⟨ha, hba.eq_of_length_le hab.length_le⟩
    · refine .inr ⟨ha, hba, ?_, h.holds, fun c hc _ => h.innermost c (hproper hc).1 (hproper hc).2⟩
      rintro rfl
      exact ha h.holds
  · rintro (⟨ha, rfl⟩ | ⟨ha, h⟩)
    · exact ⟨List.prefix_append _ _, (hproper List.prefix_rfl).2, ha, fun c hc hne _ => hwithin hc hne⟩
    · refine ⟨(hproper h.around).1, (hproper h.around).2, h.holds, fun c hc hne hPc => ?_⟩
      refine h.innermost c (hwithin hc hne) ?_ hPc
      rintro rfl
      exact ha hPc

/-- Around a start nothing is looked at. -/
theorem not_innermost_start {P : Address → Prop} (hP : ∀ c, P c → IsReached root c) (hs : IsStart root s) :
    ¬ Innermost P s b :=
  fun h => h.proper ((hP b h.holds).eq_of_above hs h.around)

theorem IsClassLike.isReached (h : IsClassLike root a) : IsReached root a := by
  obtain ⟨_, _, h⟩ := h
  exact h.reached

/-- A class-like at an address is the class-like of a place that has its node. -/
theorem classLikeAt_iff (p : Place) (ha : IsReached root a) (hn : root.at? a = some p.node) {kind : DeclarationKind}
    {name : Node} : ClassLikeAt root a kind name ↔ p.classLike? = some ⟨p, kind, name⟩ := by
  constructor
  · rintro ⟨-, n, hn', hkind, hname⟩
    cases hn.symm.trans hn'
    simp [Place.classLike?, hkind, hname]
  · intro h
    obtain ⟨kind, hkind, h⟩ := Option.bind_eq_some_iff.mp h
    obtain ⟨name, hname, h⟩ := Option.bind_eq_some_iff.mp h
    cases h
    exact ⟨ha, p.node, hn, hkind, hname⟩

theorem isClassLike_iff (p : Place) (ha : IsReached root a) (hn : root.at? a = some p.node) :
    IsClassLike root a ↔ p.classLike?.isSome := by
  rw [Option.isSome_iff_exists]
  constructor
  · rintro ⟨kind, name, h⟩
    exact ⟨_, (classLikeAt_iff p ha hn).mp h⟩
  · rintro ⟨⟨place, kind, name⟩, h⟩
    obtain rfl : p = place := (place_of_classLike? h).symm
    exact ⟨kind, name, (classLikeAt_iff p ha hn).mpr h⟩

theorem isFqnAt_iff {source : Text} (p : Place) (ha : IsReached root a) (hn : root.at? a = some p.node)
    (hscope : p.scope = namespaceAt source root a) (fqn : Text) :
    IsFqnAt source root a fqn ↔ p.classLike?.map (·.fqn source) = some fqn := by
  rw [Option.map_eq_some_iff, IsFqnAt, ← hscope]
  constructor
  · rintro ⟨kind, name, h, rfl⟩
    exact ⟨_, (classLikeAt_iff p ha hn).mp h, rfl⟩
  · rintro ⟨⟨place, kind, name⟩, h, rfl⟩
    obtain rfl : p = place := (place_of_classLike? h).symm
    exact ⟨kind, name, (classLikeAt_iff p ha hn).mpr h, rfl⟩

/-- The innermost class-like among the nodes around an address is the innermost around it. -/
theorem innermost?_iff {around : List Node} (h : Around root a around) (source : Text) (fqn : Text) :
    (innermost? (namespaceAt source root a) around).map (·.fqn source) = some fqn ↔
      ∃ o, Innermost (IsClassLike root) a o ∧ IsFqnAt source root o fqn := by
  induction h with
  | start hs =>
    refine iff_of_false (by simp [innermost?]) ?_
    rintro ⟨o, ho, -⟩
    exact not_innermost_start (fun _ => IsClassLike.isReached) hs ho
  | @child a n around k _ hreached hn ih =>
    rw [namespaceAt_append source root hreached.ne_nil, innermost?, Option.map_or]
    simp only [innermost_concat]
    let p : Place := ⟨namespaceAt source root a, n, around⟩
    by_cases hclass : IsClassLike root a
    · obtain ⟨c, hc⟩ := Option.isSome_iff_exists.mp ((isClassLike_iff p hreached hn).mp hclass)
      have hfqn := isFqnAt_iff p hreached hn rfl fqn
      rw [hc] at hfqn ⊢
      simpa [hclass] using hfqn.symm
    · have hnone : p.classLike? = none := by
        rw [← Option.not_isSome_iff_eq_none, ← isClassLike_iff p hreached hn]
        exact hclass
      rw [hnone]
      simpa [hclass] using ih

/-- The class-like that owns the innermost method among the nodes around an address. -/
theorem methodOwner?_iff {around : List Node} (h : Around root a around) (source : Text) (fqn : Text) :
    (methodOwner? (namespaceAt source root a) around).map (·.fqn source) = some fqn ↔
      ∃ m o, Innermost (IsMethod root) a m ∧ Innermost (IsClassLike root) m o ∧ IsFqnAt source root o fqn := by
  induction h with
  | start hs =>
    refine iff_of_false (by simp [methodOwner?]) ?_
    rintro ⟨m, o, hm, -⟩
    exact not_innermost_start (fun _ h => h.1) hs hm
  | @child a n around k ha hreached hn ih =>
    rw [namespaceAt_append source root hreached.ne_nil, methodOwner?]
    simp only [innermost_concat]
    by_cases hkind : n.kind = .methodDeclaration
    · have hmethod : IsMethod root a := ⟨hreached, n, hn, hkind⟩
      rw [if_pos (beq_iff_eq.mpr hkind), innermost?_iff ha]
      simp [hmethod]
    · have hmethod : ¬ IsMethod root a := by
        rintro ⟨-, m, hm, hkind'⟩
        cases hn.symm.trans hm
        exact hkind hkind'
      rw [if_neg (by simpa using hkind), ih]
      simp [hmethod]

end

/-! ## Places and addresses -/

/-- At a child of the base or below it, from the child of some index on. -/
def FromChild (base : Address) (k : Nat) (a : Address) : Prop := ∃ i, k ≤ i ∧ base ++ [i] <+: a

theorem fromChild_iff {base a : Address} {k : Nat} :
    FromChild base k a ↔ base ++ [k] <+: a ∨ FromChild base (k + 1) a := by
  constructor
  · rintro ⟨i, hi, ha⟩
    rcases Nat.eq_or_lt_of_le hi with rfl | hi
    · exact .inl ha
    · exact .inr ⟨i, hi, ha⟩
  · rintro (ha | ⟨i, hi, ha⟩)
    · exact ⟨k, Nat.le_refl k, ha⟩
    · exact ⟨i, Nat.le_of_succ_le hi, ha⟩

/-- A place is what is found at an address. -/
structure PlacedAt (source : Text) (root : Node) (p : Place) (a : Address) : Prop where
  node : root.at? a = some p.node
  reached : IsReached root a
  around : Around root a p.around
  scope : p.scope = namespaceAt source root a

/-- Addresses in document order that the places stand at: all in a region that are looked at. -/
structure Enumerates (source : Text) (root : Node) (ps : List Place) (region : Address → Prop)
    (as : List Address) : Prop where
  placed : List.Forall₂ (PlacedAt source root) ps as
  sorted : as.Pairwise (· < ·)
  mem : ∀ a, a ∈ as ↔ region a ∧ IsReached root a

section

variable {source : Text} {root : Node} {ps qs : List Place} {R S : Address → Prop} {as bs : List Address}

theorem Enumerates.nil (h : ∀ a, R a → ¬ IsReached root a) : Enumerates source root [] R [] :=
  ⟨.nil, .nil, fun a => by simpa using h a⟩

theorem Enumerates.congr (h : Enumerates source root ps R as) (hregion : ∀ a, IsReached root a → (R a ↔ S a)) :
    Enumerates source root ps S as :=
  ⟨h.placed, h.sorted, fun a => (h.mem a).trans (and_congr_left (hregion a))⟩

/-- A node and then what is below it. -/
theorem Enumerates.node {a : Address} {p : Place} (hps : Enumerates source root ps (FromChild a 0) as)
    (hp : PlacedAt source root p a) : Enumerates source root (p :: ps) (a <+: ·) (a :: as) := by
  refine ⟨.cons hp hps.placed, List.pairwise_cons.mpr ⟨fun b hb => ?_, hps.sorted⟩, fun b => ?_⟩
  · obtain ⟨⟨k, -, hk⟩, -⟩ := (hps.mem b).mp hb
    exact lt_of_below hk
  · rw [List.mem_cons, hps.mem]
    constructor
    · rintro (rfl | ⟨⟨k, -, hk⟩, hb⟩)
      · exact ⟨List.prefix_rfl, hp.reached⟩
      · exact ⟨(List.prefix_append _ _).trans hk, hb⟩
    · rintro ⟨hab, hb⟩
      by_cases hba : b = a
      · exact .inl hba
      · obtain ⟨k, hk⟩ := exists_step hab hba
        exact .inr ⟨⟨k, Nat.zero_le k, hk⟩, hb⟩

/-- A child and what is below it, and then its next siblings and what is below them. -/
theorem Enumerates.cons {base : Address} {k : Nat} (hp : Enumerates source root ps (base ++ [k] <+: ·) as)
    (hq : Enumerates source root qs (FromChild base (k + 1)) bs) :
    Enumerates source root (ps ++ qs) (FromChild base k) (as ++ bs) := by
  refine ⟨List.rel_append hp.placed hq.placed, ?_, fun a => ?_⟩
  · refine List.pairwise_append.mpr ⟨hp.sorted, hq.sorted, fun a ha b hb => ?_⟩
    obtain ⟨i, hi, hb⟩ := ((hq.mem b).mp hb).1
    exact lt_of_siblings hi ((hp.mem a).mp ha).1 hb
  · rw [List.mem_append, hp.mem, hq.mem, fromChild_iff (k := k), or_and_right]

end

section

variable (source : Text) (root : Node)

mutual

/-- The places in a node stand at its address and below. -/
theorem enumerates_placesIn (n : Node) {a : Address} {around : List Node} (hn : root.at? a = some n)
    (ha : Around root a around) :
    ∃ as, Enumerates source root (placesIn (namespaceAt source root a) around n) (a <+: ·) as := by
  obtain ⟨kind, role, span, missing, children⟩ := n
  rw [placesIn]
  by_cases hu : kind = .useDeclaration
  · refine ⟨[], ?_⟩
    rw [if_pos (beq_iff_eq.mpr hu)]
    refine .nil fun b hab hb => ?_
    obtain ⟨m, hm, hkind⟩ := (hb.inward ha hab).exists_node
    cases hn.symm.trans hm
    exact hkind hu
  · have hreached := ha.isReached hn hu
    have hscope : ∀ k, namespaceAt source root (a ++ [k]) = namespaceAt source root a :=
      fun k => namespaceAt_append source root hreached.ne_nil [k]
    obtain ⟨as, has⟩ := enumerates_placesInAll children a 0 (fun i => by rw [at?_concat hn, Nat.zero_add])
      (fun i => ha.child i hreached hn) hscope
    rw [if_neg (by simpa using hu)]
    exact ⟨a :: as, has.node ⟨hn, hreached, ha, rfl⟩⟩

/-- The places in nodes that follow one another stand at their addresses and below. -/
theorem enumerates_placesInAll (ns : List Node) (base : Address) (k : Nat) {around : List Node} {scope : Text}
    (hns : ∀ i, root.at? (base ++ [k + i]) = ns[i]?) (ha : ∀ i, Around root (base ++ [i]) around)
    (hscope : ∀ i, namespaceAt source root (base ++ [i]) = scope) :
    ∃ as, Enumerates source root (placesInAll scope around ns) (FromChild base k) as := by
  cases ns with
  | nil =>
    refine ⟨[], .nil ?_⟩
    rintro b ⟨i, hi, hb⟩ hreached
    obtain ⟨m, hm, -⟩ := (hreached.inward (ha i) hb).exists_node
    obtain ⟨d, rfl⟩ := Nat.exists_eq_add_of_le hi
    rw [hns d] at hm
    cases hm
  | cons n ns =>
    obtain ⟨as, has⟩ := enumerates_placesIn n (hns 0) (ha k)
    obtain ⟨bs, hbs⟩ := enumerates_placesInAll ns base (k + 1)
      (fun i => by rw [Nat.add_assoc, Nat.add_comm 1, hns, List.getElem?_cons_succ]) ha hscope
    rw [hscope] at has
    exact ⟨as ++ bs, has.cons hbs⟩

end

end

/-! ## Namespaces -/

theorem exists_bodyIndex {n body : Node} (h : n.childWith? .body = some body) :
    ∃ j, n.children[j]? = some body ∧ bodyIndex? n = some j := by
  obtain ⟨hrole, j, hj, rfl, hfirst⟩ := List.find?_eq_some_iff_getElem.mp h
  refine ⟨j, List.getElem?_eq_getElem hj, List.findIdx?_eq_some_iff_getElem.mpr ⟨hj, hrole, fun i hi => ?_⟩⟩
  simpa using hfirst i hi

theorem bodyIndex?_eq_none {n : Node} (h : n.childWith? .body = none) : bodyIndex? n = none :=
  List.findIdx?_eq_none_iff.mpr fun c hc => by simpa using List.find?_eq_none.mp h c hc

/-- In a namespace definition only the body is looked at. -/
theorem below_namespace {root n : Node} {i : Nat} {a : Address} (hn : root.children[i]? = some n)
    (hkind : n.kind = .namespaceDefinition) (ha : IsReached root a) (hi : [i] <+: a) :
    ∃ j k, bodyIndex? n = some j ∧ [i, j, k] <+: a := by
  obtain ⟨s, hs, hsa⟩ := ha.exists_start
  cases hs with
  | @underRoot i' m hm hne =>
    cases List.prefix_of_prefix_length_le hsa hi (Nat.le_refl _) |>.eq_of_length rfl
    cases hn.symm.trans hm
    exact absurd hkind hne
  | @inBody i' j m k hm _ hbody =>
    obtain ⟨rfl, -⟩ := List.cons_prefix_cons.mp (List.prefix_of_prefix_length_le hi hsa (by simp))
    cases hn.symm.trans hm
    exact ⟨j, k, hbody, hsa⟩

theorem unbracedName_concat (source : Text) (before : List Node) (n : Node) :
    unbracedName source (before ++ [n]) = if isUnbraced n then scopeName source n else unbracedName source before := by
  unfold unbracedName
  by_cases h : isUnbraced n <;> simp [h]

/-- The places in a namespace definition with a body. -/
theorem enumerates_braced (source : Text) {root n body : Node} {i : Nat} (hn : root.children[i]? = some n)
    (hkind : n.kind = .namespaceDefinition) (hbody : n.childWith? .body = some body) :
    ∃ as, Enumerates source root (placesInAll (scopeName source n) [] body.children) ([i] <+: ·) as := by
  obtain ⟨j, hj, hindex⟩ := exists_bodyIndex hbody
  have hat : root.at? [i, j] = some body := by rw [Node.at?, hn, Option.bind_some, at?_singleton, hj]
  have hscope : ∀ k, namespaceAt source root ([i, j] ++ [k]) = scopeName source n :=
    fun k => by simp [namespaceAt, hn, hkind]
  obtain ⟨as, has⟩ := enumerates_placesInAll source root body.children [i, j] 0
    (fun k => by rw [at?_concat hat, Nat.zero_add]) (fun k => .start (.inBody k hn hkind hindex)) hscope
  refine ⟨as, has.congr fun b hb => ⟨?_, fun hbelow => ?_⟩⟩
  · rintro ⟨k, -, hk⟩
    exact (List.prefix_append _ _).trans hk
  · obtain ⟨j', k, hindex', hk⟩ := below_namespace hn hkind hb hbelow
    cases hindex.symm.trans hindex'
    exact ⟨k, Nat.zero_le k, hk⟩

/-- The places of the nodes behind some others right under the root. -/
theorem enumerates_placesTop (source : Text) (root : Node) (before ns : List Node)
    (hroot : root.children = before ++ ns) :
    ∃ as, Enumerates source root (placesTop source (unbracedName source before) ns)
      (FromChild [] before.length) as := by
  induction ns generalizing before with
  | nil =>
    refine ⟨[], .nil ?_⟩
    rintro b ⟨i, hi, hb⟩ hreached
    obtain ⟨n, hn, -⟩ := hreached.exists_node
    obtain ⟨m, hm⟩ := exists_at?_above hn hb
    rw [List.nil_append, at?_singleton, hroot, List.append_nil, List.getElem?_eq_none hi] at hm
    cases hm
  | cons n ns ih =>
    have hn : root.children[before.length]? = some n := by simp [hroot]
    obtain ⟨bs, hbs⟩ := ih (before ++ [n]) (by simp [hroot])
    rw [List.length_append, List.length_singleton, unbracedName_concat] at hbs
    rw [placesTop]
    by_cases hkind : n.kind = .namespaceDefinition
    · rw [if_pos (beq_iff_eq.mpr hkind)]
      cases hbody : n.childWith? .body with
      | none =>
        -- The definition itself holds nothing that is looked at.
        have hunbraced : isUnbraced n = true := by simp [isUnbraced, hkind, hbody]
        rw [if_pos hunbraced] at hbs
        refine ⟨bs, hbs.congr fun b hb => ?_⟩
        rw [fromChild_iff (k := before.length), or_iff_right]
        intro hbelow
        obtain ⟨j, -, hj, -⟩ := below_namespace hn hkind hb hbelow
        cases (bodyIndex?_eq_none hbody).symm.trans hj
      | some body =>
        have hunbraced : isUnbraced n = false := by simp [isUnbraced, hbody]
        rw [hunbraced, if_neg Bool.false_ne_true] at hbs
        obtain ⟨as, has⟩ := enumerates_braced source hn hkind hbody
        exact ⟨as ++ bs, has.cons hbs⟩
    · have hunbraced : isUnbraced n = false := by simp [isUnbraced, hkind]
      have hscope : namespaceAt source root [before.length] = unbracedName source before := by
        simp [namespaceAt, hkind, hroot]
      rw [if_neg (by simpa using hkind)]
      rw [hunbraced, if_neg Bool.false_ne_true] at hbs
      obtain ⟨as, has⟩ := enumerates_placesIn source root n ((at?_singleton root _).trans hn)
        (.start (.underRoot hn hkind))
      rw [hscope] at has
      exact ⟨as ++ bs, has.cons hbs⟩

theorem enumerates_places (source : Text) (root : Node) :
    ∃ as, Enumerates source root (places source root) (FromChild [] 0) as :=
  enumerates_placesTop source root [] root.children rfl

theorem fromChild_nil {root : Node} {a : Address} (h : IsReached root a) : FromChild [] 0 a := by
  obtain ⟨k, hk⟩ := exists_step (List.nil_prefix (l := a)) h.ne_nil
  exact ⟨k, Nat.zero_le k, hk⟩

/-! ## Declarations by address -/

/-- Of two lists side by side, the second as far as the first is kept. -/
theorem forall₂_filterMap {α β γ : Type} {R : α → β → Prop} (f : α → Option γ) {as : List α} {bs : List β}
    (h : List.Forall₂ R as bs) :
    ∃ cs, cs.Sublist bs ∧ List.Forall₂ (fun c b => ∃ a, R a b ∧ f a = some c) (as.filterMap f) cs ∧
      ∀ b ∈ bs, b ∈ cs ∨ ∃ a, R a b ∧ f a = none := by
  induction h with
  | nil => exact ⟨[], .slnil, .nil, by simp⟩
  | @cons a b as bs hab _ ih =>
    obtain ⟨cs, hsub, hkept, hrest⟩ := ih
    cases hf : f a with
    | none =>
      refine ⟨cs, hsub.cons b, by rwa [List.filterMap_cons_none hf], fun b' hb' => ?_⟩
      rcases List.mem_cons.mp hb' with rfl | hb'
      · exact .inr ⟨a, hab, hf⟩
      · exact hrest b' hb'
    | some c =>
      refine ⟨b :: cs, hsub.cons_cons b, ?_, fun b' hb' => ?_⟩
      · rw [List.filterMap_cons_some hf]
        exact .cons ⟨a, hab, hf⟩ hkept
      · rcases List.mem_cons.mp hb' with rfl | hb'
        · exact .inl List.mem_cons_self
        · exact (hrest b' hb').imp_left (List.mem_cons_of_mem b)

theorem forall₂_comp {α β γ : Type} {R : α → β → Prop} {S : β → γ → Prop} {as : List α} {bs : List β} {cs : List γ}
    (h : List.Forall₂ R as bs) (h' : List.Forall₂ S bs cs) : List.Forall₂ (Relation.Comp R S) as cs := by
  induction h generalizing cs with
  | nil =>
    cases h'
    exact .nil
  | cons hab _ ih =>
    cases h' with
    | cons hbc hrest => exact .cons ⟨_, hab, hbc⟩ (ih hrest)

/-- What is recorded of a class-like is true of it at its address. -/
theorem Records.declaredAt {source : Text} {root : Node} {d : ClassDecl} {p : Place} {c : ClassLike} {a : Address}
    (h : Records source d c) (hp : PlacedAt source root p a) (hc : p.classLike? = some c) :
    DeclaredAt source root d a := by
  obtain ⟨place, kind, name⟩ := c
  obtain rfl : p = place := (place_of_classLike? hc).symm
  have hlike : ClassLikeAt root a d.kind name := by
    rw [h.kind]
    exact (classLikeAt_iff p hp.reached hp.node).mpr hc
  refine ⟨⟨name, hlike, h.name, h.line⟩, h.scope.trans hp.scope, ?_, fun fqn => ?_⟩
  · rw [h.fqn, h.scope, h.name, ClassLike.fqn]
  · rw [h.enclosing, ClassLike.owner?, hp.scope]
    exact methodOwner?_iff hp.around source fqn

/-- The declarations of a tree are, each once and in document order, those of the class-likes
    with a name that are looked at. -/
theorem declarations_by_address (source : Text) (root : Node) :
    ∃ addresses : List Address, addresses.Pairwise (· < ·) ∧ (∀ a, a ∈ addresses ↔ IsClassLike root a) ∧
      List.Forall₂ (DeclaredAt source root) (Declarations.ofTree source root).classes addresses := by
  obtain ⟨as, has⟩ := enumerates_places source root
  obtain ⟨cs, hsub, hkept, hrest⟩ := forall₂_filterMap Place.classLike? has.placed
  refine ⟨cs, has.sorted.sublist hsub, fun a => ⟨fun ha => ?_, fun ha => ?_⟩, ?_⟩
  · obtain ⟨c, -, p, hp, hc⟩ := exists_of_mem_forall₂ hkept.flip ha
    exact (isClassLike_iff p hp.reached hp.node).mpr (Option.isSome_of_eq_some hc)
  · have hmem : a ∈ as := (has.mem a).mpr ⟨fromChild_nil ha.isReached, ha.isReached⟩
    rcases hrest a hmem with ha' | ⟨p, hp, hnone⟩
    · exact ha'
    · have hsome := (isClassLike_iff p hp.reached hp.node).mp ha
      rw [hnone] at hsome
      cases hsome
  · refine (forall₂_comp (lists_ofTree source root).classes hkept).imp ?_
    rintro d a ⟨c, hd, p, hp, hc⟩
    exact hd.declaredAt hp hc

/-! ## Namespaces that name nothing -/

/-- A class in a node of some kind, right under the root. -/
def classIn (kind : Kind) : Node :=
  let span : Span := ⟨.origin, .origin⟩
  let declaration : Node := ⟨.classDeclaration, none, span, false, [.leaf .name (some .name) span]⟩
  ⟨.program, none, span, false, [⟨kind, none, span, false, [declaration]⟩]⟩

/-- A class in a namespace definition below another statement has the namespace around that
    statement. In an import and in the head of a namespace definition, where no file has a
    class, none is found. -/
theorem nested_namespace_names_nothing :
    let source := "<?php if (1) \x7b namespace X \x7b class A \x7b\x7d \x7d \x7d".toList
    let root := Tree.read source
    root.issues = [] ∧
      (root.at? [1, 2, 1]).map (fun n => (n.kind, scopeName source n, bodyIndex? n)) =
        some (.namespaceDefinition, "X".toList, some 2) ∧
      (root.at? [1, 2, 1, 2, 1]).map (fun n => (n.kind, (n.childWith? .name).map (·.text source))) =
        some (.classDeclaration, some "A".toList) ∧
      (Declarations.ofTree source root).classes.map (fun d => (d.scope, d.fqn)) = [([], "A".toList)] ∧
      (Declarations.ofTree [] (classIn .phrase)).classes.length = 1 ∧
      (Declarations.ofTree [] (classIn .useDeclaration)).classes = [] ∧
      (Declarations.ofTree [] (classIn .namespaceDefinition)).classes = [] := by
  decide +kernel

end ClassOutline
