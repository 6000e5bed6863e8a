import ClassOutline.Tree.Issue
import ClassOutline.Proofs.Outcome
import Mathlib.Data.List.Pairwise
/-
  ClassOutline.Proofs.Nesting — which found classes have a model of their own.

  A found class is left out exactly if the first class-like on its line and of its name stands
  in a method whose owner is found, too. The others get one model each.

  Where class-likes have names of their own and stand in methods only inside their bodies
  (`Orderly`), nothing is lost: a class that is left out stands in the body of a method of a
  class that has a model, be it the next one around or one farther out; and a class outside of
  all method bodies has a model. The main statement is `found_classes_of_extract`. Without
  names of their own, a class outside is taken for its namesake in a method of the same line
  (`class_beside_nested_namesake_is_lost`).
-/

namespace ClassOutline

open ClassOutline.Text ClassOutline.Tree

/-! ## Classes that are left out -/

/-- Whether a class-like stands where a class was found, on its line and under its name. -/
def ClassLike.isAt (source : Text) (c : FoundClass) (u : ClassLike) : Bool :=
  u.line == c.line && sameName (u.fqn source) c.fqn

theorem rel_find? {α β : Type} {R : α → β → Prop} {p : α → Bool} {q : β → Bool} (hpq : ∀ {a b}, R a b → p a = q b)
    {as : List α} {bs : List β} (h : List.Forall₂ R as bs) : Option.Rel R (as.find? p) (bs.find? q) := by
  induction h with
  | nil => exact .none
  | @cons a b as bs hab _ ih =>
    rw [List.find?_cons, List.find?_cons, hpq hab]
    cases q b with
    | true => exact .some hab
    | false => exact ih

/-- The owner of a class-like is among the found classes. -/
def OwnerFound (source : Text) (found : List FoundClass) (u : ClassLike) : Prop :=
  ∃ o, u.owner? = some o ∧ ∃ f ∈ found, sameName f.fqn (o.fqn source) = true

theorem isSome_carrier?_iff (source : Text) (root : Node) (found : List FoundClass) (c : FoundClass) :
    (carrier? (.ofTree source root) found c).isSome = true ↔
      ∃ u, (classLikes source root).find? (·.isAt source c) = some u ∧ OwnerFound source found u := by
  have hrel : Option.Rel (Records source)
      ((Declarations.ofTree source root).classes.find? fun d => d.line == c.line && sameName d.fqn c.fqn)
      ((classLikes source root).find? (·.isAt source c)) := by
    refine rel_find? ?_ (lists_ofTree source root).classes
    intro d u hrec
    rw [ClassLike.isAt, hrec.line, hrec.fqn]
  unfold carrier?
  generalize (Declarations.ofTree source root).classes.find? _ = first at hrel
  generalize (classLikes source root).find? _ = place at hrel
  cases hrel with
  | none => simp
  | @some d u hrec =>
    simp only [Option.bind_eq_bind, Option.bind_some, Option.some.injEq, exists_eq_left', hrec.enclosing, OwnerFound]
    cases u.owner? with
    | none => simp
    | some o => simp

theorem mem_ownClasses_iff (source : Text) (root : Node) {found : List FoundClass} {c : FoundClass} (hc : c ∈ found) :
    c ∈ ownClasses (.ofTree source root) found ↔
      ¬ ∃ u, (classLikes source root).find? (·.isAt source c) = some u ∧ OwnerFound source found u := by
  rw [← isSome_carrier?_iff, ownClasses, List.mem_filter]
  simp [hc]

/-! ## Bodies of methods -/

/-- Whether a place, given the nodes around it, is in the body of a method. -/
def inMethodBody : List Node → Bool
  | body :: method :: outer =>
    (body.role == some .body && method.kind == .methodDeclaration) || inMethodBody (method :: outer)
  | _ => false

/-- Whether the nodes from a place out to a class-like end with the body of a method, the
    method, and the body of the class-like. -/
def throughMethod (path : List Node) : Bool :=
  match path.reverse with
  | list :: method :: body :: _ =>
    list.role == some .body && method.kind == .methodDeclaration && body.role == some .body
  | _ => false

/-- The nodes around one class-like that lie within another. -/
def ClassLike.pathTo (o u : ClassLike) : List Node :=
  u.place.around.take (u.place.around.length - (o.place.around.length + 1))

/-- A class-like holds another one in the body of a method. -/
def ClassLike.HoldsInMethod (w u : ClassLike) : Prop :=
  w.place.scope = u.place.scope ∧
    ∃ path, u.place.around = path ++ w.place.node :: w.place.around ∧ throughMethod path = true

theorem inMethodBody_append {around : List Node} (h : inMethodBody around = true) (inner : List Node) :
    inMethodBody (inner ++ around) = true := by
  induction inner with
  | nil => exact h
  | cons n inner ih =>
    rw [List.cons_append]
    cases hrest : inner ++ around with
    | nil =>
      rw [hrest] at ih
      cases ih
    | cons m outer =>
      rw [hrest] at ih
      rw [inMethodBody, ih, Bool.or_true]

theorem exists_of_throughMethod {path : List Node} (h : throughMethod path = true) :
    ∃ inner body method list, path = inner ++ [body, method, list] ∧ body.role = some .body ∧
      method.kind = .methodDeclaration ∧ list.role = some .body := by
  unfold throughMethod at h
  split at h
  · rename_i list method body outer hpath
    simp only [Bool.and_eq_true, beq_iff_eq] at h
    obtain ⟨⟨hlist, hmethod⟩, hbody⟩ := h
    refine ⟨outer.reverse, body, method, list, ?_, hbody, hmethod, hlist⟩
    rw [← List.reverse_reverse path, hpath]
    simp
  · cases h

theorem throughMethod_append {path : List Node} (h : throughMethod path = true) (inner : List Node) :
    throughMethod (inner ++ path) = true := by
  obtain ⟨pre, body, method, list, rfl, hbody, hmethod, hlist⟩ := exists_of_throughMethod h
  simp [throughMethod, hbody, hmethod, hlist]

theorem ClassLike.HoldsInMethod.trans {w o u : ClassLike} (hw : w.HoldsInMethod o) (ho : o.HoldsInMethod u) :
    w.HoldsInMethod u := by
  obtain ⟨hscope, path, haround, hpath⟩ := hw
  obtain ⟨hscope', path', haround', -⟩ := ho
  refine ⟨hscope.trans hscope', path' ++ o.place.node :: path, ?_, ?_⟩
  · rw [haround', haround]
    simp
  · rw [← List.singleton_append, ← List.append_assoc]
    exact throughMethod_append hpath _

theorem ClassLike.HoldsInMethod.inMethodBody {w u : ClassLike} (h : w.HoldsInMethod u) :
    inMethodBody u.place.around = true := by
  obtain ⟨-, path, haround, hpath⟩ := h
  obtain ⟨inner, body, method, list, rfl, hbody, hmethod, -⟩ := exists_of_throughMethod hpath
  rw [haround, List.append_assoc]
  refine inMethodBody_append ?_ inner
  simp [ClassOutline.inMethodBody, hbody, hmethod]

/-! ## Orderly trees -/

/-- Class-likes that no look-up by name can confuse, and that stand in methods only within
    bodies of methods of their owners. -/
structure Orderly (source : Text) (units : List ClassLike) : Prop where
  plain : ∀ u ∈ units, '\\' ∉ u.name.text source
  distinct : units.Pairwise fun a b => sameName (a.fqn source) (b.fqn source) = false
  held : ∀ u ∈ units, u.owner?.all (fun o => throughMethod (o.pathTo u)) = true

instance (source : Text) (units : List ClassLike) : Decidable (Orderly source units) :=
  decidable_of_iff
    ((∀ u ∈ units, '\\' ∉ u.name.text source) ∧
      units.Pairwise (fun a b => sameName (a.fqn source) (b.fqn source) = false) ∧
      ∀ u ∈ units, u.owner?.all (fun o => throughMethod (o.pathTo u)) = true)
    ⟨fun h => ⟨h.1, h.2.1, h.2.2⟩, fun h => ⟨h.plain, h.distinct, h.held⟩⟩

section

variable {source : Text} {root : Node}

theorem Orderly.eq_of_sameName {units : List ClassLike} (h : Orderly source units) {a b : ClassLike} (ha : a ∈ units)
    (hb : b ∈ units) (hsame : sameName (a.fqn source) (b.fqn source) = true) : a = b := by
  by_contra hne
  have hsymm : Std.Symm fun a b : ClassLike => sameName (a.fqn source) (b.fqn source) = false := by
    constructor
    intro x y hxy
    rwa [sameName_comm]
  rw [h.distinct.forall ha hb hne] at hsame
  cases hsame

/-- In an orderly tree the owner of a class-like holds it in the body of a method. -/
theorem Orderly.holdsInMethod (h : Orderly source (classLikes source root)) {u o : ClassLike}
    (hu : u ∈ classLikes source root) (ho : u.owner? = some o) : o.HoldsInMethod u := by
  obtain ⟨-, hscope, path, haround⟩ := owner?_eq_some hu ho
  refine ⟨hscope, path, haround, ?_⟩
  have hpath : o.pathTo u = path := by
    rw [ClassLike.pathTo, haround, List.length_append, List.length_cons, Nat.add_sub_cancel]
    exact List.take_left
  have hheld := h.held u hu
  rwa [ho, Option.all_some, hpath] at hheld

theorem Orderly.hasPlainNames (h : Orderly source (classLikes source root)) :
    (Declarations.ofTree source root).HasPlainNames := by
  intro d hd _
  obtain ⟨u, hu, hrec⟩ := exists_of_mem_forall₂ (lists_ofTree source root).classes hd
  rw [hrec.name]
  exact h.plain u hu

theorem of_find?_isAt {units : List ClassLike} {c : FoundClass} {u : ClassLike}
    (h : units.find? (·.isAt source c) = some u) :
    u ∈ units ∧ u.isAt source c = true ∧ sameName (u.fqn source) c.fqn = true := by
  have hat : u.isAt source c = true := by simpa using List.find?_some h
  exact ⟨List.mem_of_find?_eq_some h, hat, (Bool.and_eq_true_iff.mp hat).2⟩

/-- A class that is left out stands in the body of a method of a class that is not. -/
theorem Orderly.exists_holder (h : Orderly source (classLikes source root)) {found : List FoundClass} (n : Nat)
    {u : ClassLike} (hu : u ∈ classLikes source root) (hn : u.place.around.length = n)
    (howner : OwnerFound source found u) :
    ∃ w ∈ classLikes source root, w.HoldsInMethod u ∧
      ∃ k ∈ ownClasses (.ofTree source root) found, sameName k.fqn (w.fqn source) = true := by
  -- By induction on the depth: the owner has a model, or it is left out and stands less deep.
  induction n using Nat.strong_induction_on generalizing u with
  | _ n ih =>
    obtain ⟨o, ho, f, hf, hsame⟩ := howner
    obtain ⟨homem, -, path, haround⟩ := owner?_eq_some hu ho
    have hholds := h.holdsInMethod hu ho
    by_cases hown : f ∈ ownClasses (.ofTree source root) found
    · exact ⟨o, homem, hholds, f, hown, hsame⟩
    · rw [mem_ownClasses_iff source root hf, not_not] at hown
      obtain ⟨v, hv, hvowner⟩ := hown
      obtain ⟨hvmem, -, hvsame⟩ := of_find?_isAt hv
      have hvo : v = o := h.eq_of_sameName hvmem homem ((sameName_congr hvsame _).trans hsame)
      subst hvo
      have hless : v.place.around.length < n := by
        rw [← hn, haround, List.length_append, List.length_cons]
        omega
      obtain ⟨w, hw, hwholds, hk⟩ := ih _ hless homem rfl hvowner
      exact ⟨w, hw, hwholds.trans hholds, hk⟩

end

/-! ## Found classes in an outline -/

/-- Exactly one class of the namespace has the name of a found class. -/
def FileModel.HoldsOnce (m : FileModel) (c : FoundClass) : Prop :=
  (m.classes c.scope).countP (fun model => sameName model.name c.name) = 1

theorem countP_sameName_eq_one {l : List ClassModel} (h : l.Pairwise fun a b => sameName a.name b.name = false)
    {a : ClassModel} (ha : a ∈ l) {name : Text} (hname : sameName a.name name = true) :
    l.countP (fun model => sameName model.name name) = 1 := by
  induction l with
  | nil => cases ha
  | cons b l ih =>
    obtain ⟨hb, hl⟩ := List.pairwise_cons.mp h
    rcases List.mem_cons.mp ha with rfl | ha
    · have hzero : l.countP (fun model => sameName model.name name) = 0 := by
        rw [List.countP_eq_zero]
        intro x hx hxname
        rw [sameName_comm, ← sameName_congr hname, hb x hx] at hxname
        cases hxname
      rw [List.countP_cons, hzero, if_pos hname]
    · have hne : ¬ sameName b.name name = true := by
        intro hbname
        have hba := hb a ha
        rw [sameName_congr hbname, sameName_comm, hname] at hba
        cases hba
      rw [List.countP_cons, if_neg hne, ih hl ha]

theorem Lays.holdsOnce {build : Text → Option ClassModel} {cs : List FoundClass} {m : FileModel} (h : Lays build cs m)
    {c : FoundClass} (hc : c ∈ cs) : m.HoldsOnce c := by
  have hentry : (c.scope, m.classes c.scope) ∈ m.groups.entries := by
    refine (m.mem_entries_iff _).mpr ⟨?_, rfl⟩
    rw [h.keys, List.mem_eraseDups]
    exact List.mem_map_of_mem hc
  obtain ⟨model, hmodel, -, hname⟩ := exists_of_mem_forall₂ (h.models _ hentry)
    (List.mem_filter.mpr ⟨hc, beq_self_eq_true c.scope⟩)
  exact countP_sameName_eq_one (h.distinct _ hentry) hmodel hname

/-- The classes that are left out are those whose first namesake on their line stands in a
    method of a found class, and the others have one model each. In an orderly tree each found
    class has its one model or stands in the body of a method of a class that has one, and it
    has one if it stands outside of all method bodies. -/
theorem found_classes_of_extract {source : Text} {known : KnownNames} {m : FileModel}
    (h : extract source known = .ok m) :
    let units := classLikes source (Tree.read source)
    let found := Discovery.classes (Token.tokenize source)
    (∀ c ∈ found, c ∈ ownOf source ↔
        ¬ ∃ u, units.find? (·.isAt source c) = some u ∧ OwnerFound source found u) ∧
      (m.classCount = (ownOf source).length ∧ ∀ scope,
        List.Forall₂ (fun c model => ClassModel.build? (.ofSource source) (lines source) known c.fqn = some model)
          ((ownOf source).filter (·.scope == scope)) (m.classes scope)) ∧
      (Orderly source units → ∀ c ∈ found,
        ((c ∈ ownOf source ∧ m.HoldsOnce c) ∨
          ∃ u ∈ units, u.isAt source c = true ∧ ∃ w ∈ units, w.HoldsInMethod u ∧
            ∃ k ∈ ownOf source, sameName k.fqn (w.fqn source) = true ∧ m.HoldsOnce k) ∧
        ∀ u ∈ units, u.isAt source c = true → inMethodBody u.place.around = false →
          c ∈ ownOf source ∧ m.HoldsOnce c) := by
  intro units found
  rw [extract_eq_ofFound] at h
  have hmem : ∀ c ∈ found, c ∈ ownOf source ↔
      ¬ ∃ u, units.find? (·.isAt source c) = some u ∧ OwnerFound source found u :=
    fun c hc => mem_ownClasses_iff source (Tree.read source) hc
  refine ⟨hmem, ⟨classCount_of_addAll h, forall₂_models h⟩, ?_⟩
  intro hord c hc
  have honce : ∀ k ∈ ownOf source, m.HoldsOnce k := by
    have hlays := lays_of_addAll (buildsByName_of_plain hord.hasPlainNames (lines source) known) h
    intro k hk
    exact hlays.holdsOnce hk
  constructor
  · by_cases hown : c ∈ ownOf source
    · exact Or.inl ⟨hown, honce c hown⟩
    · rw [hmem c hc, not_not] at hown
      obtain ⟨u, hfind, howner⟩ := hown
      obtain ⟨hu, hat, -⟩ := of_find?_isAt hfind
      obtain ⟨w, hw, hholds, k, hk, hsame⟩ := hord.exists_holder _ hu rfl howner
      exact Or.inr ⟨u, hu, hat, w, hw, hholds, k, hk, hsame, honce k hk⟩
  · intro u hu hat hout
    have hown : c ∈ ownOf source := by
      rw [hmem c hc]
      intro hleft
      obtain ⟨v, hfind, o, ho, -⟩ := hleft
      obtain ⟨hv, -, hsame⟩ := of_find?_isAt hfind
      have hvu : v = u := by
        refine hord.eq_of_sameName hv hu ?_
        rw [sameName_congr hsame, sameName_comm]
        exact (Bool.and_eq_true_iff.mp hat).2
      subst hvu
      rw [(hord.holdsInMethod hv ho).inMethodBody] at hout
      cases hout
    exact ⟨hown, honce c hown⟩

def nestedTwice : Text :=
  "<?php\nclass A \x7b function f() \x7b\nclass B \x7b function g() \x7b\nclass C \x7b\x7d \x7d \x7d \x7d \x7d\nfunction h() \x7b class D \x7b\x7d \x7d".toList

theorem found_classes_of_nestedTwice :
    let units := classLikes nestedTwice (Tree.read nestedTwice)
    Orderly nestedTwice units ∧ ∃ m, extract nestedTwice .none = .ok m ∧
      ∃ u ∈ units, u.isAt nestedTwice ⟨[], "C".toList, 4⟩ = true ∧ ∃ w ∈ units, w.HoldsInMethod u ∧
        ∃ k ∈ ownOf nestedTwice, sameName k.fqn (w.fqn nestedTwice) = true ∧ m.HoldsOnce k := by
  intro units
  obtain ⟨hord, hsome, hfound, hown⟩ : Orderly nestedTwice (classLikes nestedTwice (Tree.read nestedTwice)) ∧
      (extract nestedTwice .none).toOption.isSome = true ∧
      ⟨[], "C".toList, 4⟩ ∈ Discovery.classes (Token.tokenize nestedTwice) ∧
      ⟨[], "C".toList, 4⟩ ∉ ownOf nestedTwice := by
    decide +kernel
  cases hm : extract nestedTwice .none with
  | error e =>
    rw [hm] at hsome
    cases hsome
  | ok m =>
    rcases ((found_classes_of_extract hm).2.2 hord _ hfound).1 with ⟨hmem, -⟩ | hheld
    · exact absurd hmem hown
    · exact ⟨hord, m, rfl, hheld⟩

/-- A class outside of all methods is taken for its namesake in a method on its line, and is
    in no outline. -/
theorem class_beside_nested_namesake_is_lost :
    let source := "<?php class X \x7b function f() \x7b class A \x7b\x7d \x7d \x7d class A \x7b\x7d".toList
    (Tree.read source).issues = [] ∧
      (Discovery.classes (Token.tokenize source)).map (·.name) = ["X".toList, "A".toList, "A".toList] ∧
      (classLikes source (Tree.read source)).map (fun u => (u.fqn source, inMethodBody u.place.around)) =
        [("X".toList, false), ("A".toList, true), ("A".toList, false)] ∧
      (extract source .none).toOption.map FileModel.classNames = some [([], ["X".toList])] := by
  decide +kernel

end ClassOutline
