import ClassOutline.Proofs.Agreement
import ClassOutline.Proofs.Outcome
/-
  ClassOutline.Proofs.Members — whose members a class model holds.

  A model is filled member by member (`holds_foldl`): properties and methods in order, and of
  constants of one name the first place and the last value (`Holds`). Its members are looked
  up by the qualified name of the declaration it is built from, so they are those of all
  class-likes of that name, in source order. They are the members of the class's own body
  alone if no other class-like of the file has its qualified name; and the class found for it
  is then on the line of its declaration, if the tree lies over the tokens
  (`members_of_extract`). A class in a method lends its members to a namesake outside
  (`nested_namesake_lends_its_members`).
-/

namespace ClassOutline

open ClassOutline.Text ClassOutline.Tree

/-! ## Models, member by member -/

namespace MemberDecl

def constant? : MemberDecl → Option (Text × Text)
  | .constant name value => some (name, value)
  | _ => none

def property? : MemberDecl → Option PropertyDecl
  | .property p => some p
  | _ => none

def method? : MemberDecl → Option MethodDecl
  | .method m => some m
  | _ => none

end MemberDecl

/-- A model holds these members and no others. -/
structure Holds (ls : List Text) (model : ClassModel) (ms : List MemberDecl) : Prop where
  constantNames : model.constants.keys = ((ms.filterMap MemberDecl.constant?).map Prod.fst).eraseDups
  constantValues : ∀ name, model.constants.get? name =
    (((ms.filterMap MemberDecl.constant?).filter (·.1 == name)).map Prod.snd).getLast?
  properties : model.properties = (ms.filterMap MemberDecl.property?).map Property.ofDecl
  methods : model.methods = (ms.filterMap MemberDecl.method?).map (Method.ofDecl ls)

theorem holds_ofHeader (ls : List Text) (d : Declarations) (known : KnownNames) (c : ClassDecl) :
    Holds ls (.ofHeader d known c) [] :=
  ⟨rfl, fun _ => rfl, rfl, rfl⟩

theorem filterMap_concat {α β : Type} (f : α → Option β) (l : List α) (x : α) :
    (l ++ [x]).filterMap f = l.filterMap f ++ (f x).toList := by
  rw [List.filterMap_append, List.filterMap_eq_flatMap_toList f [x], List.flatMap_singleton]

section

variable (ls : List Text) (model : ClassModel) (m : MemberDecl)

theorem constants_addMember :
    (model.addMember ls m).constants =
      (m.constant?.map fun e => model.constants.insert e.1 e.2).getD model.constants := by
  cases m <;> rfl

theorem properties_addMember :
    (model.addMember ls m).properties = model.properties ++ m.property?.toList.map Property.ofDecl := by
  cases m <;> simp [ClassModel.addMember, MemberDecl.property?]

theorem methods_addMember :
    (model.addMember ls m).methods = model.methods ++ m.method?.toList.map (Method.ofDecl ls) := by
  cases m <;> simp [ClassModel.addMember, MemberDecl.method?]

end

theorem holds_addMember {ls : List Text} {model : ClassModel} {ms : List MemberDecl} (h : Holds ls model ms)
    (m : MemberDecl) : Holds ls (model.addMember ls m) (ms ++ [m]) := by
  refine ⟨?_, ?_, ?_, ?_⟩
  · rw [constants_addMember, filterMap_concat, List.map_append]
    cases m.constant? with
    | none => simpa using h.constantNames
    | some e =>
      show (model.constants.insert e.1 e.2).keys = _
      rw [NameMap.keys_insert, h.constantNames]
      exact (eraseDups_concat _ e.1).symm
  · intro name
    rw [constants_addMember, filterMap_concat, List.filter_append, List.map_append]
    cases m.constant? with
    | none => simpa using h.constantValues name
    | some e =>
      show (model.constants.insert e.1 e.2).get? name = _
      rw [NameMap.get?_insert, h.constantValues]
      by_cases he : name = e.1
      · simp [he]
      · have he' : ¬ e.1 = name := fun heq => he heq.symm
        simp [he, he']
  · rw [properties_addMember, filterMap_concat, List.map_append, h.properties]
  · rw [methods_addMember, filterMap_concat, List.map_append, h.methods]

theorem holds_foldl {ls : List Text} {model : ClassModel} {ms : List MemberDecl} (h : Holds ls model ms)
    (ns : List MemberDecl) : Holds ls (ns.foldl (ClassModel.addMember ls) model) (ms ++ ns) := by
  induction ns generalizing model ms with
  | nil => simpa using h
  | cons n ns ih =>
    have := ih (holds_addMember h n)
    rwa [List.append_assoc] at this

/-! ## Look-ups by name -/

/-- A class of just the name that is looked up comes before those that differ in case. -/
theorem findClass?_of_fqn_eq {d : Declarations} {c : ClassDecl} (hmem : c ∈ d.classes) (hkind : c.kind = .isClass) :
    ∃ e, d.findClass? c.fqn = some e ∧ e.fqn = c.fqn := by
  have hsome : ((d.classes.filter (·.kind == .isClass)).find? (·.fqn == c.fqn)).isSome = true := by
    rw [List.find?_isSome]
    exact ⟨c, List.mem_filter.mpr ⟨hmem, beq_iff_eq.mpr hkind⟩, beq_self_eq_true c.fqn⟩
  obtain ⟨e, he⟩ := Option.isSome_iff_exists.mp hsome
  have hfqn : e.fqn = c.fqn := by simpa using List.find?_some he
  refine ⟨e, ?_, hfqn⟩
  rw [Declarations.findClass?, he]
  rfl

section

variable {source : Text} {root : Node} {ls : List Text} {known : KnownNames} {fqn : Text} {model : ClassModel}

/-- A model holds the members of all class-likes that have the name it is declared under. -/
theorem holds_of_build? (h : ClassModel.build? (.ofTree source root) ls known fqn = some model) :
    ∃ decl, (Declarations.ofTree source root).findClass? fqn = some decl ∧
      Holds ls model (((classLikes source root).filter (·.fqn source == decl.fqn)).flatMap (·.members source)) := by
  obtain ⟨decl, hfind, rfl⟩ := Option.map_eq_some_iff.mp h
  refine ⟨decl, hfind, ?_⟩
  rw [← membersOf_ofTree]
  exact holds_foldl (holds_ofHeader ls _ known decl) _

/-- The class-like a model is built from. -/
theorem exists_classLike_of_build? (h : ClassModel.build? (.ofTree source root) ls known fqn = some model) :
    ∃ u ∈ classLikes source root, u.kind = .isClass ∧ sameName (u.fqn source) fqn = true ∧
      Holds ls model
        (((classLikes source root).filter (·.fqn source == u.fqn source)).flatMap (·.members source)) := by
  obtain ⟨decl, hfind, hholds⟩ := holds_of_build? h
  obtain ⟨hmem, hkind, hsame⟩ := of_findClass? hfind
  obtain ⟨u, hu, hrec⟩ := exists_of_mem_forall₂ (lists_ofTree source root).classes hmem
  rw [hrec.fqn] at hholds hsame
  exact ⟨u, hu, hrec.kind ▸ hkind, hsame, hholds⟩

/-- If the only class-like of a name is a class, the model holds the members of its body. -/
theorem holds_of_only {u : ClassLike} (hu : (classLikes source root).filter (·.fqn source == fqn) = [u])
    (hkind : u.kind = .isClass) (h : ClassModel.build? (.ofTree source root) ls known fqn = some model) :
    Holds ls model (u.members source) := by
  obtain ⟨decl, hfind, hholds⟩ := holds_of_build? h
  have hmem : u ∈ (classLikes source root).filter (·.fqn source == fqn) := hu ▸ List.mem_singleton_self u
  obtain ⟨hmem, hfqn⟩ := List.mem_filter.mp hmem
  obtain ⟨d, hd, hrec⟩ := exists_of_mem_forall₂ (lists_ofTree source root).classes.flip hmem
  have hdfqn : d.fqn = fqn := hrec.fqn.trans (beq_iff_eq.mp hfqn)
  obtain ⟨e, he, hefqn⟩ := findClass?_of_fqn_eq hd (hrec.kind.trans hkind)
  rw [hdfqn, hfind] at he
  cases he
  rw [hefqn, hdfqn, hu, List.flatMap_singleton] at hholds
  exact hholds

end

/-- In a laid tree the only class-like of the name of a found class is the class on its line. -/
theorem line_of_only {source : Text} {root : Node} (hlaid : Discovery.laid source root = true) {c : FoundClass}
    (hc : c ∈ Discovery.classes (Token.tokenize source)) {u : ClassLike}
    (hu : (classLikes source root).filter (·.fqn source == c.fqn) = [u]) : u.kind = .isClass ∧ u.line = c.line := by
  obtain ⟨d, hd, hkind, hfqn, hline⟩ := Discovery.exists_decl_of_found hlaid hc
  obtain ⟨v, hv, hrec⟩ := exists_of_mem_forall₂ (lists_ofTree source root).classes hd
  have hmem : v ∈ (classLikes source root).filter (·.fqn source == c.fqn) :=
    List.mem_filter.mpr ⟨hv, beq_iff_eq.mpr (hrec.fqn.symm.trans hfqn)⟩
  rw [hu, List.mem_singleton] at hmem
  subst hmem
  exact ⟨hrec.kind.symm.trans hkind, hrec.line.symm.trans hline⟩

/-! ## The members of an outline -/

/-- Namespace by namespace, the model of each class holds the members of all class-likes that
    have the qualified name of some class declaration with the name of the class. If only one
    class-like has that name, the model holds the members of its body and no others; and if
    the tree lies over the tokens, it is the class declared on the line it was found on. -/
theorem members_of_extract {source : Text} {known : KnownNames} {m : FileModel} (h : extract source known = .ok m)
    (scope : Text) :
    let units := classLikes source (Tree.read source)
    List.Forall₂
      (fun c model =>
        (∃ u ∈ units, u.kind = .isClass ∧ sameName (u.fqn source) c.fqn = true ∧
          Holds (lines source) model
            ((units.filter (·.fqn source == u.fqn source)).flatMap (·.members source))) ∧
        ∀ u, units.filter (·.fqn source == c.fqn) = [u] →
          (u.kind = .isClass → Holds (lines source) model (u.members source)) ∧
          (Discovery.laid source (Tree.read source) = true → u.kind = .isClass ∧ u.line = c.line))
      ((ownOf source).filter (·.scope == scope)) (m.classes scope) := by
  intro units
  rw [extract_eq_ofFound] at h
  have hmodels := (List.forall₂_and_left _ _).mpr ⟨fun c hc => List.mem_of_mem_filter hc, forall₂_models h scope⟩
  refine hmodels.imp fun c model hcm => ?_
  obtain ⟨hown, hbuilt⟩ := hcm
  refine ⟨exists_classLike_of_build? hbuilt, ?_⟩
  intro u hu
  refine ⟨fun hkind => holds_of_only hu hkind hbuilt, ?_⟩
  intro hlaid
  exact line_of_only hlaid (List.mem_of_mem_filter hown) hu

def ownMembers : Text :=
  "<?php\nclass A \x7b\nconst X = 1, Y = 2, X = 3;\nfunction f() \x7b class B \x7b const X = 4; \x7d \x7d \x7d".toList

theorem members_of_ownMembers :
    Discovery.laid ownMembers (Tree.read ownMembers) = true ∧
      ∃ m model u, extract ownMembers .none = .ok m ∧ m.classes [] = [model] ∧
        (classLikes ownMembers (Tree.read ownMembers)).filter (·.fqn ownMembers == "A".toList) = [u] ∧
        u.line = 2 ∧ Holds (lines ownMembers) model (u.members ownMembers) := by
  obtain ⟨hlaid, hsome, hown, hone⟩ : Discovery.laid ownMembers (Tree.read ownMembers) = true ∧
      (extract ownMembers .none).toOption.isSome = true ∧
      (ownOf ownMembers).filter (·.scope == []) = [⟨[], "A".toList, 2⟩] ∧
      ((classLikes ownMembers (Tree.read ownMembers)).filter (·.fqn ownMembers == "A".toList)).length = 1 := by
    decide +kernel
  obtain ⟨u, hu⟩ := List.length_eq_one_iff.mp hone
  cases hm : extract ownMembers .none with
  | error e =>
    rw [hm] at hsome
    cases hsome
  | ok m =>
    have hmembers := members_of_extract hm []
    rw [hown] at hmembers
    obtain ⟨model, hclasses, ⟨-, honly⟩⟩ : ∃ model, m.classes [] = [model] ∧ _ := by
      obtain ⟨model, rest, hfirst, hrest, heq⟩ := List.forall₂_cons_left_iff.mp hmembers
      rw [List.forall₂_nil_left_iff.mp hrest] at heq
      exact ⟨model, heq, hfirst⟩
    obtain ⟨hholds, hline⟩ := honly u hu
    obtain ⟨hkind, hline⟩ := hline hlaid
    exact ⟨hlaid, m, model, u, rfl, hclasses, hu, hline, hholds hkind⟩

/-- A class in a method lends its members to a class outside that has its name. -/
theorem nested_namesake_lends_its_members :
    let source :=
      "<?php\nclass B \x7b function f() \x7b class A \x7b const Y = 2; \x7d \x7d \x7d\nclass A \x7b const X = 1; \x7d".toList
    (Tree.read source).issues = [] ∧
      (ownOf source).map (fun c => (c.name, c.line)) = [("B".toList, 2), ("A".toList, 3)] ∧
      ((classLikes source (Tree.read source)).filter (·.line == 3)).map (·.members source) =
        [[.constant "X".toList "1".toList]] ∧
      (extract source .none).toOption.map (fun m => (m.classes []).map fun c => (c.name, c.constants.entries)) =
        some [("B".toList, []),
          ("A".toList, [("Y".toList, "2".toList), ("X".toList, "1".toList)])] := by
  decide +kernel

end ClassOutline
