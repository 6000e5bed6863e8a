import ClassOutline.Proofs.Checked
import ClassOutline.Proofs.Members
/-
  ClassOutline.Proofs.Building — a body that cannot be cut out is all that is missing.

  Declarations need not come from a tree: their bounds can name lines and columns that the
  source does not have. A class is built all the same, on a machine that faults where an index
  or a range is wrong as well as here (`Checked.build?_eq`), and only for a name without a class
  there is none. Its methods are those declared, in order, and the body of one is absent just if
  the lines it names are not there (`IsBuiltFrom`). A model is its methods and a frame that no
  method has a part in (`ClassModel.ofDecl_eq_frame`), so other bounds for one method change the
  body of that method (`build?_around_of_eq`), and nothing in a class it is no method of
  (`build?_around_of_ne`). All of it together is `built_but_for_bodies`.
-/

namespace ClassOutline

open ClassOutline.Text

/-! ## Methods and the frame around them -/

def Declarations.methodsOf (d : Declarations) (fqn : Text) : List MethodDecl :=
  (d.membersOf fqn).filterMap MemberDecl.method?

/-- The model of a class without its methods; nothing in it comes from the source's lines. -/
def ClassModel.frame (d : Declarations) (known : KnownNames) (c : ClassDecl) : ClassModel :=
  ((d.membersOf c.fqn).filter (·.method?.isNone)).foldl (addMember []) (ofHeader d known c)

/-- A method joins the methods, and leaves what other members join as it is. -/
theorem foldl_addMember_eq (ls : List Text) (c : ClassModel) (members : List MemberDecl) :
    members.foldl (ClassModel.addMember ls) c =
      { (members.filter (·.method?.isNone)).foldl (ClassModel.addMember []) c with
        methods := c.methods ++ (members.filterMap MemberDecl.method?).map (Method.ofDecl ls) } := by
  induction members using List.reverseRecOn with
  | nil => simp
  | append_singleton members m ih =>
    rw [List.foldl_concat, ih, List.filter_append, filterMap_concat, List.map_append, ← List.append_assoc]
    cases m with
    | constant name value => simp [ClassModel.addMember, MemberDecl.method?]
    | property p => simp [ClassModel.addMember, MemberDecl.method?]
    | method m => simp [ClassModel.addMember, MemberDecl.method?]

theorem ClassModel.ofDecl_eq_frame (d : Declarations) (ls : List Text) (known : KnownNames) (c : ClassDecl) :
    ClassModel.ofDecl d ls known c =
      { ClassModel.frame d known c with methods := (d.methodsOf c.fqn).map (Method.ofDecl ls) } :=
  foldl_addMember_eq ls (ofHeader d known c) (d.membersOf c.fqn)

/-! ## Bodies -/

section

variable (ls : List Text) (m : MethodDecl)

theorem bodyText_of_none (h : m.isAbstract = true ∨ m.body = none) : m.bodyText ls = some [] := by
  unfold MethodDecl.bodyText
  rcases h with h | h
  · rw [h]
  · rw [h]
    cases m.isAbstract <;> rfl

theorem bodyText_eq_none_iff :
    m.bodyText ls = none ↔
      m.isAbstract = false ∧ ∃ b ∈ m.body, b.openLine = 0 ∨ b.closeLine < b.openLine ∨ ls.length < b.closeLine := by
  unfold MethodDecl.bodyText
  cases m.isAbstract with
  | true => simp
  | false =>
    cases m.body with
    | none => simp
    | some b =>
      have hstray : ¬ b.Fits ls.length ↔ b.openLine = 0 ∨ b.closeLine < b.openLine ∨ ls.length < b.closeLine := by
        unfold Bounds.Fits
        omega
      have hextract : (Body.extract ls b).toOption = none ↔ ¬ b.Fits ls.length := by
        rw [Body.extract]
        by_cases hb : b.Fits ls.length
        · rw [if_pos hb]
          exact iff_of_false (Option.some_ne_none _) (not_not_intro hb)
        · rw [if_neg hb]
          exact iff_of_true rfl hb
      show (Body.extract ls b).toOption = none ↔ _
      rw [hextract, hstray]
      simp

end

/-- A method as it was declared. Its body is empty without one, and absent just if it names
    lines that the source does not have. -/
structure IsBuiltFrom (ls : List Text) (m : MethodDecl) (built : Method) : Prop where
  name : built.name = m.name
  isAbstract : built.isAbstract = m.isAbstract
  isStatic : built.isStatic = m.isStatic
  isFinal : built.isFinal = m.isFinal
  returnsReference : built.returnsReference = m.returnsReference
  visibility : built.visibility = m.visibility
  returnType : built.returnType = m.returnType
  parameters : built.parameters.map (·.name) = m.parameters.map (·.name)
  empty : m.isAbstract = true ∨ m.body = none → built.body = some []
  absent : built.body = none ↔
    m.isAbstract = false ∧ ∃ b ∈ m.body, b.openLine = 0 ∨ b.closeLine < b.openLine ∨ ls.length < b.closeLine

theorem isBuiltFrom_ofDecl (ls : List Text) (m : MethodDecl) : IsBuiltFrom ls m (Method.ofDecl ls m) where
  name := rfl
  isAbstract := rfl
  isStatic := rfl
  isFinal := rfl
  returnsReference := rfl
  visibility := rfl
  returnType := rfl
  parameters := by
    show (m.parameters.map Parameter.ofDecl).map (·.name) = _
    rw [List.map_map]
    rfl
  empty := bodyText_of_none ls m
  absent := bodyText_eq_none_iff ls m

/-! ## Other bounds for one method -/

/-- The declarations with a method between other members. -/
def Declarations.around (classes : List ClassDecl) (before : List Member) (owner : Text) (m : MethodDecl)
    (after : List Member) : Declarations :=
  ⟨classes, before ++ ⟨owner, .method m⟩ :: after⟩

/-- Models that are the same but for the body of the method behind `n` others. -/
def SameButBody (n : Nat) (a b : ClassModel) : Prop :=
  ∃ before m after body, before.length = n ∧ a.methods = before ++ m :: after ∧
    b = { a with methods := before ++ { m with body := body } :: after }

section

variable (classes : List ClassDecl) (before : List Member) (owner : Text) (m : MethodDecl) (after : List Member)

theorem membersOf_around (fqn : Text) :
    (Declarations.around classes before owner m after).membersOf fqn =
      Declarations.membersOf ⟨classes, before⟩ fqn ++ (if owner = fqn then [.method m] else []) ++
        Declarations.membersOf ⟨classes, after⟩ fqn := by
  unfold Declarations.membersOf Declarations.around
  by_cases h : owner = fqn <;> simp [h]

theorem methodsOf_around (fqn : Text) :
    (Declarations.around classes before owner m after).methodsOf fqn =
      Declarations.methodsOf ⟨classes, before⟩ fqn ++ (if owner = fqn then [m] else []) ++
        Declarations.methodsOf ⟨classes, after⟩ fqn := by
  rw [Declarations.methodsOf, membersOf_around, List.filterMap_append, List.filterMap_append]
  split <;> rfl

variable (known : KnownNames)

/-- The frame does not see the method. -/
theorem frame_around (c : ClassDecl) :
    ClassModel.frame (.around classes before owner m after) known c = ClassModel.frame ⟨classes, before ++ after⟩ known c := by
  have hheader : ClassModel.ofHeader (.around classes before owner m after) known c =
      ClassModel.ofHeader ⟨classes, before ++ after⟩ known c := rfl
  rw [ClassModel.frame, ClassModel.frame, membersOf_around, hheader]
  congr 1
  unfold Declarations.membersOf
  by_cases h : owner = c.fqn <;> simp [h, MemberDecl.method?]

variable (ls : List Text) {fqn : Text} {decl : ClassDecl} (body : Option Bounds)

theorem build?_around_of_eq (hdecl : (Declarations.around classes before owner m after).findClass? fqn = some decl)
    (howner : decl.fqn = owner) :
    ∃ a b, ClassModel.build? (.around classes before owner m after) ls known fqn = some a ∧
      ClassModel.build? (.around classes before owner { m with body := body } after) ls known fqn = some b ∧
      SameButBody (Declarations.methodsOf ⟨classes, before⟩ owner).length a b := by
  have hdecl' : (Declarations.around classes before owner { m with body := body } after).findClass? fqn = some decl := hdecl
  rw [ClassModel.build?, ClassModel.build?, hdecl, hdecl']
  refine ⟨_, _, rfl, rfl, (Declarations.methodsOf ⟨classes, before⟩ owner).map (Method.ofDecl ls), Method.ofDecl ls m,
    (Declarations.methodsOf ⟨classes, after⟩ owner).map (Method.ofDecl ls),
    MethodDecl.bodyText { m with body := body } ls, ?_, ?_, ?_⟩
  · rw [List.length_map]
  · rw [ClassModel.ofDecl_eq_frame, methodsOf_around, howner]
    simp
  · rw [ClassModel.ofDecl_eq_frame, ClassModel.ofDecl_eq_frame, frame_around, frame_around, methodsOf_around, howner]
    simp [Method.ofDecl]

theorem build?_around_of_ne
    (hother : ∀ decl, (Declarations.around classes before owner m after).findClass? fqn = some decl → decl.fqn ≠ owner) :
    ClassModel.build? (.around classes before owner { m with body := body } after) ls known fqn =
      ClassModel.build? (.around classes before owner m after) ls known fqn := by
  have hfind : (Declarations.around classes before owner { m with body := body } after).findClass? fqn =
      (Declarations.around classes before owner m after).findClass? fqn := rfl
  rw [ClassModel.build?, ClassModel.build?, hfind]
  cases hdecl : (Declarations.around classes before owner m after).findClass? fqn with
  | none => rfl
  | some decl =>
    have hne : ¬ owner = decl.fqn := fun he => hother decl hdecl he.symm
    rw [Option.map_some, Option.map_some, ClassModel.ofDecl_eq_frame, ClassModel.ofDecl_eq_frame, frame_around,
      frame_around, methodsOf_around, methodsOf_around, if_neg hne, if_neg hne]

end

/-! ## Whatever the bounds are -/

theorem build?_eq_none_iff (d : Declarations) (ls : List Text) (known : KnownNames) (fqn : Text) :
    ClassModel.build? d ls known fqn = none ↔ ∀ c ∈ d.classes, c.kind = .isClass → sameName c.fqn fqn = false := by
  rw [← Option.not_isSome_iff_eq_none, isSome_build?, isSome_findClass?_iff]
  simp

/-- Building never faults, has no result just for a name without a class, and otherwise lists
    all methods of the class in order; a method lacks its body just if it names lines that are
    not there, and with other bounds for one method only the body of that method is another. -/
theorem built_but_for_bodies (d : Declarations) (source : Text) (known : KnownNames) (fqn : Text)
    (hwords : ∀ member ∈ d.members, member.decl.IsWords) :
    let ls := lines source
    Checked.build? d ls known fqn = .ok (ClassModel.build? d ls known fqn) ∧
    (ClassModel.build? d ls known fqn = none ↔
      ∀ c ∈ d.classes, c.kind = .isClass → sameName c.fqn fqn = false) ∧
    (∀ model, ClassModel.build? d ls known fqn = some model →
      ∃ decl ∈ d.classes, d.findClass? fqn = some decl ∧ decl.kind = .isClass ∧ sameName decl.fqn fqn = true ∧
        List.Forall₂ (IsBuiltFrom ls) (d.methodsOf decl.fqn) model.methods) ∧
    (∀ classes before owner m after, d = .around classes before owner m after → ∀ body : Option Bounds,
      let rebuilt := ClassModel.build? (.around classes before owner { m with body := body } after) ls known fqn
      (∀ decl, d.findClass? fqn = some decl → decl.fqn = owner →
        ∃ a b, ClassModel.build? d ls known fqn = some a ∧ rebuilt = some b ∧
          SameButBody (Declarations.methodsOf ⟨classes, before⟩ owner).length a b) ∧
      ((∀ decl, d.findClass? fqn = some decl → decl.fqn ≠ owner) →
        rebuilt = ClassModel.build? d ls known fqn)) := by
  intro ls
  refine ⟨Checked.build?_eq hwords known fqn, build?_eq_none_iff d ls known fqn, ?_, ?_⟩
  · intro model hmodel
    obtain ⟨decl, hfind, rfl⟩ := Option.map_eq_some_iff.mp hmodel
    obtain ⟨hmem, hkind, hsame⟩ := of_findClass? hfind
    refine ⟨decl, hmem, hfind, hkind, hsame, ?_⟩
    rw [ClassModel.ofDecl_eq_frame]
    refine List.forall₂_map_right_iff.mpr (List.forall₂_same.mpr fun m _ => ?_)
    exact isBuiltFrom_ofDecl ls m
  · rintro classes before owner m after rfl body
    refine ⟨?_, ?_⟩
    · intro decl hdecl howner
      exact build?_around_of_eq classes before owner m after known ls body hdecl howner
    · intro hother
      exact build?_around_of_ne classes before owner m after known ls body hother

def strayMethod (name : String) (isAbstract : Bool) (body : Option Bounds) : MethodDecl :=
  ⟨name.toList, .isPublic, isAbstract, false, false, false, none, [⟨"x".toList, "é $x".toList, false, false, none⟩],
    some "/** é */".toList, body⟩

def strayMethods : List MethodDecl :=
  [strayMethod "zero" false (some ⟨0, 0, 2, 0⟩), strayMethod "reversed" false (some ⟨2, 0, 1, 0⟩),
    strayMethod "past" false (some ⟨1, 0, 3, 0⟩), strayMethod "largest" false (some ⟨2, 23, 2, Bounds.maxColumn⟩),
    strayMethod "inside" false (some ⟨2, 27, 2, 26⟩), strayMethod "declared" true (some ⟨0, 0, 0, 0⟩),
    strayMethod "bare" false none, strayMethod "f" false (some ⟨2, 23, 2, 30⟩)]

/-- A class and an interface of one name, and bounds that no tree gives. -/
def strayBounds : Declarations :=
  ⟨[⟨.isInterface, "a".toList, [], "a".toList, false, false, [], [], none, 2, none⟩,
      ⟨.isClass, "A".toList, [], "A".toList, false, false, [], [], none, 2, none⟩],
    ⟨"A".toList, .constant "X".toList "1".toList⟩ :: strayMethods.map fun m => ⟨"A".toList, .method m⟩⟩

def straySource : Text := "<?php\nclass A \x7b function f() \x7b 'é' \x7d \x7d\n".toList

theorem built_strayBounds :
    (∀ member ∈ strayBounds.members, member.decl.IsWords) ∧
      (ClassModel.build? strayBounds (lines straySource) .none "a".toList).map (fun c => c.methods.map (·.body)) =
        some [none, none, none, some " 'é' \x7d ".toList, some "class A \x7b function f() \x7b 'é' \x7d ".toList,
          some [], some [], some " 'é' ".toList] ∧
      Checked.build? strayBounds (lines straySource) .none "a".toList =
        .ok (ClassModel.build? strayBounds (lines straySource) .none "a".toList) := by
  have hwords : ∀ member ∈ strayBounds.members, member.decl.IsWords := by decide
  refine ⟨hwords, by decide +kernel, ?_⟩
  exact (built_but_for_bodies strayBounds straySource .none "a".toList hwords).1

end ClassOutline
