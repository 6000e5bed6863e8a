import ClassOutline.Proofs.ClassLikes
import ClassOutline.Proofs.Extraction
import ClassOutline.Proofs.Paths
/-
  ClassOutline.Proofs.Outcome — what comes of a source, an outline or a fault.

  The classes of their own go into the outline one by one, and each must be declared by the
  tree and not repeat an earlier one (`Listable`). If all go in, the outline is told by them:
  its namespaces are theirs in the order of first occurrence, and the classes of each are
  their models in source order, no two of one name (`Lays`). Else the fault names the first
  that does not go in.

  Repetition is noticed by the name the tree declares an earlier class under. That this is the
  name it was found by rests on one fact about trees: the name of a class has no separator.
  The main statement is `outcome_of_plain`.
-/

namespace ClassOutline

open ClassOutline.Text ClassOutline.Tree

/-! ## Names and namespaces -/

theorem lower_qualify (scope name : Text) : lower (qualify scope name) = qualify (lower scope) (lower name) := by
  cases scope with
  | nil => rfl
  | cons c r => simp [qualify, lower]

theorem ne_separator_of_mem {w : Text} (h : '\\' ∉ w) : ∀ c ∈ w, (c != '\\') = true := by
  intro c hc
  rw [bne_iff_ne]
  intro he
  exact h (he ▸ hc)

theorem lastSegment_append (a : Text) {w : Text} (h : '\\' ∉ w) : lastSegment (a ++ '\\' :: w) = w := by
  have hall : ∀ c ∈ w.reverse, (c != '\\') = true :=
    fun c hc => ne_separator_of_mem h c (List.mem_reverse.mp hc)
  show ((a ++ '\\' :: w).reverse.takeWhile _).reverse = w
  rw [List.reverse_append, List.reverse_cons, List.append_assoc, List.takeWhile_append_of_pos hall]
  simp

theorem lastSegment_qualify (scope : Text) {name : Text} (h : '\\' ∉ name) :
    lastSegment (qualify scope name) = name := by
  cases scope with
  | nil =>
    have hall : ∀ c ∈ name.reverse, (c != '\\') = true :=
      fun c hc => ne_separator_of_mem h c (List.mem_reverse.mp hc)
    show (name.reverse.takeWhile _).reverse = name
    rw [List.takeWhile_eq_self_iff.mpr hall, List.reverse_reverse]
  | cons c r => exact lastSegment_append (c :: r) h

/-- Qualified names that are the same end in the same name. -/
theorem sameName_of_qualify {s t a b : Text} (ha : '\\' ∉ a) (hb : '\\' ∉ b)
    (h : sameName (qualify s a) (qualify t b) = true) : sameName a b = true := by
  rw [sameName_iff, lower_qualify, lower_qualify] at h
  rw [sameName_iff]
  calc lower a = lastSegment (qualify (lower s) (lower a)) :=
        (lastSegment_qualify _ (separator_not_mem_lower ha)).symm
    _ = lastSegment (qualify (lower t) (lower b)) := by rw [h]
    _ = lower b := lastSegment_qualify _ (separator_not_mem_lower hb)

theorem separator_not_mem_of_isName {w : Text} (h : Token.IsName w) : '\\' ∉ w := by
  intro hmem
  have := h.all _ hmem
  revert this
  decide

/-- No class of the declarations has a separator in its name. -/
def Declarations.HasPlainNames (d : Declarations) : Prop := ∀ c ∈ d.classes, c.kind = .isClass → '\\' ∉ c.name

instance (d : Declarations) : Decidable d.HasPlainNames :=
  inferInstanceAs (Decidable (∀ c ∈ d.classes, c.kind = .isClass → '\\' ∉ c.name))

/-- A model has the name its class was found by, but for case. -/
theorem sameName_of_build? {source : Text} {root : Node} (hplain : (Declarations.ofTree source root).HasPlainNames)
    {ls : List Text} {known : KnownNames} {c : FoundClass} (hc : '\\' ∉ c.name) {model : ClassModel}
    (h : ClassModel.build? (.ofTree source root) ls known c.fqn = some model) : sameName model.name c.name = true := by
  obtain ⟨decl, hfind, -⟩ := Option.map_eq_some_iff.mp h
  obtain ⟨hmem, hkind, hsame⟩ := of_findClass? hfind
  have hname : model.name = decl.name := by
    rw [name_of_build? h, Declarations.nameOf, hfind]
    rfl
  rw [fqn_of_mem_ofTree hmem] at hsame
  rw [hname]
  exact sameName_of_qualify (hplain decl hmem hkind) hc hsame

/-! ## Outlines, class by class -/

section

variable {build : Text → Option ClassModel} {cs : List FoundClass} {m : FileModel}

/-- A model under its namespace, built for a class. -/
def IsBuiltFor (build : Text → Option ClassModel) (c : FoundClass) (p : Text × ClassModel) : Prop :=
  p.1 = c.scope ∧ build c.fqn = some p.2

theorem forall₂_builtPairs (h : ∀ c ∈ cs, (build c.fqn).isSome = true) :
    List.Forall₂ (IsBuiltFor build) cs (builtPairs build cs) := by
  induction cs with
  | nil => exact .nil
  | cons c cs ih =>
    obtain ⟨hc, hcs⟩ := List.forall_mem_cons.mp h
    obtain ⟨model, hm⟩ := Option.isSome_iff_exists.mp hc
    rw [builtPairs_cons hm]
    exact .cons ⟨rfl, hm⟩ (ih hcs)

/-- The classes of a namespace are the models of those found in it. -/
theorem forall₂_models (h : FileModel.empty.addAll build cs = .ok m) (scope : Text) :
    List.Forall₂ (fun c model => build c.fqn = some model) (cs.filter (·.scope == scope)) (m.classes scope) := by
  obtain ⟨-, hbuilt, -, rfl⟩ := (addAll_eq_ok_iff build cs .empty m).mp h
  rw [FileModel.classes_addPairs]
  show List.Forall₂ _ _ ([] ++ _)
  rw [List.nil_append, List.forall₂_map_right_iff]
  refine List.Forall₂.imp (fun _ _ hp => hp.2) (List.rel_filter ?_ (forall₂_builtPairs hbuilt))
  intro c p hp
  simp [hp.1]

theorem keys_of_addAll (h : FileModel.empty.addAll build cs = .ok m) :
    m.groups.keys = (cs.map (·.scope)).eraseDups := by
  obtain ⟨-, hbuilt, -, rfl⟩ := (addAll_eq_ok_iff build cs .empty m).mp h
  rw [FileModel.keys_addPairs]
  have hscopes : cs.map (·.scope) = (builtPairs build cs).map Prod.fst := by
    rw [← List.forall₂_eq_eq_eq, List.forall₂_map_left_iff, List.forall₂_map_right_iff]
    exact (forall₂_builtPairs hbuilt).imp fun _ _ hp => hp.1.symm
  rw [hscopes]

theorem classCount_of_addAll (h : FileModel.empty.addAll build cs = .ok m) : m.classCount = cs.length := by
  obtain ⟨-, hbuilt, -, rfl⟩ := (addAll_eq_ok_iff build cs .empty m).mp h
  rw [FileModel.classCount_addPairs, ← (forall₂_builtPairs hbuilt).length_eq]
  exact Nat.zero_add _

/-- What is in an outline was built for one of its classes. -/
theorem containsClass_of_addAll (h : FileModel.empty.addAll build cs = .ok m) (scope name : Text) :
    m.containsClass scope name = true ↔
      ∃ c ∈ cs, c.scope = scope ∧ ∃ model, build c.fqn = some model ∧ sameName model.name name = true := by
  obtain ⟨-, -, -, rfl⟩ := (addAll_eq_ok_iff build cs .empty m).mp h
  rw [FileModel.containsClass, FileModel.classes_addPairs, List.any_append, List.any_map]
  show ([].any _ || _) = true ↔ _
  rw [List.any_nil, Bool.false_or, List.any_eq_true]
  simp only [builtPairs, List.mem_filter, List.mem_filterMap, Option.map_eq_some_iff, Function.comp_apply]
  constructor
  · intro h
    obtain ⟨p, ⟨⟨c, hc, model, hm, rfl⟩, hs⟩, hname⟩ := h
    exact ⟨c, hc, beq_iff_eq.mp hs, model, hm, hname⟩
  · intro h
    obtain ⟨c, hc, hs, model, hm, hname⟩ := h
    exact ⟨(c.scope, model), ⟨⟨c, hc, model, hm, rfl⟩, beq_iff_eq.mpr hs⟩, hname⟩

/-- Either all classes go in, or there is a first that does not. -/
theorem addAll_cases (build : Text → Option ClassModel) (f : FileModel) (cs : List FoundClass) :
    (∃ m, f.addAll build cs = .ok m) ∨
      ∃ before c after g, cs = before ++ c :: after ∧ f.addAll build before = .ok g ∧
        ((g.containsClass c.scope c.name = true ∧
            f.addAll build cs = .error (.malformed c.fqn (.repeated c.line))) ∨
          (g.containsClass c.scope c.name = false ∧ build c.fqn = none ∧
            f.addAll build cs = .error (.malformed c.fqn .undeclared))) := by
  induction cs generalizing f with
  | nil => exact Or.inl ⟨f, rfl⟩
  | cons c cs ih =>
    by_cases hc : f.containsClass c.scope c.name = true
    · refine Or.inr ⟨[], c, cs, f, rfl, rfl, Or.inl ⟨hc, ?_⟩⟩
      rw [FileModel.addAll, if_pos hc]
    · cases hb : build c.fqn with
      | none =>
        refine Or.inr ⟨[], c, cs, f, rfl, rfl, Or.inr ⟨by simpa using hc, hb, ?_⟩⟩
        rw [FileModel.addAll, if_neg hc, hb]
      | some model =>
        have hstep : ∀ ds, f.addAll build (c :: ds) = (f.add c.scope model).addAll build ds := by
          intro ds
          rw [FileModel.addAll, if_neg hc, hb]
        rcases ih (f.add c.scope model) with ⟨m, hm⟩ | ⟨before, e, after, g, rfl, hg, hcase⟩
        · exact Or.inl ⟨m, (hstep _).trans hm⟩
        · refine Or.inr ⟨c :: before, e, after, g, rfl, (hstep _).trans hg, ?_⟩
          rw [hstep]
          exact hcase

end

/-! ## Lists that go in -/

/-- A class has the namespace and, but for case, the name of an earlier one. -/
def Repeats (earlier c : FoundClass) : Prop := earlier.scope = c.scope ∧ sameName earlier.name c.name = true

/-- The tree declares the class, under a name that may differ in case. -/
def Declarations.DeclaresClass (d : Declarations) (c : FoundClass) : Prop :=
  ∃ decl ∈ d.classes, decl.kind = .isClass ∧ sameName decl.fqn c.fqn = true

/-- Classes that all have a declaration and of which none repeats an earlier one. -/
structure Listable (d : Declarations) (cs : List FoundClass) : Prop where
  apart : cs.Pairwise fun earlier c => ¬ Repeats earlier c
  declared : ∀ c ∈ cs, d.DeclaresClass c

/-- An outline holds the models of classes, in their order and under their namespaces. -/
structure Lays (build : Text → Option ClassModel) (cs : List FoundClass) (m : FileModel) : Prop where
  keys : m.groups.keys = (cs.map (·.scope)).eraseDups
  nonempty : ∀ g ∈ m.groups.entries, g.2 ≠ []
  models : ∀ g ∈ m.groups.entries,
    List.Forall₂ (fun c model => build c.fqn = some model ∧ sameName model.name c.name = true)
      (cs.filter (·.scope == g.1)) g.2
  distinct : ∀ g ∈ m.groups.entries, g.2.Pairwise fun a b => sameName a.name b.name = false
  count : m.classCount = cs.length

section

variable {build : Text → Option ClassModel} {cs : List FoundClass} {m : FileModel}

/-- A model is built under the name its class was found by. -/
def BuildsByName (build : Text → Option ClassModel) (cs : List FoundClass) : Prop :=
  ∀ c ∈ cs, ∀ model, build c.fqn = some model → sameName model.name c.name = true

theorem apart_iff_not_repeats {a : FoundClass} {model : ClassModel} (hm : build a.fqn = some model)
    (hname : sameName model.name a.name = true) (b : FoundClass) : Apart build a b ↔ ¬ Repeats a b := by
  simp [Apart, Repeats, hm, sameName_congr hname]

/-- Under the names they were found by, classes go in exactly if all are built and none
    repeats an earlier one. -/
theorem exists_addAll_iff (hnames : BuildsByName build cs) :
    (∃ m, FileModel.empty.addAll build cs = .ok m) ↔
      cs.Pairwise (fun a b => ¬ Repeats a b) ∧ ∀ c ∈ cs, (build c.fqn).isSome = true := by
  have hpair : (∀ c ∈ cs, (build c.fqn).isSome = true) →
      (cs.Pairwise (Apart build) ↔ cs.Pairwise fun a b => ¬ Repeats a b) := by
    intro hbuilt
    refine List.Pairwise.iff_of_mem fun {a b} ha _ => ?_
    obtain ⟨model, hm⟩ := Option.isSome_iff_exists.mp (hbuilt a ha)
    exact apart_iff_not_repeats hm (hnames a ha model hm) b
  simp only [addAll_eq_ok_iff]
  constructor
  · intro h
    obtain ⟨m, -, hbuilt, hapart, -⟩ := h
    exact ⟨(hpair hbuilt).mp hapart, hbuilt⟩
  · intro h
    obtain ⟨hapart, hbuilt⟩ := h
    exact ⟨_, fun _ _ => rfl, hbuilt, (hpair hbuilt).mpr hapart, rfl⟩

theorem pairwise_of_forall₂ {α β : Type} {R : α → β → Prop} {S : α → α → Prop} {T : β → β → Prop} {as : List α}
    {bs : List β} (h : List.Forall₂ R as bs) (hST : ∀ {a a' b b'}, R a b → R a' b' → S a a' → T b b')
    (hS : as.Pairwise S) : bs.Pairwise T := by
  induction h with
  | nil => exact .nil
  | cons hab hrest ih =>
    obtain ⟨hfirst, hS⟩ := List.pairwise_cons.mp hS
    refine List.pairwise_cons.mpr ⟨?_, ih hS⟩
    intro b' hb'
    obtain ⟨a', ha', hr⟩ := exists_of_mem_forall₂ hrest.flip hb'
    exact hST hab hr (hfirst a' ha')

theorem lays_of_addAll (hnames : BuildsByName build cs) (h : FileModel.empty.addAll build cs = .ok m) :
    Lays build cs m := by
  have hentry := fun g hg => (m.mem_entries_iff g).mp hg
  have hmodels : ∀ scope, List.Forall₂
      (fun c model => c.scope = scope ∧ build c.fqn = some model ∧ sameName model.name c.name = true)
      (cs.filter (·.scope == scope)) (m.classes scope) := by
    intro scope
    have hrel := (List.forall₂_and_left _ _).mpr ⟨fun c hc => List.mem_filter.mp hc, forall₂_models h scope⟩
    refine hrel.imp fun c model hcm => ?_
    obtain ⟨⟨hmem, hscope⟩, hbuilt⟩ := hcm
    exact ⟨beq_iff_eq.mp hscope, hbuilt, hnames c hmem model hbuilt⟩
  refine ⟨keys_of_addAll h, ?_, ?_, ?_, classCount_of_addAll h⟩
  · intro g hg hnil
    obtain ⟨hkey, hclasses⟩ := hentry g hg
    rw [keys_of_addAll h, List.mem_eraseDups] at hkey
    obtain ⟨c, hc, hs⟩ := List.mem_map.mp hkey
    have hlength := (forall₂_models h g.1).length_eq
    rw [← hclasses, hnil, List.length_nil, List.length_eq_zero_iff, List.filter_eq_nil_iff] at hlength
    exact hlength c hc (beq_iff_eq.mpr hs)
  · intro g hg
    rw [(hentry g hg).2]
    exact (hmodels g.1).imp fun _ _ hcm => hcm.2
  · intro g hg
    rw [(hentry g hg).2]
    have hapart := ((exists_addAll_iff hnames).mp ⟨m, h⟩).1.filter (·.scope == g.1)
    refine pairwise_of_forall₂ (hmodels g.1) ?_ hapart
    intro c c' model model' hc hc' hnot
    rw [← Bool.not_eq_true]
    intro hsame
    rw [sameName_congr hc.2.2, sameName_comm, sameName_congr hc'.2.2, sameName_comm] at hsame
    exact hnot ⟨hc.1.trans hc'.1.symm, hsame⟩

end

/-! ## The outcome of a source -/

/-- What keeps a class out of an outline that holds those before it. -/
inductive KeptOut (d : Declarations) (before : List FoundClass) (c : FoundClass) : ClassFault → Prop
  | repeated {earlier : FoundClass} (h : earlier ∈ before) (hr : Repeats earlier c) :
      KeptOut d before c (.repeated c.line)
  | undeclared (hr : ∀ earlier ∈ before, ¬ Repeats earlier c) (hd : ¬ d.DeclaresClass c) :
      KeptOut d before c .undeclared

theorem isSome_build?_iff_declaresClass (d : Declarations) (ls : List Text) (known : KnownNames) (c : FoundClass) :
    (ClassModel.build? d ls known c.fqn).isSome = true ↔ d.DeclaresClass c := by
  rw [isSome_build?]
  exact isSome_findClass?_iff d c.fqn

section

variable {d : Declarations} {ls : List Text} {known : KnownNames} {cs : List FoundClass}

theorem exists_addAll_iff_listable (hnames : BuildsByName (ClassModel.build? d ls known) cs) :
    (∃ m, FileModel.empty.addAll (ClassModel.build? d ls known) cs = .ok m) ↔ Listable d cs := by
  rw [exists_addAll_iff hnames]
  simp only [isSome_build?_iff_declaresClass]
  constructor
  · intro h
    exact ⟨h.1, h.2⟩
  · intro h
    exact ⟨h.apart, h.declared⟩

/-- If classes do not all go in, the first that does not is named. -/
theorem addAll_eq_error_of_not_listable (hnames : BuildsByName (ClassModel.build? d ls known) cs)
    (h : ¬ Listable d cs) :
    ∃ before c after fault, cs = before ++ c :: after ∧ Listable d before ∧ KeptOut d before c fault ∧
      FileModel.empty.addAll (ClassModel.build? d ls known) cs = .error (.malformed c.fqn fault) := by
  rcases addAll_cases (ClassModel.build? d ls known) .empty cs with hok | ⟨before, c, after, g, hcs, hg, hcase⟩
  · exact absurd ((exists_addAll_iff_listable hnames).mp hok) h
  · have hbefore : BuildsByName (ClassModel.build? d ls known) before := by
      intro e he
      exact hnames e (hcs ▸ List.mem_append_left _ he)
    have hlist := (exists_addAll_iff_listable hbefore).mp ⟨g, hg⟩
    -- What the outline so far holds is told by the classes before.
    have hheld : g.containsClass c.scope c.name = true ↔ ∃ earlier ∈ before, Repeats earlier c := by
      rw [containsClass_of_addAll hg]
      constructor
      · intro hx
        obtain ⟨e, he, hs, model, hm, hname⟩ := hx
        exact ⟨e, he, hs, (sameName_congr (hbefore e he model hm) _).symm.trans hname⟩
      · intro hx
        obtain ⟨e, he, hs, hname⟩ := hx
        obtain ⟨model, hm⟩ := Option.isSome_iff_exists.mp
          ((isSome_build?_iff_declaresClass d ls known e).mpr (hlist.declared e he))
        exact ⟨e, he, hs, model, hm, (sameName_congr (hbefore e he model hm) _).trans hname⟩
    rcases hcase with ⟨hcontains, herror⟩ | ⟨hcontains, hnone, herror⟩
    · obtain ⟨e, he, hr⟩ := hheld.mp hcontains
      exact ⟨before, c, after, _, hcs, hlist, .repeated he hr, herror⟩
    · refine ⟨before, c, after, _, hcs, hlist, .undeclared ?_ ?_, herror⟩
      · intro e he hr
        rw [hheld.mpr ⟨e, he, hr⟩] at hcontains
        cases hcontains
      · intro hd
        rw [← isSome_build?_iff_declaresClass d ls known, hnone] at hd
        cases hd

end

/-- Found classes are built under the names they were found by. -/
theorem buildsByName_of_plain {source : Text} {root : Node}
    (hplain : (Declarations.ofTree source root).HasPlainNames) (ls : List Text) (known : KnownNames) :
    BuildsByName (ClassModel.build? (.ofTree source root) ls known)
      (ownClasses (.ofTree source root) (Discovery.classes (Token.tokenize source))) := by
  intro c hc model hm
  have hname := Discovery.isName_of_mem_classes (List.mem_of_mem_filter hc)
  exact sameName_of_build? hplain (separator_not_mem_of_isName hname) hm

/-- What comes of a source and any tree for it in which no class has a separator in its name.
    Among the classes found, those of their own go into the outline exactly if they are
    listable. Then the outline lays them out; else the fault names the first that is kept out. -/
theorem outcome_of_plain (source : Text) (known : KnownNames) (root : Node)
    (hplain : (Declarations.ofTree source root).HasPlainNames) :
    let d := Declarations.ofTree source root
    let found := Discovery.classes (Token.tokenize source)
    let own := ownClasses d found
    let outcome := FileModel.ofFound source known d found
    ((∃ m, outcome = .ok m) ↔ Listable d own) ∧
      (∀ m, outcome = .ok m → Lays (ClassModel.build? d (lines source) known) own m) ∧
      (¬ Listable d own → ∃ before c after fault, own = before ++ c :: after ∧ Listable d before ∧
        KeptOut d before c fault ∧ outcome = .error (.malformed c.fqn fault)) ∧
      (root = Tree.read source → outcome = extract source known) := by
  intro d found own outcome
  have hnames := buildsByName_of_plain hplain (lines source) known
  refine ⟨exists_addAll_iff_listable hnames, ?_, addAll_eq_error_of_not_listable hnames, ?_⟩
  · intro m hm
    exact lays_of_addAll hnames hm
  · intro hroot
    rw [extract_eq_ofFound, Declarations.ofSource, ← hroot]

def splitNamespaces : Text :=
  "<?php\nnamespace A;\nclass X \x7b function f() \x7b class Y \x7b\x7d \x7d \x7d\nnamespace B;\nclass X \x7b\x7d\nnamespace A;\nclass Z \x7b\x7d".toList

theorem outcome_of_splitNamespaces :
    let d := Declarations.ofTree splitNamespaces (Tree.read splitNamespaces)
    let own := ownClasses d (Discovery.classes (Token.tokenize splitNamespaces))
    d.HasPlainNames ∧ Listable d own ∧
      ∃ m, extract splitNamespaces .none = .ok m ∧
        Lays (ClassModel.build? d (lines splitNamespaces) .none) own m := by
  intro d own
  obtain ⟨hplain, hsome⟩ : (Declarations.ofTree splitNamespaces (Tree.read splitNamespaces)).HasPlainNames ∧
      (extract splitNamespaces .none).toOption.isSome = true := by
    decide +kernel
  obtain ⟨hok, hlays, -, hextract⟩ := outcome_of_plain splitNamespaces .none (Tree.read splitNamespaces) hplain
  cases hm : extract splitNamespaces .none with
  | error e =>
    rw [hm] at hsome
    cases hsome
  | ok m =>
    have hfound := (hextract rfl).trans hm
    exact ⟨hplain, hok.mp ⟨m, hfound⟩, m, rfl, hlays m hfound⟩

end ClassOutline
