import ClassOutline.Extraction
import ClassOutline.Proofs.Ordered
import Mathlib.Data.List.Basic
/-
  ClassOutline.Proofs.Extraction — when a source has an outline, and which classes it lists.

  `extract` adds the own classes of a source one by one and stops at the first that is there
  already or that the tree does not declare. So it succeeds exactly if no own class repeats
  an earlier one and all are declared (`addAll_eq_ok_iff`), and then the outline lists the
  names they are declared under, namespace by namespace in the order of first occurrence
  (`classNames_addPairs`). `exists_extract_iff` puts both together for sources.
-/

namespace ClassOutline

open ClassOutline.Text

/-! ## Looking up declarations -/

/-- What is looked up is a class of that name, but for case. -/
theorem of_findClass? {d : Declarations} {fqn : Text} {c : ClassDecl} (h : d.findClass? fqn = some c) :
    c ∈ d.classes ∧ c.kind = .isClass ∧ sameName c.fqn fqn = true := by
  simp only [Declarations.findClass?] at h
  cases hx : (d.classes.filter (·.kind == .isClass)).find? (·.fqn == fqn) with
  | some e =>
    rw [hx] at h
    cases h
    obtain ⟨hm, hk⟩ := List.mem_filter.mp (List.mem_of_find?_eq_some hx)
    have hfqn : c.fqn = fqn := by simpa using List.find?_some hx
    exact ⟨hm, beq_iff_eq.mp hk, by rw [hfqn, sameName, beq_self_eq_true]⟩
  | none =>
    rw [hx] at h
    have hc : (d.classes.filter (·.kind == .isClass)).find? (sameName ·.fqn fqn) = some c := h
    obtain ⟨hm, hk⟩ := List.mem_filter.mp (List.mem_of_find?_eq_some hc)
    exact ⟨hm, beq_iff_eq.mp hk, by simpa using List.find?_some hc⟩

theorem isSome_findClass?_iff (d : Declarations) (fqn : Text) :
    (d.findClass? fqn).isSome ↔ ∃ c ∈ d.classes, c.kind = .isClass ∧ sameName c.fqn fqn = true := by
  constructor
  · intro h
    obtain ⟨c, hc⟩ := Option.isSome_iff_exists.mp h
    exact ⟨c, of_findClass? hc⟩
  · intro h
    obtain ⟨c, hm, hk, hsame⟩ := h
    have hsome : ((d.classes.filter (·.kind == .isClass)).find? (sameName ·.fqn fqn)).isSome := by
      rw [List.find?_isSome]
      exact ⟨c, List.mem_filter.mpr ⟨hm, beq_iff_eq.mpr hk⟩, hsame⟩
    simp only [Declarations.findClass?]
    cases (d.classes.filter (·.kind == .isClass)).find? (·.fqn == fqn) with
    | none => exact hsome
    | some c => rfl

/-- The name a found class is declared under. -/
def Declarations.nameOf (d : Declarations) (c : FoundClass) : Text :=
  ((d.findClass? c.fqn).map (·.name)).getD []

theorem name_addMember (ls : List Text) (c : ClassModel) (m : MemberDecl) :
    (ClassModel.addMember ls c m).name = c.name := by
  cases m <;> rfl

theorem name_foldl_addMember (ls : List Text) (ms : List MemberDecl) (c : ClassModel) :
    (ms.foldl (ClassModel.addMember ls) c).name = c.name := by
  induction ms generalizing c with
  | nil => rfl
  | cons m ms ih => rw [List.foldl_cons, ih, name_addMember]

theorem name_of_build? {d : Declarations} {ls : List Text} {known : KnownNames} {c : FoundClass} {m : ClassModel}
    (h : ClassModel.build? d ls known c.fqn = some m) : m.name = d.nameOf c := by
  obtain ⟨decl, hd, rfl⟩ := Option.map_eq_some_iff.mp h
  rw [Declarations.nameOf, hd, ClassModel.ofDecl, name_foldl_addMember]
  rfl

theorem isSome_build? (d : Declarations) (ls : List Text) (known : KnownNames) (fqn : Text) :
    (ClassModel.build? d ls known fqn).isSome = (d.findClass? fqn).isSome := by
  simp [ClassModel.build?]

/-! ## Adding classes one by one -/

/-- A class is told apart from an earlier one by its namespace or, ignoring case, by the name
    that one is declared under. -/
def Apart (build : Text → Option ClassModel) (earlier c : FoundClass) : Prop :=
  ∀ m, build earlier.fqn = some m → ¬ (earlier.scope = c.scope ∧ sameName m.name c.name = true)

/-- The models of classes, under their namespaces. -/
def builtPairs (build : Text → Option ClassModel) (cs : List FoundClass) : List (Text × ClassModel) :=
  cs.filterMap fun c => (build c.fqn).map (c.scope, ·)

theorem builtPairs_cons {build : Text → Option ClassModel} {c : FoundClass} {m : ClassModel}
    (h : build c.fqn = some m) (cs : List FoundClass) :
    builtPairs build (c :: cs) = (c.scope, m) :: builtPairs build cs := by
  simp [builtPairs, h]

theorem containsClass_add (f : FileModel) (scope s name : Text) (m : ClassModel) :
    (f.add scope m).containsClass s name = true ↔
      f.containsClass s name = true ∨ (scope = s ∧ sameName m.name name = true) := by
  unfold FileModel.containsClass
  rw [FileModel.classes_add]
  by_cases h : s = scope
  · subst h
    simp
  · have h' : ¬ scope = s := fun he => h he.symm
    simp [h, h']

/-- All classes can be added exactly if all can be built and none is there when its turn
    comes. -/
theorem addAll_eq_ok_iff (build : Text → Option ClassModel) (cs : List FoundClass) (f m : FileModel) :
    f.addAll build cs = .ok m ↔
      (∀ c ∈ cs, f.containsClass c.scope c.name = false) ∧ (∀ c ∈ cs, (build c.fqn).isSome = true) ∧
        cs.Pairwise (Apart build) ∧ m = f.addPairs (builtPairs build cs) := by
  induction cs generalizing f with
  | nil =>
    simp only [FileModel.addAll, Except.ok.injEq, List.not_mem_nil, false_implies, implies_true,
      List.Pairwise.nil, true_and]
    exact eq_comm
  | cons c cs ih =>
    rw [FileModel.addAll, List.forall_mem_cons, List.forall_mem_cons, List.pairwise_cons]
    by_cases hc : f.containsClass c.scope c.name = true
    · simp [hc]
    · rw [if_neg hc]
      have hc' : f.containsClass c.scope c.name = false := by simpa using hc
      cases hb : build c.fqn with
      | none => simp
      | some model =>
        have hfresh : (∀ c' ∈ cs, (f.add c.scope model).containsClass c'.scope c'.name = false) ↔
            (∀ c' ∈ cs, f.containsClass c'.scope c'.name = false) ∧ ∀ c' ∈ cs, Apart build c c' := by
          rw [← forall₂_and]
          refine forall₂_congr fun c' _ => ?_
          rw [← Bool.not_eq_true, containsClass_add, not_or, Bool.not_eq_true, Apart]
          simp [hb]
        show (f.add c.scope model).addAll build cs = .ok m ↔ _
        rw [ih, hfresh, builtPairs_cons hb]
        constructor
        · intro h
          obtain ⟨⟨h1, h2⟩, h3, h4, h5⟩ := h
          exact ⟨⟨hc', h1⟩, ⟨rfl, h3⟩, ⟨h2, h4⟩, h5⟩
        · intro h
          obtain ⟨⟨-, h1⟩, ⟨-, h3⟩, ⟨h2, h4⟩, h5⟩ := h
          exact ⟨⟨h1, h2⟩, h3, h4, h5⟩

/-- Classes that can all be built fail for no other reason than a repeated name. -/
theorem addAll_ne_undeclared {build : Text → Option ClassModel} {cs : List FoundClass} {fqn : Text}
    (h : ∀ c ∈ cs, (build c.fqn).isSome = true) (f : FileModel) :
    f.addAll build cs ≠ .error (.malformed fqn .undeclared) := by
  induction cs generalizing f with
  | nil => simp [FileModel.addAll]
  | cons c cs ih =>
    obtain ⟨hc, hcs⟩ := List.forall_mem_cons.mp h
    obtain ⟨m, hm⟩ := Option.isSome_iff_exists.mp hc
    rw [FileModel.addAll]
    split
    · simp
    · rw [hm]
      exact ih hcs _

/-! ## Groups of names -/

/-- Names under their namespaces, both in the order of first occurrence. -/
def grouped (pairs : List (Text × Text)) : List (Text × List Text) :=
  (pairs.map Prod.fst).eraseDups.map fun scope =>
    (scope, (pairs.filter (·.1 == scope)).map Prod.snd)

theorem FileModel.keys_classNames (f : FileModel) : f.classNames.map Prod.fst = f.groups.keys := by
  rw [classNames, List.map_map]
  rfl

theorem FileModel.lookup_classNames {f : FileModel} {s : Text} (hs : s ∈ f.groups.keys) :
    f.classNames.lookup s = some ((f.classes s).map (·.name)) := by
  rw [classNames_eq]
  exact List.lookup_graph _ hs

theorem classNames_addPairs (ps : List (Text × ClassModel)) :
    (FileModel.empty.addPairs ps).classNames = grouped (ps.map fun p => (p.1, p.2.name)) := by
  rw [FileModel.classNames_eq, FileModel.keys_addPairs, grouped, List.map_map]
  refine List.map_congr_left fun s _ => ?_
  rw [FileModel.classes_addPairs, List.filter_map, List.map_map]
  simp only [Prod.mk.injEq, true_and]
  show (FileModel.empty.classes s ++ _).map _ = _
  rw [List.map_append]
  show [] ++ _ = _
  rw [List.nil_append, List.map_map]
  rfl

theorem keys_grouped (ps : List (Text × Text)) : (grouped ps).map Prod.fst = (ps.map Prod.fst).eraseDups := by
  rw [grouped, List.map_map]
  exact List.map_id _

theorem lookup_grouped (ps : List (Text × Text)) (scope : Text) :
    ((grouped ps).lookup scope).getD [] = (ps.filter (·.1 == scope)).map Prod.snd := by
  by_cases h : scope ∈ ps.map Prod.fst
  · rw [grouped, List.lookup_graph _ (List.mem_eraseDups.mpr h)]
    rfl
  · have hnone : (grouped ps).lookup scope = none := by
      rw [List.lookup_eq_none_iff]
      intro g hg
      obtain ⟨k, hk, rfl⟩ := List.mem_map.mp hg
      have hne : scope ≠ k := fun he => h (he ▸ List.mem_eraseDups.mp hk)
      simpa using hne
    have hfilter : ps.filter (·.1 == scope) = [] := by
      rw [List.filter_eq_nil_iff]
      intro p hp he
      exact h (beq_iff_eq.mp he ▸ List.mem_map_of_mem hp)
    rw [hnone, hfilter]
    rfl

/-- Names that are grouped already, each group in one place. -/
def ungrouped (gs : List (Text × List Text)) : List (Text × Text) := gs.flatMap fun g => g.2.map (g.1, ·)

/-- A group whose namespace does not come again is a group of its own. -/
theorem grouped_append {scope : Text} {names : List Text} (hne : names ≠ []) {ps : List (Text × Text)}
    (h : ∀ p ∈ ps, p.1 ≠ scope) : grouped (names.map (scope, ·) ++ ps) = (scope, names) :: grouped ps := by
  have hself : ∀ ns : List Text, (ns.map (scope, ·)).filter (·.1 == scope) = ns.map (scope, ·) := by
    intro ns
    rw [List.filter_eq_self]
    intro p hp
    obtain ⟨n, -, rfl⟩ := List.mem_map.mp hp
    exact beq_self_eq_true scope
  have hrest : ps.filter (·.1 == scope) = [] := by
    rw [List.filter_eq_nil_iff]
    intro p hp he
    exact h p hp (beq_iff_eq.mp he)
  have hkeys : ((names.map (scope, ·) ++ ps).map Prod.fst).eraseDups = scope :: (ps.map Prod.fst).eraseDups := by
    obtain ⟨n, ns, rfl⟩ := List.exists_cons_of_ne_nil hne
    have hsame : ((ns.map (scope, ·)).map Prod.fst).filter (fun k => !k == scope) = [] := by
      rw [List.filter_eq_nil_iff]
      intro k hk
      obtain ⟨p, hp, rfl⟩ := List.mem_map.mp hk
      obtain ⟨n, -, rfl⟩ := List.mem_map.mp hp
      simp
    have hother : (ps.map Prod.fst).filter (fun k => !k == scope) = ps.map Prod.fst := by
      rw [List.filter_eq_self]
      intro k hk
      obtain ⟨p, hp, rfl⟩ := List.mem_map.mp hk
      simpa using h p hp
    rw [List.map_cons, List.cons_append, List.map_cons, List.eraseDups_cons, List.map_append, List.filter_append,
      hsame, hother, List.nil_append]
  have hnames : (names.map (scope, ·)).map Prod.snd = names := by
    rw [List.map_map]
    exact List.map_id names
  rw [grouped, hkeys, List.map_cons, List.filter_append, hself, hrest, List.append_nil, hnames]
  refine congrArg _ (List.map_congr_left fun k hk => ?_)
  have hk' : k ≠ scope := by
    obtain ⟨p, hp, rfl⟩ := List.mem_map.mp (List.mem_eraseDups.mp hk)
    exact h p hp
  have hnone : (names.map (scope, ·)).filter (·.1 == k) = [] := by
    rw [List.filter_eq_nil_iff]
    intro p hp he
    obtain ⟨n, -, rfl⟩ := List.mem_map.mp hp
    exact hk' (beq_iff_eq.mp he).symm
  rw [List.filter_append, hnone, List.nil_append]

theorem grouped_ungrouped {gs : List (Text × List Text)} (hkeys : (gs.map Prod.fst).Nodup) (hne : ∀ g ∈ gs, g.2 ≠ []) :
    grouped (ungrouped gs) = gs := by
  induction gs with
  | nil => rfl
  | cons g gs ih =>
    obtain ⟨hnot, hkeys⟩ := List.nodup_cons.mp hkeys
    obtain ⟨hg, hne⟩ := List.forall_mem_cons.mp hne
    rw [ungrouped, List.flatMap_cons, grouped_append hg]
    · exact congrArg _ (ih hkeys hne)
    · intro p hp he
      obtain ⟨g', hg', hp⟩ := List.mem_flatMap.mp hp
      obtain ⟨n, -, rfl⟩ := List.mem_map.mp hp
      exact hnot (he ▸ List.mem_map_of_mem hg')

/-! ## Sources -/

/-- Also a source without classes, which is not parsed, comes out as if it were. -/
theorem extract_eq_ofFound (source : Text) (known : KnownNames) :
    extract source known =
      FileModel.ofFound source known (.ofSource source) (Discovery.classes (Token.tokenize source)) := by
  simp only [extract]
  split
  · rename_i h
    rw [List.isEmpty_iff.mp h]
    rfl
  · rfl

/-- The classes of a source that get a model of their own. -/
def ownOf (source : Text) : List FoundClass :=
  ownClasses (.ofSource source) (Discovery.classes (Token.tokenize source))

/-- The namespaces of an outline are those of classes found in the source. -/
theorem mem_keys_of_extract {source : Text} {known : KnownNames} {m : FileModel} (h : extract source known = .ok m)
    {scope : Text} (hs : scope ∈ m.groups.keys) :
    ∃ c ∈ Discovery.classes (Token.tokenize source), c.scope = scope := by
  rw [extract_eq_ofFound, FileModel.ofFound, addAll_eq_ok_iff] at h
  obtain ⟨-, -, -, rfl⟩ := h
  rw [FileModel.keys_addPairs, List.mem_eraseDups] at hs
  obtain ⟨p, hp, rfl⟩ := List.mem_map.mp hs
  obtain ⟨c, hc, hbuilt⟩ := List.mem_filterMap.mp hp
  obtain ⟨model, -, rfl⟩ := Option.map_eq_some_iff.mp hbuilt
  exact ⟨c, (List.mem_filter.mp hc).1, rfl⟩

/-- No namespace of an outline is without classes. -/
theorem ne_nil_of_extract {source : Text} {known : KnownNames} {m : FileModel} (h : extract source known = .ok m)
    {g : Text × List ClassModel} (hg : g ∈ m.groups.entries) : g.2 ≠ [] := by
  rw [extract_eq_ofFound, FileModel.ofFound, addAll_eq_ok_iff] at h
  obtain ⟨-, -, -, rfl⟩ := h
  rw [NameMap.entries_eq_map_keys] at hg
  obtain ⟨scope, hs, rfl⟩ := List.mem_map.mp hg
  rw [FileModel.keys_addPairs, List.mem_eraseDups] at hs
  obtain ⟨p, hp, rfl⟩ := List.mem_map.mp hs
  show FileModel.classes _ p.1 ≠ []
  rw [FileModel.classes_addPairs]
  refine List.append_ne_nil_of_right_ne_nil _ ?_
  exact List.ne_nil_of_mem (List.mem_map_of_mem (List.mem_filter.mpr ⟨hp, beq_self_eq_true p.1⟩))

/-- A class is told apart from an earlier one, going by what the source declares. -/
def ApartIn (d : Declarations) (earlier c : FoundClass) : Prop :=
  ¬ (earlier.scope = c.scope ∧ sameName (d.nameOf earlier) c.name = true)

theorem classNames_builtPairs {d : Declarations} {ls : List Text} {known : KnownNames} {cs : List FoundClass}
    (h : ∀ c ∈ cs, (d.findClass? c.fqn).isSome = true) :
    (builtPairs (ClassModel.build? d ls known) cs).map (fun p => (p.1, p.2.name)) =
      cs.map fun c => (c.scope, d.nameOf c) := by
  induction cs with
  | nil => rfl
  | cons c cs ih =>
    obtain ⟨hc, hcs⟩ := List.forall_mem_cons.mp h
    rw [← isSome_build? d ls known] at hc
    obtain ⟨m, hm⟩ := Option.isSome_iff_exists.mp hc
    rw [builtPairs_cons hm, List.map_cons, List.map_cons, ih hcs, name_of_build? hm]

theorem apart_iff_apartIn {d : Declarations} {ls : List Text} {known : KnownNames} {a : FoundClass}
    (ha : (d.findClass? a.fqn).isSome = true) (b : FoundClass) :
    Apart (ClassModel.build? d ls known) a b ↔ ApartIn d a b := by
  rw [← isSome_build? d ls known] at ha
  obtain ⟨m, hm⟩ := Option.isSome_iff_exists.mp ha
  simp [Apart, ApartIn, hm, name_of_build? hm]

/-- A source has an outline that lists some names exactly if its own classes are declared,
    are told apart, and have these names, grouped by namespace. -/
theorem exists_extract_iff (source : Text) (known : KnownNames) (names : List (Text × List Text)) :
    (∃ m, extract source known = .ok m ∧ m.classNames = names) ↔
      (∀ c ∈ ownOf source, ((Declarations.ofSource source).findClass? c.fqn).isSome = true) ∧
        (ownOf source).Pairwise (ApartIn (.ofSource source)) ∧
        grouped ((ownOf source).map fun c => (c.scope, (Declarations.ofSource source).nameOf c)) = names := by
  have hempty : ∀ c ∈ ownOf source, FileModel.empty.containsClass c.scope c.name = false := fun _ _ => rfl
  have hpair : ∀ {d : Declarations}, (∀ c ∈ ownOf source, (d.findClass? c.fqn).isSome = true) →
      ((ownOf source).Pairwise (Apart (ClassModel.build? d (lines source) known)) ↔
        (ownOf source).Pairwise (ApartIn d)) := by
    intro d hd
    exact List.Pairwise.iff_of_mem fun {a b} ha _ => apart_iff_apartIn (hd a ha) b
  rw [extract_eq_ofFound, FileModel.ofFound]
  change (∃ m, FileModel.empty.addAll _ (ownOf source) = .ok m ∧ m.classNames = names) ↔ _
  simp only [addAll_eq_ok_iff, isSome_build?]
  constructor
  · intro h
    obtain ⟨m, ⟨-, hdecl, hapart, rfl⟩, rfl⟩ := h
    refine ⟨hdecl, (hpair hdecl).mp hapart, ?_⟩
    rw [classNames_addPairs, classNames_builtPairs hdecl]
  · intro h
    obtain ⟨hdecl, hapart, rfl⟩ := h
    refine ⟨_, ⟨hempty, hdecl, (hpair hdecl).mpr hapart, rfl⟩, ?_⟩
    rw [classNames_addPairs, classNames_builtPairs hdecl]

end ClassOutline
