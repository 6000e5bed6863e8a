import ClassOutline.Layout.File
import ClassOutline.Proofs.Outcome
/-
  ClassOutline.Proofs.KnownNames — what the names known from outside a file can change.

  Known names reach an outline in one place, the list of unresolved names of each class.
  Clearing these lists class by class goes along with adding classes one by one
  (`map_mapClasses_addAll`), and a class without its list is built alike under all known
  names (`map_withoutUnresolved_build?`), so the outcomes of a source differ in the lists
  alone. A printed file does not show them (`file_mapClasses`). Each list holds the parent
  and then the interfaces as they were written, of which no class-like of the file and no
  known name is one (`ListsUnresolved`), so it gets shorter the more is known. The main
  statement is `extract_of_more_known`.
-/

namespace ClassOutline

open ClassOutline.Text

/-! ## Changing the classes of a file -/

theorem map_setEntry {α β : Type} (h : α → β) (key : Text) (value : α) (es : List (Text × α)) :
    (setEntry key value es).map (fun e => (e.1, h e.2)) = setEntry key (h value) (es.map fun e => (e.1, h e.2)) := by
  induction es with
  | nil => rfl
  | cons e r ih =>
    rw [setEntry, List.map_cons, setEntry]
    by_cases he : e.1 = key
    · rw [if_pos he, if_pos he, List.map_cons]
    · rw [if_neg he, if_neg he, List.map_cons, ih]

theorem lookup_map_snd {α β : Type} (h : α → β) (key : Text) (es : List (Text × α)) :
    (es.map fun e => (e.1, h e.2)).lookup key = (es.lookup key).map h := by
  induction es with
  | nil => rfl
  | cons e r ih =>
    rw [List.map_cons, List.lookup_cons, List.lookup_cons, ih]
    cases key == e.1 <;> rfl

namespace FileModel

variable (g : ClassModel → ClassModel)

/-- Changes every class in its place. -/
def mapClasses (f : FileModel) : FileModel :=
  ⟨⟨f.groups.entries.map fun e => (e.1, e.2.map g), by
    rw [List.map_map]
    exact f.groups.nodup⟩⟩

theorem classes_mapClasses (f : FileModel) (scope : Text) :
    (f.mapClasses g).classes scope = (f.classes scope).map g := by
  show ((f.groups.entries.map fun e => (e.1, e.2.map g)).lookup scope).getD [] = _
  rw [lookup_map_snd]
  show _ = ((f.groups.entries.lookup scope).getD []).map g
  cases f.groups.entries.lookup scope <;> rfl

theorem mapClasses_add (f : FileModel) (scope : Text) (c : ClassModel) :
    (f.add scope c).mapClasses g = (f.mapClasses g).add scope (g c) := by
  have hentries : ((f.add scope c).mapClasses g).groups.entries =
      ((f.mapClasses g).add scope (g c)).groups.entries := by
    show (setEntry scope (f.classes scope ++ [c]) f.groups.entries).map (fun e => (e.1, e.2.map g)) =
      setEntry scope ((f.mapClasses g).classes scope ++ [g c]) (f.groups.entries.map fun e => (e.1, e.2.map g))
    rw [map_setEntry (List.map g), classes_mapClasses, List.map_append, List.map_singleton]
  exact congrArg FileModel.mk (NameMap.eq_of_entries_eq hentries)

variable {g}

theorem containsClass_mapClasses (hname : ∀ c, (g c).name = c.name) (f : FileModel) (scope name : Text) :
    (f.mapClasses g).containsClass scope name = f.containsClass scope name := by
  rw [containsClass, containsClass, classes_mapClasses, List.any_map]
  refine congrArg (List.any _) (funext fun c => ?_)
  rw [Function.comp_apply, hname]

/-- A change that keeps names may be made before or after the classes are added. -/
theorem map_mapClasses_addAll (hname : ∀ c, (g c).name = c.name) (build : Text → Option ClassModel)
    (cs : List FoundClass) (f : FileModel) :
    (f.addAll build cs).map (mapClasses g) = (f.mapClasses g).addAll (fun fqn => (build fqn).map g) cs := by
  induction cs generalizing f with
  | nil => rfl
  | cons c cs ih =>
    rw [addAll, addAll, containsClass_mapClasses hname]
    by_cases hc : f.containsClass c.scope c.name = true
    · rw [if_pos hc, if_pos hc]
      rfl
    · rw [if_neg hc, if_neg hc]
      cases build c.fqn with
      | none => rfl
      | some model =>
        show ((f.add c.scope model).addAll build cs).map _ = ((f.mapClasses g).add c.scope (g model)).addAll _ cs
        rw [ih, mapClasses_add]

end FileModel

/-- A change that no class shows in print is not shown by the file. -/
theorem Layout.file_mapClasses {g : ClassModel → ClassModel} {o : Options}
    (hprint : ∀ c, classText o.unit (g c) = classText o.unit c) (f : FileModel) :
    file o (f.mapClasses g) = file o f := by
  have hclasses : ∀ cs : List ClassModel, (cs.map g).map (classText o.unit) = cs.map (classText o.unit) := by
    intro cs
    rw [List.map_map]
    exact List.map_congr_left fun c _ => hprint c
  have hcount : (f.mapClasses g).namespaceCount = f.namespaceCount := List.length_map _
  unfold file
  rw [hcount]
  show _ ++ ((f.groups.entries.map fun e => (e.1, e.2.map g)).map _).flatten = _
  rw [List.map_map]
  refine congrArg (fun ps => _ ++ List.flatten ps) (List.map_congr_left fun e _ => ?_)
  simp only [Function.comp_apply, group, hclasses]

/-! ## Unresolved names -/

namespace ClassModel

/-- All of a class but its unresolved names. -/
def withoutUnresolved (c : ClassModel) : ClassModel := { c with unresolved := [] }

theorem withoutUnresolved_addMember (ls : List Text) (c : ClassModel) (m : MemberDecl) :
    (c.addMember ls m).withoutUnresolved = c.withoutUnresolved.addMember ls m := by
  cases m <;> rfl

theorem withoutUnresolved_foldl (ls : List Text) (ms : List MemberDecl) (c : ClassModel) :
    (ms.foldl (addMember ls) c).withoutUnresolved = ms.foldl (addMember ls) c.withoutUnresolved := by
  induction ms generalizing c with
  | nil => rfl
  | cons m ms ih => rw [List.foldl_cons, List.foldl_cons, ih, withoutUnresolved_addMember]

/-- Known names are read for nothing but the unresolved names of a class. -/
theorem map_withoutUnresolved_build? (d : Declarations) (ls : List Text) (known known' : KnownNames) (fqn : Text) :
    (build? d ls known fqn).map withoutUnresolved = (build? d ls known' fqn).map withoutUnresolved := by
  rw [build?, build?, Option.map_map, Option.map_map]
  refine congrArg (fun h => Option.map h _) (funext fun c => ?_)
  show (ofDecl d ls known c).withoutUnresolved = (ofDecl d ls known' c).withoutUnresolved
  rw [ofDecl, ofDecl, withoutUnresolved_foldl, withoutUnresolved_foldl]
  rfl

/-- Members change neither the header of a class nor its unresolved names. -/
theorem header_foldl_addMember (ls : List Text) (ms : List MemberDecl) (c : ClassModel) :
    let model := ms.foldl (addMember ls) c
    model.parent = c.parent ∧ model.interfaces = c.interfaces ∧ model.unresolved = c.unresolved := by
  induction ms generalizing c with
  | nil => exact ⟨rfl, rfl, rfl⟩
  | cons m ms ih =>
    have hstep : (c.addMember ls m).parent = c.parent ∧ (c.addMember ls m).interfaces = c.interfaces ∧
        (c.addMember ls m).unresolved = c.unresolved := by
      cases m <;> exact ⟨rfl, rfl, rfl⟩
    obtain ⟨hparent, hinterfaces, hunresolved⟩ := ih (c.addMember ls m)
    exact ⟨hparent.trans hstep.1, hinterfaces.trans hstep.2.1, hunresolved.trans hstep.2.2⟩

end ClassModel

def FileModel.withoutUnresolved (f : FileModel) : FileModel := f.mapClasses ClassModel.withoutUnresolved

/-- A class lists the names of its header that nothing declares: its parent, then the
    interfaces as they were written, with repetitions; left out is what a class-like of the
    file, ignoring case, or a known name declares. -/
structure ListsUnresolved (d : Declarations) (known : KnownNames) (decl : ClassDecl) (c : ClassModel) : Prop where
  parent : c.parent = decl.parents.head?
  interfaces : c.interfaces.items = decl.interfaces.eraseDups
  unresolved : c.unresolved =
    (c.parent.toList.map (UnresolvedName.mk · .parent) ++
      decl.interfaces.map (UnresolvedName.mk · .interface)).filter fun r =>
      !(d.classes.any fun e => sameName e.fqn r.name) && !known r.name

theorem NameSet.items_ofList (xs : List Text) : (NameSet.ofList xs).items = xs.eraseDups := by
  induction xs using List.reverseRecOn with
  | nil => rfl
  | append_singleton xs x ih =>
    have hlast : NameSet.ofList (xs ++ [x]) = (NameSet.ofList xs).insert x := by
      rw [ofList, List.foldl_append]
      rfl
    rw [hlast, items_insert, ih]
    exact (eraseDups_concat xs x).symm

theorem listsUnresolved_ofDecl (d : Declarations) (ls : List Text) (known : KnownNames) (decl : ClassDecl) :
    ListsUnresolved d known decl (.ofDecl d ls known decl) := by
  obtain ⟨hparent, hinterfaces, hunresolved⟩ :=
    ClassModel.header_foldl_addMember ls (d.membersOf decl.fqn) (.ofHeader d known decl)
  refine ⟨hparent, ?_, ?_⟩
  · rw [ClassModel.ofDecl, hinterfaces]
    exact NameSet.items_ofList decl.interfaces
  · rw [ClassModel.ofDecl, hunresolved, hparent]
    show decl.references.filter _ = decl.references.filter _
    refine List.filter_congr fun r _ => ?_
    rw [Declarations.isKnown, Bool.not_or]
    rfl

theorem ListsUnresolved.sublist {d : Declarations} {known known' : KnownNames}
    (h : ∀ x, known x = true → known' x = true) {decl : ClassDecl} {c c' : ClassModel}
    (hc : ListsUnresolved d known decl c) (hc' : ListsUnresolved d known' decl c') :
    c'.unresolved.Sublist c.unresolved := by
  rw [hc.unresolved, hc'.unresolved, hc.parent, hc'.parent]
  refine List.monotone_filter_right _ fun r hr => ?_
  rw [Bool.and_eq_true] at hr ⊢
  refine ⟨hr.1, ?_⟩
  cases hknown : known r.name with
  | false => rfl
  | true =>
    rw [h r.name hknown] at hr
    exact hr.2

/-! ## Outcomes under more known names -/

theorem withoutUnresolved_extract (source : Text) (known known' : KnownNames) :
    (extract source known).map FileModel.withoutUnresolved = (extract source known').map FileModel.withoutUnresolved := by
  have hbuild : (fun fqn => (ClassModel.build? (.ofSource source) (lines source) known fqn).map
        ClassModel.withoutUnresolved) =
      fun fqn => (ClassModel.build? (.ofSource source) (lines source) known' fqn).map
        ClassModel.withoutUnresolved :=
    funext (ClassModel.map_withoutUnresolved_build? _ _ known known')
  have hmap := FileModel.map_mapClasses_addAll (g := ClassModel.withoutUnresolved) (fun _ => rfl)
  rw [extract_eq_ofFound, extract_eq_ofFound]
  unfold FileModel.ofFound FileModel.withoutUnresolved
  rw [hmap, hmap, hbuild]

theorem classText_withoutUnresolved (u : Layout.IndentUnit) (c : ClassModel) :
    Layout.classText u c.withoutUnresolved = Layout.classText u c := by
  cases c
  rfl

theorem file_withoutUnresolved (o : Layout.Options) (f : FileModel) :
    Layout.file o f.withoutUnresolved = Layout.file o f :=
  Layout.file_mapClasses (classText_withoutUnresolved o.unit) f

/-- The classes of a namespace list the unresolved names of their declarations. -/
theorem forall₂_listsUnresolved {source : Text} {known : KnownNames} {m : FileModel} (h : extract source known = .ok m)
    (scope : Text) :
    List.Forall₂
      (fun found c => ∃ decl, (Declarations.ofSource source).findClass? found.fqn = some decl ∧
        ListsUnresolved (.ofSource source) known decl c)
      ((ownOf source).filter (·.scope == scope)) (m.classes scope) := by
  rw [extract_eq_ofFound] at h
  refine (forall₂_models h scope).imp fun found c hbuilt => ?_
  obtain ⟨decl, hfind, rfl⟩ := Option.map_eq_some_iff.mp hbuilt
  exact ⟨decl, hfind, listsUnresolved_ofDecl _ _ known decl⟩

theorem forall₂_of_common {α β γ : Type} {R : α → β → Prop} {S : α → γ → Prop} {T : β → γ → Prop} {as : List α}
    {bs : List β} {cs : List γ} (hT : ∀ {a b c}, R a b → S a c → T b c) (hR : List.Forall₂ R as bs)
    (hS : List.Forall₂ S as cs) : List.Forall₂ T bs cs := by
  induction hR generalizing cs with
  | nil =>
    cases hS
    exact .nil
  | cons hab _ ih =>
    cases hS with
    | cons hac hrest => exact .cons (hT hab hac) (ih hrest)

/-- Two outcomes of a source, under names of which the second knows all that the first does.
    Both are the same fault, or they are outlines that agree in all but the unresolved names
    of their classes; each class lists the names of its header that neither the file nor the
    known names declare; the lists under more known names are sublists of the others; and
    the files are printed alike. -/
theorem extract_of_more_known (source : Text) {known known' : KnownNames}
    (h : ∀ x, known x = true → known' x = true) :
    let d := Declarations.ofSource source
    let outcome := extract source known
    let outcome' := extract source known'
    outcome.map FileModel.withoutUnresolved = outcome'.map FileModel.withoutUnresolved ∧
      (∀ o, outcome.map (Layout.file o) = outcome'.map (Layout.file o)) ∧
      ∀ m m', outcome = .ok m → outcome' = .ok m' → ∀ scope,
        let own := (ownOf source).filter (·.scope == scope)
        List.Forall₂ (fun found c => ∃ decl, d.findClass? found.fqn = some decl ∧ ListsUnresolved d known decl c)
          own (m.classes scope) ∧
        List.Forall₂ (fun found c => ∃ decl, d.findClass? found.fqn = some decl ∧ ListsUnresolved d known' decl c)
          own (m'.classes scope) ∧
        List.Forall₂ (fun c c' => c'.unresolved.Sublist c.unresolved) (m.classes scope) (m'.classes scope) := by
  intro d outcome outcome'
  have hsame := withoutUnresolved_extract source known known'
  refine ⟨hsame, ?_, ?_⟩
  · intro o
    have hprint : ∀ r : Except ExtractError FileModel,
        (r.map FileModel.withoutUnresolved).map (Layout.file o) = r.map (Layout.file o) := by
      intro r
      cases r with
      | error e => rfl
      | ok m => exact congrArg Except.ok (file_withoutUnresolved o m)
    rw [← hprint outcome, ← hprint outcome', hsame]
  · intro m m' hm hm' scope
    have hlists := forall₂_listsUnresolved hm scope
    have hlists' := forall₂_listsUnresolved hm' scope
    refine ⟨hlists, hlists', forall₂_of_common ?_ hlists hlists'⟩
    intro found c c' hc hc'
    obtain ⟨decl, hfind, hc⟩ := hc
    obtain ⟨decl', hfind', hc'⟩ := hc'
    have hdecl : decl' = decl := Option.some.inj (hfind'.symm.trans hfind)
    subst hdecl
    exact hc.sublist h hc'

def interfaceTwice : Text :=
  "<?php namespace N; interface D \x7b\x7d class A extends B implements C, d, C \x7b\x7d".toList

theorem extract_interfaceTwice :
    let known := KnownNames.ofList ["N\\C".toList]
    let parent : UnresolvedName := ⟨"N\\B".toList, .parent⟩
    let interface : UnresolvedName := ⟨"N\\C".toList, .interface⟩
    (∀ x, KnownNames.none x = true → known x = true) ∧
      ∃ m m', extract interfaceTwice .none = .ok m ∧ extract interfaceTwice known = .ok m' ∧
        m.withoutUnresolved = m'.withoutUnresolved ∧ (∀ o, Layout.file o m = Layout.file o m') ∧
        (m.classes "N".toList).map (·.unresolved) = [[parent, interface, interface]] ∧
        (m'.classes "N".toList).map (·.unresolved) = [[parent]] ∧
        List.Forall₂ (fun c c' => c'.unresolved.Sublist c.unresolved) (m.classes "N".toList)
          (m'.classes "N".toList) := by
  intro known parent interface
  have hmore : ∀ x, KnownNames.none x = true → known x = true := fun x hx => nomatch hx
  obtain ⟨hlists, hlists'⟩ : (extract interfaceTwice .none).toOption.map
        (fun m => (m.classes "N".toList).map (·.unresolved)) =
        some [[(⟨"N\\B".toList, .parent⟩ : UnresolvedName), ⟨"N\\C".toList, .interface⟩,
          ⟨"N\\C".toList, .interface⟩]] ∧
      (extract interfaceTwice (.ofList ["N\\C".toList])).toOption.map
        (fun m => (m.classes "N".toList).map (·.unresolved)) =
        some [[(⟨"N\\B".toList, .parent⟩ : UnresolvedName)]] := by
    decide +kernel
  obtain ⟨hsame, hprint, hunresolved⟩ := extract_of_more_known interfaceTwice hmore
  cases hm : extract interfaceTwice .none with
  | error e =>
    rw [hm] at hlists
    cases hlists
  | ok m =>
    cases hm' : extract interfaceTwice known with
    | error e =>
      rw [hm'] at hlists'
      cases hlists'
    | ok m' =>
      rw [hm, hm'] at hsame hprint
      rw [hm] at hlists
      rw [hm'] at hlists'
      refine ⟨hmore, m, m', rfl, rfl, Except.ok.inj hsame, fun o => Except.ok.inj (hprint o),
        Option.some.inj hlists, Option.some.inj hlists', ?_⟩
      exact (hunresolved m m' hm hm' "N".toList).2.2

end ClassOutline
