import ClassOutline.Tree.Issue
import ClassOutline.Proofs.Extraction
import ClassOutline.Proofs.Paths
/-
  ClassOutline.Proofs.Reprint — printed outlines, read again.

  A printed file should be read as the outline it was printed from: no issues, and the same
  names in the same namespaces (`KeepsNames`). It is not always. Documentation, types,
  values and bodies are printed as the model holds them, and canonical white space takes
  control characters out of them, so a text that was harmless where it stood may end a
  comment or begin a class where it is printed (`reprint_finds_another_class`).

  What else is printed does no harm. If each class, printed alone, is closed and is the only
  class in its text, then just the classes of the outline are found in the printed file, in
  their order and under their namespaces (`entries_file`). `keepsNames_iff` adds what the
  law asks for beyond that: that the printed text has no issues and that its tree declares
  what is found.
-/

namespace ClassOutline

open ClassOutline.Text ClassOutline.Token ClassOutline.Discovery ClassOutline.Layout

/-! ## What is found in a printed file -/

/-- A class whose printed text is read as that class and nothing else. -/
def StandsAlone (scope : Text) (c : ClassModel) : Prop :=
  isClosed (classPiece {} c) = true ∧ entriesIn scope (classPiece {} c) = [(scope, c.name)] ∧
    scopeBehind scope (classPiece {} c) = scope

instance (scope : Text) (c : ClassModel) : Decidable (StandsAlone scope c) := by unfold StandsAlone; infer_instance

theorem entriesThrough_append (scope : Text) (ps qs : List Text) :
    entriesThrough scope (ps ++ qs) = entriesThrough scope ps ++ entriesThrough (ps.foldl scopeBehind scope) qs := by
  induction ps generalizing scope with
  | nil => rfl
  | cons p ps ih => rw [List.cons_append, entriesThrough, entriesThrough, ih, List.append_assoc, List.foldl_cons]

theorem entriesThrough_classes {scope : Text} {cs : List ClassModel} (h : ∀ c ∈ cs, StandsAlone scope c) :
    entriesThrough scope (cs.map (classPiece {})) = cs.map (fun c => (scope, c.name)) ∧
      (cs.map (classPiece {})).foldl scopeBehind scope = scope := by
  induction cs with
  | nil => exact ⟨rfl, rfl⟩
  | cons c cs ih =>
    obtain ⟨⟨-, hentries, hscope⟩, hcs⟩ := List.forall_mem_cons.mp h
    obtain ⟨ih₁, ih₂⟩ := ih hcs
    rw [List.map_cons, entriesThrough, List.foldl_cons, hscope, hentries, ih₁, ih₂]
    exact ⟨rfl, rfl⟩

/-- The head of a block opens the global namespace, whatever was before it. -/
theorem reads_block (outer : Text) :
    isClosed "namespace \x7b".toList = true ∧ entriesIn outer "namespace \x7b".toList = [] ∧
      scopeBehind outer "namespace \x7b".toList = [] := by
  have htokens : codeTokens "namespace \x7b".toList =
      [⟨.namespaceKeyword, "namespace".toList, 1⟩, ⟨.whitespace, [' '], 1⟩, ⟨.punct, ['{'], 1⟩] := by decide +kernel
  refine ⟨by decide +kernel, ?_, ?_⟩
  · rw [entriesIn, htokens]
    rfl
  · rw [scopeBehind, htokens]
    rfl

/-- The head of a group leaves its namespace; a group that is alone needs none. -/
theorem entriesThrough_head {alone : Bool} {scope outer : Text} (hscope : scope = [] ∨ IsPath scope)
    (halone : alone = true → outer = []) :
    (∀ p ∈ headPieces alone scope, isClosed p = true) ∧ entriesThrough outer (headPieces alone scope) = [] ∧
      (headPieces alone scope).foldl scopeBehind outer = scope := by
  rcases hscope with rfl | hpath
  · cases alone with
    | true => exact ⟨by simp [headPieces], rfl, halone rfl⟩
    | false =>
      obtain ⟨hclosed, hentries, hbehind⟩ := reads_block outer
      have hhead : headPieces false [] = ["namespace \x7b".toList] := rfl
      rw [hhead, entriesThrough, hentries]
      refine ⟨?_, rfl, hbehind⟩
      intro p hp
      rw [List.mem_singleton.mp hp]
      exact hclosed
  · have hhead : headPieces alone scope = [canonical (namespaceLine scope)] := by
      obtain ⟨w, ws, ⟨c, r, rfl, -⟩, -, -, rfl⟩ := hpath
      rfl
    obtain ⟨hclosed, hread⟩ := reads_namespaceLine hpath
    rw [hhead, entriesThrough, (hread outer).2]
    refine ⟨?_, rfl, (hread outer).1⟩
    intro p hp
    rw [List.mem_singleton.mp hp]
    exact hclosed

theorem entriesThrough_tail (alone : Bool) (scope outer : Text) :
    (∀ p ∈ tailPieces alone scope, isClosed p = true) ∧ entriesThrough outer (tailPieces alone scope) = [] := by
  unfold tailPieces
  split
  · exact ⟨by simp, rfl⟩
  · split
    · exact ⟨by simp, rfl⟩
    · refine ⟨fun p hp => ?_, rfl⟩
      rw [List.mem_singleton.mp hp]
      rfl

theorem entriesThrough_group {alone : Bool} {scope outer : Text} {cs : List ClassModel}
    (hscope : scope = [] ∨ IsPath scope) (halone : alone = true → outer = []) (hcs : ∀ c ∈ cs, StandsAlone scope c) :
    (∀ p ∈ groupPieces {} alone scope cs, isClosed p = true) ∧
      entriesThrough outer (groupPieces {} alone scope cs) = cs.map fun c => (scope, c.name) := by
  obtain ⟨hclosed, hentries, hbehind⟩ := entriesThrough_head hscope halone
  obtain ⟨hclasses, -⟩ := entriesThrough_classes hcs
  obtain ⟨htclosed, htentries⟩ := entriesThrough_tail alone scope
    ((headPieces alone scope ++ cs.map (classPiece {})).foldl scopeBehind outer)
  refine ⟨fun p hp => ?_, ?_⟩
  · rcases List.mem_append.mp hp with hp | hp
    · rcases List.mem_append.mp hp with hp | hp
      · exact hclosed p hp
      · obtain ⟨c, hc, rfl⟩ := List.mem_map.mp hp
        exact (hcs c hc).1
    · exact htclosed p hp
  · rw [groupPieces, entriesThrough_append, entriesThrough_append, hentries, hbehind, hclasses, htentries,
      List.nil_append, List.append_nil]

theorem entriesThrough_groups {alone : Bool} (outer : Text) {gs : List (Text × List ClassModel)}
    (hscope : ∀ g ∈ gs, g.1 = [] ∨ IsPath g.1) (halone : alone = true → gs = [] ∨ (outer = [] ∧ gs.length ≤ 1))
    (hcs : ∀ g ∈ gs, ∀ c ∈ g.2, StandsAlone g.1 c) :
    (∀ p ∈ gs.flatMap (fun g => groupPieces {} alone g.1 g.2), isClosed p = true) ∧
      entriesThrough outer (gs.flatMap fun g => groupPieces {} alone g.1 g.2) =
        gs.flatMap fun g => g.2.map fun c => (g.1, c.name) := by
  induction gs generalizing outer with
  | nil => exact ⟨by simp, rfl⟩
  | cons g gs ih =>
    obtain ⟨hg, hgs⟩ := List.forall_mem_cons.mp hscope
    obtain ⟨hc, hcs⟩ := List.forall_mem_cons.mp hcs
    have hone : alone = true → outer = [] ∧ gs = [] := by
      intro ha
      rcases halone ha with h | ⟨houter, hlen⟩
      · cases h
      · exact ⟨houter, List.eq_nil_of_length_eq_zero (Nat.le_zero.mp (Nat.le_of_succ_le_succ hlen))⟩
    obtain ⟨hclosed, hentries⟩ := entriesThrough_group hg (fun ha => (hone ha).1) hc
    obtain ⟨hrclosed, hrentries⟩ := ih ((groupPieces {} alone g.1 g.2).foldl scopeBehind outer) hgs
      (fun ha => Or.inl (hone ha).2) hcs
    rw [List.flatMap_cons, List.flatMap_cons, entriesThrough_append, hentries, hrentries]
    refine ⟨fun p hp => ?_, rfl⟩
    exact (List.mem_append.mp hp).elim (hclosed p) (hrclosed p)

/-- If its classes stand alone and are printed as by default, just they are found in a printed
    file, in their order and under their namespaces. -/
theorem entries_file {o : Options} (ho : o.openTag = true) {f : FileModel}
    (hscope : ∀ g ∈ f.groups.entries, g.1 = [] ∨ IsPath g.1)
    (hpiece : ∀ g ∈ f.groups.entries, ∀ c ∈ g.2, classPiece o c = classPiece {} c)
    (h : ∀ g ∈ f.groups.entries, ∀ c ∈ g.2, StandsAlone g.1 c) :
    (classes (tokenize (file o f))).map entry = ungrouped f.classNames := by
  have hpieces : pieces o f = pieces {} f := by
    refine List.flatMap_congr fun g hg => ?_
    rw [groupPieces, groupPieces, List.map_congr_left (hpiece g hg)]
  obtain ⟨hclosed, hentries⟩ := entriesThrough_groups [] hscope
    (fun ha : decide (f.namespaceCount ≤ 1) = true => Or.inr ⟨rfl, of_decide_eq_true ha⟩) h
  change ∀ p ∈ pieces {} f, isClosed p = true at hclosed
  rw [← hpieces] at hclosed
  obtain ⟨t, ht, hspaced⟩ := spaced_file ho hclosed
  rw [ht, entries_of_tagged hspaced hclosed, hpieces, FileModel.classNames, ungrouped, List.flatMap_map]
  refine hentries.trans (List.flatMap_congr fun g _ => ?_)
  rw [List.map_map]
  rfl

/-- A file as it is printed by default. -/
def reprint (m : FileModel) : Text := file {} m

theorem entries_reprint {source : Text} {m : FileModel} (hm : extract source .none = .ok m)
    (h : ∀ g ∈ m.groups.entries, ∀ c ∈ g.2, StandsAlone g.1 c) :
    (classes (tokenize (reprint m))).map entry = ungrouped m.classNames := by
  refine entries_file rfl (fun g hg => ?_) (fun _ _ _ _ => rfl) h
  obtain ⟨c, hc, hcs⟩ := mem_keys_of_extract hm (List.mem_map_of_mem hg)
  rw [← hcs]
  exact isPath_of_mem_classes hc

/-! ## The law -/

/-- The printed file has no issues and an outline of the same names. -/
def KeepsNames (m : FileModel) : Prop :=
  (Tree.read (reprint m)).issues = [] ∧
    ∃ m', extract (reprint m) .none = .ok m' ∧ m'.classNames = m.classNames

/-- The tree of a source declares a found class under the name it is found by, and not
    within a method of another. -/
def IsDeclaredAlone (source : Text) (c : FoundClass) : Prop :=
  carrier? (.ofSource source) (classes (tokenize source)) c = none ∧
    ((Declarations.ofSource source).findClass? c.fqn).map (·.name) = some c.name

instance (source : Text) (c : FoundClass) : Decidable (IsDeclaredAlone source c) := by
  unfold IsDeclaredAlone; infer_instance

theorem ownOf_eq_self {source : Text} (h : ∀ c ∈ classes (tokenize source), IsDeclaredAlone source c) :
    ownOf source = classes (tokenize source) := by
  rw [ownOf, ownClasses, List.filter_eq_self]
  intro c hc
  rw [(h c hc).1]
  rfl

theorem IsDeclaredAlone.nameOf_eq {source : Text} {c : FoundClass} (h : IsDeclaredAlone source c) :
    (Declarations.ofSource source).nameOf c = c.name := by
  rw [Declarations.nameOf, h.2]
  rfl

/-- If all found classes make up some names, and so do their own declarations, each is
    declared alone. -/
theorem isDeclaredAlone_of_grouped {source : Text}
    (hdecl : ∀ c ∈ ownOf source, ((Declarations.ofSource source).findClass? c.fqn).isSome = true)
    (h : grouped ((ownOf source).map fun c => (c.scope, (Declarations.ofSource source).nameOf c)) =
      grouped ((classes (tokenize source)).map entry)) :
    ∀ c ∈ classes (tokenize source), IsDeclaredAlone source c := by
  intro c hc
  have hscope := congrArg (fun gs => (gs.lookup c.scope).getD []) h
  simp only [lookup_grouped, List.filter_map, List.map_map] at hscope
  change ((ownOf source).filter fun d => d.scope == c.scope).map (Declarations.ofSource source).nameOf =
    ((classes (tokenize source)).filter fun d => d.scope == c.scope).map FoundClass.name at hscope
  have hmem : c ∈ (classes (tokenize source)).filter fun d => d.scope == c.scope :=
    List.mem_filter.mpr ⟨hc, beq_self_eq_true c.scope⟩
  -- as many are own as are found, so all are
  have hown : ∀ d ∈ (classes (tokenize source)).filter fun d => d.scope == c.scope,
      (carrier? (.ofSource source) (classes (tokenize source)) d).isNone = true := by
    have hlen := congrArg List.length hscope
    rw [List.length_map, List.length_map, ownOf, ownClasses, List.filter_comm] at hlen
    exact List.length_filter_eq_length_iff.mp hlen
  rw [ownOf, ownClasses, List.filter_comm, List.filter_eq_self.mpr hown] at hscope
  have hname : (Declarations.ofSource source).nameOf c = c.name := List.map_inj_left.mp hscope c hmem
  have hcarrier := Option.isNone_iff_eq_none.mp (hown c hmem)
  refine ⟨hcarrier, ?_⟩
  obtain ⟨d, hd⟩ := Option.isSome_iff_exists.mp (hdecl c (List.mem_filter.mpr ⟨hc, by rw [hcarrier]; rfl⟩))
  rw [Declarations.nameOf, hd] at hname
  rw [hd, ← hname]
  rfl

theorem keepsNames_iff_of_standsAlone {source : Text} {m : FileModel} (hm : extract source .none = .ok m)
    (h : ∀ g ∈ m.groups.entries, ∀ c ∈ g.2, StandsAlone g.1 c) :
    KeepsNames m ↔
      (Tree.read (reprint m)).issues = [] ∧
        (∀ c ∈ classes (tokenize (reprint m)), IsDeclaredAlone (reprint m) c) ∧
        (classes (tokenize (reprint m))).Pairwise fun a b => ¬ (a.scope = b.scope ∧ sameName a.name b.name = true) := by
  have hnames : grouped ((classes (tokenize (reprint m))).map entry) = m.classNames := by
    rw [entries_reprint hm h]
    refine grouped_ungrouped ?_ ?_
    · rw [FileModel.classNames, List.map_map]
      exact m.groups.nodup
    · intro g hg
      obtain ⟨g', hg', rfl⟩ := List.mem_map.mp hg
      simpa using ne_nil_of_extract hm hg'
  rw [KeepsNames, exists_extract_iff]
  refine and_congr_right fun _ => ?_
  constructor
  · intro hkept
    obtain ⟨hdecl, hapart, hgroup⟩ := hkept
    have hall := isDeclaredAlone_of_grouped hdecl (hgroup.trans hnames.symm)
    rw [ownOf_eq_self hall] at hapart
    refine ⟨hall, hapart.imp_of_mem fun {a b} ha _ hab => ?_⟩
    rwa [ApartIn, (hall a ha).nameOf_eq] at hab
  · intro halone
    obtain ⟨hall, hapart⟩ := halone
    rw [ownOf_eq_self hall]
    refine ⟨fun c hc => ?_, hapart.imp_of_mem fun {a b} ha _ hab => ?_, ?_⟩
    · obtain ⟨d, hd, -⟩ := Option.map_eq_some_iff.mp (hall c hc).2
      rw [hd]
      rfl
    · rwa [ApartIn, (hall a ha).nameOf_eq]
    · rw [← hnames]
      refine congrArg grouped (List.map_congr_left fun c hc => ?_)
      rw [(hall c hc).nameOf_eq]
      rfl

/-- What the law comes down to, for the outline of any source. The printed file must have no
    issues, and the classes found in it, those within methods of others left out, must be
    declared, be told apart and make up the names of the outline. If each class stands alone
    in its printed text, just the classes of the outline are found, and what is left to ask
    is that the tree declares each of them alone and that no two share a name. -/
theorem keepsNames_iff {source : Text} {m : FileModel} (hm : extract source .none = .ok m) :
    (KeepsNames m ↔
      (Tree.read (reprint m)).issues = [] ∧
        (∀ c ∈ ownOf (reprint m), ((Declarations.ofSource (reprint m)).findClass? c.fqn).isSome = true) ∧
        (ownOf (reprint m)).Pairwise (ApartIn (.ofSource (reprint m))) ∧
        grouped ((ownOf (reprint m)).map fun c => (c.scope, (Declarations.ofSource (reprint m)).nameOf c)) =
          m.classNames) ∧
    ((∀ g ∈ m.groups.entries, ∀ c ∈ g.2, StandsAlone g.1 c) →
      (classes (tokenize (reprint m))).map entry = ungrouped m.classNames ∧
      (KeepsNames m ↔
        (Tree.read (reprint m)).issues = [] ∧
          (∀ c ∈ classes (tokenize (reprint m)), IsDeclaredAlone (reprint m) c) ∧
          (classes (tokenize (reprint m))).Pairwise fun a b =>
            ¬ (a.scope = b.scope ∧ sameName a.name b.name = true))) := by
  refine ⟨?_, fun h => ⟨entries_reprint hm h, keepsNames_iff_of_standsAlone hm h⟩⟩
  rw [KeepsNames, exists_extract_iff]

def reprintSample : Text := "<?php namespace A; class B \x7b function f() \x7b\x7d \x7d".toList

/-- The outline of the sample. -/
def reprintOutline : FileModel := ((extract reprintSample .none).toOption).getD .empty

theorem keepsNames_reprintOutline : KeepsNames reprintOutline := by
  obtain ⟨hm, hall, hkept⟩ : extract reprintSample .none = .ok reprintOutline ∧
      (∀ g ∈ reprintOutline.groups.entries, ∀ c ∈ g.2, StandsAlone g.1 c) ∧
      (Tree.read (reprint reprintOutline)).issues = [] ∧
        (∀ c ∈ classes (tokenize (reprint reprintOutline)), IsDeclaredAlone (reprint reprintOutline) c) ∧
        (classes (tokenize (reprint reprintOutline))).Pairwise fun a b =>
          ¬ (a.scope = b.scope ∧ sameName a.name b.name = true) := by
    decide +kernel
  exact ((keepsNames_iff hm).2 hall).2.mpr hkept

/-- A control character keeps a comment open; printed without it, the comment ends there and
    what it held is code. -/
theorem reprint_finds_another_class :
    let source := "<?php /**\n * *\x01/ class Z \x7b\x7d /*\n */ class A \x7b\x7d".toList
    (Tree.read source).issues = [] ∧
      (extract source .none).map FileModel.classNames = .ok [([], [['A']])] ∧
      ((extract source .none).bind fun m => extract (reprint m) .none).map FileModel.classNames =
        .ok [([], [['Z'], ['A']])] := by
  decide +kernel

end ClassOutline
