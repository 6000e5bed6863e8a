import ClassOutline.Tree.Issue
import ClassOutline.Proofs.DocBlocks
import ClassOutline.Proofs.Literals
import ClassOutline.Proofs.Outcome
import ClassOutline.Proofs.Pieces
import ClassOutline.Proofs.TypeHints
/-
  ClassOutline.Proofs.Reread — printed files, read and printed again.

  A file should be printed the second time as it was the first time. What the printer adds is
  taken off when the file is read: documentation loses its stars, a body its margin, a type its
  marks. Only the texts that are written as they are, values, defaults and types, keep what they
  got: `indent` moves all their lines but the first, no reader moves them back, and every pass
  moves them further (`reprint_moves_value`).

  `file_of_reread` says so for all outlines whose printed file is read as it was printed
  (`IsReadBack`): the second print is that of the outline with these lines moved in. So it is the
  first if no such text has several lines.
-/

namespace ClassOutline

open ClassOutline.Text ClassOutline.Layout ClassOutline.DocComment

/-! ## Texts that are written as they are -/

/-- A text as it stands in a printed class, one level in, with other text on its first line and
    on its last. -/
def movedIn (u : IndentUnit) (t : Text) : Text :=
  ((tidy (indent u ('=' :: (t ++ [';'])))).drop (u.text.length + 1)).dropLast

theorem movedIn_of_line (u : IndentUnit) {t : Text} (h : isPlainLine t = true) : movedIn u t = t := by
  have hnot : '\n' ∉ '=' :: (t ++ [';']) := by simpa using fun hmem => (of_isPlainLine h _ hmem).1 rfl
  have hink : isAllBlank ('=' :: (t ++ [';'])) = false := Body.isAllBlank_of_mem (c := '=') rfl (by simp)
  have hindent : indent u ('=' :: (t ++ [';'])) = (u.text ++ '=' :: t) ++ [';'] := by
    rw [indent_of_not_mem u hnot, indentLine, hink, if_neg Bool.false_ne_true]
    simp
  have hplain : isPlainLine ((u.text ++ '=' :: t) ++ [';']) = true := by
    have hunit : isPlainLine u.text = true := isPlainLine_of_isIndent fun c hc => isIndent_of_mem_unit hc
    simp only [isPlainLine, List.all_append, List.all_cons, Bool.and_eq_true] at hunit h ⊢
    exact ⟨⟨hunit, rfl, h⟩, rfl, rfl⟩
  have htidy : tidy ((u.text ++ '=' :: t) ++ [';']) = (u.text ++ '=' :: t) ++ [';'] :=
    tidy_plainLine hplain (endsInk_append (fun c hc => by cases hc; rfl) (by simp))
  rw [movedIn, hindent, htidy, List.append_assoc, List.drop_length_add_append, List.cons_append, List.drop_succ_cons,
    List.drop_zero, List.dropLast_concat]

namespace Parameter

def mapTexts (f : Text → Text) (p : Parameter) : Parameter :=
  { p with typeHint := p.typeHint.map f, default := p.default.map f }

def texts (p : Parameter) : List Text := p.typeHint.toList ++ p.default.toList

end Parameter

namespace Method

def mapTexts (f : Text → Text) (m : Method) : Method :=
  { m with parameters := m.parameters.map (·.mapTexts f), returnType := m.returnType.map f }

def texts (m : Method) : List Text := m.parameters.flatMap (·.texts) ++ m.returnType.toList

end Method

namespace ClassModel

/-- A class with its values, defaults and types changed. -/
def mapTexts (f : Text → Text) (c : ClassModel) : ClassModel :=
  { c with
    constants := c.constants.filterMap fun _ v => some (f v)
    properties := c.properties.map fun p => { p with default := p.default.map f }
    methods := c.methods.map (·.mapTexts f) }

/-- The values, defaults and types of a class. -/
def texts (c : ClassModel) : List Text :=
  c.constants.entries.map (·.2) ++ (c.properties.flatMap (·.default.toList) ++ c.methods.flatMap (·.texts))

end ClassModel

namespace FileModel

def mapTexts (f : Text → Text) (m : FileModel) : FileModel :=
  ⟨m.groups.filterMap fun _ cs => some (cs.map (·.mapTexts f))⟩

def texts (m : FileModel) : List Text := m.groups.entries.flatMap fun g => g.2.flatMap (·.texts)

end FileModel

section

variable {f : Text → Text}

theorem map_eq_self {α : Type} {g : α → α} {xs : List α} (h : ∀ x ∈ xs, g x = x) : xs.map g = xs := by
  conv => rhs; rw [← List.map_id xs]
  exact List.map_congr_left h

theorem map_option_eq_self {x : Option Text} (h : ∀ t ∈ x.toList, f t = t) : x.map f = x := by
  cases x with
  | none => rfl
  | some t => exact congrArg some (h t (by simp))

theorem Parameter.mapTexts_eq_self {p : Parameter} (h : ∀ t ∈ p.texts, f t = t) : p.mapTexts f = p := by
  rw [mapTexts, map_option_eq_self fun t ht => h t (List.mem_append_left _ ht),
    map_option_eq_self fun t ht => h t (List.mem_append_right _ ht)]

theorem Method.mapTexts_eq_self {m : Method} (h : ∀ t ∈ m.texts, f t = t) : m.mapTexts f = m := by
  have hparameters : m.parameters.map (·.mapTexts f) = m.parameters := by
    refine map_eq_self fun p hp => Parameter.mapTexts_eq_self fun t ht => h t ?_
    exact List.mem_append_left _ (List.mem_flatMap.mpr ⟨p, hp, ht⟩)
  rw [mapTexts, hparameters, map_option_eq_self fun t ht => h t (List.mem_append_right _ ht)]

theorem ClassModel.mapTexts_eq_self {c : ClassModel} (h : ∀ t ∈ c.texts, f t = t) : c.mapTexts f = c := by
  obtain ⟨hconstants, hrest⟩ := List.forall_mem_append.mp h
  obtain ⟨hproperties, hmethods⟩ := List.forall_mem_append.mp hrest
  have h₁ : (c.constants.filterMap fun _ v => some (f v)) = c.constants := by
    refine NameMap.eq_of_entries_eq ?_
    show c.constants.entries.filterMap (fun e => some (e.1, f e.2)) = c.constants.entries
    rw [List.filterMap_eq_map']
    exact map_eq_self fun e he => by rw [hconstants _ (List.mem_map_of_mem he)]
  have h₂ : (c.properties.map fun p => { p with default := p.default.map f }) = c.properties := by
    refine map_eq_self fun p hp => ?_
    rw [map_option_eq_self fun t ht => hproperties t (List.mem_flatMap.mpr ⟨p, hp, ht⟩)]
  have h₃ : c.methods.map (·.mapTexts f) = c.methods :=
    map_eq_self fun m hm => Method.mapTexts_eq_self fun t ht => hmethods t (List.mem_flatMap.mpr ⟨m, hm, ht⟩)
  rw [mapTexts, h₁, h₂, h₃]

theorem FileModel.entries_mapTexts (m : FileModel) :
    (m.mapTexts f).groups.entries = m.groups.entries.map fun g => (g.1, g.2.map (·.mapTexts f)) := by
  show m.groups.entries.filterMap (fun e => some (e.1, e.2.map (·.mapTexts f))) = _
  rw [List.filterMap_eq_map']

theorem FileModel.mapTexts_eq_self {m : FileModel} (h : ∀ t ∈ m.texts, f t = t) : m.mapTexts f = m := by
  have hentries : (m.mapTexts f).groups = m.groups := by
    refine NameMap.eq_of_entries_eq ?_
    rw [entries_mapTexts]
    refine map_eq_self fun g hg => ?_
    have hclasses : g.2.map (·.mapTexts f) = g.2 := by
      refine map_eq_self fun c hc => ClassModel.mapTexts_eq_self fun t ht => h t ?_
      exact List.mem_flatMap.mpr ⟨g, hg, List.mem_flatMap.mpr ⟨c, hc, ht⟩⟩
    rw [hclasses]
  exact congrArg FileModel.mk hentries

end

/-! ## What a printed class declares -/

/-- What stands of a parameter up to and with its variable. -/
def Parameter.signature (p : Parameter) : Text :=
  (match p.typeHint with | some t => t ++ [' '] | none => []) ++
  textIf p.byReference "&" ++ textIf p.variadic "..." ++ '$' :: p.name

def Parameter.decl (p : Parameter) : ParameterDecl := ⟨p.name, p.signature, p.byReference, p.variadic, p.default⟩

def Property.decl (u : IndentUnit) (p : Property) : PropertyDecl :=
  ⟨p.name, p.default, p.visibility, p.isStatic, commentAt (tidy (indent u (block p.doc)))⟩

def Method.decl (u : IndentUnit) (m : Method) (body : Option Bounds) : MethodDecl where
  name := m.name
  visibility := m.visibility
  isAbstract := m.isAbstract
  isStatic := m.isStatic
  isFinal := m.isFinal
  returnsReference := m.returnsReference
  returnType := m.returnType
  parameters := m.parameters.map (·.decl)
  doc := commentAt (tidy (indent u (block m.doc)))
  body := body

/-- A method is declared in a printed file as it is printed there, body and all. -/
structure Method.IsIn (u : IndentUnit) (printed : Text) (m : Method) (d : MethodDecl) : Prop where
  decl : d = m.decl u d.body
  body : m.isAbstract = false → ∃ before behind,
    printed = before ++ '{' :: insideOf u (m.body.getD []) ++ '}' :: behind ∧
      d.body = some (Body.boundsOf before (insideOf u (m.body.getD [])))

/-- A class is declared in a printed file as it is printed there, and so are its members. -/
structure ClassModel.IsIn (u : IndentUnit) (printed : Text) (d : Declarations) (scope : Text) (c : ClassModel) (decl : ClassDecl) :
    Prop where
  found : d.findClass? (qualify scope c.name) = some decl
  name : decl.name = c.name
  isAbstract : decl.isAbstract = c.isAbstract
  isFinal : decl.isFinal = c.isFinal
  parent : decl.parents.head? = c.parent
  interfaces : NameSet.ofList decl.interfaces = c.interfaces
  doc : decl.doc = commentAt (tidy (block c.doc))
  members : ∃ ds, List.Forall₂ (Method.IsIn u printed) c.methods ds ∧
    d.membersOf decl.fqn = c.constants.entries.map (fun e => .constant e.1 e.2) ++
      (c.properties.map (fun p => .property (p.decl u)) ++ ds.map .method)

/-! ## Members -/

section

variable (ls : List Text)

theorem foldl_constants (es : List (Text × Text)) (c : ClassModel) :
    (es.map fun e => MemberDecl.constant e.1 e.2).foldl (ClassModel.addMember ls) c =
      { c with constants := es.foldl (fun m e => m.insert e.1 e.2) c.constants } := by
  induction es generalizing c with
  | nil => rfl
  | cons e es ih =>
    rw [List.map_cons, List.foldl_cons, List.foldl_cons, ih]
    rfl

theorem foldl_properties (ps : List PropertyDecl) (c : ClassModel) :
    (ps.map MemberDecl.property).foldl (ClassModel.addMember ls) c =
      { c with properties := c.properties ++ ps.map .ofDecl } := by
  induction ps generalizing c with
  | nil => simp
  | cons p ps ih =>
    rw [List.map_cons, List.foldl_cons, ih, List.map_cons]
    simp [ClassModel.addMember]

theorem foldl_methods (ms : List MethodDecl) (c : ClassModel) :
    (ms.map MemberDecl.method).foldl (ClassModel.addMember ls) c =
      { c with methods := c.methods ++ ms.map (.ofDecl ls) } := by
  induction ms generalizing c with
  | nil => simp
  | cons m ms ih =>
    rw [List.map_cons, List.foldl_cons, ih, List.map_cons]
    simp [ClassModel.addMember]

end

theorem Property.ofDecl_decl (u : IndentUnit) {p : Property} (h : IsDoc p.doc) (hplain : ∀ l ∈ p.doc, isPlainLine l = true) :
    Property.ofDecl (p.decl u) = p := by
  rw [Property.ofDecl, Property.decl, (linesOf_printed u h hplain).2]

theorem parameter_ofDecl_decl {p : Parameter} (h : ∀ t ∈ p.typeHint, TypeHint.IsSettled t) :
    parameter (.ofDecl p.decl) = parameter p := by
  have htype : TypeHint.ofSignature? p.signature = p.typeHint := by
    unfold Parameter.signature
    cases ht : p.typeHint with
    | none => exact TypeHint.ofSignature?_untyped _ _ _
    | some t => exact TypeHint.ofSignature?_signature (h t ht) _ _ _
  simp only [parameter, Parameter.ofDecl, Parameter.decl, Parameter.ofDefault, htype]

/-- Nothing goes from a method when it is read: its types are read as themselves, and
    its documentation and its body hold no control characters but tabs. -/
def Method.IsSettled (m : Method) : Prop :=
  (∀ p ∈ m.parameters, ∀ t ∈ p.typeHint, TypeHint.IsSettled t) ∧ (∀ l ∈ m.doc, isPlainLine l = true) ∧
    hasPlainLines (m.body.getD []) = true

instance (m : Method) : Decidable m.IsSettled := by unfold Method.IsSettled; infer_instance

def ClassModel.IsSettled (c : ClassModel) : Prop :=
  (∀ l ∈ c.doc, isPlainLine l = true) ∧ (∀ p ∈ c.properties, ∀ l ∈ p.doc, isPlainLine l = true) ∧
    ∀ m ∈ c.methods, m.IsSettled

instance (c : ClassModel) : Decidable c.IsSettled := by unfold ClassModel.IsSettled; infer_instance

theorem body_of_isIn {u : IndentUnit} {printed : Text} (hsize : width printed ≤ Bounds.maxColumn) {m : Method} {d : MethodDecl}
    (h : m.IsIn u printed d) (hplain : hasPlainLines (m.body.getD []) = true) (hconcrete : m.isAbstract = false) :
    dedent (((d.bodyText (lines printed))).getD []) = dedent (m.body.getD []) := by
  obtain ⟨before, behind, hprinted, hbounds⟩ := h.body hconcrete
  have habstract : d.isAbstract = false := by
    rw [h.decl]
    exact hconcrete
  have hread := Body.extract_boundsOf (Body.columnBehind_lt (hprinted ▸ hsize)) behind
  rw [← hprinted] at hread
  have hbody : d.bodyText (lines printed) = some (Body.between (insideOf u (m.body.getD []))) := by
    rw [MethodDecl.bodyText, habstract, hbounds]
    dsimp only
    rw [hread]
    rfl
  rw [hbody, Option.getD_some, insideOf, tidied_eq_ended u hplain, dedent_between_block]

/-- A method that is read from where it is printed is printed the same. -/
theorem method_of_isIn {u : IndentUnit} {printed : Text} (hsize : width printed ≤ Bounds.maxColumn) {m : Method}
    {d : MethodDecl} (h : m.IsIn u printed d) (hsettled : m.IsSettled) (hdoc : IsDoc m.doc) :
    method u (.ofDecl (lines printed) d) = method u m := by
  have hbody : m.isAbstract = false → dedent ((d.bodyText (lines printed)).getD []) = dedent (m.body.getD []) :=
    body_of_isIn hsize h hsettled.2.2
  obtain ⟨b, rfl⟩ : ∃ b, d = m.decl u b := ⟨d.body, h.decl⟩
  have hparameters : ((m.parameters.map (·.decl)).map Parameter.ofDecl).map parameter = m.parameters.map parameter := by
    rw [List.map_map, List.map_map]
    refine List.map_congr_left fun p hp => ?_
    rw [Function.comp_apply, Function.comp_apply]
    exact parameter_ofDecl_decl (hsettled.1 p hp)
  have hheader : methodHeader (.ofDecl (lines printed) (m.decl u b)) = methodHeader m := by
    simp only [methodHeader, Method.ofDecl, Method.decl, hparameters, (linesOf_printed u hdoc hsettled.2.1).2]
  have habstract : (Method.ofDecl (lines printed) (m.decl u b)).isAbstract = m.isAbstract := rfl
  rw [method, method, hheader, habstract]
  cases hm : m.isAbstract with
  | true => rw [if_pos rfl, if_pos rfl]
  | false =>
    rw [if_neg Bool.false_ne_true, if_neg Bool.false_ne_true, Layout.block, Layout.block]
    have hsame : dedent ((Method.ofDecl (lines printed) (m.decl u b)).body.getD []) = dedent (m.body.getD []) := hbody hm
    rw [hsame]

/-! ## Classes -/

/-- Documentation as it is read from comments. -/
structure ClassModel.HasDocs (c : ClassModel) : Prop where
  doc : IsDoc c.doc
  properties : ∀ p ∈ c.properties, IsDoc p.doc
  methods : ∀ m ∈ c.methods, IsDoc m.doc

theorem hasDocs_addMember {ls : List Text} {c : ClassModel} (h : c.HasDocs) (m : MemberDecl) : (c.addMember ls m).HasDocs := by
  cases m with
  | constant => exact ⟨h.doc, h.properties, h.methods⟩
  | property p =>
    refine ⟨h.doc, List.forall_mem_append.mpr ⟨h.properties, ?_⟩, h.methods⟩
    exact List.forall_mem_singleton.mpr (isDoc_linesOf p.doc)
  | method m =>
    refine ⟨h.doc, h.properties, List.forall_mem_append.mpr ⟨h.methods, ?_⟩⟩
    exact List.forall_mem_singleton.mpr (isDoc_linesOf m.doc)

theorem hasDocs_ofDecl (d : Declarations) (ls : List Text) (known : KnownNames) (decl : ClassDecl) :
    (ClassModel.ofDecl d ls known decl).HasDocs := by
  have hrun : ∀ (ms : List MemberDecl) {c : ClassModel}, c.HasDocs → (ms.foldl (ClassModel.addMember ls) c).HasDocs := by
    intro ms
    induction ms with
    | nil => exact fun h => h
    | cons m ms ih => exact fun h => ih (hasDocs_addMember h m)
  exact hrun _ ⟨isDoc_linesOf decl.doc, by simp [ClassModel.ofHeader, ClassModel.named], by simp [ClassModel.ofHeader, ClassModel.named]⟩

theorem classText_congr {u : IndentUnit} {c c' : ClassModel} (hheader : classHeader c' = classHeader c)
    (hconstants : c'.constants = c.constants) (hproperties : c'.properties = c.properties)
    (hmethods : c'.methods.map (method u) = c.methods.map (method u)) : classText u c' = classText u c := by
  have hempty : c'.methods.isEmpty = c.methods.isEmpty := by
    have := congrArg List.isEmpty hmethods
    rwa [List.isEmpty_map, List.isEmpty_map] at this
  rw [classText, classText, sections, sections, hheader, hconstants, hproperties, hmethods, hempty]

/-- The model of a class, member by member. -/
theorem ofDecl_eq {d : Declarations} {decl : ClassDecl} {es : List (Text × Text)} {ps : List PropertyDecl} {ms : List MethodDecl}
    (h : d.membersOf decl.fqn = es.map (fun e => .constant e.1 e.2) ++ (ps.map .property ++ ms.map .method))
    (ls : List Text) (known : KnownNames) :
    ClassModel.ofDecl d ls known decl =
      { ClassModel.ofHeader d known decl with
        constants := .ofList es, properties := ps.map .ofDecl, methods := ms.map (.ofDecl ls) } := by
  rw [ClassModel.ofDecl, h, List.foldl_append, List.foldl_append, foldl_constants, foldl_properties, foldl_methods]
  rfl

theorem classText_of_isIn {u : IndentUnit} {printed : Text} (hsize : width printed ≤ Bounds.maxColumn) {d : Declarations}
    {scope : Text} {c : ClassModel} {decl : ClassDecl} (h : c.IsIn u printed d scope decl)
    (hsettled : c.IsSettled) (hdocs : c.HasDocs) (known : KnownNames) :
    classText u (.ofDecl d (lines printed) known decl) = classText u c := by
  obtain ⟨ds, hds, hmembers⟩ := h.members
  have hproperties : c.properties.map (fun p => MemberDecl.property (p.decl u)) =
      (c.properties.map (·.decl u)).map .property := by
    rw [List.map_map]
    rfl
  rw [hproperties] at hmembers
  rw [ofDecl_eq hmembers]
  refine classText_congr ?_ (NameMap.ofList_entries _) ?_ ?_
  · have hdoc : linesOf decl.doc = c.doc := by
      rw [h.doc]
      exact (linesOf_printed u hdocs.doc hsettled.1).1
    show classHeader (.ofHeader d known decl) = classHeader c
    unfold classHeader ClassModel.ofHeader
    have hname : (ClassModel.named decl.name).name = c.name := h.name
    dsimp only
    rw [hdoc, h.isAbstract, h.isFinal, h.parent, h.interfaces, hname]
  · show (c.properties.map (·.decl u)).map Property.ofDecl = c.properties
    rw [List.map_map]
    exact map_eq_self fun p hp => Property.ofDecl_decl u (hdocs.properties p hp) (hsettled.2.1 p hp)
  · show (ds.map (Method.ofDecl (lines printed))).map (method u) = c.methods.map (method u)
    have hrel := (List.forall₂_and_left _ _).mpr ⟨fun m hm => hm, hds⟩
    rw [List.map_map, ← List.forall₂_eq_eq_eq, List.forall₂_map_left_iff, List.forall₂_map_right_iff]
    exact hrel.flip.imp fun d m hm => method_of_isIn hsize hm.2 (hsettled.2.2 m hm.1) (hdocs.methods m hm.1)

/-! ## Files -/

/-- A group whose classes are written. -/
def rendered (alone : Bool) (scope : Text) (classes : List Text) : Text :=
  let rendered := join "\n\n\n".toList classes
  if !scope.isEmpty then "namespace ".toList ++ scope ++ ";\n\n".toList ++ rendered
  else if alone then rendered
  else "namespace \x7b\n\n".toList ++ rendered ++ "\n\n\n\x7d".toList

theorem file_congr {o : Options} {f f' : FileModel} (h : f'.groups.entries.map (fun g => (g.1, g.2.map (classText o.unit))) =
    f.groups.entries.map fun g => (g.1, g.2.map (classText o.unit))) : file o f' = file o f := by
  have hfile : ∀ f : FileModel, file o f = textIf o.openTag "<?php\n\n" ++
      ((f.groups.entries.map fun g => (g.1, g.2.map (classText o.unit))).map fun g =>
        canonical (rendered (decide (f.namespaceCount ≤ 1)) g.1 g.2) ++ "\n\n\n".toList).flatten := by
    intro f
    rw [List.map_map, file]
    exact congrArg (fun gs => textIf o.openTag "<?php\n\n" ++ List.flatten gs) (List.map_congr_left fun g _ => rfl)
  have hcount : f'.namespaceCount = f.namespaceCount := by
    have := congrArg List.length h
    rwa [List.length_map, List.length_map] at this
  rw [hfile, hfile, h, hcount]

/-- A printed file is read as it was printed: the classes of the outline are found in it, and
    each is declared in it as it stands there. -/
structure IsReadBack (o : Options) (m : FileModel) : Prop where
  found : grouped ((ownOf (file o m)).map Discovery.entry) = m.classNames
  classes : ∀ g ∈ (m.mapTexts (movedIn o.unit)).groups.entries, ∀ c ∈ g.2, ∃ decl,
    c.IsIn o.unit (file o m) (.ofSource (file o m)) g.1 decl

theorem hasDocs_of_extract {source : Text} {known : KnownNames} {m : FileModel} (h : extract source known = .ok m) :
    ∀ g ∈ m.groups.entries, ∀ c ∈ g.2, c.HasDocs := by
  intro g hg c hc
  obtain ⟨-, hclasses⟩ := (FileModel.mem_entries_iff m g).mp hg
  rw [hclasses] at hc
  rw [extract_eq_ofFound] at h
  obtain ⟨f, -, hbuilt⟩ := exists_of_mem_forall₂ (forall₂_models h g.1).flip hc
  obtain ⟨decl, -, rfl⟩ := Option.map_eq_some_iff.mp hbuilt
  exact hasDocs_ofDecl _ _ known decl

theorem hasDocs_mapTexts {f : Text → Text} {c : ClassModel} (h : c.HasDocs) : (c.mapTexts f).HasDocs := by
  refine ⟨h.doc, fun p hp => ?_, fun m hm => ?_⟩
  · obtain ⟨p', hp', rfl⟩ := List.mem_map.mp hp
    exact h.properties p' hp'
  · obtain ⟨m', hm', rfl⟩ := List.mem_map.mp hm
    exact h.methods m' hm'

/-- Classes that go by the names of those found are written as these are, one for one. -/
theorem map_eq_of_forall₂ {α β γ : Type} {R : α → β → Prop} {k : α → Text} {l : β → Text} {g : β → γ} {fs : List α}
    {ms cs : List β} (h : List.Forall₂ R fs ms) (hnames : fs.map k = cs.map l)
    (heq : ∀ f ∈ fs, ∀ c ∈ cs, k f = l c → ∀ m, R f m → g m = g c) : ms.map g = cs.map g := by
  induction h generalizing cs with
  | nil =>
    rw [List.map_eq_nil_iff.mp hnames.symm]
  | cons hfm _ ih =>
    cases cs with
    | nil => cases hnames
    | cons c cs =>
      obtain ⟨hname, hrest⟩ := List.cons.inj hnames
      rw [List.map_cons, List.map_cons, heq _ (by simp) c (by simp) hname _ hfm]
      exact congrArg _ (ih hrest fun f hf c hc => heq f (List.mem_cons_of_mem _ hf) c (List.mem_cons_of_mem _ hc))

/-- If a printed file is read as it was printed, and its types and bodies are such that reading
    takes nothing from them, the second print is that of the outline with all lines of values,
    defaults and types behind their first moved one level in. So a file without such lines is
    printed the second time as it was the first time. -/
theorem file_of_reread {source : Text} {o : Options} {m m' : FileModel} (hm : extract source .none = .ok m)
    (hm' : extract (file o m) .none = .ok m') (hsize : width (file o m) ≤ Bounds.maxColumn) (hread : IsReadBack o m)
    (hsettled : ∀ g ∈ (m.mapTexts (movedIn o.unit)).groups.entries, ∀ c ∈ g.2, c.IsSettled) :
    file o m' = file o (m.mapTexts (movedIn o.unit)) ∧
      ((∀ t ∈ m.texts, isPlainLine t = true) → file o m' = file o m) := by
  have hdocs := hasDocs_of_extract hm
  have hmoved := FileModel.entries_mapTexts (f := movedIn o.unit) m
  rw [extract_eq_ofFound] at hm'
  have hkeys : m'.groups.keys = m.groups.keys := by
    have hscopes : ((ownOf (file o m)).map Discovery.entry).map Prod.fst = (ownOf (file o m)).map (·.scope) := by
      rw [List.map_map]
      rfl
    rw [keys_of_addAll hm', ← FileModel.keys_classNames m, ← hread.found, keys_grouped, hscopes]
    rfl
  have hclasses : ∀ s ∈ m.groups.keys, (m'.classes s).map (classText o.unit) =
      ((m.classes s).map (·.mapTexts (movedIn o.unit))).map (classText o.unit) := by
    intro s hs
    have hgroup : (s, (m.classes s).map (·.mapTexts (movedIn o.unit))) ∈
        (m.mapTexts (movedIn o.unit)).groups.entries := by
      rw [hmoved]
      exact List.mem_map_of_mem ((FileModel.mem_entries_iff m (s, m.classes s)).mpr ⟨hs, rfl⟩)
    refine map_eq_of_forall₂ (forall₂_models hm' s) (k := (·.name)) (l := (·.name)) ?_ ?_
    · have hnames := congrArg (fun gs => (gs.lookup s).getD []) hread.found
      rw [lookup_grouped, FileModel.lookup_classNames hs, List.filter_map, List.map_map, Option.getD_some] at hnames
      rw [List.map_map]
      exact hnames
    · intro f hf c hc hname model hbuilt
      obtain ⟨-, hscope⟩ := List.mem_filter.mp hf
      obtain ⟨decl, hin⟩ := hread.classes _ hgroup c hc
      obtain ⟨decl', hfound, rfl⟩ := Option.map_eq_some_iff.mp hbuilt
      have hfqn : f.fqn = qualify s c.name := by rw [FoundClass.fqn, beq_iff_eq.mp hscope, hname]
      rw [hfqn] at hfound
      obtain rfl : decl' = decl := Option.some.inj (hfound.symm.trans hin.found)
      obtain ⟨c₀, hc₀, rfl⟩ := List.mem_map.mp hc
      have hdoc := hdocs _ ((FileModel.mem_entries_iff m (s, m.classes s)).mpr ⟨hs, rfl⟩) c₀ hc₀
      exact classText_of_isIn hsize hin (hsettled _ hgroup _ hc) (hasDocs_mapTexts hdoc) _
  have hfirst : file o m' = file o (m.mapTexts (movedIn o.unit)) := by
    refine file_congr ?_
    rw [hmoved, NameMap.entries_eq_map_keys m'.groups, NameMap.entries_eq_map_keys m.groups, hkeys, List.map_map,
      List.map_map, List.map_map]
    refine List.map_congr_left fun s hs => ?_
    exact congrArg (Prod.mk s) (hclasses s hs)
  refine ⟨hfirst, fun hlines => ?_⟩
  rw [hfirst, FileModel.mapTexts_eq_self fun t ht => movedIn_of_line o.unit (hlines t ht)]

def rereadSample : Text :=
  "<?php\nnamespace N;\n/** Docs. */\nfinal class A extends B \x7b\n const X = [1];\n /** p */ private $p = 2;\n".toList ++
  " /** m */ function f(?int &$a = 3): int \x7b\n  return $a;\n \x7d \x7d".toList

def rereadMethod : Method :=
  ⟨['f'], false, false, false, false, .isPublic, [.ofDefault ['a'] true false (some "int".toList) (some ['3'])],
    some "int".toList, [['m']], some "  return $a;".toList⟩

def rereadClass : ClassModel :=
  { ClassModel.named ['A'] with
    isFinal := true
    parent := some "N\\B".toList
    doc := ["Docs.".toList]
    constants := .ofList [(['X'], "[1]".toList)]
    properties := [⟨['p'], some ['2'], .isPrivate, false, [['p']]⟩]
    methods := [rereadMethod]
    unresolved := [⟨"N\\B".toList, .parent⟩] }

/-- The outline of the sample. -/
def rereadOutline : FileModel := ⟨.ofList [(['N'], [rereadClass])]⟩

theorem file_of_reread_sample :
    extract rereadSample .none = .ok rereadOutline ∧ width (file {} rereadOutline) ≤ Bounds.maxColumn ∧
      IsReadBack {} rereadOutline ∧
      (∀ g ∈ (rereadOutline.mapTexts (movedIn .tab)).groups.entries, ∀ c ∈ g.2, c.IsSettled) ∧
      ∃ m', extract (file {} rereadOutline) .none = .ok m' ∧ file {} m' = file {} rereadOutline := by
  let printed := file {} rereadOutline
  let declared := rereadMethod.decl .tab (some ⟨22, 1, 24, 1⟩)
  let decl : ClassDecl :=
    ⟨.isClass, "N\\A".toList, ['N'], ['A'], false, true, ["N\\B".toList], [], some "/**\n * Docs.\n */".toList, 8, none⟩
  obtain ⟨hm, hsize, hsettled, hflat, hentries, hbraces, hbounds, hdecl, hdoc, hmembers, hfound, hsome⟩ :
      extract rereadSample .none = .ok rereadOutline ∧ width printed ≤ Bounds.maxColumn ∧
        (∀ g ∈ (rereadOutline.mapTexts (movedIn .tab)).groups.entries, ∀ c ∈ g.2, c.IsSettled) ∧
        (∀ t ∈ rereadOutline.texts, isPlainLine t = true) ∧
        (rereadOutline.mapTexts (movedIn .tab)).groups.entries = [(['N'], [rereadClass])] ∧
        printed = printed.take 173 ++ '{' :: insideOf .tab (rereadMethod.body.getD []) ++ '}' :: printed.drop 190 ∧
        declared.body = some (Body.boundsOf (printed.take 173) (insideOf .tab (rereadMethod.body.getD []))) ∧
        (Declarations.ofSource printed).findClass? (qualify ['N'] rereadClass.name) = some decl ∧
        decl.doc = commentAt (tidy (block rereadClass.doc)) ∧
        (Declarations.ofSource printed).membersOf decl.fqn =
          rereadClass.constants.entries.map (fun e => .constant e.1 e.2) ++
            (rereadClass.properties.map (fun p => .property (p.decl .tab)) ++ [declared].map .method) ∧
        grouped ((ownOf printed).map Discovery.entry) = rereadOutline.classNames ∧
        (extract printed .none).toOption.isSome = true := by
    decide +kernel
  have hmethod : Method.IsIn .tab printed rereadMethod declared := ⟨rfl, fun _ => ⟨_, _, hbraces, hbounds⟩⟩
  have hclass : ClassModel.IsIn .tab printed (.ofSource printed) ['N'] rereadClass decl :=
    ⟨hdecl, rfl, rfl, rfl, rfl, rfl, hdoc, [declared], .cons hmethod .nil, hmembers⟩
  have hread : IsReadBack {} rereadOutline := by
    refine ⟨hfound, fun g hg c hc => ?_⟩
    change g ∈ (rereadOutline.mapTexts (movedIn .tab)).groups.entries at hg
    rw [hentries, List.mem_singleton] at hg
    subst hg
    rw [List.mem_singleton.mp hc]
    exact ⟨decl, hclass⟩
  refine ⟨hm, hsize, hread, hsettled, ?_⟩
  cases hm' : extract printed .none with
  | error e =>
    rw [hm'] at hsome
    cases hsome
  | ok m' => exact ⟨m', rfl, (file_of_reread hm hm' hsize hread hsettled).2 hflat⟩

/-- A value of two lines is written where it stood, and its second line one level further in. -/
theorem reprint_moves_value :
    let source := "<?php\nclass A \x7b\n  const X = [\n    1,\n  ];\n\x7d".toList
    (Tree.read source).issues = [] ∧
      (extract source .none).map (file {}) =
        .ok "<?php\n\nclass A\n\x7b\n\n\tconst X = [\n\t    1,\n\t  ];\n\n\x7d\n\n\n".toList ∧
      ((extract source .none).bind fun m => extract (file {} m) .none).map (file {}) =
        .ok "<?php\n\nclass A\n\x7b\n\n\tconst X = [\n\t\t    1,\n\t\t  ];\n\n\x7d\n\n\n".toList := by
  decide +kernel

end ClassOutline
