import ClassOutline.Proofs.Margins
/-
  ClassOutline.Proofs.VisibleText — what a printed file shows.

  Laying out moves lines, empties blank ones, trims ends and drops control characters. What is
  left when white space and control characters are taken out of a text is its visible text, and
  no step of the layout changes that (`visible_indent`, `visible_dedent`, `visible_canonical`).
  So a printed file shows what the file model holds, word by word: `FileModel.pieces` lists the
  words, names, values and bodies without a thought to lines, and the visible text of a file is
  that of its pieces in a row (`visible_file`).
-/

namespace ClassOutline

open ClassOutline.Text

/-! ## The pieces of a model -/

/-- A word that is written if a flag is set. -/
def wordIf (flag : Bool) (word : String) : List Text := if flag then [word.toList] else []

/-- The pieces of several things, with a comma between any two of them. -/
def withCommas (things : List (List Text)) : List Text := [[',']].intercalate things

def docPieces (doc : List Text) : List Text :=
  if doc.isEmpty then [] else "/**".toList :: (doc.flatMap (fun l => [['*'], l]) ++ ["*/".toList])

def valuePieces (value : Option Text) : List Text :=
  match value with
  | some v => [['='], v]
  | none => []

namespace Parameter

def pieces (p : Parameter) : List Text :=
  p.typeHint.toList ++ (wordIf p.byReference "&" ++ (wordIf p.variadic "..." ++ (['$'] :: p.name :: valuePieces p.default)))

end Parameter

namespace Property

def pieces (p : Property) : List Text :=
  docPieces p.doc ++ (p.visibility.keyword :: (wordIf p.isStatic "static" ++
    (['$'] :: p.name :: (valuePieces p.default ++ [[';']]))))

end Property

namespace Method

def pieces (m : Method) : List Text :=
  docPieces m.doc ++ (wordIf m.isAbstract "abstract" ++ (wordIf m.isFinal "final" ++
    (m.visibility.keyword :: (wordIf m.isStatic "static" ++ ("function".toList :: (wordIf m.returnsReference "&" ++
      (m.name :: ['('] :: (withCommas (m.parameters.map (·.pieces)) ++ ([')'] ::
        ((match m.returnType with | some t => [[':'], t] | none => []) ++
          if m.isAbstract then [[';']] else [['{'], m.body.getD [], ['}']]))))))))))

end Method

namespace ClassModel

def headPieces (c : ClassModel) : List Text :=
  docPieces c.doc ++ (wordIf c.isAbstract "abstract" ++ (wordIf c.isFinal "final" ++ ("class".toList :: c.name ::
    ((match c.parent with | some p => ["extends".toList, ['\\'], p] | none => []) ++
      if c.interfaces.items.isEmpty then []
      else "implements".toList :: withCommas (c.interfaces.items.map fun i => [['\\'], i])))))

def memberPieces (c : ClassModel) : List Text :=
  c.constants.entries.flatMap (fun e => ["const".toList, e.1, ['='], e.2, [';']]) ++
    (c.properties.flatMap (·.pieces) ++ c.methods.flatMap (·.pieces))

def pieces (c : ClassModel) : List Text := c.headPieces ++ (['{'] :: (c.memberPieces ++ [['}']]))

end ClassModel

namespace FileModel

/-- A group under its namespace. The global one is in a block of its own if there are others. -/
def groupPieces (alone : Bool) (scope : Text) (classes : List ClassModel) : List Text :=
  let pieces := classes.flatMap (·.pieces)
  if scope.isEmpty then
    if alone then pieces else "namespace".toList :: ['{'] :: (pieces ++ [['}']])
  else "namespace".toList :: scope :: [';'] :: pieces

/-- The pieces of a file, in the order they are written. -/
def pieces (openTag : Bool) (f : FileModel) : List Text :=
  wordIf openTag "<?php" ++ f.groups.entries.flatMap fun g => groupPieces (f.groups.entries.length ≤ 1) g.1 g.2

end FileModel

namespace Layout

/-! ## Visible text -/

def isVisible (c : Char) : Bool := !isBlank c && !isControl c

def visible (t : Text) : Text := t.filter isVisible

theorem isVisible_of_isBlank {c : Char} (h : isBlank c = true) : isVisible c = false := by
  rw [isVisible, h]
  rfl

@[simp] theorem visible_append (a b : Text) : visible (a ++ b) = visible a ++ visible b := List.filter_append ..

@[simp] theorem visible_nil : visible [] = [] := rfl

theorem visible_blanks {t : Text} (h : isAllBlank t = true) : visible t = [] :=
  List.filter_eq_nil_iff.mpr fun c hc => by simp [isVisible_of_isBlank (List.all_eq_true.mp h c hc)]

theorem visible_joinLines (ls : List Text) : visible (joinLines ls) = ls.flatMap visible :=
  Body.filter_joinLines (isVisible_of_isBlank rfl) ls

/-- What is done to lines and changes what none of them shows, does not change what a text shows. -/
theorem visible_map_lines {f : Text → Text} {t : Text} (h : ∀ l ∈ splitLines t, visible (f l) = visible l) :
    visible (joinLines ((splitLines t).map f)) = visible t := by
  conv => rhs; rw [← joinLines_splitLines t]
  rw [visible_joinLines, visible_joinLines, List.flatMap_map]
  exact List.flatMap_congr h

theorem visible_trimEnd {p : Char → Bool} (hp : ∀ c, p c = true → isVisible c = false) (t : Text) :
    visible (trimEnd p t) = visible t := by
  obtain ⟨b, hb, ht⟩ := eq_trimEnd_append p t
  have hnone : visible b = [] := List.filter_eq_nil_iff.mpr fun c hc => by simp [hp c (hb c hc)]
  conv => rhs; rw [ht]
  rw [visible_append, hnone, List.append_nil]

theorem visible_trimStart {p : Char → Bool} (hp : ∀ c, p c = true → isVisible c = false) (t : Text) :
    visible (trimStart p t) = visible t := by
  obtain ⟨a, ha, ht⟩ := eq_append_trimStart p t
  have hnone : visible a = [] := List.filter_eq_nil_iff.mpr fun c hc => by simp [hp c (ha c hc)]
  conv => rhs; rw [ht]
  rw [visible_append, hnone, List.nil_append]

/-! ## Steps of the layout -/

theorem visible_indentLine (u : IndentUnit) (l : Text) : visible (indentLine u.text l) = visible l := by
  unfold indentLine
  split
  · rename_i hblank
    exact (visible_blanks hblank).symm
  · have hunit : isAllBlank u.text = true := List.all_eq_true.mpr fun c hc => isBlank_of_isIndent (isIndent_of_mem_unit hc)
    rw [visible_append, visible_blanks hunit, List.nil_append]

theorem visible_indent (u : IndentUnit) (t : Text) : visible (indent u t) = visible t :=
  visible_map_lines fun l _ => visible_indentLine u l

/-- Only a margin and blanks go from a line of a body, and only blank lines from around them. -/
theorem visible_dedent (b : Text) : visible (dedent b) = visible b := by
  obtain ⟨before, ls, behind, k, hsplit, hblank, -, hdedent, hk⟩ := dedent_lines b
  have hnone : ∀ {ms : List Text}, (∀ l ∈ ms, isAllBlank l = true) → ms.flatMap visible = [] := fun hms =>
    List.flatMap_eq_nil_iff.mpr fun l hl => visible_blanks (hms l hl)
  have hbody : visible b = ls.flatMap visible := by
    conv => lhs; rw [← joinLines_splitLines b, hsplit]
    rw [visible_joinLines, List.flatMap_append, List.flatMap_append, hnone fun l hl => hblank l (List.mem_append_left _ hl),
      hnone fun l hl => hblank l (List.mem_append_right _ hl), List.nil_append, List.append_nil]
  rw [hdedent, visible_joinLines, List.flatMap_map, hbody]
  refine List.flatMap_congr fun l hl => ?_
  obtain ⟨i, z, hl', hi, hz⟩ := line_parts (hk l hl)
  conv => rhs; rw [hl']
  rw [visible_append, visible_append, visible_blanks (List.all_eq_true.mpr fun c hc => isBlank_of_isIndent (hi c hc)),
    visible_blanks (List.all_eq_true.mpr hz), List.nil_append, List.append_nil]

theorem visible_unifyLineEnds (t : Text) : visible (unifyLineEnds t) = visible t := by
  have hcons : ∀ (c : Char) (r : Text), visible (c :: r) = visible [c] ++ visible r := fun c r => visible_append [c] r
  fun_induction unifyLineEnds t with
  | case1 r ih => rw [hcons, hcons '\r', hcons '\n', ih]; rfl
  | case2 r _ ih => rw [hcons, hcons '\r', ih]; rfl
  | case3 c r _ _ ih => rw [hcons, hcons c r, ih]
  | case4 => rfl

/-- Canonical white space takes out control characters, and spaces and newlines at edges. -/
theorem visible_canonical (t : Text) : visible (canonical t) = visible t := by
  have hnewline : ∀ c : Char, (c == '\n') = true → isVisible c = false := fun c hc => by
    rw [beq_iff_eq.mp hc]
    rfl
  have hindent : ∀ c : Char, isIndent c = true → isVisible c = false := fun c hc =>
    isVisible_of_isBlank (isBlank_of_isIndent hc)
  have hkept : ∀ w : Text, visible (w.filter isKept) = visible w := by
    intro w
    rw [visible, visible, List.filter_filter]
    refine List.filter_congr fun c _ => ?_
    cases hc : isVisible c with
    | false => rfl
    | true =>
      have hcontrol : isControl c = false := by
        rw [isVisible, Bool.and_eq_true] at hc
        simpa using hc.2
      rw [Bool.true_and, isKept, hcontrol]
      rfl
  rw [canonical_eq, trim, visible_trimEnd hnewline, visible_trimStart hnewline, tidy,
    visible_map_lines fun l _ => visible_trimEnd hindent l, hkept, visible_unifyLineEnds]

/-! ## Members -/

/-- What pieces show in a row. -/
def shown (ps : List Text) : Text := ps.flatMap visible

@[simp] theorem shown_nil : shown [] = [] := rfl

@[simp] theorem shown_cons (p : Text) (ps : List Text) : shown (p :: ps) = visible p ++ shown ps := rfl

@[simp] theorem shown_append (ps qs : List Text) : shown (ps ++ qs) = shown ps ++ shown qs := List.flatMap_append

theorem shown_flatMap {α : Type} {f : α → Text} {g : α → List Text} {xs : List α} (h : ∀ x ∈ xs, visible (f x) = shown (g x)) :
    shown (xs.map f) = shown (xs.flatMap g) := by
  rw [shown, shown, List.flatMap_map, List.flatMap_assoc]
  exact List.flatMap_congr h

theorem visible_join {sep : Text} (hsep : visible sep = []) (ts : List Text) : visible (join sep ts) = shown ts := by
  induction ts with
  | nil => rfl
  | cons t ts ih =>
    cases ts with
    | nil => rw [join, List.intercalate_singleton, shown_cons, shown_nil, List.append_nil]
    | cons u ts =>
      rw [join] at ih
      rw [join, List.intercalate_cons_cons, visible_append, visible_append, hsep, List.append_nil, ih, shown_cons t]

theorem visible_commas {α : Type} {f : α → Text} {g : α → List Text} {xs : List α}
    (h : ∀ x ∈ xs, visible (f x) = shown (g x)) : visible (join [',', ' '] (xs.map f)) = shown (withCommas (xs.map g)) := by
  have hcomma : visible [',', ' '] = shown [[',']] := by decide
  induction xs with
  | nil => rfl
  | cons x xs ih =>
    obtain ⟨hx, hxs⟩ := List.forall_mem_cons.mp h
    cases xs with
    | nil => simpa [join, withCommas] using hx
    | cons y ys =>
      have hrest := ih hxs
      rw [List.map_cons, List.map_cons, join, withCommas] at hrest ⊢
      rw [List.map_cons, List.map_cons, List.intercalate_cons_cons, List.intercalate_cons_cons, visible_append, visible_append,
        shown_append, shown_append, hrest, hx, hcomma]

theorem visible_cons (c : Char) (t : Text) : visible (c :: t) = if isVisible c then c :: visible t else visible t := by
  rw [visible, List.filter_cons]
  rfl

theorem visible_textIf (flag : Bool) (written word : String) (h : visible written.toList = visible word.toList) :
    visible (textIf flag written) = shown (wordIf flag word) := by
  cases flag with
  | false => rfl
  | true => exact h.trans (List.append_nil _).symm

theorem visible_doc (doc : List Text) : visible (DocComment.block doc) = shown (docPieces doc) := by
  have hline : ∀ l, visible (DocComment.blockLine l) = shown [['*'], l] := by
    intro l
    unfold DocComment.blockLine
    split
    · rename_i he
      rw [List.isEmpty_iff.mp he]
      rfl
    · simp [visible_cons, isVisible, isBlank, blankRanges, isControl]
  have hlines : ∀ ls : List Text, visible ((ls.map DocComment.blockLine).flatten) = shown (ls.flatMap fun l => [['*'], l]) := by
    intro ls
    induction ls with
    | nil => rfl
    | cons l ls ih => rw [List.map_cons, List.flatten_cons, List.flatMap_cons, visible_append, shown_append, hline, ih]
  unfold DocComment.block docPieces
  split
  · rfl
  · simp [visible_cons, isVisible, isBlank, blankRanges, isControl, hlines]

theorem visible_parameter (p : Parameter) : visible (parameter p) = shown p.pieces := by
  have hreference := visible_textIf p.byReference "&" "&" rfl
  have hvariadic := visible_textIf p.variadic "..." "..." rfl
  cases ht : p.typeHint <;> cases hd : p.default <;>
    simp [parameter, Parameter.pieces, valuePieces, visible_cons, isVisible, isBlank, blankRanges, isControl, ht, hd, hreference, hvariadic]

theorem visible_constant (name value : Text) :
    visible (constant name value) = shown ["const".toList, name, ['='], value, [';']] := by
  unfold constant
  simp [visible_cons, isVisible, isBlank, blankRanges, isControl]

theorem visible_property (p : Property) : visible (property p) = shown p.pieces := by
  have hstatic := visible_textIf p.isStatic " static" "static" rfl
  cases hd : p.default <;>
    simp [property, Property.pieces, valuePieces, visible_cons, isVisible, isBlank, blankRanges, isControl, visible_doc, hd, hstatic]

theorem visible_block (u : IndentUnit) (b : Text) : visible (block u b) = shown [['{'], b, ['}']] := by
  have hinner : visible (if (dedent b).isEmpty then [] else indent u (dedent b) ++ ['\n']) = visible b := by
    rw [← visible_dedent b]
    split
    · rename_i he
      rw [List.isEmpty_iff.mp he]
    · rw [visible_append, visible_indent]
      exact List.append_nil _
  have hopen : visible "\n\x7b\n".toList = visible ['{'] := rfl
  unfold block
  dsimp only
  rw [visible_append, visible_append, hinner, hopen]
  simp

theorem visible_method (u : IndentUnit) (m : Method) : visible (method u m) = shown m.pieces := by
  have habstract := visible_textIf m.isAbstract "abstract " "abstract" rfl
  have hfinal := visible_textIf m.isFinal "final " "final" rfl
  have hstatic := visible_textIf m.isStatic "static " "static" rfl
  have hreference := visible_textIf m.returnsReference "&" "&" rfl
  have hparameters := visible_commas fun p (_ : p ∈ m.parameters) => visible_parameter p
  have hend : visible (if m.isAbstract then [';'] else block u (m.body.getD [])) =
      shown (if m.isAbstract then [[';']] else [['{'], m.body.getD [], ['}']]) := by
    split
    · rfl
    · exact visible_block u _
  rw [method, visible_append, hend]
  cases ht : m.returnType <;>
    simp [methodHeader, Method.pieces, visible_cons, isVisible, isBlank, blankRanges, isControl, visible_doc, ht,
      habstract, hfinal, hstatic, hreference, hparameters]

/-! ## Classes -/

theorem visible_classHeader (c : ClassModel) : visible (classHeader c) = shown c.headPieces := by
  have habstract := visible_textIf c.isAbstract "abstract " "abstract" rfl
  have hfinal := visible_textIf c.isFinal "final " "final" rfl
  have hinterfaces := visible_commas (f := ('\\' :: ·)) (g := fun i => [['\\'], i])
    fun i (_ : i ∈ c.interfaces.items) => by simp [visible_cons, isVisible, isBlank, blankRanges, isControl]
  cases hp : c.parent <;> by_cases he : c.interfaces.items = [] <;>
    simp [classHeader, ClassModel.headPieces, visible_cons, isVisible, isBlank, blankRanges, isControl, visible_doc, hp, he,
      habstract, hfinal, hinterfaces]

/-- A section that is there if it has anything in it shows the same as what is in it. -/
theorem shown_section {isEmpty : Bool} {sep : Text} (hsep : visible sep = []) {ts : List Text}
    (he : isEmpty = true → ts = []) : shown (if isEmpty then [] else [join sep ts]) = shown ts := by
  split
  · rename_i h
    rw [he h]
  · rw [shown_cons, shown_nil, List.append_nil, visible_join hsep]

theorem shown_sections (u : IndentUnit) (c : ClassModel) : shown (sections u c) = shown c.memberPieces := by
  rw [sections, ClassModel.memberPieces, shown_append, shown_append,
    shown_section (visible_blanks rfl) fun he => by rw [List.isEmpty_iff.mp he, List.map_nil],
    shown_section (visible_blanks rfl) fun he => by rw [List.isEmpty_iff.mp he, List.map_nil],
    shown_section (visible_blanks rfl) fun he => by rw [List.isEmpty_iff.mp he, List.map_nil],
    shown_flatMap fun e _ => visible_constant e.1 e.2, shown_flatMap fun p _ => visible_property p,
    shown_flatMap fun m _ => visible_method u m]
  simp

theorem visible_classText (u : IndentUnit) (c : ClassModel) : visible (classText u c) = shown c.pieces := by
  have hmembers : visible (if (sections u c).isEmpty then []
      else '\n' :: indent u (join "\n\n".toList (sections u c)) ++ "\n\n".toList) = shown c.memberPieces := by
    rw [← shown_sections u c]
    split
    · rename_i he
      rw [List.isEmpty_iff.mp he]
      rfl
    · have hsep : isAllBlank "\n\n".toList = true := rfl
      rw [visible_append, visible_cons, visible_indent, visible_join (visible_blanks hsep), visible_blanks hsep, List.append_nil]
      rfl
  have hopen : visible "\n\x7b\n".toList = visible ['{'] := rfl
  unfold classText
  dsimp only
  rw [visible_append, visible_append, visible_append, visible_classHeader, hmembers, hopen]
  simp [ClassModel.pieces]

/-! ## Files -/

theorem visible_group (o : Options) (alone : Bool) (scope : Text) (classes : List ClassModel) :
    visible (group o alone scope classes) = shown (FileModel.groupPieces alone scope classes) := by
  have hsep : isAllBlank ['\n', '\n', '\n'] = true := rfl
  have hclasses : visible (join ['\n', '\n', '\n'] (classes.map (classText o.unit))) = shown (classes.flatMap (·.pieces)) := by
    rw [visible_join (visible_blanks hsep), shown_flatMap fun c _ => visible_classText o.unit c]
  unfold group FileModel.groupPieces
  dsimp only
  cases hscope : scope.isEmpty with
  | true =>
    cases alone with
    | true => simpa using hclasses
    | false => simp [visible_cons, isVisible, isBlank, blankRanges, isControl, hclasses]
  | false => simp [visible_cons, isVisible, isBlank, blankRanges, isControl, hclasses]

/-- A printed file shows just what its pieces show in a row, whatever the options are. -/
theorem visible_file (o : Options) (f : FileModel) :
    visible (file o f) = visible (join [' '] (f.pieces o.openTag)) := by
  have htag := visible_textIf o.openTag "<?php\n\n" "<?php" rfl
  have hbehind : isAllBlank "\n\n\n".toList = true := rfl
  have hgroups : ∀ gs : List (Text × List ClassModel),
      visible (gs.map fun g => canonical (group o (f.namespaceCount ≤ 1) g.1 g.2) ++ "\n\n\n".toList).flatten =
        shown (gs.flatMap fun g => FileModel.groupPieces (f.groups.entries.length ≤ 1) g.1 g.2) := by
    intro gs
    induction gs with
    | nil => rfl
    | cons g gs ih =>
      rw [List.map_cons, List.flatten_cons, List.flatMap_cons, visible_append, visible_append, shown_append, ih,
        visible_canonical, visible_group, visible_blanks hbehind, List.append_nil]
      rfl
  rw [file, visible_append, htag, hgroups, visible_join rfl, FileModel.pieces, shown_append]

end Layout
end ClassOutline
