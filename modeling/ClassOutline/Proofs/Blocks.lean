import ClassOutline.Proofs.Margins
/-
  ClassOutline.Proofs.Blocks — a method body in a printed file.

  A body is printed without the blank lines around it, without the margin its lines have in
  common and without blanks at the ends of its lines, each line two levels in; `insideOf` is
  what stands between the braces in the end. What is printed before a body and behind it does
  not depend on the body: each step of the printer keeps a text of the form `… { … }` in that
  form (`Frames`), from the method's own braces up to the file (`file_around_body`).

  Read from there, a body has a margin again, and `dedent` takes that off: what is printed of
  a body and of the body that is read from it is the same (`dedent_between_block`).
-/

namespace ClassOutline.Layout

open ClassOutline.Text

/-! ## Places in a printed text -/

/-- The lines of a block, each ended, if there is any. -/
def ended (t : Text) : Text := if t.isEmpty then [] else t ++ ['\n']

/-- Texts that differ, if at all, in what two braces of theirs hold: an inner part on lines of its
    own, and the margin of the closing brace. -/
def Frames (margin : Text) (outer inner : Text → Text) : Prop :=
  ∃ before behind, ∀ b, outer b = before ++ '{' :: '\n' :: (inner b ++ (margin ++ '}' :: behind))

section

variable {margin : Text} {outer inner : Text → Text}

theorem Frames.congr (h : Frames margin outer inner) {outer' : Text → Text} (ho : ∀ b, outer' b = outer b) :
    Frames margin outer' inner := by
  obtain ⟨before, behind, hb⟩ := h
  exact ⟨before, behind, fun b => (ho b).trans (hb b)⟩

theorem Frames.append (h : Frames margin outer inner) (a z : Text) :
    Frames margin (fun b => a ++ (outer b ++ z)) inner := by
  obtain ⟨before, behind, hb⟩ := h
  refine ⟨a ++ before, behind ++ z, fun b => ?_⟩
  dsimp only
  rw [hb]
  simp

theorem join_append_cons (sep : Text) (as : List Text) (t : Text) (bs : List Text) :
    join sep (as ++ t :: bs) = as.flatMap (· ++ sep) ++ (t ++ bs.flatMap (sep ++ ·)) := by
  have hcons : ∀ (a b : Text) (cs : List Text), join sep (a :: b :: cs) = a ++ (sep ++ join sep (b :: cs)) := by
    intro a b cs
    simp [join, List.intercalate]
  induction as with
  | nil =>
    rw [List.nil_append, List.flatMap_nil, List.nil_append]
    induction bs generalizing t with
    | nil => simp [join]
    | cons b bs ih => rw [hcons, ih b, List.flatMap_cons, List.append_assoc]
  | cons a as ih =>
    obtain ⟨b, cs, hbc⟩ : ∃ b cs, as ++ t :: bs = b :: cs := List.exists_cons_of_ne_nil (by simp)
    rw [List.cons_append, hbc, hcons, ← hbc, ih, List.flatMap_cons]
    simp

/-- Of joined texts one that frames an inner part. -/
theorem Frames.join (h : Frames margin outer inner) (sep : Text) (as bs : List Text) :
    Frames margin (fun b => join sep (as ++ outer b :: bs)) inner :=
  (h.append _ _).congr fun b => join_append_cons sep as (outer b) bs

theorem ended_ne_nil {t : Text} (h : t ≠ []) : ended t = t ++ ['\n'] := by
  rw [ended, if_neg (by simpa using h)]

theorem indent_ended (u : IndentUnit) {t : Text} (h : EndsInk t) (r : Text) :
    indent u (ended t ++ r) = ended (indent u t) ++ indent u r := by
  by_cases hne : t = []
  · rw [hne]
    rfl
  · have hne' : indent u t ≠ [] := by
      have hempty := isEmpty_eq_of_getLast? (getLast?_indent u h)
      intro he
      rw [he] at hempty
      exact hne (List.isEmpty_iff.mp hempty.symm)
    rw [ended_ne_nil hne, ended_ne_nil hne', List.append_assoc, List.singleton_append, indent_append, List.append_assoc,
      List.singleton_append]

/-- A frame that is moved one level in. -/
theorem Frames.indent {y : Text → Text} (h : Frames margin outer fun b => ended (y b)) (hy : ∀ b, EndsInk (y b))
    (hm : ∀ c ∈ margin, isIndent c = true) (u : IndentUnit) :
    Frames (u.text ++ margin) (fun b => indent u (outer b)) fun b => ended (indent u (y b)) := by
  obtain ⟨before, behind, hb⟩ := h
  obtain ⟨before', hbefore⟩ : ∃ before', Layout.indent u (before ++ ['{']) = before' ++ ['{'] := by
    refine List.getLast?_eq_some_iff.mp ?_
    have hink : EndsInk (before ++ ['{']) := by
      intro c hc
      rw [List.getLast?_concat] at hc
      obtain rfl := Option.some.inj hc
      rfl
    rw [getLast?_indent u hink, List.getLast?_concat]
  obtain ⟨behind', hbehind⟩ : ∃ behind', Layout.indent u ((margin ++ ['}']) ++ behind) =
      u.text ++ ((margin ++ ['}']) ++ behind') := by
    refine indent_prefix u ?_ (Body.isAllBlank_of_mem (c := '}') rfl (by simp)) behind
    simp only [List.mem_append, List.mem_singleton, not_or]
    exact ⟨fun hmem => (by cases hm _ hmem), by decide⟩
  refine ⟨before', behind', fun b => ?_⟩
  have hopen : outer b = (before ++ ['{']) ++ '\n' :: (ended (y b) ++ ((margin ++ ['}']) ++ behind)) := by
    rw [hb]
    simp
  dsimp only
  rw [hopen, indent_append, hbefore, indent_ended u (hy b), hbehind]
  simp

end

/-! ## Canonical white space -/

/-- Nothing changes up to a character that ends no line. -/
theorem unifyLineEnds_append_cons {c : Char} (hc : c ≠ '\n') (a b : Text) :
    unifyLineEnds (a ++ c :: b) = unifyLineEnds a ++ unifyLineEnds (c :: b) := by
  fun_induction unifyLineEnds a with
  | case1 r ih => rw [List.cons_append, List.cons_append, unifyLineEnds.eq_1, ih, List.cons_append]
  | case2 r hr ih =>
    have hnext : ∀ x, r ++ c :: b = '\n' :: x → False := by
      intro x hx
      cases r with
      | nil => exact hc (List.cons.inj hx).1
      | cons d r => exact hr r (by rw [(List.cons.inj hx).1])
    rw [List.cons_append, unifyLineEnds.eq_2 _ hnext, ih, List.cons_append]
  | case3 d r h1 h2 ih => rw [List.cons_append, unifyLineEnds.eq_3 _ _ (fun _ hd _ => h2 hd) h2, ih, List.cons_append]
  | case4 => rfl

/-- A text of kept characters stays if no line of it ends in a blank of the kind that goes. -/
theorem tidy_eq_self {t : Text} (h : ∀ c ∈ t, c ≠ '\r' ∧ isKept c = true)
    (hlines : ∀ l ∈ splitLines t, ∀ c ∈ l.getLast?, isIndent c = false) : tidy t = t := by
  have hstay : ∀ l ∈ splitLines t, trimEnd isIndent l = l := by
    intro l hl
    cases hlast : l.getLast? with
    | none =>
      rw [List.getLast?_eq_none_iff.mp hlast]
      rfl
    | some c =>
      have := trimEnd_append hlast (hlines l hl c hlast) []
      rwa [List.append_nil, show trimEnd isIndent [] = [] from rfl, List.append_nil] at this
  rw [tidy, unifyLineEnds_eq_self fun c hc => (h c hc).1, List.filter_eq_self.mpr fun c hc => (h c hc).2,
    List.map_congr_left hstay, List.map_id', joinLines_splitLines]

theorem EndsInk.isIndent_eq_false {t : Text} (h : EndsInk t) : ∀ c ∈ t.getLast?, isIndent c = false := by
  intro c hc
  cases hi : isIndent c with
  | false => rfl
  | true => exact absurd (isBlank_of_isIndent hi) (by simp [h c hc])

/-- Whether a text is on one line and holds no control characters but tabs. -/
def isPlainLine (t : Text) : Bool := t.all fun c => !isControl c || c == '\t'

theorem of_isPlainLine {t : Text} (h : isPlainLine t = true) : ∀ c ∈ t, c ≠ '\n' ∧ c ≠ '\r' ∧ isKept c = true := by
  intro c hc
  have hplain := List.all_eq_true.mp h c hc
  simp only [Bool.or_eq_true, Bool.not_eq_eq_eq_not, Bool.not_true, beq_iff_eq] at hplain
  rcases hplain with hplain | rfl
  · exact isKept_of_not_isControl hplain
  · decide

theorem isPlainLine_of_isIndent {i : Text} (hi : ∀ c ∈ i, isIndent c = true) : isPlainLine i = true := by
  refine List.all_eq_true.mpr fun c hc => ?_
  have := hi c hc
  simp only [isIndent, Bool.or_eq_true, beq_iff_eq] at this
  rcases this with rfl | rfl <;> rfl

theorem tidy_plainLine {l : Text} (h : isPlainLine l = true) (hink : EndsInk l) : tidy l = l := by
  refine tidy_eq_self (fun c hc => (of_isPlainLine h c hc).2) ?_
  rw [splitLines_of_not_mem fun hmem => (of_isPlainLine h _ hmem).1 rfl]
  exact List.forall_mem_singleton.mpr hink.isIndent_eq_false

theorem tidy_plainLine_append {l : Text} (h : isPlainLine l = true) (hink : EndsInk l) (r : Text) :
    tidy (l ++ '\n' :: r) = l ++ '\n' :: tidy r := by
  rw [tidy_append (fun hr => (of_isPlainLine h _ (List.mem_of_getLast? hr)).2.1 rfl), tidy_plainLine h hink]

/-- A line up to a character that is no blank stays as it is. -/
theorem tidy_prefix {p : Text} {c : Char} (hp : ∀ d ∈ p ++ [c], d ≠ '\n' ∧ d ≠ '\r' ∧ isKept d = true)
    (hc : isIndent c = false) (t : Text) : tidy (p ++ c :: t) = p ++ c :: tidy t := by
  have hassoc : ∀ x : Text, p ++ c :: x = (p ++ [c]) ++ x := fun x => by simp
  rw [hassoc t, hassoc (tidy t)]
  generalize hq : p ++ [c] = q at hp ⊢
  have hlast : q.getLast? = some c := by rw [← hq, List.getLast?_concat]
  have hunify : ∀ {w : Text}, (∀ d ∈ w, d ≠ '\r') → unifyLineEnds (w ++ t) = w ++ unifyLineEnds t := by
    intro w hw
    induction w with
    | nil => rfl
    | cons d w ih =>
      obtain ⟨hd, hw⟩ := List.forall_mem_cons.mp hw
      rw [List.cons_append, unifyLineEnds.eq_3 _ _ (fun _ he _ => hd he) hd, ih hw, List.cons_append]
  have hfilter : q.filter isKept = q := List.filter_eq_self.mpr fun d hd => (hp d hd).2.2
  obtain ⟨l, ls, hl⟩ := List.exists_cons_of_ne_nil (splitLines_ne_nil ((unifyLineEnds t).filter isKept))
  have hlines := splitLines_append_of_ne (fun d hd => (hp d hd).1) ((unifyLineEnds t).filter isKept) hl
  unfold tidy
  rw [hunify fun d hd => (hp d hd).2.1, List.filter_append, hfilter, hlines, hl, List.map_cons, List.map_cons,
    trimEnd_append hlast hc]
  cases ls with
  | nil => simp
  | cons m ls => rw [List.map_cons, joinLines_cons_cons, joinLines_cons_cons, List.append_assoc]

/-- A character that is no blank still ends the text. -/
theorem tidy_concat {c : Char} (hc : c ≠ '\n' ∧ c ≠ '\r' ∧ isKept c = true) (hindent : isIndent c = false) (a : Text) :
    ∃ a', tidy (a ++ [c]) = a' ++ [c] := by
  have hone : unifyLineEnds [c] = [c] := unifyLineEnds_eq_self (by simpa using hc.2.1)
  have hclean : (unifyLineEnds (a ++ [c])).filter isKept = (unifyLineEnds a).filter isKept ++ [c] := by
    rw [unifyLineEnds_append_cons hc.1, hone, List.filter_append, List.filter_cons_of_pos hc.2.2, List.filter_nil]
  refine List.getLast?_eq_some_iff.mp ?_
  unfold tidy
  rw [hclean]
  generalize (unifyLineEnds a).filter isKept = w
  have hlast : ∃ l, (splitLines (w ++ [c])).getLast? = some (l ++ [c]) := by
    induction w using text_induction with
    | line l hl =>
      refine ⟨l, ?_⟩
      rw [splitLines_of_not_mem (by simpa [Ne.symm hc.1] using hl)]
      rfl
    | more l r hl ih =>
      obtain ⟨l', hl'⟩ := ih
      refine ⟨l', ?_⟩
      rw [List.append_assoc, List.cons_append, splitLines_line_append hl]
      obtain ⟨m, ms, hms⟩ := List.exists_cons_of_ne_nil (splitLines_ne_nil (r ++ [c]))
      rw [hms] at hl' ⊢
      exact hl'
  obtain ⟨l, hl⟩ := hlast
  have htrim : trimEnd isIndent (l ++ [c]) = l ++ [c] := by
    have := trimEnd_append (List.getLast?_concat (l := l) (a := c)) hindent []
    rwa [List.append_nil, show trimEnd isIndent [] = [] from rfl, List.append_nil] at this
  rw [getLast?_joinLines (l := l ++ [c]) (by rw [List.getLast?_map, hl, Option.map_some, htrim]) (by simp),
    List.getLast?_concat]

section

variable {margin : Text} {outer : Text → Text} {y : Text → Text}

theorem trim_newlines {c d : Char} (hc : c ≠ '\n') (hd : d ≠ '\n') (a : Text) (z : Text) :
    ∃ a' z', ∀ t, trim (· == '\n') (a ++ c :: (t ++ d :: z)) = a' ++ c :: (t ++ d :: z') := by
  refine ⟨trimStart (· == '\n') a, trimEnd (· == '\n') z, fun t => ?_⟩
  have hstart : trimStart (· == '\n') (a ++ c :: (t ++ d :: z)) = trimStart (· == '\n') a ++ c :: (t ++ d :: z) := by
    unfold trimStart
    rw [List.dropWhile_append]
    split
    · rename_i he
      rw [List.isEmpty_iff.mp he, List.dropWhile_cons_of_neg (by simpa using hc), List.nil_append]
    · rfl
  have hassoc : ∀ v x : Text, v ++ c :: (t ++ d :: x) = (v ++ c :: (t ++ [d])) ++ x := by
    intro v x
    simp
  have hlast : (trimStart (· == '\n') a ++ c :: (t ++ [d])).getLast? = some d := by
    rw [← List.cons_append, ← List.append_assoc, List.getLast?_concat]
  rw [trim, hstart, hassoc, trimEnd_append hlast (by simpa using hd), ← hassoc]

/-- What the lines of an inner part become in canonical white space, each ended. -/
def tidied (t : Text) : Text := if t.isEmpty then [] else tidy t ++ ['\n']

/-- A frame in canonical white space. -/
theorem Frames.canonical (h : Frames margin outer fun b => ended (y b)) (hy : ∀ b, EndsInk (y b))
    (hm : ∀ c ∈ margin, isIndent c = true) :
    Frames margin (fun b => canonical (outer b)) fun b => tidied (y b) := by
  obtain ⟨before, behind, hb⟩ := h
  obtain ⟨before', hbefore⟩ := tidy_concat (c := '{') (by decide) rfl before
  obtain ⟨before'', behind', htrim⟩ := trim_newlines (c := '{') (d := '}') (by decide) (by decide) before' (tidy behind)
  refine ⟨before'', behind', fun b => ?_⟩
  have hopen : outer b = (before ++ ['{']) ++ '\n' :: (ended (y b) ++ (margin ++ '}' :: behind)) := by
    rw [hb]
    simp
  have hclose : tidy (margin ++ '}' :: behind) = margin ++ '}' :: tidy behind := by
    refine tidy_prefix (fun c hc => ?_) rfl behind
    rcases List.mem_append.mp hc with hc | hc
    · have := hm c hc
      simp only [isIndent, Bool.or_eq_true, beq_iff_eq] at this
      rcases this with rfl | rfl <;> decide
    · rw [List.mem_singleton.mp hc]
      decide
  have hinner : tidy (ended (y b) ++ (margin ++ '}' :: behind)) = tidied (y b) ++ (margin ++ '}' :: tidy behind) := by
    by_cases hne : y b = []
    · rw [hne]
      exact hclose
    · have hlast : (y b).getLast? ≠ some '\r' := by
        intro hr
        have := hy b _ hr
        cases this
      rw [ended_ne_nil hne, tidied, if_neg (by simpa using hne), List.append_assoc, List.singleton_append, tidy_append hlast,
        hclose]
      simp
  have htidy : tidy (outer b) = before' ++ '{' :: (('\n' :: (tidied (y b) ++ margin)) ++ '}' :: tidy behind) := by
    rw [hopen, tidy_append (by simp), hbefore, hinner]
    simp
  dsimp only
  rw [canonical_eq, htidy, htrim]
  simp

end

/-! ## The body of a method -/

/-- What a printed file holds between the braces of a method with this body. -/
def insideOf (u : IndentUnit) (body : Text) : Text :=
  '\n' :: (tidied (indent u (indent u (dedent body))) ++ u.text)

theorem block_eq (u : IndentUnit) (b : Text) :
    block u b = '\n' :: '{' :: '\n' :: (ended (indent u (dedent b)) ++ ['}']) := by
  have hempty := isEmpty_eq_of_getLast? (getLast?_indent u (endsInk_dedent b))
  unfold block ended
  dsimp only
  rw [hempty]
  rfl

theorem frames_method (u : IndentUnit) {m : Method} (hm : m.isAbstract = false) :
    Frames [] (fun b => method u { m with body := some b }) fun b => ended (indent u (dedent b)) := by
  refine ⟨methodHeader m ++ ['\n'], [], fun b => ?_⟩
  have hmethod : method u { m with body := some b } =
      methodHeader m ++ if m.isAbstract then [';'] else block u b := rfl
  dsimp only
  rw [hmethod, hm, if_neg Bool.false_ne_true, block_eq]
  simp

/-- A class with one method among its others. -/
theorem frames_class (u : IndentUnit) (c : ClassModel) (before behind : List Method) {m : Method}
    (hm : m.isAbstract = false) :
    Frames u.text (fun b => classText u { c with methods := before ++ { m with body := some b } :: behind })
      fun b => ended (indent u (indent u (dedent b))) := by
  have hmethods := (frames_method u hm).join "\n\n\n".toList (before.map (method u)) (behind.map (method u))
  let others : List Text :=
    (if c.constants.isEmpty then [] else [join "\n".toList (c.constants.entries.map fun e => constant e.1 e.2)]) ++
    (if c.properties.isEmpty then [] else [join "\n\n".toList (c.properties.map property)])
  have hsections := hmethods.join "\n\n".toList others []
  have hink : ∀ b, EndsInk (indent u (dedent b)) := fun b => (endsInk_dedent b).indent u
  have hbody := hsections.indent hink (by simp) u
  rw [List.append_nil] at hbody
  refine (hbody.append (classHeader c ++ "\n\x7b\n\n".toList) "\n\n\x7d".toList).congr fun b => ?_
  have hheader : classHeader { c with methods := before ++ { m with body := some b } :: behind } = classHeader c := rfl
  have hall : sections u { c with methods := before ++ { m with body := some b } :: behind } = others ++
      [join "\n\n\n".toList (before.map (method u) ++ method u { m with body := some b } :: behind.map (method u))] := by
    have hne : (before ++ { m with body := some b } :: behind).isEmpty = false := by simp
    simp only [sections, hne, Bool.false_eq_true, if_false, List.map_append, List.map_cons]
    rfl
  unfold classText
  dsimp only
  rw [hheader, hall]
  simp

theorem frames_group (o : Options) (alone : Bool) (scope : Text) (before behind : List ClassModel) {c : Text → ClassModel}
    {y : Text → Text} (h : Frames o.unit.text (fun b => classText o.unit (c b)) fun b => ended (y b)) :
    Frames o.unit.text (fun b => group o alone scope (before ++ c b :: behind)) fun b => ended (y b) := by
  have hclasses := h.join "\n\n\n".toList (before.map (classText o.unit)) (behind.map (classText o.unit))
  have hmap : ∀ b, (before ++ c b :: behind).map (classText o.unit) =
      before.map (classText o.unit) ++ classText o.unit (c b) :: behind.map (classText o.unit) := fun b => by
    rw [List.map_append, List.map_cons]
  by_cases hs : (!scope.isEmpty) = true
  · refine (hclasses.append ("namespace ".toList ++ scope ++ ";\n\n".toList) []).congr fun b => ?_
    simp only [group, if_pos hs, hmap, List.append_nil]
  · by_cases ha : alone = true
    · refine (hclasses.append [] []).congr fun b => ?_
      simp only [group, if_neg hs, if_pos ha, hmap, List.append_nil, List.nil_append]
    · refine (hclasses.append "namespace \x7b\n\n".toList "\n\n\n\x7d".toList).congr fun b => ?_
      simp only [group, if_neg hs, if_neg ha, hmap, List.append_assoc]

/-- A place for a body in a file model: a method that is not abstract, among the others of its
    class, which is among the others of its group. -/
structure Site where
  groupsBefore : List (Text × List ClassModel)
  scope : Text
  classesBefore : List ClassModel
  holder : ClassModel
  methodsBefore : List Method
  method : Method
  concrete : method.isAbstract = false
  methodsBehind : List Method
  classesBehind : List ClassModel
  groupsBehind : List (Text × List ClassModel)

namespace Site

/-- The class with a body in the place. -/
def classWith (s : Site) (body : Text) : ClassModel :=
  { s.holder with methods := s.methodsBefore ++ { s.method with body := some body } :: s.methodsBehind }

/-- The groups with a body in the place. -/
def groupsWith (s : Site) (body : Text) : List (Text × List ClassModel) :=
  s.groupsBefore ++ (s.scope, s.classesBefore ++ s.classWith body :: s.classesBehind) :: s.groupsBehind

end Site

/-- The body of every method that is not abstract stands in a place. -/
theorem exists_site {f : FileModel} {scope : Text} {cs : List ClassModel} (hg : (scope, cs) ∈ f.groups.entries)
    {c : ClassModel} (hc : c ∈ cs) {m : Method} (hm : m ∈ c.methods) (hconcrete : m.isAbstract = false) {b : Text}
    (hb : m.body = some b) :
    ∃ s : Site, s.scope = scope ∧ s.holder = c ∧ s.method = m ∧ f.groups.entries = s.groupsWith b := by
  obtain ⟨gs, gs', hgs⟩ := List.append_of_mem hg
  obtain ⟨cs₁, cs₂, rfl⟩ := List.append_of_mem hc
  obtain ⟨ms, ms', hms⟩ := List.append_of_mem hm
  refine ⟨⟨gs, scope, cs₁, c, ms, m, hconcrete, ms', cs₂, gs'⟩, rfl, rfl, rfl, ?_⟩
  have hsame : { m with body := some b } = m := by rw [← hb]
  rw [Site.groupsWith, Site.classWith, hgs]
  dsimp only
  rw [hsame, ← hms]

/-- In a printed file the body of a method has its place between braces, and what is printed
    before and behind them is the same for every body. -/
theorem file_around_body (o : Options) (s : Site) :
    ∃ before behind, ∀ (f : FileModel) (b : Text), f.groups.entries = s.groupsWith b →
      file o f = before ++ '{' :: (insideOf o.unit b ++ '}' :: behind) := by
  let alone : Bool := s.groupsBefore.length + (s.groupsBehind.length + 1) ≤ 1
  let others (gs : List (Text × List ClassModel)) : Text :=
    (gs.map fun g => canonical (group o alone g.1 g.2) ++ "\n\n\n".toList).flatten
  have hclass := frames_class o.unit s.holder s.methodsBefore s.methodsBehind s.concrete
  have hgroup := frames_group o alone s.scope s.classesBefore s.classesBehind hclass
  have hink : ∀ b, EndsInk (indent o.unit (indent o.unit (dedent b))) :=
    fun b => ((endsInk_dedent b).indent o.unit).indent o.unit
  have hcanonical := hgroup.canonical hink fun c hc => isIndent_of_mem_unit hc
  obtain ⟨before, behind, hfile⟩ := hcanonical.append (textIf o.openTag "<?php\n\n" ++ others s.groupsBefore)
    ("\n\n\n".toList ++ others s.groupsBehind)
  refine ⟨before, behind, fun f b hf => ?_⟩
  have hcount : decide (f.namespaceCount ≤ 1) = alone := by
    rw [FileModel.namespaceCount, NameMap.size, hf, Site.groupsWith, List.length_append, List.length_cons]
  have hsplit : file o f = textIf o.openTag "<?php\n\n" ++ others s.groupsBefore ++
      (canonical (group o alone s.scope (s.classesBefore ++ s.classWith b :: s.classesBehind)) ++
        ("\n\n\n".toList ++ others s.groupsBehind)) := by
    rw [file, hcount, hf, Site.groupsWith, List.map_append, List.map_cons, List.flatten_append, List.flatten_cons]
    simp only [others, List.append_assoc]
  have hb := hfile b
  dsimp only at hb
  rw [hsplit]
  refine hb.trans ?_
  simp [insideOf]

/-! ## A body, read from where it is printed -/

theorem pieces_append {t : Text} (h : ∀ l ∈ splitLines t, EndsInk l) (r : Text) :
    Text.pieces (t ++ '\n' :: r) = splitLines t ++ Text.pieces r := by
  induction t using text_induction with
  | line l hl =>
    rw [splitLines_of_not_mem hl] at h ⊢
    rw [pieces_line_append hl, (h l (by simp)).dropReturn_eq, List.singleton_append]
  | more l t hl ih =>
    rw [splitLines_line_append hl] at h ⊢
    obtain ⟨hink, h⟩ := List.forall_mem_cons.mp h
    rw [List.append_assoc, List.cons_append, pieces_line_append hl, hink.dropReturn_eq, ih h, List.cons_append]

/-- Between its braces, in a class, a printed body is read two levels in. -/
theorem between_block (u : IndentUnit) (b : Text) :
    Body.between ('\n' :: (ended (indent u (indent u (dedent b))) ++ u.text)) = indent u (indent u (dedent b)) := by
  have hunit : '\n' ∉ u.text := fun hmem => by cases isIndent_of_mem_unit hmem
  have hblank : isAllBlank u.text = true :=
    List.all_eq_true.mpr fun c hc => isBlank_of_isIndent (isIndent_of_mem_unit hc)
  have hfirst : ∀ r, Text.pieces ('\n' :: r) = [] :: Text.pieces r := fun r => pieces_line_append (l := []) (by simp) r
  rw [Body.between, hfirst]
  generalize hx : indent u (indent u (dedent b)) = x
  by_cases hne : x = []
  · rw [hne]
    have hempty : ended [] ++ u.text = u.text := rfl
    rw [hempty, pieces_of_not_mem hunit, ← List.nil_append [u.text], Body.withoutBlankEnds_concat, hblank]
    rfl
  · have hink : ∀ l ∈ splitLines x, EndsInk l := fun l hl => endsInk_of_mem_twice (hx ▸ hl)
    rw [ended_ne_nil hne, List.append_assoc, List.singleton_append, pieces_append hink, pieces_of_not_mem hunit,
      Body.withoutBlankEnds_concat, hblank, if_pos rfl, List.append_nil]
    exact joinLines_splitLines x

/-- A body that is read from where it is printed is the same without its margin. -/
theorem dedent_between_block (u : IndentUnit) (b : Text) :
    dedent (Body.between ('\n' :: (ended (indent u (indent u (dedent b))) ++ u.text))) = dedent b := by
  rw [between_block, dedent_indent, dedent_indent, dedent_dedent]

/-- Whether tabs are the only control characters of a body, blanks at the ends of lines aside. -/
def hasPlainLines (b : Text) : Bool :=
  (splitLines b).all fun l => (trimEnd isBlank l).all fun c => !isControl c || c == '\t'

theorem of_hasPlainLines {b l : Text} (h : hasPlainLines b = true) (hl : l ∈ splitLines b) :
    ∀ c ∈ trimEnd isBlank l, isControl c = false ∨ c = '\t' := by
  intro c hc
  have := List.all_eq_true.mp (List.all_eq_true.mp h l hl) c hc
  simpa using this

/-- All characters of a laid out body are kept, if it has no control characters but tabs. -/
theorem isKept_of_mem_twice {u : IndentUnit} {b : Text} (h : hasPlainLines b = true) :
    ∀ c ∈ indent u (indent u (dedent b)), c ≠ '\r' ∧ isKept c = true := by
  intro c hc
  have hindent : ∀ {d : Char}, isIndent d = true → d ≠ '\r' ∧ isKept d = true := by
    intro d hd
    simp only [isIndent, Bool.or_eq_true, beq_iff_eq] at hd
    rcases hd with rfl | rfl <;> decide
  have hnewline : '\n' ≠ '\r' ∧ isKept '\n' = true := by decide
  rcases mem_of_mem_indent hc with rfl | hc | hc
  · exact hnewline
  · exact hindent hc
  rcases mem_of_mem_indent hc with rfl | hc | hc
  · exact hnewline
  · exact hindent hc
  rcases mem_of_mem_dedent hc with rfl | ⟨l, hl, hc⟩
  · exact hnewline
  rcases of_hasPlainLines h hl c hc with hc | rfl
  · exact (isKept_of_not_isControl hc).2
  · decide

/-- A body without control characters but tabs is printed as it is laid out. -/
theorem tidied_eq_ended (u : IndentUnit) {b : Text} (h : hasPlainLines b = true) :
    tidied (indent u (indent u (dedent b))) = ended (indent u (indent u (dedent b))) := by
  rw [tidied, tidy_eq_self (isKept_of_mem_twice h) fun l hl => (endsInk_of_mem_twice hl).isIndent_eq_false, ended]

end ClassOutline.Layout
