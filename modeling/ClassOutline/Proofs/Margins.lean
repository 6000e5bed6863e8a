import ClassOutline.Proofs.Bodies
/-
  ClassOutline.Proofs.Margins — moving lines in, and taking margins off.

  `indent` puts a unit before every line that holds more than blanks. `dedent` keeps the lines
  from the first such line to the last, without blanks at their ends and without the margin
  they have in common (`dedent_lines`). So a text that is moved in dedents to what it dedented
  to before (`dedent_indent`), and what it dedents to is the end of it (`dedent_dedent`).
-/

namespace ClassOutline.Layout

open ClassOutline.Text

/-! ## Lines and their levels -/

theorem isIndent_of_mem_unit {u : IndentUnit} {c : Char} (h : c ∈ u.text) : isIndent c = true := by
  cases u with
  | tab =>
    rw [List.mem_singleton.mp h]
    rfl
  | spaces n =>
    rw [List.eq_of_mem_replicate h]
    rfl

theorem newline_not_mem_indentLine (u : IndentUnit) {l : Text} (h : '\n' ∉ l) : '\n' ∉ indentLine u.text l := by
  unfold indentLine
  split
  · simp
  · rw [List.mem_append, not_or]
    exact ⟨fun hmem => (by have := isIndent_of_mem_unit hmem; cases this), h⟩

theorem indent_append (u : IndentUnit) (a b : Text) : indent u (a ++ '\n' :: b) = indent u a ++ '\n' :: indent u b := by
  unfold indent
  rw [splitLines_append, List.map_append,
    joinLines_append (by simpa using splitLines_ne_nil _) (by simpa using splitLines_ne_nil _)]

theorem indent_of_not_mem (u : IndentUnit) {l : Text} (h : '\n' ∉ l) : indent u l = indentLine u.text l := by
  rw [indent, splitLines_of_not_mem h, List.map_singleton, joinLines_singleton]

/-- A line that begins with more than blanks moves as a whole. -/
theorem indent_prefix (u : IndentUnit) {p : Text} (hp : '\n' ∉ p) (hink : isAllBlank p = false) (t : Text) :
    ∃ t', indent u (p ++ t) = u.text ++ (p ++ t') := by
  obtain ⟨l, ls, hl⟩ := List.exists_cons_of_ne_nil (splitLines_ne_nil t)
  have hlines := splitLines_append_of_ne (fun c hc (he : c = '\n') => hp (he ▸ hc)) t hl
  have hline : isAllBlank (p ++ l) = false := by
    rw [isAllBlank, List.all_append]
    rw [isAllBlank] at hink
    rw [hink, Bool.false_and]
  have hfirst : indentLine u.text (p ++ l) = u.text ++ (p ++ l) := by rw [indentLine, hline]; rfl
  rw [indent, hlines, List.map_cons, hfirst]
  cases ls with
  | nil => exact ⟨l, by simp⟩
  | cons m ls =>
    refine ⟨l ++ '\n' :: joinLines ((m :: ls).map (indentLine u.text)), ?_⟩
    rw [List.map_cons, joinLines_cons_cons, ← List.map_cons]
    simp

/-- A text whose last character, if it has one, is no blank. -/
def EndsInk (t : Text) : Prop := ∀ c ∈ t.getLast?, isBlank c = false

theorem EndsInk.isAllBlank {t : Text} (h : EndsInk t) (hne : t ≠ []) : isAllBlank t = false := by
  have hlast := List.getLast?_eq_some_getLast hne
  exact Body.isAllBlank_of_mem (h _ hlast) (List.getLast_mem hne)

theorem EndsInk.trimEnd_eq {t : Text} (h : EndsInk t) : trimEnd isBlank t = t := by
  rcases List.eq_nil_or_concat t with rfl | ⟨t, c, rfl⟩
  · rfl
  · rw [List.concat_eq_append] at h ⊢
    exact Body.trimEnd_concat (h c List.getLast?_concat) t

/-- No carriage return ends the line. -/
theorem EndsInk.dropReturn_eq {t : Text} (h : EndsInk t) : dropReturn t = t := by
  rcases List.eq_nil_or_concat t with rfl | ⟨t, c, rfl⟩
  · rfl
  · rw [List.concat_eq_append] at h ⊢
    have hc : c ≠ '\r' := by
      rintro rfl
      cases h _ List.getLast?_concat
    rw [dropReturn_concat, if_neg hc]

theorem getLast?_append_cons (a : Text) (c : Char) (b : Text) : (a ++ c :: b).getLast? = (c :: b).getLast? := by
  rw [List.getLast?_append]
  cases hb : (c :: b).getLast? with
  | none => simp at hb
  | some d => rfl

theorem endsInk_append {a b : Text} (h : EndsInk b) (hne : b ≠ []) : EndsInk (a ++ b) := by
  obtain ⟨c, r, rfl⟩ := List.exists_cons_of_ne_nil hne
  rw [EndsInk, getLast?_append_cons]
  exact h

theorem getLast?_indent (u : IndentUnit) {t : Text} (h : EndsInk t) : (indent u t).getLast? = t.getLast? := by
  induction t using text_induction with
  | line l hl =>
    rw [indent_of_not_mem u hl, indentLine]
    by_cases hne : l = []
    · subst hne
      rfl
    · rw [h.isAllBlank hne, if_neg Bool.false_ne_true, List.getLast?_append]
      cases hlast : l.getLast? with
      | none => exact absurd (List.getLast?_eq_none_iff.mp hlast) hne
      | some c => rfl
  | more l r hl ih =>
    rw [EndsInk, getLast?_append_cons] at h
    rw [indent_append, getLast?_append_cons, getLast?_append_cons]
    cases hr : r with
    | nil =>
      rw [hr] at h
      cases h '\n' rfl
    | cons c r' =>
      have hcons : ∀ x : Text, x ≠ [] → ('\n' :: x).getLast? = x.getLast? := by
        intro x hx
        obtain ⟨d, y, rfl⟩ := List.exists_cons_of_ne_nil hx
        rfl
      have hne : r ≠ [] := by simp [hr]
      rw [← hr]
      rw [hcons r hne] at h ⊢
      have hlast := ih h
      rw [hcons _ fun he => hne ?_, hlast]
      rw [he] at hlast
      exact List.getLast?_eq_none_iff.mp hlast.symm

theorem EndsInk.indent {t : Text} (h : EndsInk t) (u : IndentUnit) : EndsInk (indent u t) := by
  rw [EndsInk, getLast?_indent u h]
  exact h

theorem isEmpty_eq_of_getLast? {a b : Text} (h : a.getLast? = b.getLast?) : a.isEmpty = b.isEmpty := by
  rw [Bool.eq_iff_iff, List.isEmpty_iff, List.isEmpty_iff, ← List.getLast?_eq_none_iff, h, List.getLast?_eq_none_iff]

/-! ## Blanks around a text -/

theorem trimEnd_append_blank {z : Text} (hz : ∀ c ∈ z, isBlank c = true) (t : Text) :
    trimEnd isBlank (t ++ z) = trimEnd isBlank t := by
  unfold trimEnd
  rw [List.reverse_append, List.dropWhile_append_of_pos fun c hc => hz c (List.mem_reverse.mp hc)]

theorem endsInk_trimEnd (t : Text) : EndsInk (trimEnd isBlank t) := by
  intro c hc
  rw [trimEnd, List.getLast?_reverse] at hc
  have hne := List.head?_dropWhile_not isBlank t.reverse
  rw [hc] at hne
  simpa using hne

theorem trimBlank_append {i r z : Text} {c : Char} (hi : ∀ d ∈ i, isBlank d = true) (hc : isBlank c = false)
    (hr : EndsInk (c :: r)) (hz : ∀ d ∈ z, isBlank d = true) : trimBlank (i ++ (c :: r ++ z)) = c :: r := by
  have hstart : trimStart isBlank (i ++ (c :: r ++ z)) = c :: r ++ z := by
    rw [trimStart, List.dropWhile_append_of_pos hi, List.cons_append, List.dropWhile_cons_of_neg (by simp [hc])]
  rw [trimBlank, trim, hstart, trimEnd_append_blank hz, hr.trimEnd_eq]

/-- A text is blanks, or blanks around what is left of it. -/
theorem trimBlank_cases (t : Text) :
    trimBlank t = [] ∨ ∃ c r, trimBlank t = c :: r ∧ isBlank c = false ∧ EndsInk (c :: r) := by
  cases ht : trimBlank t with
  | nil => exact Or.inl rfl
  | cons c r =>
    refine Or.inr ⟨c, r, rfl, ?_, ?_⟩
    · obtain ⟨z, -, hz⟩ := eq_trimEnd_append isBlank (trimStart isBlank t)
      have hfirst := List.head?_dropWhile_not isBlank t
      change trimStart isBlank t = trimBlank t ++ z at hz
      rw [← trimStart.eq_1, hz, ht, List.cons_append, List.head?_cons] at hfirst
      simpa using hfirst
    · rw [← ht, trimBlank, trim]
      exact endsInk_trimEnd _

theorem trimBlank_trimBlank (t : Text) : trimBlank (trimBlank t) = trimBlank t := by
  rcases trimBlank_cases t with h | ⟨c, r, h, hc, hr⟩
  · rw [h]
    rfl
  · rw [h]
    have := trimBlank_append (i := []) (z := []) (by simp) hc hr (by simp)
    rwa [List.append_nil, List.nil_append] at this

theorem EndsInk.drop {t : Text} (h : EndsInk t) (k : Nat) : EndsInk (t.drop k) := by
  intro c hc
  rw [List.getLast?_drop] at hc
  split at hc
  · cases hc
  · exact h c hc

/-! ## Texts that are moved in -/

theorem splitLines_joinLines {ls : List Text} (hne : ls ≠ []) (hls : ∀ l ∈ ls, '\n' ∉ l) :
    splitLines (joinLines ls) = ls := by
  induction ls with
  | nil => exact absurd rfl hne
  | cons l ls ih =>
    obtain ⟨hl, hls⟩ := List.forall_mem_cons.mp hls
    cases ls with
    | nil => rw [joinLines_singleton, splitLines_of_not_mem hl]
    | cons m ls => rw [joinLines_cons_cons, splitLines_line_append hl, ih (List.cons_ne_nil _ _) hls]

theorem indent_joinLines (u : IndentUnit) {ls : List Text} (hls : ∀ l ∈ ls, '\n' ∉ l) :
    indent u (joinLines ls) = joinLines (ls.map (indentLine u.text)) := by
  cases ls with
  | nil => rfl
  | cons l ls => rw [indent, splitLines_joinLines (List.cons_ne_nil _ _) hls]

theorem getLast?_joinLines {ls : List Text} {l : Text} (hl : ls.getLast? = some l) (hne : l ≠ []) :
    (joinLines ls).getLast? = l.getLast? := by
  induction ls with
  | nil => cases hl
  | cons m ls ih =>
    cases ls with
    | nil =>
      obtain rfl : m = l := Option.some.inj hl
      rw [joinLines_singleton]
    | cons m' ls =>
      have hlast := ih (by simpa using hl)
      have hsome : (joinLines (m' :: ls)) ≠ [] := by
        intro he
        rw [he] at hlast
        exact hne (List.getLast?_eq_none_iff.mp hlast.symm)
      obtain ⟨c, r, hr⟩ := List.exists_cons_of_ne_nil hsome
      rw [joinLines_cons_cons, getLast?_append_cons, ← hlast, hr]
      rfl

theorem EndsInk.indentLine {l : Text} (h : EndsInk l) (i : Text) : EndsInk (indentLine i l) := by
  unfold Layout.indentLine
  split
  · exact fun c hc => by cases hc
  · rename_i hblank
    obtain ⟨c, r, rfl⟩ := List.exists_cons_of_ne_nil (l := l) (by rintro rfl; exact hblank rfl)
    rw [EndsInk, getLast?_append_cons]
    exact h

theorem isEmpty_trimEnd (l : Text) : (trimEnd isBlank l).isEmpty = isAllBlank l := by
  rw [Bool.eq_iff_iff, List.isEmpty_iff, trimEnd_eq_nil_iff, isAllBlank, List.all_eq_true]

theorem trimEnd_indentLine (i l : Text) : trimEnd isBlank (indentLine i l) = indentLine i (trimEnd isBlank l) := by
  have hblank : isAllBlank (trimEnd isBlank l) = isAllBlank l := by
    rw [← isEmpty_trimEnd, (endsInk_trimEnd l).trimEnd_eq, isEmpty_trimEnd]
  cases hl : isAllBlank l with
  | true =>
    rw [indentLine, indentLine, hblank, hl]
    rfl
  | false =>
    obtain ⟨z, hz, hsplit⟩ := eq_trimEnd_append isBlank l
    have hink : EndsInk (i ++ trimEnd isBlank l) := by
      have := (endsInk_trimEnd l).indentLine i
      rwa [indentLine, hblank, hl, if_neg Bool.false_ne_true] at this
    rw [indentLine, indentLine, hblank, hl, if_neg Bool.false_ne_true, if_neg Bool.false_ne_true]
    conv => lhs; rw [hsplit]
    rw [← List.append_assoc, trimEnd_append_blank hz, hink.trimEnd_eq]

theorem splitLines_indent (u : IndentUnit) (t : Text) :
    splitLines (indent u t) = (splitLines t).map (indentLine u.text) := by
  refine splitLines_joinLines (by simpa using splitLines_ne_nil t) fun l hl => ?_
  obtain ⟨l', hl', rfl⟩ := List.mem_map.mp hl
  exact newline_not_mem_indentLine u (newline_not_mem_of_mem_splitLines hl')

/-! ## What is left of a text -/

theorem trimEnd_blank_dropReturn (l : Text) : trimEnd isBlank (dropReturn l) = trimEnd isBlank l := by
  rcases List.eq_nil_or_concat l with rfl | ⟨l, c, rfl⟩
  · rfl
  · rw [List.concat_eq_append, dropReturn_concat]
    split
    · rename_i hc
      subst hc
      simp [trimEnd, show isBlank '\r' = true from rfl]
    · rfl

theorem dropEmptyEnds_concat_nil (ls : List Text) : dropEmptyEnds (ls ++ [[]]) = dropEmptyEnds ls := by
  have hnil : ([[]] : List Text).dropWhile List.isEmpty = [] := rfl
  unfold dropEmptyEnds
  rw [List.dropWhile_append, hnil]
  split
  · rename_i he
    rw [List.isEmpty_iff.mp he]
  · rw [List.reverse_append, List.reverse_singleton, List.singleton_append, List.dropWhile_cons_of_pos rfl]

/-- Without blanks at their ends, and without empty lines around them, the lines a reader sees
    are those between newlines. -/
theorem dropEmptyEnds_lines (t : Text) :
    dropEmptyEnds ((lines t).map (trimEnd isBlank)) = dropEmptyEnds ((splitLines t).map (trimEnd isBlank)) := by
  rcases List.eq_nil_or_concat (splitLines t) with hnil | ⟨ls, last, hls⟩
  · exact absurd hnil (splitLines_ne_nil t)
  · rw [List.concat_eq_append] at hls
    have hdrop : (ls.map dropReturn).map (trimEnd isBlank) = ls.map (trimEnd isBlank) := by
      rw [List.map_map]
      exact List.map_congr_left fun l _ => trimEnd_blank_dropReturn l
    simp only [lines, hls, List.dropLast_concat, List.getLast?_concat, Option.getD_some, List.map_append, hdrop]
    cases last with
    | nil =>
      have htrim : [[]].map (trimEnd isBlank) = [[]] := rfl
      rw [htrim, dropEmptyEnds_concat_nil]
      simp
    | cons c last => rfl

/-- The lines between the first and the last that hold more than blanks, both included. -/
def dropBlankEnds (ls : List Text) : List Text :=
  ((ls.dropWhile isAllBlank).reverse.dropWhile isAllBlank).reverse

theorem mem_of_mem_dropBlankEnds {ls : List Text} {l : Text} (h : l ∈ dropBlankEnds ls) : l ∈ ls :=
  (List.dropWhile_sublist _).mem (List.mem_reverse.mp ((List.dropWhile_sublist _).mem (List.mem_reverse.mp h)))

theorem dropEmptyEnds_map {f : Text → Text} (hf : ∀ l, (f l).isEmpty = isAllBlank l) (ls : List Text) :
    dropEmptyEnds (ls.map f) = (dropBlankEnds ls).map f := by
  have hp : List.isEmpty ∘ f = isAllBlank := funext hf
  unfold dropEmptyEnds dropBlankEnds
  rw [List.dropWhile_map, ← List.map_reverse, List.dropWhile_map, ← List.map_reverse, hp]

theorem ends_dropBlankEnds (ls : List Text) :
    (∀ l ∈ (dropBlankEnds ls).head?, isAllBlank l = false) ∧ ∀ l ∈ (dropBlankEnds ls).getLast?, isAllBlank l = false := by
  have hfirst := List.head?_dropWhile_not isAllBlank ls
  constructor
  · intro l hl
    cases hd : ls.dropWhile isAllBlank with
    | nil =>
      rw [dropBlankEnds, hd] at hl
      cases hl
    | cons a as =>
      rw [hd] at hfirst
      have ha : isAllBlank a = false := by simpa using hfirst
      have hone : [a].dropWhile isAllBlank = [a] := List.dropWhile_cons_of_neg (by simp [ha])
      have hstays : ((a :: as).reverse.dropWhile isAllBlank).reverse = a :: (as.reverse.dropWhile isAllBlank).reverse := by
        rw [List.reverse_cons, List.dropWhile_append, hone]
        split
        · rename_i he
          rw [List.isEmpty_iff.mp he]
          rfl
        · rw [List.reverse_append]
          rfl
      rw [dropBlankEnds, hd, hstays, List.head?_cons] at hl
      obtain rfl := Option.some.inj hl
      exact ha
  · intro l hl
    have hlast := List.head?_dropWhile_not isAllBlank (ls.dropWhile isAllBlank).reverse
    rw [dropBlankEnds, List.getLast?_reverse] at hl
    rw [hl] at hlast
    simpa using hlast

theorem dropBlankEnds_eq_self {ls : List Text} (hfirst : ∀ l ∈ ls.head?, isAllBlank l = false)
    (hlast : ∀ l ∈ ls.getLast?, isAllBlank l = false) : dropBlankEnds ls = ls := by
  have hstays : ∀ {ms : List Text}, (∀ l ∈ ms.head?, isAllBlank l = false) → ms.dropWhile isAllBlank = ms := by
    intro ms hms
    cases ms with
    | nil => rfl
    | cons m ms => exact List.dropWhile_cons_of_neg (by simp [hms m rfl])
  rw [dropBlankEnds, hstays hfirst, hstays (by rwa [List.head?_reverse]), List.reverse_reverse]

/-- What is left of the lines of a text. -/
def inkedLines (t : Text) : List Text := (dropBlankEnds (splitLines t)).map (trimEnd isBlank)

theorem dedent_eq (t : Text) : dedent t = joinLines ((inkedLines t).map (·.drop (commonMargin (inkedLines t)))) := by
  rw [dedent, dropEmptyEnds_lines, dropEmptyEnds_map isEmpty_trimEnd, inkedLines]

theorem endsInk_of_mem_inkedLines {t l : Text} (h : l ∈ inkedLines t) : EndsInk l := by
  obtain ⟨l', -, rfl⟩ := List.mem_map.mp h
  exact endsInk_trimEnd l'

theorem inkedLines_indent (u : IndentUnit) (t : Text) :
    inkedLines (indent u t) = (inkedLines t).map (indentLine u.text) := by
  have hempty : ∀ l, (trimEnd isBlank (indentLine u.text l)).isEmpty = isAllBlank l := by
    intro l
    rw [trimEnd_indentLine, indentLine, ← isEmpty_trimEnd, (endsInk_trimEnd l).trimEnd_eq, ← isEmpty_trimEnd l]
    cases h : (trimEnd isBlank l).isEmpty with
    | true => rfl
    | false =>
      rw [if_neg Bool.false_ne_true, List.isEmpty_eq_false_iff]
      exact List.append_ne_nil_of_right_ne_nil _ (List.isEmpty_eq_false_iff.mp h)
  have hmoved : (splitLines (indent u t)).map (trimEnd isBlank) =
      (splitLines t).map fun l => trimEnd isBlank (indentLine u.text l) := by
    rw [splitLines_indent, List.map_map]
    rfl
  rw [inkedLines, ← dropEmptyEnds_map isEmpty_trimEnd, hmoved, dropEmptyEnds_map hempty, inkedLines, List.map_map]
  exact List.map_congr_left fun l _ => trimEnd_indentLine _ l

/-! ## Margins -/

theorem margin_append {i : Text} (hi : ∀ c ∈ i, isIndent c = true) (l : Text) : margin (i ++ l) = i.length + margin l := by
  rw [margin, margin, List.takeWhile_append_of_pos hi, List.length_append]

theorem commonMargin_le {ls : List Text} {l : Text} (hl : l ∈ ls) (hne : l ≠ []) : commonMargin ls ≤ margin l := by
  refine List.min?_getD_le_of_mem (List.mem_map_of_mem (List.mem_filter.mpr ⟨hl, ?_⟩))
  simpa using hne

/-- Some line has no more margin than all have, unless all are empty. -/
theorem exists_margin_eq {ls : List Text} (h : ∃ l ∈ ls, l ≠ []) : ∃ l ∈ ls, l ≠ [] ∧ margin l = commonMargin ls := by
  obtain ⟨l, hl, hne⟩ := h
  cases hmin : ((ls.filter (!·.isEmpty)).map margin).min? with
  | none =>
    rw [List.min?_eq_none_iff, List.map_eq_nil_iff, List.filter_eq_nil_iff] at hmin
    exact absurd (by simpa using hne) (hmin l hl)
  | some k =>
    obtain ⟨l', hl', hk⟩ := List.mem_map.mp (List.min?_mem hmin)
    obtain ⟨hmem, hne'⟩ := List.mem_filter.mp hl'
    exact ⟨l', hmem, by simpa using hne', by rw [commonMargin, hmin, hk]; rfl⟩

theorem commonMargin_eq {ls : List Text} {k : Nat} (hle : ∀ l ∈ ls, l ≠ [] → k ≤ margin l)
    (hex : ∃ l ∈ ls, l ≠ [] ∧ margin l = k) : commonMargin ls = k := by
  obtain ⟨l, hl, hne, hk⟩ := hex
  obtain ⟨l', hl', hne', hk'⟩ := exists_margin_eq ⟨l, hl, hne⟩
  have hlow := hle l' hl' hne'
  have hhigh := commonMargin_le hl hne
  omega

/-- A line is its share of the margin, what is printed of it, and blanks. -/
theorem line_parts {l : Text} {k : Nat} (hk : trimEnd isBlank l ≠ [] → k ≤ margin (trimEnd isBlank l)) :
    ∃ i z, l = i ++ ((trimEnd isBlank l).drop k ++ z) ∧ (∀ c ∈ i, isIndent c = true) ∧ ∀ c ∈ z, isBlank c = true := by
  obtain ⟨z, hz, hl⟩ := eq_trimEnd_append isBlank l
  by_cases hne : trimEnd isBlank l = []
  · refine ⟨[], l, ?_, by simp, trimEnd_eq_nil_iff.mp hne⟩
    rw [hne, List.drop_nil, List.nil_append, List.nil_append]
  · refine ⟨(trimEnd isBlank l).take k, z, ?_, ?_, hz⟩
    · rw [← List.append_assoc, List.take_append_drop]
      exact hl
    · intro c hc
      have hle := hk hne
      rw [margin] at hle
      have htake : (trimEnd isBlank l).take k = ((trimEnd isBlank l).takeWhile isIndent).take k := by
        conv => lhs; rw [← List.takeWhile_append_dropWhile (p := isIndent) (l := trimEnd isBlank l)]
        exact List.take_append_of_le_length hle
      rw [htake] at hc
      exact List.mem_takeWhile_imp (List.mem_of_mem_take hc)

/-- More than the margin is left of a line that holds more than blanks. -/
theorem drop_margin_ne_nil {t : Text} (h : EndsInk t) (hne : t ≠ []) {k : Nat} (hk : k ≤ margin t) : t.drop k ≠ [] := by
  intro hnil
  have hle : t.length ≤ margin t := Nat.le_trans (List.drop_eq_nil_iff.mp hnil) hk
  have hall : t.takeWhile isIndent = t :=
    (List.takeWhile_prefix isIndent).eq_of_length_le hle
  have hlast := h _ (List.getLast?_eq_some_getLast hne)
  have hmem : t.getLast hne ∈ t.takeWhile isIndent := by
    rw [hall]
    exact List.getLast_mem hne
  have hindent := List.mem_takeWhile_imp hmem
  simp only [isIndent, Bool.or_eq_true, beq_iff_eq] at hindent
  rcases hindent with hc | hc <;> rw [hc] at hlast <;> cases hlast

/-- The lines of a body: blank ones, those that are printed, and blank ones again. -/
theorem dedent_lines (b : Text) :
    ∃ before ls behind k, splitLines b = before ++ (ls ++ behind) ∧ (∀ l ∈ before ++ behind, isAllBlank l = true) ∧
      (∀ l ∈ ls.getLast?, isAllBlank l = false) ∧ dedent b = joinLines (ls.map fun l => (trimEnd isBlank l).drop k) ∧
      ∀ l ∈ ls, trimEnd isBlank l ≠ [] → k ≤ margin (trimEnd isBlank l) := by
  refine ⟨(splitLines b).takeWhile isAllBlank, dropBlankEnds (splitLines b),
    (((splitLines b).dropWhile isAllBlank).reverse.takeWhile isAllBlank).reverse, commonMargin (inkedLines b), ?_, ?_,
    (ends_dropBlankEnds _).2, ?_, fun l hl hne => commonMargin_le (List.mem_map_of_mem hl) hne⟩
  · rw [dropBlankEnds, ← List.reverse_append, List.takeWhile_append_dropWhile, List.reverse_reverse,
      List.takeWhile_append_dropWhile]
  · intro l hl
    rcases List.mem_append.mp hl with hl | hl
    · exact List.mem_takeWhile_imp hl
    · exact List.mem_takeWhile_imp (List.mem_reverse.mp hl)
  · rw [dedent_eq, inkedLines, List.map_map]
    rfl

/-- A text that is moved in dedents to what it dedented to before. -/
theorem dedent_indent (u : IndentUnit) (t : Text) : dedent (indent u t) = dedent t := by
  have hunit : ∀ c ∈ u.text, isIndent c = true := fun c hc => isIndent_of_mem_unit hc
  have hline : ∀ l ∈ inkedLines t, l ≠ [] → indentLine u.text l = u.text ++ l := by
    intro l hl hne
    rw [indentLine, (endsInk_of_mem_inkedLines hl).isAllBlank hne, if_neg Bool.false_ne_true]
  rw [dedent_eq, dedent_eq, inkedLines_indent, List.map_map]
  refine congrArg joinLines (List.map_congr_left fun l hl => ?_)
  by_cases hne : l = []
  · subst hne
    exact (List.drop_nil).trans List.drop_nil.symm
  · have hmargin : commonMargin ((inkedLines t).map (indentLine u.text)) =
        u.text.length + commonMargin (inkedLines t) := by
      refine commonMargin_eq (fun m hm hm' => ?_) ?_
      · obtain ⟨l', hl', rfl⟩ := List.mem_map.mp hm
        have hne' : l' ≠ [] := by
          rintro rfl
          exact hm' rfl
        rw [hline l' hl' hne', margin_append hunit]
        exact Nat.add_le_add_left (commonMargin_le hl' hne') _
      · obtain ⟨l', hl', hne', hk⟩ := exists_margin_eq ⟨l, hl, hne⟩
        refine ⟨_, List.mem_map_of_mem hl', ?_, ?_⟩
        · rw [hline l' hl' hne']
          exact List.append_ne_nil_of_right_ne_nil _ hne'
        · rw [hline l' hl' hne', margin_append hunit, hk]
    show (indentLine u.text l).drop _ = _
    rw [hmargin, hline l hl hne, List.drop_length_add_append]

/-! ## Texts without a margin -/

/-- The lines that are left of a text are its lines, once their margin is off. -/
theorem splitLines_dedent {t : Text} (hne : inkedLines t ≠ []) :
    splitLines (dedent t) = (inkedLines t).map (·.drop (commonMargin (inkedLines t))) := by
  rw [dedent_eq]
  refine splitLines_joinLines (by simpa using hne) fun l hl hmem => ?_
  obtain ⟨l₁, hl₁, rfl⟩ := List.mem_map.mp hl
  obtain ⟨l₂, hl₂, rfl⟩ := List.mem_map.mp hl₁
  exact newline_not_mem_of_mem_splitLines (mem_of_mem_dropBlankEnds hl₂) ((trimEnd_sublist isBlank l₂).mem (List.mem_of_mem_drop hmem))

theorem endsInk_of_mem_dedent {t l : Text} (h : l ∈ splitLines (dedent t)) : EndsInk l := by
  by_cases hne : inkedLines t = []
  · rw [dedent_eq, hne] at h
    obtain rfl := List.mem_singleton.mp h
    exact fun c hc => by cases hc
  · rw [splitLines_dedent hne] at h
    obtain ⟨l', hl', rfl⟩ := List.mem_map.mp h
    exact (endsInk_of_mem_inkedLines hl').drop _

theorem endsInk_dedent (b : Text) : EndsInk (dedent b) := by
  obtain ⟨before, ls, behind, k, -, -, hlast, hdedent, hk⟩ := dedent_lines b
  rw [hdedent]
  cases hl : ls.getLast? with
  | none =>
    rw [List.getLast?_eq_none_iff.mp hl]
    exact fun c hc => by cases hc
  | some l =>
    have hne : trimEnd isBlank l ≠ [] := by
      intro he
      have hblank := hlast l hl
      rw [isAllBlank, List.all_eq_true.mpr (trimEnd_eq_nil_iff.mp he)] at hblank
      cases hblank
    have hink := endsInk_trimEnd l
    have hdrop := drop_margin_ne_nil hink hne (hk l (List.mem_of_getLast? hl) hne)
    rw [EndsInk, getLast?_joinLines (by rw [List.getLast?_map, hl]; rfl) hdrop]
    exact hink.drop k

theorem endsInk_of_mem_twice {u : IndentUnit} {t l : Text} (h : l ∈ splitLines (indent u (indent u (dedent t)))) :
    EndsInk l := by
  rw [splitLines_indent, splitLines_indent] at h
  obtain ⟨l₁, hl₁, rfl⟩ := List.mem_map.mp h
  obtain ⟨l₂, hl₂, rfl⟩ := List.mem_map.mp hl₁
  exact ((endsInk_of_mem_dedent hl₂).indentLine _).indentLine _

theorem dedent_dedent (t : Text) : dedent (dedent t) = dedent t := by
  by_cases hne : inkedLines t = []
  · rw [dedent_eq t, hne]
    rfl
  · have hdrop : ∀ l ∈ inkedLines t, l ≠ [] → l.drop (commonMargin (inkedLines t)) ≠ [] := fun l hl hl' =>
      drop_margin_ne_nil (endsInk_of_mem_inkedLines hl) hl' (commonMargin_le hl hl')
    have hink : ∀ l ∈ inkedLines t, l ≠ [] → isAllBlank (l.drop (commonMargin (inkedLines t))) = false := fun l hl hl' =>
      ((endsInk_of_mem_inkedLines hl).drop _).isAllBlank (hdrop l hl hl')
    obtain ⟨hfirst, hlast⟩ := ends_dropBlankEnds (splitLines t)
    have hinked : ∀ {l : Text}, isAllBlank l = false → trimEnd isBlank l ≠ [] := by
      intro l hl he
      rw [← isEmpty_trimEnd, he] at hl
      cases hl
    have hsome : ∃ l ∈ inkedLines t, l ≠ [] := by
      have hl₀ := List.getLast?_eq_some_getLast (l := dropBlankEnds (splitLines t)) (by simpa [inkedLines] using hne)
      exact ⟨_, List.mem_map_of_mem (List.mem_of_getLast? hl₀), hinked (hlast _ hl₀)⟩
    have hends : dropBlankEnds (splitLines (dedent t)) = splitLines (dedent t) := by
      rw [splitLines_dedent hne]
      refine dropBlankEnds_eq_self (fun l hl => ?_) fun l hl => ?_
      · rw [List.head?_map] at hl
        obtain ⟨l', hl', rfl⟩ := Option.map_eq_some_iff.mp hl
        refine hink l' (List.mem_of_head? hl') ?_
        rw [inkedLines, List.head?_map] at hl'
        obtain ⟨l₀, hl₀, rfl⟩ := Option.map_eq_some_iff.mp hl'
        exact hinked (hfirst l₀ hl₀)
      · rw [List.getLast?_map] at hl
        obtain ⟨l', hl', rfl⟩ := Option.map_eq_some_iff.mp hl
        refine hink l' (List.mem_of_getLast? hl') ?_
        rw [inkedLines, List.getLast?_map] at hl'
        obtain ⟨l₀, hl₀, rfl⟩ := Option.map_eq_some_iff.mp hl'
        exact hinked (hlast l₀ hl₀)
    have hlines : inkedLines (dedent t) = splitLines (dedent t) := by
      rw [inkedLines, hends]
      conv => rhs; rw [← List.map_id (splitLines (dedent t))]
      exact List.map_congr_left fun l hl => (endsInk_of_mem_dedent hl).trimEnd_eq
    have hmargin : commonMargin (splitLines (dedent t)) = 0 := by
      obtain ⟨l, hl, hl', hk⟩ := exists_margin_eq hsome
      rw [splitLines_dedent hne]
      refine commonMargin_eq (fun _ _ _ => Nat.zero_le _) ⟨_, List.mem_map_of_mem hl, hdrop l hl hl', ?_⟩
      rw [← hk, margin, margin, drop_takeWhile, List.length_eq_zero_iff, List.takeWhile_eq_nil_iff]
      exact List.dropWhile_get_zero_not isIndent l
    rw [dedent_eq (dedent t), hlines, hmargin]
    have hid : (fun l : Text => l.drop 0) = id := rfl
    rw [hid, List.map_id, joinLines_splitLines]

theorem mem_of_mem_joinLines {ls : List Text} {c : Char} (h : c ∈ joinLines ls) : c = '\n' ∨ ∃ l ∈ ls, c ∈ l :=
  forall_mem_join (P := fun c => c = '\n' ∨ ∃ l ∈ ls, c ∈ l) (fun _ hd => Or.inl (List.mem_singleton.mp hd))
    (fun l hl _ hd => Or.inr ⟨l, hl, hd⟩) c h

theorem mem_of_mem_dedent {t : Text} {c : Char} (h : c ∈ dedent t) :
    c = '\n' ∨ ∃ l ∈ splitLines t, c ∈ trimEnd isBlank l := by
  rw [dedent_eq] at h
  rcases mem_of_mem_joinLines h with h | ⟨l, hl, hc⟩
  · exact Or.inl h
  · obtain ⟨l', hl', rfl⟩ := List.mem_map.mp hl
    obtain ⟨l₀, hl₀, rfl⟩ := List.mem_map.mp hl'
    exact Or.inr ⟨l₀, mem_of_mem_dropBlankEnds hl₀, List.mem_of_mem_drop hc⟩

theorem mem_of_mem_indent {u : IndentUnit} {t : Text} {c : Char} (h : c ∈ indent u t) :
    c = '\n' ∨ isIndent c = true ∨ c ∈ t := by
  rcases mem_of_mem_joinLines h with h | ⟨l, hl, hc⟩
  · exact Or.inl h
  · obtain ⟨l', hl', rfl⟩ := List.mem_map.mp hl
    unfold indentLine at hc
    split at hc
    · cases hc
    · rcases List.mem_append.mp hc with hc | hc
      · exact Or.inr (Or.inl (isIndent_of_mem_unit hc))
      · refine Or.inr (Or.inr ?_)
        rw [← joinLines_splitLines t]
        exact mem_joinLines hl' hc

end ClassOutline.Layout
