import ClassOutline.DocComment
import ClassOutline.Proofs.Blocks
/-
  ClassOutline.Proofs.DocBlocks — documentation, read from where it is printed.

  Documentation that was read from a comment has no blanks around its lines and no empty line
  first or last (`isDoc_linesOf`). Such lines are read again from the block they are printed as,
  however far that is moved in (`decode?_printedAt`): a line has a star of its own in front, and
  only that star goes.
-/

namespace ClassOutline.DocComment

open ClassOutline.Text ClassOutline.Layout

/-! ## What is read of a comment -/

/-- Lines as they are read from a comment. -/
structure IsDoc (ls : List Text) : Prop where
  first : ∀ l ∈ ls.head?, l ≠ []
  last : ∀ l ∈ ls.getLast?, l ≠ []
  trimmed : ∀ l ∈ ls, trimBlank l = l
  line : ∀ l ∈ ls, '\n' ∉ l

theorem newline_not_mem_of_mem_lines {t l : Text} (h : l ∈ lines t) : '\n' ∉ l := by
  induction t using text_induction with
  | line l' hl' =>
    by_cases hne : l' = []
    · subst hne
      cases h
    · rw [lines_of_not_mem hl' hne] at h
      rwa [List.mem_singleton.mp h]
  | more l' r hl' ih =>
    rw [lines_line_append hl'] at h
    rcases List.mem_cons.mp h with rfl | h
    · exact not_mem_dropReturn hl'
    · exact ih h

theorem isDoc_linesOf (comment : Option Text) : IsDoc (linesOf comment) := by
  have hnil : IsDoc [] := ⟨by simp, by simp, by simp, by simp⟩
  cases comment with
  | none => exact hnil
  | some comment =>
    rw [linesOf, Option.bind_some]
    unfold decode?
    dsimp only
    generalize hls : (lines (inside (trimBlank comment))).map lineText = ls
    generalize hupTo : (ls.reverse.dropWhile List.isEmpty).reverse = upTo
    split
    · exact hnil
    · have hmem : ∀ l ∈ upTo.dropWhile List.isEmpty, l ∈ ls := by
        intro l hl
        have := (List.dropWhile_sublist _).mem hl
        rw [← hupTo, List.mem_reverse] at this
        exact List.mem_reverse.mp ((List.dropWhile_sublist _).mem this)
      refine ⟨fun l hl => ?_, fun l hl => ?_, fun l hl => ?_, fun l hl => ?_⟩
      · have hfirst := List.head?_dropWhile_not List.isEmpty upTo
        rw [Option.getD_some] at hl
        rw [hl] at hfirst
        simpa using hfirst
      · have hlast := List.head?_dropWhile_not List.isEmpty ls.reverse
        obtain ⟨before, hbefore⟩ := List.dropWhile_suffix List.isEmpty (l := upTo)
        have hsame : upTo.getLast? = some l := by
          rw [Option.getD_some] at hl
          rw [← hbefore, List.getLast?_append, hl]
          rfl
        rw [← hupTo, List.getLast?_reverse] at hsame
        rw [hsame] at hlast
        simpa using hlast
      · obtain ⟨l', -, rfl⟩ := List.mem_map.mp (hls ▸ hmem l hl)
        exact trimBlank_trimBlank _
      · obtain ⟨l', hl', rfl⟩ := List.mem_map.mp (hls ▸ hmem l hl)
        intro hnewline
        refine newline_not_mem_of_mem_lines hl' ?_
        exact (trim_sublist _ _).mem ((dropHead_sublist _ _).mem ((trim_sublist _ _).mem hnewline))

/-! ## What is printed -/

/-- A line of documentation in its block. -/
def starLine (l : Text) : Text := if l.isEmpty then " *".toList else " * ".toList ++ l

/-- A line of text stands behind its star and ends what is printed of it. -/
theorem starLine_eq {l : Text} (hl : trimBlank l = l) :
    ∃ r, starLine l = ' ' :: '*' :: r ∧ EndsInk ('*' :: r) ∧ trimBlank r = l := by
  rcases trimBlank_cases l with h | ⟨c, r, h, hc, hr⟩
  · rw [hl] at h
    subst h
    refine ⟨[], rfl, fun c hc => ?_, rfl⟩
    obtain rfl := Option.some.inj hc
    rfl
  · rw [hl] at h
    subst h
    have htrim := trimBlank_append (i := [' ']) (z := []) (by simp; rfl) hc hr (by simp)
    rw [List.append_nil, List.singleton_append] at htrim
    exact ⟨' ' :: c :: r, rfl, hr, htrim⟩

def blockLines (ls : List Text) : List Text := "/**".toList :: (ls.map starLine ++ [" */".toList])

/-- The lines of a block, ended, behind a margin. -/
def printedAt (i : Text) (ls : List Text) : Text := (blockLines ls).flatMap fun l => i ++ (l ++ ['\n'])

theorem block_eq {ls : List Text} (h : ls ≠ []) : block ls = printedAt [] ls := by
  have hline : blockLine = fun l => starLine l ++ ['\n'] := by
    funext l
    unfold blockLine starLine
    split <;> simp
  rw [block, if_neg (by simpa using h), printedAt, blockLines, hline, List.flatMap_cons, List.flatMap_append,
    List.flatMap_map, List.flatMap_def]
  simp

/-- What works line by line works so on a block. -/
theorem map_printedAt {F : Text → Text} {i j : Text} {ls : List Text} (hnil : F [] = [])
    (h : ∀ l ∈ blockLines ls, ∀ r, F ((i ++ l) ++ '\n' :: r) = (j ++ l) ++ '\n' :: F r) :
    F (printedAt i ls) = printedAt j ls := by
  unfold printedAt
  generalize blockLines ls = ks at h
  induction ks with
  | nil => exact hnil
  | cons k ks ih =>
    obtain ⟨hk, hks⟩ := List.forall_mem_cons.mp h
    have hsplit : ∀ (w : Text) (r : Text), w ++ (k ++ ['\n']) ++ r = (w ++ k) ++ '\n' :: r := by simp
    rw [List.flatMap_cons, List.flatMap_cons, hsplit, hsplit, hk, ih hks]

theorem forall_mem_blockLines {P : Text → Prop} {ls : List Text} (hfirst : P "/**".toList) (hstar : ∀ l ∈ ls, P (starLine l))
    (hlast : P " */".toList) : ∀ l ∈ blockLines ls, P l := by
  refine List.forall_mem_cons.mpr ⟨hfirst, List.forall_mem_append.mpr ⟨?_, List.forall_mem_singleton.mpr hlast⟩⟩
  intro l hl
  obtain ⟨l', hl', rfl⟩ := List.mem_map.mp hl
  exact hstar l' hl'

section

variable {ls : List Text} (h : IsDoc ls) {i : Text}

include h

/-- Every line of a block is a line that ends in more than a blank. -/
theorem blockLines_ink : ∀ l ∈ blockLines ls, '\n' ∉ l ∧ EndsInk l ∧ l ≠ [] := by
  have hconst : ∀ {l : Text} {c : Char}, l.getLast? = some c → isBlank c = false → EndsInk l ∧ l ≠ [] := by
    intro l c hc hink
    refine ⟨fun d hd => ?_, fun he => by rw [he] at hc; cases hc⟩
    rw [hc] at hd
    rwa [← Option.some.inj hd]
  refine forall_mem_blockLines ⟨by simp, hconst (c := '*') rfl rfl⟩ (fun l hl => ?_) ⟨by simp, hconst (c := '/') rfl rfl⟩
  obtain ⟨r, hr, hink, -⟩ := starLine_eq (h.trimmed l hl)
  refine ⟨?_, by rw [hr]; exact hink, by simp [hr]⟩
  have hline := h.line l hl
  unfold starLine
  split <;> simp [hline]

theorem indent_printedAt (u : IndentUnit) (hi : '\n' ∉ i) : indent u (printedAt i ls) = printedAt (u.text ++ i) ls := by
  refine map_printedAt rfl fun l hl r => ?_
  obtain ⟨hline, hink, hne⟩ := blockLines_ink h l hl
  have hblank : isAllBlank (i ++ l) = false :=
    (endsInk_append hink hne).isAllBlank (List.append_ne_nil_of_right_ne_nil i hne)
  rw [indent_append, indent_of_not_mem u (by simp [hi, hline]), indentLine, hblank, if_neg Bool.false_ne_true]
  simp

/-- Canonical white space leaves documentation as it is, if it holds no control characters. -/
theorem tidy_printedAt (hi : ∀ c ∈ i, isIndent c = true) (hplain : ∀ l ∈ ls, isPlainLine l = true) :
    tidy (printedAt i ls) = printedAt i ls := by
  have hlines : ∀ l ∈ blockLines ls, isPlainLine l = true := by
    refine forall_mem_blockLines rfl (fun l hl => ?_) rfl
    have := hplain l hl
    unfold starLine
    split
    · rfl
    · rw [isPlainLine, List.all_append, Bool.and_eq_true]
      exact ⟨rfl, this⟩
  refine map_printedAt rfl fun l hl r => ?_
  obtain ⟨-, hink, hne⟩ := blockLines_ink h l hl
  refine tidy_plainLine_append ?_ (endsInk_append hink hne) r
  rw [isPlainLine, List.all_append, Bool.and_eq_true]
  exact ⟨isPlainLine_of_isIndent hi, hlines l hl⟩

end

/-! ## What is read again -/

section

variable {i : Text} (hi : ∀ c ∈ i, isIndent c = true)

include hi

theorem lineText_starLine {l : Text} (hl : trimBlank l = l) : lineText (i ++ starLine l) = l := by
  have hmargin : ∀ c ∈ i ++ [' '], isBlank c = true := by
    intro c hc
    rcases List.mem_append.mp hc with hc | hc
    · exact isBlank_of_isIndent (hi c hc)
    · rw [List.mem_singleton.mp hc]
      rfl
  have hstar : ∀ r : Text, EndsInk ('*' :: r) → lineText (i ++ (' ' :: '*' :: r)) = trimBlank r := by
    intro r hr
    have := trimBlank_append (c := '*') (z := []) hmargin rfl hr (by simp)
    rw [List.append_nil, List.append_assoc, List.singleton_append] at this
    rw [lineText, this, dropHead, after?_eq_some_iff.mpr (List.singleton_append (x := '*') (l := r)).symm]
    rfl
  obtain ⟨r, hr, hink, htrim⟩ := starLine_eq hl
  rw [hr, hstar r hink, htrim]

/-- What a block holds between its delimiters, behind its first newline. -/
def stars (i : Text) (ls : List Text) : Text := ls.flatMap (fun l => i ++ (starLine l ++ ['\n'])) ++ (i ++ [' '])

theorem lines_stars {ls : List Text} (hline : ∀ l ∈ ls, '\n' ∉ l) (htrim : ∀ l ∈ ls, trimBlank l = l) :
    lines (stars i ls) = ls.map (i ++ starLine ·) ++ [i ++ [' ']] := by
  have hnot : '\n' ∉ i := fun hmem => by cases hi _ hmem
  induction ls with
  | nil => exact lines_of_not_mem (l := i ++ [' ']) (by simp [hnot]) (by simp)
  | cons l ls ih =>
    obtain ⟨hl, hline⟩ := List.forall_mem_cons.mp hline
    obtain ⟨ht, htrim⟩ := List.forall_mem_cons.mp htrim
    have hstar : '\n' ∉ i ++ starLine l := by
      rw [starLine]
      split <;> simp [hnot, hl]
    have hink : EndsInk (i ++ starLine l) := by
      obtain ⟨r, hr, hink, -⟩ := starLine_eq ht
      rw [hr, EndsInk, getLast?_append_cons]
      exact hink
    have hsplit : stars i (l :: ls) = (i ++ starLine l) ++ '\n' :: stars i ls := by
      simp [stars]
    rw [hsplit, lines_line_append hstar, hink.dropReturn_eq, ih hline htrim, List.map_cons, List.cons_append]

theorem inside_printedAt (ls : List Text) : inside (trimBlank (printedAt i ls)) = '\n' :: stars i ls := by
  have hblank : ∀ c ∈ i, isBlank c = true := fun c hc => isBlank_of_isIndent (hi c hc)
  have hsplit : printedAt i ls =
      i ++ ('/' :: ('*' :: '*' :: '\n' :: (stars i ls ++ ['*', '/'])) ++ ['\n']) := by
    simp [printedAt, blockLines, stars, List.flatMap_append, List.flatMap_map]
  have hink : EndsInk ('/' :: ('*' :: '*' :: '\n' :: (stars i ls ++ ['*', '/']))) := by
    have hassoc : '/' :: '*' :: '*' :: '\n' :: (stars i ls ++ ['*', '/']) =
        ('/' :: '*' :: '*' :: '\n' :: (stars i ls ++ ['*'])) ++ ['/'] := by simp
    rw [hassoc]
    exact endsInk_append (fun c hc => by cases hc; rfl) (by simp)
  have hopen : after? "/**".toList ('/' :: ('*' :: '*' :: '\n' :: (stars i ls ++ ['*', '/']))) =
      some (('\n' :: stars i ls) ++ "*/".toList) := after?_eq_some_iff.mpr rfl
  have hclose : dropTail "*/".toList (('\n' :: stars i ls) ++ "*/".toList) = '\n' :: stars i ls := by
    rw [dropTail, before?_eq_some_iff.mpr rfl, Option.getD_some]
  rw [hsplit, trimBlank_append hblank rfl hink (by simp; rfl), inside, hopen, Option.orElse_some, Option.getD_some, hclose]

/-- The lines of a block, with an empty one for the line of each delimiter. -/
theorem lineTexts_printedAt {ls : List Text} (h : IsDoc ls) :
    (lines (inside (trimBlank (printedAt i ls)))).map lineText = [] :: (ls ++ [[]]) := by
  have hfirst : lines ('\n' :: stars i ls) = [] :: lines (stars i ls) := lines_line_append (l := []) (by simp) _
  have hsame : ls.map (lineText ∘ (i ++ starLine ·)) = ls := by
    conv => rhs; rw [← List.map_id ls]
    exact List.map_congr_left fun l hl => lineText_starLine hi (h.trimmed l hl)
  have hlast : lineText (i ++ [' ']) = [] := by
    have hall : trimBlank (i ++ [' ']) = [] := by
      rw [trimBlank, trim, trimStart, List.dropWhile_append_of_pos fun c hc => isBlank_of_isIndent (hi c hc)]
      rfl
    rw [lineText, hall]
    rfl
  rw [inside_printedAt hi, hfirst, lines_stars hi h.line h.trimmed, List.map_cons, List.map_append, List.map_map, hsame,
    List.map_singleton, hlast]
  rfl

/-- Documentation is read again from where it is printed. -/
theorem decode?_printedAt {ls : List Text} (h : IsDoc ls) (hne : ls ≠ []) : decode? (printedAt i ls) = some ls := by
  have hlast : (([] :: (ls ++ [[]])).reverse.dropWhile List.isEmpty).reverse = [] :: ls := by
    obtain ⟨ms, m, rfl⟩ : ∃ ms m, ls = ms ++ [m] := by
      simpa using (List.eq_nil_or_concat ls).resolve_left hne
    have hm : m.isEmpty = false := by simpa using h.last m List.getLast?_concat
    simp [hm]
  have hfirst : ([] :: ls).dropWhile List.isEmpty = ls := by
    obtain ⟨m, ms, rfl⟩ := List.exists_cons_of_ne_nil hne
    have hm : m.isEmpty = false := by simpa using h.first m rfl
    simp [hm]
  unfold decode?
  dsimp only
  rw [lineTexts_printedAt hi h, hlast, hfirst, if_neg (by simpa using hne)]

end

/-- The comment that is printed in a place: what is there, from its first character to its last. -/
def commentAt (printed : Text) : Option Text := if printed.isEmpty then none else some (trimBlank printed)

theorem linesOf_commentAt {i : Text} (hi : ∀ c ∈ i, isIndent c = true) {ls : List Text} (h : IsDoc ls) (hne : ls ≠ []) :
    linesOf (commentAt (printedAt i ls)) = ls := by
  have hsome : commentAt (printedAt i ls) = some (trimBlank (printedAt i ls)) := by
    rw [commentAt, if_neg]
    simp [printedAt, blockLines]
  have htrim : decode? (trimBlank (printedAt i ls)) = decode? (printedAt i ls) := by
    rw [decode?, decode?, trimBlank_trimBlank]
  rw [linesOf, hsome, Option.bind_some, htrim, decode?_printedAt hi h hne, Option.getD_some]

/-- The documentation of a class, and of a member, is read again from the printed file. -/
theorem linesOf_printed (u : IndentUnit) {ls : List Text} (h : IsDoc ls) (hplain : ∀ l ∈ ls, isPlainLine l = true) :
    linesOf (commentAt (tidy (block ls))) = ls ∧ linesOf (commentAt (tidy (indent u (block ls)))) = ls := by
  by_cases hne : ls = []
  · subst hne
    exact ⟨rfl, rfl⟩
  · have hunit : ∀ c ∈ u.text ++ [], isIndent c = true := fun c hc => isIndent_of_mem_unit (by simpa using hc)
    rw [block_eq hne, indent_printedAt h u (by simp), tidy_printedAt h (by simp) hplain, tidy_printedAt h hunit hplain]
    exact ⟨linesOf_commentAt (by simp) h hne, linesOf_commentAt hunit h hne⟩

end ClassOutline.DocComment
