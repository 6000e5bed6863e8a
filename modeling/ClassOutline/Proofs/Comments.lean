import ClassOutline.Extraction
import ClassOutline.Proofs.DocBlocks
import ClassOutline.Tree.Issue
import Mathlib.Data.List.Flatten
/-
  ClassOutline.Proofs.Comments — what a comment documents, and a comment for what is documented.

  Of a block comment only what stands between its delimiters is documentation: its lines are a
  subsequence of that text (`delimiters_left_out_iff`), and a comment of blanks documents
  nothing. Each delimiter is taken off by itself, the opening one first, so in the shortest
  comment they share a star: of `/**/` its opening one is taken for `/**`, and the slash that is
  left is documentation (`shortest_comment_documents_a_slash`).

  The other way round, documentation read from any comment is read again from the block it is
  printed as, however many levels that is moved in (`decode?_indentAt`).
-/

namespace ClassOutline.DocComment

open ClassOutline.Text ClassOutline.Layout

/-! ## Between the delimiters -/

/-- A block comment around a text. -/
def blockComment (inner : Text) : Text := "/*".toList ++ (inner ++ "*/".toList)

theorem trimBlank_blockComment (i : Text) : trimBlank (blockComment i) = blockComment i := by
  have hink : EndsInk ('/' :: '*' :: (i ++ ['*', '/'])) := by
    have hlast : '/' :: '*' :: (i ++ ['*', '/']) = ('/' :: '*' :: (i ++ ['*'])) ++ ['/'] := by simp
    rw [hlast]
    exact endsInk_append (fun c hc => by cases hc; rfl) (by simp)
  have htrim := trimBlank_append (i := []) (z := []) (by simp) rfl hink (by simp)
  rwa [List.append_nil, List.nil_append] at htrim

theorem dropTail_append (t tail : Text) : dropTail tail (t ++ tail) = t := by
  rw [dropTail, before?_eq_some_iff.mpr rfl, Option.getD_some]

/-- Both delimiters go, and with the opening one a star behind it. -/
theorem inside_blockComment {i : Text} (h : i ≠ []) : inside (trimBlank (blockComment i)) = dropHead ['*'] i := by
  obtain ⟨c, r, rfl⟩ := List.exists_cons_of_ne_nil h
  rw [trimBlank_blockComment]
  by_cases hc : c = '*'
  · subst hc
    have hopen : after? "/**".toList (blockComment ('*' :: r)) = some (r ++ "*/".toList) := after?_eq_some_iff.mpr rfl
    have hafter : after? ['*'] ('*' :: r) = some r := after?_eq_some_iff.mpr rfl
    have hstar : dropHead ['*'] ('*' :: r) = r := by rw [dropHead, hafter, Option.getD_some]
    rw [inside, hopen, Option.orElse_some, Option.getD_some, hstar]
    exact dropTail_append r _
  · have hplain : after? "/**".toList (blockComment (c :: r)) = none := by
      refine Option.eq_none_iff_forall_ne_some.mpr fun x hx => hc ?_
      have heq := after?_eq_some_iff.mp hx
      simp only [blockComment, String.reduceToList, List.cons_append, List.nil_append, List.cons.injEq] at heq
      exact heq.2.2.1
    have hopen : after? "/*".toList (blockComment (c :: r)) = some (c :: r ++ "*/".toList) := after?_eq_some_iff.mpr rfl
    have hstar : dropHead ['*'] (c :: r) = c :: r := by
      rcases hafter : after? ['*'] (c :: r) with - | x
      · rw [dropHead, hafter, Option.getD_none]
      · exact absurd (List.cons.inj (after?_eq_some_iff.mp hafter)).1 hc
    rw [inside, hplain, Option.orElse_none, hopen, Option.getD_some, hstar]
    exact dropTail_append (c :: r) _

/-! ## Its lines -/

theorem flatten_lines_sublist (t : Text) : (lines t).flatten.Sublist t := by
  induction t using text_induction with
  | line l hl =>
    by_cases hne : l = []
    · subst hne
      exact List.Sublist.refl []
    · rw [lines_of_not_mem hl hne, List.flatten_singleton]
  | more l r hl ih =>
    rw [lines_line_append hl, List.flatten_cons]
    exact (dropTail_sublist ['\r'] l).append (ih.cons '\n')

theorem lineText_sublist (l : Text) : (lineText l).Sublist l :=
  (trim_sublist _ _).trans ((dropHead_sublist _ _).trans (trim_sublist _ _))

theorem flatten_map_sublist {f : Text → Text} (hf : ∀ l, (f l).Sublist l) (ls : List Text) :
    (ls.map f).flatten.Sublist ls.flatten := by
  induction ls with
  | nil => exact List.Sublist.refl []
  | cons l ls ih =>
    rw [List.map_cons, List.flatten_cons, List.flatten_cons]
    exact (hf l).append ih

/-- What is documented stands in the comment, in order. -/
theorem flatten_linesOf_sublist (comment : Text) :
    (linesOf (some comment)).flatten.Sublist (inside (trimBlank comment)) := by
  have hlines := (flatten_map_sublist lineText_sublist (lines (inside (trimBlank comment)))).trans
    (flatten_lines_sublist (inside (trimBlank comment)))
  rw [linesOf, Option.bind_some]
  unfold decode?
  dsimp only
  generalize (lines (inside (trimBlank comment))).map lineText = ls at hlines
  have hkept : ((ls.reverse.dropWhile List.isEmpty).reverse.dropWhile List.isEmpty).Sublist ls := by
    refine (List.dropWhile_sublist _).trans ?_
    have hback := (List.dropWhile_sublist (l := ls.reverse) List.isEmpty).reverse
    rwa [List.reverse_reverse] at hback
  split
  · exact List.nil_sublist _
  · exact hkept.flatten.trans hlines

theorem decode?_eq_none_of_lines {comment : Text} (h : ∀ l ∈ lines (inside (trimBlank comment)), lineText l = []) :
    decode? comment = none := by
  unfold decode?
  dsimp only
  have hall : ∀ l ∈ ((lines (inside (trimBlank comment))).map lineText).reverse, l.isEmpty = true := by
    intro l hl
    obtain ⟨l', hl', rfl⟩ := List.mem_map.mp (List.mem_reverse.mp hl)
    rw [h l' hl', List.isEmpty_nil]
  rw [List.dropWhile_eq_nil_iff.mpr hall]
  rfl

theorem lineText_of_isAllBlank {l : Text} (h : ∀ c ∈ l, isBlank c = true) : lineText l = [] := by
  have htrim : trimBlank l = [] := by
    rw [trimBlank, trim, trimStart, List.dropWhile_eq_nil_iff.mpr h]
    rfl
  rw [lineText, htrim]
  rfl

/-- Blanks between delimiters document nothing. -/
theorem decode?_blanks {i : Text} (hne : i ≠ []) (hi : isAllBlank i = true) : decode? (blockComment i) = none := by
  refine decode?_eq_none_of_lines fun l hl => lineText_of_isAllBlank fun c hc => ?_
  rw [inside_blockComment hne] at hl
  have hmem : c ∈ i :=
    (dropHead_sublist _ _).mem ((flatten_lines_sublist _).mem (List.mem_flatten.mpr ⟨l, hl, hc⟩))
  exact List.all_eq_true.mp hi c hmem

/-- No character of a delimiter is documentation, unless nothing stands between the two: what is
    documented is a subsequence of the text between them, and nothing if that is blank. -/
theorem delimiters_left_out_iff (i : Text) :
    ((linesOf (some (blockComment i))).flatten.Sublist i ↔ i ≠ []) ∧
      (isAllBlank i = true → (decode? (blockComment i) = none ↔ i ≠ [])) := by
  have hslash : decode? (blockComment []) = some [['/']] := by decide
  refine ⟨⟨?_, fun hne => ?_⟩, fun hi => ⟨?_, fun hne => decode?_blanks hne hi⟩⟩
  · rintro hsub rfl
    rw [linesOf, Option.bind_some, hslash] at hsub
    cases hsub
  · have hsub := flatten_linesOf_sublist (blockComment i)
    rw [inside_blockComment hne] at hsub
    exact hsub.trans (dropHead_sublist _ _)
  · rintro hnone rfl
    rw [hslash] at hnone
    cases hnone

/-- Stars and slashes at both ends, none of them part of a delimiter. -/
def starredSample : Text := "/* a\n\t**\u00a0/* b\n * / **".toList

theorem delimiters_left_out_sample :
    starredSample ≠ [] ∧ linesOf (some (blockComment starredSample)) = ["/* a".toList, "*\u00a0/* b".toList, "/ **".toList] ∧
      (linesOf (some (blockComment starredSample))).flatten.Sublist starredSample := by
  have hne : starredSample ≠ [] := by decide
  exact ⟨hne, by decide +kernel, (delimiters_left_out_iff starredSample).1.mpr hne⟩

/-- The delimiters of the shortest comment have a star in common, and its slash is documentation,
    also of a class behind it. -/
theorem shortest_comment_documents_a_slash :
    let source := "<?php /**/ class A \x7b\x7d".toList
    decode? (blockComment []) = some [['/']] ∧
      ¬ (linesOf (some (blockComment []))).flatten.Sublist [] ∧
      (Tree.read source).issues = [] ∧
      (extract source .none).toOption.map (fun m => (m.classes []).map fun c => (c.name, c.doc)) =
        some [("A".toList, [['/']])] := by
  decide +kernel

/-! ## At any level -/

/-- Every line that holds more than blanks behind a margin, the others empty. -/
def indentBy (margin t : Text) : Text := joinLines ((splitLines t).map (indentLine margin))

/-- Moved in by a number of levels. -/
def indentAt (u : IndentUnit) (level : Nat) (t : Text) : Text := indentBy (List.replicate level u.text).flatten t

theorem indentAt_one (u : IndentUnit) (t : Text) : indentAt u 1 t = indent u t := by
  rw [indentAt, List.replicate_one, List.flatten_singleton, indentBy, indent]

theorem indentBy_line_append (margin : Text) {l : Text} (hl : '\n' ∉ l) (r : Text) :
    indentBy margin (l ++ '\n' :: r) = indentLine margin l ++ '\n' :: indentBy margin r := by
  obtain ⟨m, ls, hr⟩ := List.exists_cons_of_ne_nil (splitLines_ne_nil r)
  rw [indentBy, indentBy, splitLines_line_append hl, hr, List.map_cons, List.map_cons, joinLines_cons_cons]

/-- Lines that are ended move in one by one, and what follows them as if it stood alone. -/
theorem indentBy_lines_append (margin : Text) {ks : List Text} (hks : ∀ k ∈ ks, '\n' ∉ k) (r : Text) :
    indentBy margin (ks.flatMap (· ++ ['\n']) ++ r) =
      ks.flatMap (fun k => indentLine margin k ++ ['\n']) ++ indentBy margin r := by
  induction ks with
  | nil => rfl
  | cons k ks ih =>
    obtain ⟨hk, hks⟩ := List.forall_mem_cons.mp hks
    have hsplit : ∀ w x y : Text, (w ++ ['\n'] ++ x) ++ y = w ++ '\n' :: (x ++ y) := fun w x y => by simp
    rw [List.flatMap_cons, List.flatMap_cons, hsplit, hsplit, indentBy_line_append margin hk, ih hks]

section

variable {ls : List Text} (h : IsDoc ls) (hne : ls ≠ []) (margin : Text)

include h hne

/-- A block moves in as it is, whatever is documented by it. -/
theorem indentBy_block_append (r : Text) : indentBy margin (block ls ++ r) = printedAt margin ls ++ indentBy margin r := by
  have hlines : ∀ k ∈ blockLines ls, '\n' ∉ k := fun k hk => (blockLines_ink h k hk).1
  have hmoved : ∀ k ∈ blockLines ls, indentLine margin k ++ ['\n'] = margin ++ (k ++ ['\n']) := by
    intro k hk
    obtain ⟨-, hink, hk⟩ := blockLines_ink h k hk
    rw [indentLine, hink.isAllBlank hk, if_neg Bool.false_ne_true, List.append_assoc]
  have hblock : block ls = (blockLines ls).flatMap (· ++ ['\n']) := block_eq hne
  rw [hblock, indentBy_lines_append margin hlines, printedAt, List.flatMap_congr hmoved]

theorem indentBy_block : indentBy margin (block ls) = printedAt margin ls := by
  have hmoved := indentBy_block_append h hne margin []
  rwa [List.append_nil, show indentBy margin [] = [] from rfl, List.append_nil] at hmoved

end

theorem isIndent_of_mem_levels {u : IndentUnit} {level : Nat} :
    ∀ c ∈ (List.replicate level u.text).flatten, isIndent c = true := by
  intro c hc
  obtain ⟨w, hw, hc⟩ := List.mem_flatten.mp hc
  rw [List.eq_of_mem_replicate hw] at hc
  exact isIndent_of_mem_unit hc

theorem ne_nil_of_decode? {comment : Text} {ls : List Text} (h : decode? comment = some ls) : ls ≠ [] := by
  unfold decode? at h
  dsimp only at h
  split at h
  · cases h
  · rename_i hne
    rw [← Option.some.inj h]
    simpa using hne

/-- Documentation read from a comment is read again from its block: from where it stands before a
    class, before a member, and any number of levels in. What is documented by it stands behind
    the block there. -/
theorem decode?_indentAt {comment : Text} {ls : List Text} (h : decode? comment = some ls) (u : IndentUnit) :
    decode? (block ls) = some ls ∧ decode? (indent u (block ls)) = some ls ∧
      ∀ level, decode? (indentAt u level (block ls)) = some ls ∧
        ∀ r, indentAt u level (block ls ++ r) = indentAt u level (block ls) ++ indentAt u level r := by
  have hne := ne_nil_of_decode? h
  have hdoc : IsDoc ls := by
    have hof := isDoc_linesOf (some comment)
    rwa [linesOf, Option.bind_some, h, Option.getD_some] at hof
  have hat : ∀ level, decode? (indentAt u level (block ls)) = some ls := by
    intro level
    rw [indentAt, indentBy_block hdoc hne]
    exact decode?_printedAt isIndent_of_mem_levels hdoc hne
  refine ⟨?_, ?_, fun level => ⟨hat level, fun r => ?_⟩⟩
  · rw [block_eq hne]
    exact decode?_printedAt (by simp) hdoc hne
  · rw [← indentAt_one]
    exact hat 1
  · rw [indentAt, indentAt, indentAt, indentBy_block_append hdoc hne, indentBy_block hdoc hne]

/-- A comment with wide blanks, an empty line, and lines that begin like its delimiters. -/
def commentSample : Text := "/***/ a\r\n\u2003\n\t* ** b */\n   /* c\u3000*\u0085\n **/".toList

theorem decode?_indentAt_sample :
    decode? commentSample = some ["/ a".toList, [], "** b */".toList, "/* c\u3000*".toList] ∧
      decode? (indentAt (.spaces 3) 4 (block ["/ a".toList, [], "** b */".toList, "/* c\u3000*".toList])) =
        some ["/ a".toList, [], "** b */".toList, "/* c\u3000*".toList] := by
  have hread : decode? commentSample = some ["/ a".toList, [], "** b */".toList, "/* c\u3000*".toList] := by
    decide +kernel
  obtain ⟨-, -, hat⟩ := decode?_indentAt hread (.spaces 3)
  exact ⟨hread, (hat 4).1⟩

end ClassOutline.DocComment
