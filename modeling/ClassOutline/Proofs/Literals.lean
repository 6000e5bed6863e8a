import ClassOutline.Proofs.Blocks
import ClassOutline.Proofs.Lexing.Literals
/-
  ClassOutline.Proofs.Literals — the literals of a body, and of the body as it is printed.

  Printing moves lines and trims their ends without a look at tokens, so a literal of several
  lines does not stay as it is (`literals_of_broken_line`). Nothing else happens to it, though: a
  printed body has the literals of the body, one for one, each the same but for white space at
  the edges of its lines (`literals_of_printed_body`). What this needs of the body is that its
  literals and comments end, that no control characters go, and that white space at the ends
  of lines neither makes a heredoc nor ends one.
-/

namespace ClassOutline.Layout

open ClassOutline.Text ClassOutline.Token

/-! ## Bodies as code -/

/-- The tokens of a body, as code behind a tag. -/
def bodyTokens (b : Text) : List Token := tokenize ("<?php ".toList ++ b)

def literals (b : Text) : List Text := literalTexts (bodyTokens b)

/-- Whether a body stays in code, and all its literals and comments end. -/
def isWhole (b : Text) : Bool := (bodyTokens b).all fun tok => tok.kind != .closeTag && isTerminated tok

/-- Whether blanks at the ends of lines matter to no heredoc. -/
def keepsHeredocs (b : Text) : Bool := (bodyTokens b).tails.all fun ts => keepsHeredoc (textOf ts)

/-- The lines of a text without spaces and tabs before them and without blanks behind them. -/
def strippedLines (t : Text) : List Text := (splitLines t).map fun l => trimEnd isBlank (trimStart isIndent l)

theorem lexes_body (b : Text) :
    ∃ ts s, bodyTokens b = ⟨.openTag, "<?php".toList, 1⟩ :: ts ∧ LexState.inCode s = true ∧ Lexes s (' ' :: b) ts := by
  have hrun := lexes_tokenize ("<?php ".toList ++ b)
  have hlex : lexeme .start '<' (['?', 'p', 'h', 'p', ' '] ++ b) = ⟨.openTag, 5⟩ := rfl
  have htok : nextToken .start '<' (['?', 'p', 'h', 'p', ' '] ++ b) = ⟨.openTag, "<?php".toList, 1⟩ := rfl
  rw [bodyTokens]
  generalize tokenize ("<?php ".toList ++ b) = ts at hrun
  change Lexes .start ('<' :: (['?', 'p', 'h', 'p', ' '] ++ b)) ts at hrun
  cases hrun with
  | step _ _ _ ts rest =>
    rw [htok, hlex] at rest
    exact ⟨ts, LexState.start.next ⟨.openTag, "<?php".toList, 1⟩, by rw [htok], rfl, rest⟩

theorem literals_eq (b : Text) : literals b = codeLiterals b := by
  obtain ⟨ts, s, htokens, hs, hts⟩ := lexes_body b
  have hrest : literals b = literalTexts ts := by
    rw [literals, htokens]
    rfl
  rw [hrest, literalTexts_of_lexes hs hts, (passes_blank rfl b).1]

theorem settled_of_isWhole {b : Text} (hb : isWhole b = true) (hh : keepsHeredocs b = true) : Settled b := by
  obtain ⟨ts, s, htokens, hs, hts⟩ := lexes_body b
  rw [isWhole, htokens, List.all_cons, Bool.and_eq_true, List.all_eq_true] at hb
  rw [keepsHeredocs, htokens, List.tails_cons, List.all_cons, Bool.and_eq_true, List.all_eq_true] at hh
  refine (passes_blank rfl b).2 (settled_of_lexes hs hts (fun tok htok => ?_) hh.2)
  simpa using hb.2 tok htok

/-! ## Edges of lines -/

theorem stripped_margin {i : Text} (hi : ∀ c ∈ i, isIndent c = true) (t : Text) :
    trimStart isIndent (i ++ t) = trimStart isIndent t := List.dropWhile_append_of_pos hi

theorem stripped_blanks {z : Text} (hz : ∀ c ∈ z, isBlank c = true) (t : Text) :
    trimEnd isBlank (trimStart isIndent (t ++ z)) = trimEnd isBlank (trimStart isIndent t) := by
  unfold trimStart
  rw [List.dropWhile_append]
  split
  · rename_i he
    rw [List.isEmpty_iff.mp he]
    exact trimEnd_eq_nil_iff.mpr fun c hc => hz c ((List.dropWhile_sublist _).mem hc)
  · exact trimEnd_append_blank hz _

/-- Behind margins and a part they share, texts that are laid out anew have the same lines but
    for their edges. -/
theorem strippedLines_laidPart {v v' : Text} (h : LaidPart v v') {i i' : Text} (hi : ∀ c ∈ i, isIndent c = true)
    (hi' : ∀ c ∈ i', isIndent c = true) {q : Text} (hq : '\n' ∉ q) :
    strippedLines (i' ++ (q ++ v')) = strippedLines (i ++ (q ++ v)) := by
  have hnot : ∀ {w : Text}, (∀ c ∈ w, isIndent c = true) → '\n' ∉ w := fun hw hmem => by cases hw _ hmem
  induction h generalizing i i' q with
  | stop h =>
    obtain ⟨rfl, rfl⟩ := h
    have hline : ∀ {w : Text}, (∀ c ∈ w, isIndent c = true) →
        strippedLines (w ++ q) = [trimEnd isBlank (trimStart isIndent q)] := by
      intro w hw
      rw [strippedLines, splitLines_of_not_mem (by simpa using ⟨hnot hw, hq⟩), List.map_singleton, stripped_margin hw]
    rw [List.append_nil, hline hi, hline hi']
  | same c hc hb rest ih =>
    have hassoc : ∀ w : Text, q ++ c :: w = (q ++ [c]) ++ w := fun w => (List.append_cons q c w)
    have hq' : '\n' ∉ q ++ [c] := by simpa using ⟨hq, Ne.symm hc.1⟩
    have := ih hi hi' hq'
    rwa [← hassoc, ← hassoc] at this
  | @line t t' blanks margin margin' hb hm hm' rest ih =>
    have hblanks : '\n' ∉ blanks := fun hmem => (hb _ hmem).2 rfl
    have hrest := ih hm hm' (q := []) (by simp)
    have hassoc : i ++ (q ++ (blanks ++ '\n' :: (margin ++ t))) = (i ++ (q ++ blanks)) ++ '\n' :: (margin ++ t) := by simp
    have hassoc' : i' ++ (q ++ '\n' :: (margin' ++ t')) = (i' ++ q) ++ '\n' :: (margin' ++ t') := by simp
    rw [List.nil_append, List.nil_append] at hrest
    rw [hassoc, hassoc', strippedLines, strippedLines,
      splitLines_line_append (by simpa using ⟨hnot hi', hq⟩), splitLines_line_append (by simpa using ⟨hnot hi, hq, hblanks⟩),
      List.map_cons, List.map_cons, stripped_margin hi, stripped_margin hi', stripped_blanks fun c hc => (hb c hc).1]
    exact congrArg _ hrest

theorem eq_of_laidPart {v v' : Text} (h : LaidPart v v') (hv : '\n' ∉ v) : v' = v := by
  induction h with
  | stop h => rw [h.1, h.2]
  | same c hc hb rest ih => rw [ih fun hmem => hv (List.mem_cons_of_mem c hmem)]
  | line blanks => exact absurd (by simp) hv

/-! ## The body as it is printed -/

/-- A line two levels in. -/
def twoIn (u : IndentUnit) (l : Text) : Text := indentLine u.text (indentLine u.text l)

theorem twoIn_eq (u : IndentUnit) {l : Text} (h : EndsInk l) :
    ∃ margin, twoIn u l = margin ++ l ∧ ∀ c ∈ margin, isIndent c = true := by
  by_cases hne : l = []
  · subst hne
    exact ⟨[], rfl, by simp⟩
  · have hink : ∀ a : Text, isAllBlank (a ++ l) = false := by
      intro a
      rw [isAllBlank, List.all_append]
      have := h.isAllBlank hne
      rw [isAllBlank] at this
      rw [this, Bool.and_false]
    have hl : isAllBlank l = false := hink []
    refine ⟨u.text ++ u.text, ?_, fun c hc => ?_⟩
    · rw [twoIn, indentLine, indentLine, hl, if_neg Bool.false_ne_true, hink, if_neg Bool.false_ne_true,
        List.append_assoc]
    · rcases List.mem_append.mp hc with hc | hc <;> exact isIndent_of_mem_unit hc

/-- What is left of a line without the blanks behind it and the body's margin. -/
def rest (k : Nat) (l : Text) : Text := (trimEnd isBlank l).drop k

/-- A line of a body as it is printed. -/
def printedLine (u : IndentUnit) (k : Nat) (l : Text) : Text := twoIn u (rest k l)

/-- The lines of a body, laid out anew from the first character of the first of them. -/
theorem relaid_lines (u : IndentUnit) {k : Nat} {ls behind : List Text} (hne : ls ≠ [])
    (hls : ∀ l ∈ ls, '\n' ∉ l ∧ (∀ c ∈ trimEnd isBlank l, c ≠ '\r') ∧
      (trimEnd isBlank l ≠ [] → k ≤ margin (trimEnd isBlank l)))
    (hbehind : ∀ l ∈ behind, isAllBlank l = true) :
    ∃ i i' t t', joinLines (ls ++ behind) = i ++ t ∧
      joinLines (ls.map (printedLine u k)) ++ '\n' :: u.text = i' ++ t' ∧
      (∀ c ∈ i, isIndent c = true) ∧ (∀ c ∈ i', isIndent c = true) ∧ Relaid t t' := by
  have hparts : ∀ l ∈ ls, ∃ i z i', l = i ++ (rest k l ++ z) ∧ printedLine u k l = i' ++ rest k l ∧
      (∀ c ∈ i, isIndent c = true) ∧ (∀ c ∈ i', isIndent c = true) ∧ (∀ c ∈ z, isBlank c = true ∧ c ≠ '\n') ∧
      (∀ c ∈ rest k l, c ≠ '\n' ∧ c ≠ '\r') ∧ EndsInk (rest k l) := by
    intro l hl
    obtain ⟨hn, hr, hk⟩ := hls l hl
    obtain ⟨i, z, hl', hi, hz⟩ := line_parts hk
    have hink : EndsInk (rest k l) := (endsInk_trimEnd l).drop k
    obtain ⟨i', hi', hindent⟩ := twoIn_eq u hink
    refine ⟨i, z, i', hl', hi', hi, hindent, fun c hc => ⟨hz c hc, ?_⟩, fun c hc => ?_, hink⟩
    · rintro rfl
      exact hn (by rw [hl']; simp [hc])
    · have hmem : c ∈ trimEnd isBlank l := List.mem_of_mem_drop hc
      exact ⟨fun he => hn (he ▸ (trimEnd_sublist isBlank l).mem hmem), hr c hmem⟩
  induction ls with
  | nil => exact absurd rfl hne
  | cons l ls ih =>
    obtain ⟨⟨i, z, i', hl, hl', hi, hi', hz, hrest, hink⟩, hparts⟩ := List.forall_mem_cons.mp hparts
    cases ls with
    | nil =>
      have hjoin : ∃ w, joinLines ([l] ++ behind) = i ++ (rest k l ++ w) ∧ ∀ c ∈ w, isBlank c = true := by
        cases behind with
        | nil =>
          refine ⟨z, ?_, fun c hc => (hz c hc).1⟩
          rw [List.append_nil, joinLines_singleton]
          exact hl
        | cons m ms =>
          refine ⟨z ++ '\n' :: joinLines (m :: ms), ?_, ?_⟩
          · rw [List.singleton_append, joinLines_cons_cons]
            conv => lhs; rw [hl]
            simp
          · intro c hc
            rcases List.mem_append.mp hc with hc | hc
            · exact (hz c hc).1
            · rcases List.mem_cons.mp hc with rfl | hc
              · rfl
              · exact forall_mem_join (by simp; rfl) (fun l hl => List.all_eq_true.mp (hbehind l hl)) c hc
      obtain ⟨w, hw, hblank⟩ := hjoin
      refine ⟨i, i', rest k l ++ w, rest k l ++ '\n' :: u.text, hw, ?_, hi, hi', ?_⟩
      · rw [List.map_singleton, joinLines_singleton, hl', List.append_assoc]
      · exact (Laid.stop ⟨hblank, u.text, rfl, fun c hc => isIndent_of_mem_unit hc⟩).append hrest hink
    | cons m ms =>
      obtain ⟨j, j', t, t', hjoin, hjoin', hj, hj', ht⟩ := ih (List.cons_ne_nil _ _) (fun x hx => hls x (List.mem_cons_of_mem l hx)) hparts
      refine ⟨i, i', rest k l ++ (z ++ '\n' :: (j ++ t)), rest k l ++ '\n' :: (j' ++ t'), ?_, ?_, hi, hi', ?_⟩
      · rw [List.cons_append, List.cons_append, joinLines_cons_cons, ← List.cons_append, hjoin]
        conv => lhs; rw [hl]
        simp
      · rw [List.map_cons, List.map_cons, joinLines_cons_cons, ← List.map_cons, List.append_assoc, List.cons_append,
          hjoin', hl', List.append_assoc]
      · exact (Laid.line z j j' hz hj hj' ht).append hrest hink

theorem indent_twice (u : IndentUnit) {b : Text} {k : Nat} {ls : List Text} (hls : ∀ l ∈ ls, '\n' ∉ l)
    (hdedent : dedent b = joinLines (ls.map (rest k))) :
    indent u (indent u (dedent b)) = joinLines (ls.map (printedLine u k)) := by
  have hrest : ∀ l ∈ ls.map (rest k), '\n' ∉ l := by
    intro l hl
    obtain ⟨l', hl', rfl⟩ := List.mem_map.mp hl
    exact fun hmem => hls l' hl' ((trimEnd_sublist isBlank l').mem (List.mem_of_mem_drop hmem))
  have honce : ∀ l ∈ (ls.map (rest k)).map (indentLine u.text), '\n' ∉ l := by
    intro l hl
    obtain ⟨l', hl', rfl⟩ := List.mem_map.mp hl
    exact newline_not_mem_indentLine u (hrest l' hl')
  rw [hdedent, indent_joinLines u hrest, indent_joinLines u honce, List.map_map, List.map_map]
  rfl

theorem joinLines_printed_ne_nil (u : IndentUnit) {k : Nat} {ls : List Text} (hne : ls ≠ [])
    (hlast : ∀ l ∈ ls.getLast?, isAllBlank l = false)
    (hk : ∀ l ∈ ls, trimEnd isBlank l ≠ [] → k ≤ margin (trimEnd isBlank l)) :
    joinLines (ls.map (printedLine u k)) ≠ [] := by
  have hl := List.getLast?_eq_some_getLast hne
  have hmem := List.getLast_mem hne
  generalize ls.getLast hne = l at hl hmem
  have hink : trimEnd isBlank l ≠ [] := by
    intro he
    have := hlast l hl
    rw [isAllBlank, List.all_eq_true.mpr (trimEnd_eq_nil_iff.mp he)] at this
    cases this
  have hrest : rest k l ≠ [] := drop_margin_ne_nil (endsInk_trimEnd l) hink (hk l hmem hink)
  obtain ⟨margin, hprinted, -⟩ := twoIn_eq u ((endsInk_trimEnd l).drop k)
  have hline : printedLine u k l ≠ [] := by
    rw [printedLine, rest, hprinted]
    exact List.append_ne_nil_of_right_ne_nil _ hrest
  intro hnil
  have hend := getLast?_joinLines (by rw [List.getLast?_map, hl]; rfl) hline
  rw [hnil] at hend
  exact hline (List.getLast?_eq_none_iff.mp hend.symm)

/-- White space aside that begins them, what is printed of a body is the body laid out anew. -/
theorem relaid_body (u : IndentUnit) {b : Text} (hplain : hasPlainLines b = true) :
    ∃ t t', Passes b t ∧ Passes (insideOf u b) t' ∧ Relaid t t' := by
  obtain ⟨before, ls, behind, k, hsplit, hblank, hlast, hdedent, hk⟩ := dedent_lines b
  have hb : b = joinLines (before ++ (ls ++ behind)) := by rw [← hsplit, joinLines_splitLines]
  have hbefore : ∀ l ∈ before, isAllBlank l = true := fun l hl => hblank l (List.mem_append_left _ hl)
  have hbehind : ∀ l ∈ behind, isAllBlank l = true := fun l hl => hblank l (List.mem_append_right _ hl)
  have hmem : ∀ l ∈ ls, l ∈ splitLines b := by
    intro l hl
    rw [hsplit]
    simp [hl]
  have hnot : ∀ l ∈ ls, '\n' ∉ l := fun l hl => newline_not_mem_of_mem_splitLines (hmem l hl)
  have htidied := tidied_eq_ended u hplain
  rw [indent_twice u hnot hdedent] at htidied
  by_cases hne : ls = []
  · subst hne
    refine ⟨b, '\n' :: u.text, Passes.refl b, ?_, Laid.stop ⟨?_, u.text, rfl, fun c hc => isIndent_of_mem_unit hc⟩⟩
    · rw [insideOf, indent_twice u hnot hdedent, htidied]
      exact Passes.refl _
    · rw [hb, List.nil_append]
      exact forall_mem_join (P := fun c => isBlank c = true) (by simp; rfl)
        fun l hl => List.all_eq_true.mp (hblank l hl)
  · have hreturn : ∀ l ∈ ls, '\n' ∉ l ∧ (∀ c ∈ trimEnd isBlank l, c ≠ '\r') ∧
        (trimEnd isBlank l ≠ [] → k ≤ margin (trimEnd isBlank l)) := by
      refine fun l hl => ⟨hnot l hl, fun c hc he => ?_, hk l hl⟩
      subst he
      rcases of_hasPlainLines hplain (hmem l hl) _ hc with h | h <;> cases h
    obtain ⟨i, i', t, t', hjoin, hjoin', hi, hi', ht⟩ := relaid_lines u hne hreturn hbehind
    refine ⟨t, t', ?_, ?_, ht⟩
    · have hmargin : Passes (i ++ t) t := passes_codeBlanks (fun c hc => isCodeBlank_of_isIndent (hi c hc)) t
      by_cases hnil : before = []
      · rw [hb, hnil, List.nil_append, hjoin]
        exact hmargin
      · rw [hb, joinLines_append hnil (by simp [hne]), hjoin]
        have hblanks : ∀ c ∈ joinLines before, isBlank c = true :=
          forall_mem_join (P := fun c => isBlank c = true) (by simp; rfl) fun l hl => List.all_eq_true.mp (hbefore l hl)
        exact ((passes_blanks hblanks rfl).trans (passes_blank rfl _)).trans hmargin
    · have hinside : insideOf u b = '\n' :: (i' ++ t') := by
        rw [insideOf, indent_twice u hnot hdedent, htidied, ended_ne_nil (joinLines_printed_ne_nil u hne hlast hk), List.append_assoc,
          List.singleton_append, hjoin']
      rw [hinside]
      exact (passes_blank rfl _).trans (passes_codeBlanks (fun c hc => isCodeBlank_of_isIndent (hi' c hc)) t')

/-- The body of a method is printed between two braces, and what stands there has the literals of
    the body, one for one: each has the same lines but for their edges, and a literal of one
    line is the same. -/
theorem literals_of_printed_body (o : Options) (s : Site) :
    ∃ before behind, ∀ (f : FileModel) (b : Text), f.groups.entries = s.groupsWith b →
      file o f = before ++ '{' :: (insideOf o.unit b ++ '}' :: behind) ∧
        (isWhole b = true → hasPlainLines b = true → keepsHeredocs b = true →
          List.Forall₂ (fun v v' => strippedLines v' = strippedLines v ∧ ('\n' ∉ v → v' = v))
            (literals b) (literals (insideOf o.unit b))) := by
  obtain ⟨before, behind, hfile⟩ := file_around_body o s
  refine ⟨before, behind, fun f b hf => ⟨hfile f b hf, fun hwhole hplain hheredocs => ?_⟩⟩
  obtain ⟨t, t', ht, ht', hrelaid⟩ := relaid_body o.unit hplain
  have hliterals := hrelaid.literals (ht.2 (settled_of_isWhole hwhole hheredocs))
  rw [literals_eq, literals_eq, ht.1, ht'.1]
  refine hliterals.imp fun v v' hv => ⟨?_, eq_of_laidPart hv⟩
  exact strippedLines_laidPart hv (by simp : ∀ c ∈ ([] : Text), isIndent c = true) (by simp : ∀ c ∈ ([] : Text), isIndent c = true) (q := []) (by simp)

/-- A class with one method, as the only class of a file. -/
def onlyMethod : Site where
  groupsBefore := []
  scope := []
  classesBefore := []
  holder := .named ['A']
  methodsBefore := []
  method := ⟨['f'], false, false, false, false, .isPublic, [], none, [], none⟩
  concrete := rfl
  methodsBehind := []
  classesBehind := []
  groupsBehind := []

def onlyMethodFile (b : Text) : FileModel := ⟨⟨onlyMethod.groupsWith b, by simp [Site.groupsWith, onlyMethod]⟩⟩

/-- A heredoc, a literal over two lines of which one ends in blanks, and one on a line. -/
def sampleBody : Text := "\r\n    $a = <<<EOT\n      one \n    EOT;\n    return $a . 'two \n three' . \"four\";  \n".toList

theorem literals_of_printed_body_sample :
    ∃ before behind, file {} (onlyMethodFile sampleBody) = before ++ '{' :: (insideOf .tab sampleBody ++ '}' :: behind) ∧
      List.Forall₂ (fun v v' => strippedLines v' = strippedLines v ∧ ('\n' ∉ v → v' = v))
        (literals sampleBody) (literals (insideOf .tab sampleBody)) := by
  obtain ⟨before, behind, h⟩ := literals_of_printed_body {} onlyMethod
  obtain ⟨hfile, hliterals⟩ := h (onlyMethodFile sampleBody) sampleBody rfl
  exact ⟨before, behind, hfile, hliterals (by decide +kernel) (by decide +kernel) (by decide +kernel)⟩

/-- The second line of a literal moves two levels in with the body it stands in. -/
theorem literals_of_broken_line :
    isWhole "return 'a\nb';".toList = true ∧
      file {} (onlyMethodFile "return 'a\nb';".toList) =
        "<?php\n\nclass A\n\x7b\n\n\tpublic function f()\n\t".toList ++
          '{' :: (insideOf .tab "return 'a\nb';".toList ++ '}' :: "\n\n\x7d\n\n\n".toList) ∧
      literals "return 'a\nb';".toList = ["'a\nb'".toList] ∧
      literals (insideOf .tab "return 'a\nb';".toList) = ["'a\n\t\tb'".toList] ∧
      literals (insideOf .tab "return 'a\nb';".toList) ≠ literals "return 'a\nb';".toList := by
  decide +kernel

end ClassOutline.Layout
