import ClassOutline.Proofs.Blocks
/-
  ClassOutline.Proofs.MemberBlocks — printing the body that is read from a printed one.

  In a class a body stands between braces on lines of their own, one level in, and its lines two
  levels in (`memberBlock_eq`). Taken line by line, the block gives a body of these lines
  (`ofLines_memberBlock`), so it has another margin than the body it was printed from. `dedent`
  takes off what they differ in, and nothing else: both are printed as the same block
  (`memberBlock_reread`). Canonical white space then changes no character of it, if the body
  holds no control characters but tabs and newlines.
-/

namespace ClassOutline.Layout

open ClassOutline.Text

/-! ## The block -/

/-- The braces of a body and what is printed between them. A block begins with the newline that
    takes it off the header before it. -/
def braces (u : IndentUnit) (body : Text) : Text := (block u body).drop 1

/-- The braces of a body, as they stand in a class. -/
def memberBlock (u : IndentUnit) (body : Text) : Text := indent u (braces u body)

theorem block_congr (u : IndentUnit) {b b' : Text} (h : dedent b' = dedent b) : block u b' = block u b := by
  rw [block, block, h]

/-- A method that is not abstract is its header, and on the next line its braces. -/
theorem indent_method (u : IndentUnit) {m : Method} (hm : m.isAbstract = false) :
    indent u (method u m) = indent u (methodHeader m) ++ '\n' :: memberBlock u (m.body.getD []) := by
  have hblock : block u (m.body.getD []) = '\n' :: braces u (m.body.getD []) := by
    rw [braces, block_eq, List.drop_succ_cons, List.drop_zero]
  rw [method, hm, if_neg Bool.false_ne_true, hblock, indent_append, memberBlock]

/-- The lines of a body as they stand in a class. -/
def memberLines (u : IndentUnit) (b : Text) : Text := indent u (indent u (dedent b))

theorem memberBlock_eq (u : IndentUnit) (b : Text) :
    memberBlock u b = (u.text ++ ['{']) ++ '\n' :: (ended (memberLines u b) ++ (u.text ++ ['}'])) := by
  have hbrace : ∀ c : Char, '\n' ≠ c → isBlank c = false → indent u [c] = u.text ++ [c] := by
    intro c hc hblank
    have hall : isAllBlank [c] = false := Body.isAllBlank_of_mem hblank (by simp)
    rw [indent_of_not_mem u (by simpa using hc), indentLine, hall, if_neg Bool.false_ne_true]
  have hsplit : braces u b = ['{'] ++ '\n' :: (ended (indent u (dedent b)) ++ ['}']) := by
    rw [braces, block_eq]
    rfl
  rw [memberBlock, hsplit, indent_append, indent_ended u ((endsInk_dedent b).indent u), hbrace '{' (by decide) rfl,
    hbrace '}' (by decide) rfl, memberLines]

/-! ## Its lines -/

theorem isBlank_of_mem_unit {u : IndentUnit} {c : Char} (h : c ∈ u.text) : isBlank c = true :=
  isBlank_of_isIndent (isIndent_of_mem_unit h)

theorem newline_not_mem_unit (u : IndentUnit) : '\n' ∉ u.text := fun hmem => by cases isIndent_of_mem_unit hmem

/-- If no line ends in a blank, and there is something behind the last newline, a reader sees the
    lines there are. -/
theorem lines_eq_splitLines {t : Text} (hink : ∀ l ∈ splitLines t, EndsInk l) (hlast : (splitLines t).getLast? ≠ some []) :
    lines t = splitLines t := by
  rcases List.eq_nil_or_concat (splitLines t) with hnil | ⟨ls, l, hls⟩
  · exact absurd hnil (splitLines_ne_nil t)
  · rw [List.concat_eq_append] at hls
    rw [hls] at hink hlast
    have hne : l.isEmpty = false := by
      rw [List.isEmpty_eq_false_iff]
      rintro rfl
      exact hlast List.getLast?_concat
    have hsame : ls.map dropReturn = ls := by
      conv => rhs; rw [← List.map_id ls]
      exact List.map_congr_left fun m hm => (hink m (List.mem_append_left _ hm)).dropReturn_eq
    simp only [lines, hls, List.dropLast_concat, List.getLast?_concat, Option.getD_some, hne, hsame, Bool.false_eq_true,
      if_false]

/-- The lines of a text that is ended: none if it is empty. -/
def endedLines (t : Text) : List Text := if t.isEmpty then [] else splitLines t

theorem joinLines_endedLines (t : Text) : joinLines (endedLines t) = t := by
  rw [endedLines]
  split
  · rename_i he
    rw [List.isEmpty_iff.mp he]
    rfl
  · exact joinLines_splitLines t

theorem splitLines_ended_append (t r : Text) : splitLines (ended t ++ r) = endedLines t ++ splitLines r := by
  by_cases hne : t = []
  · rw [hne]
    rfl
  · rw [ended_ne_nil hne, endedLines, if_neg (by simpa using hne), List.append_assoc, List.singleton_append,
      splitLines_append]

theorem endsInk_brace (u : IndentUnit) {c : Char} (hc : isBlank c = false) : EndsInk (u.text ++ [c]) :=
  endsInk_append (fun _ hd => Option.some.inj hd ▸ hc) (by simp)

theorem splitLines_memberBlock (u : IndentUnit) (b : Text) :
    splitLines (memberBlock u b) = (u.text ++ ['{']) :: (endedLines (memberLines u b) ++ [u.text ++ ['}']]) := by
  have hbrace : ∀ c : Char, '\n' ≠ c → '\n' ∉ u.text ++ [c] := fun c hc => by
    simpa using ⟨newline_not_mem_unit u, hc⟩
  rw [memberBlock_eq, splitLines_line_append (hbrace '{' (by decide)), splitLines_ended_append,
    splitLines_of_not_mem (hbrace '}' (by decide))]

theorem endsInk_of_mem_memberBlock {u : IndentUnit} {b : Text} : ∀ l ∈ splitLines (memberBlock u b), EndsInk l := by
  rw [splitLines_memberBlock]
  refine List.forall_mem_cons.mpr ⟨endsInk_brace u rfl, List.forall_mem_append.mpr ⟨fun l hl => ?_, ?_⟩⟩
  · unfold endedLines at hl
    split at hl
    · cases hl
    · exact endsInk_of_mem_twice hl
  · exact List.forall_mem_singleton.mpr (endsInk_brace u rfl)

theorem lines_memberBlock (u : IndentUnit) (b : Text) :
    lines (memberBlock u b) = (u.text ++ ['{']) :: (endedLines (memberLines u b) ++ [u.text ++ ['}']]) := by
  rw [lines_eq_splitLines endsInk_of_mem_memberBlock, splitLines_memberBlock]
  rw [splitLines_memberBlock, Body.getLast?_cons_concat]
  simp

/-! ## The body that is read -/

theorem isLone_margin {i : Text} (hi : ∀ c ∈ i, isBlank c = true) {brace : Char} (hb : isBlank brace = false) :
    Body.isLone brace (i ++ [brace]) = true := by
  have htrim := trimBlank_append (r := []) (z := []) hi hb (fun c hc => Option.some.inj hc ▸ hb) (by simp)
  rw [List.append_nil] at htrim
  rw [Body.isLone, htrim, beq_self_eq_true]

/-- Of lines between braces on lines of their own just the braces go. -/
theorem ofLines_lone {first last : Text} (hfirst : Body.isLone '{' first = true) (hlast : Body.isLone '}' last = true)
    (ls : List Text) : Body.ofLines (first :: (ls ++ [last])) = joinLines ls := by
  simp only [Body.ofLines, List.head?_cons, Option.any_some, hfirst, if_true, List.drop_succ_cons, List.drop_zero,
    List.getLast?_concat, hlast, List.dropLast_concat]

/-- The body that is read from a block is its lines, two levels in. -/
theorem ofLines_memberBlock (u : IndentUnit) (b : Text) : Body.ofLines (lines (memberBlock u b)) = memberLines u b := by
  have hunit : ∀ c ∈ u.text, isBlank c = true := fun c hc => isBlank_of_mem_unit hc
  rw [lines_memberBlock, ofLines_lone (isLone_margin hunit rfl) (isLone_margin hunit rfl), joinLines_endedLines]

theorem dedent_memberLines (u : IndentUnit) (b : Text) : dedent (memberLines u b) = dedent b := by
  rw [memberLines, dedent_indent, dedent_indent, dedent_dedent]

/-! ## Canonical white space -/

theorem trim_eq_self {p : Char → Bool} {t : Text} (hfirst : ∀ c ∈ t.head?, p c = false) (hlast : ∀ c ∈ t.getLast?, p c = false) :
    trim p t = t := by
  have hstart : trimStart p t = t := by
    cases t with
    | nil => rfl
    | cons c t => exact List.dropWhile_cons_of_neg (by simp [hfirst c rfl])
  rcases List.eq_nil_or_concat t with rfl | ⟨a, c, rfl⟩
  · rfl
  · rw [List.concat_eq_append] at hlast hstart ⊢
    rw [trim, hstart, Body.trimEnd_concat (hlast c List.getLast?_concat)]

theorem hasPlainLines_of_control {b : Text} (h : ∀ c ∈ b, isControl c = true → c = '\t' ∨ c = '\n') :
    hasPlainLines b = true := by
  refine List.all_eq_true.mpr fun l hl => List.all_eq_true.mpr fun c hc => ?_
  have hline : c ∈ l := (trimEnd_sublist isBlank l).mem hc
  have hmem : c ∈ b := by
    rw [← joinLines_splitLines b]
    exact mem_joinLines hl hline
  cases hcontrol : isControl c with
  | false => rfl
  | true =>
    rcases h c hmem hcontrol with rfl | rfl
    · rfl
    · exact absurd hline (newline_not_mem_of_mem_splitLines hl)

theorem isKept_of_mem_memberBlock {u : IndentUnit} {b : Text} (h : hasPlainLines b = true) :
    ∀ c ∈ memberBlock u b, c ≠ '\r' ∧ isKept c = true := by
  have hunit : ∀ c ∈ u.text, c ≠ '\r' ∧ isKept c = true := fun c hc =>
    (of_isPlainLine (isPlainLine_of_isIndent fun d hd => isIndent_of_mem_unit hd) c hc).2
  have hlines : ∀ c ∈ ended (memberLines u b), c ≠ '\r' ∧ isKept c = true := by
    intro c hc
    unfold ended at hc
    split at hc
    · cases hc
    · rcases List.mem_append.mp hc with hc | hc
      · exact isKept_of_mem_twice h c hc
      · rw [List.mem_singleton.mp hc]
        decide
  rw [memberBlock_eq]
  simp only [List.forall_mem_append, List.forall_mem_cons]
  exact ⟨⟨hunit, by decide, by simp⟩, by decide, hlines, hunit, by decide, by simp⟩

/-- A body without control characters but tabs is printed in canonical white space. -/
theorem canonical_memberBlock (u : IndentUnit) {b : Text} (h : hasPlainLines b = true) :
    canonical (memberBlock u b) = memberBlock u b := by
  rw [canonical_eq, tidy_eq_self (isKept_of_mem_memberBlock h) fun l hl => (endsInk_of_mem_memberBlock l hl).isIndent_eq_false]
  refine trim_eq_self (fun c hc => ?_) fun c hc => ?_
  · have hfirst : c ∈ u.text ++ ['{'] := by
      rw [memberBlock_eq, List.append_assoc, List.head?_append] at hc
      cases hu : u.text.head? with
      | none =>
        rw [hu] at hc
        simpa using Or.inr (Option.some.inj hc).symm
      | some d =>
        rw [hu] at hc
        exact List.mem_append_left _ (List.mem_of_head? (hu.trans hc))
    have hne : c ≠ '\n' := by
      rintro rfl
      simpa using newline_not_mem_unit u <| by simpa using hfirst
    simpa using hne
  · rw [memberBlock_eq, ← List.cons_append, ← List.append_assoc, ← List.append_assoc, Option.mem_def,
      List.getLast?_concat] at hc
    obtain rfl := Option.some.inj hc
    rfl

/-- For every body: the block it is printed as in a class, taken line by line, gives a body that is
    the same without its margin, and so is printed as the same block. If the body holds no
    control characters but tabs and newlines, the block is canonical. -/
theorem memberBlock_reread (u : IndentUnit) (b : Text) :
    (∀ m : Method, m.isAbstract = false → m.body = some b →
      indent u (method u m) = indent u (methodHeader m) ++ '\n' :: memberBlock u b) ∧
    dedent (Body.ofLines (lines (memberBlock u b))) = dedent b ∧
    block u (Body.ofLines (lines (memberBlock u b))) = block u b ∧
    ((∀ c ∈ b, isControl c = true → c = '\t' ∨ c = '\n') → canonical (memberBlock u b) = memberBlock u b) := by
  have hdedent : dedent (Body.ofLines (lines (memberBlock u b))) = dedent b := by
    rw [ofLines_memberBlock, dedent_memberLines]
  refine ⟨fun m hm hb => ?_, hdedent, block_congr u hdedent,
    fun hplain => canonical_memberBlock u (hasPlainLines_of_control hplain)⟩
  rw [indent_method u hm, hb, Option.getD_some]

/-- A body with a blank line that holds a wide space, and with tabs and spaces for margins. -/
def marginSample : Text := "\t  if ($a) \x7b\n\u3000\n\t \treturn 1;\n\t  \x7d\n".toList

theorem memberBlock_reread_sample :
    Body.ofLines (lines (memberBlock (.spaces 2) marginSample)) ≠ marginSample ∧
      dedent (Body.ofLines (lines (memberBlock (.spaces 2) marginSample))) = dedent marginSample ∧
      block (.spaces 2) (Body.ofLines (lines (memberBlock (.spaces 2) marginSample))) = block (.spaces 2) marginSample ∧
      canonical (memberBlock (.spaces 2) marginSample) = memberBlock (.spaces 2) marginSample := by
  obtain ⟨-, hdedent, hblock, hcanonical⟩ := memberBlock_reread (.spaces 2) marginSample
  have hcontrol : marginSample.all (fun c => !isControl c || (c == '\t' || c == '\n')) = true := by decide +kernel
  refine ⟨by decide +kernel, hdedent, hblock, hcanonical fun c hc hc' => ?_⟩
  have hkept := List.all_eq_true.mp hcontrol c hc
  rw [hc'] at hkept
  simpa using hkept

end ClassOutline.Layout
