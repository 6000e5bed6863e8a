import ClassOutline.Proofs.MemberBlocks
/-
  ClassOutline.Proofs.Canonical — what canonical white space is.

  Four things are done to a text, one after the other, and each could undo what another has
  done: a control character that goes may leave a blank at the end of its line, a carriage
  return becomes the end of a line, a line of blanks becomes an empty one. `IsCanonical` says
  what is left without saying how. In the order they are done in nothing is undone: the lines
  are taken up when no character will go any more (`splitLines_tidy`), and the newlines at the
  ends take only empty lines with them (`mem_lines_of_mem_lines_trim`). A text with these
  properties stays as it is, so they are all there is to canonical white space
  (`canonical_white_space`).
-/

namespace ClassOutline.Text

/-! ## Ends that were trimmed -/

theorem trimStart_head? (p : Char → Bool) (t : Text) : ∀ c ∈ (trimStart p t).head?, p c = false := by
  intro c hc
  have := List.head?_dropWhile_not p t
  rw [trimStart] at hc
  rw [hc] at this
  simpa using this

theorem trimEnd_getLast? (p : Char → Bool) (t : Text) : ∀ c ∈ (trimEnd p t).getLast?, p c = false := by
  intro c hc
  rw [trimEnd, List.getLast?_reverse] at hc
  exact trimStart_head? p t.reverse c hc

/-- The start of a text is not touched at its end. -/
theorem trim_head? (p : Char → Bool) (t : Text) : ∀ c ∈ (trim p t).head?, p c = false := by
  intro c hc
  obtain ⟨b, -, hb⟩ := eq_trimEnd_append p (trimStart p t)
  refine trimStart_head? p t c ?_
  rw [hb, List.head?_append]
  rw [trim] at hc
  rw [hc]
  rfl

/-- A line that is left when newlines go from the ends was one before. -/
theorem mem_lines_of_mem_lines_trim {t l : Text} (h : l ∈ splitLines (trim (· == '\n') t)) : l ∈ splitLines t := by
  have hstart : ∀ {a u : Text}, (∀ c ∈ a, (c == '\n') = true) → l ∈ splitLines u → l ∈ splitLines (a ++ u) := by
    intro a u ha hl
    rcases List.eq_nil_or_concat a with rfl | ⟨a, c, rfl⟩
    · exact hl
    · obtain rfl : c = '\n' := beq_iff_eq.mp (ha c (by simp))
      rw [List.concat_eq_append, List.append_assoc, List.singleton_append, splitLines_append]
      exact List.mem_append_right _ hl
  have hend : ∀ {u b : Text}, (∀ c ∈ b, (c == '\n') = true) → l ∈ splitLines u → l ∈ splitLines (u ++ b) := by
    intro u b hb hl
    cases b with
    | nil => rwa [List.append_nil]
    | cons c b =>
      obtain rfl : c = '\n' := beq_iff_eq.mp (hb c (by simp))
      rw [splitLines_append]
      exact List.mem_append_left _ hl
  obtain ⟨a, ha, hat⟩ := eq_append_trimStart (· == '\n') t
  obtain ⟨b, hb, hbt⟩ := eq_trimEnd_append (· == '\n') (trimStart (· == '\n') t)
  rw [hat]
  refine hstart ha ?_
  rw [hbt]
  exact hend hb h

end ClassOutline.Text

namespace ClassOutline.Layout

open ClassOutline.Text

/-! ## Tidy lines -/

/-- The lines of a tidy text are the cleaned lines without the blanks at their ends. -/
theorem splitLines_tidy (t : Text) :
    splitLines (tidy t) = (splitLines ((unifyLineEnds t).filter isKept)).map (trimEnd isIndent) := by
  refine splitLines_joinLines (by simpa using splitLines_ne_nil _) fun l hl hmem => ?_
  obtain ⟨l', hl', rfl⟩ := List.mem_map.mp hl
  exact newline_not_mem_of_mem_splitLines hl' ((trimEnd_sublist isIndent l').mem hmem)

theorem isKept_of_mem_tidy {t : Text} {c : Char} (h : c ∈ tidy t) : isKept c = true := by
  rcases mem_of_mem_joinLines h with rfl | ⟨l, hl, hc⟩
  · rfl
  · obtain ⟨l', hl', rfl⟩ := List.mem_map.mp hl
    have hmem := mem_joinLines hl' ((trimEnd_sublist isIndent l').mem hc)
    rw [joinLines_splitLines] at hmem
    exact (List.mem_filter.mp hmem).2

/-! ## Canonical texts -/

/-- Text without control characters but tabs and newlines, without spaces and tabs at the ends
    of lines, and without newlines at its own. -/
structure IsCanonical (t : Text) : Prop where
  control : ∀ c ∈ t, isControl c = true → c = '\t' ∨ c = '\n'
  lineEnds : ∀ l ∈ splitLines t, ∀ c ∈ l.getLast?, c ≠ ' ' ∧ c ≠ '\t'
  first : t.head? ≠ some '\n'
  last : t.getLast? ≠ some '\n'

theorem isKept_iff {c : Char} : isKept c = true ↔ (isControl c = true → c = '\t' ∨ c = '\n') := by
  cases h : isControl c <;> simp [isKept, h]

theorem isIndent_eq_false_iff {c : Char} : isIndent c = false ↔ c ≠ ' ' ∧ c ≠ '\t' := by
  simp [isIndent]

theorem isCanonical_canonical (t : Text) : IsCanonical (canonical t) where
  control c hc := isKept_iff.mp (isKept_of_mem_tidy ((trim_sublist _ _).mem hc))
  lineEnds l hl c hc := by
    have hline : l ∈ splitLines (tidy t) := mem_lines_of_mem_lines_trim hl
    rw [splitLines_tidy] at hline
    obtain ⟨l', -, rfl⟩ := List.mem_map.mp hline
    exact isIndent_eq_false_iff.mp (trimEnd_getLast? isIndent l' c hc)
  first h := by simpa using trim_head? (· == '\n') (tidy t) '\n' h
  last h := by simpa using trimEnd_getLast? (· == '\n') (trimStart (· == '\n') (tidy t)) '\n' h

theorem IsCanonical.canonical_eq_self {t : Text} (h : IsCanonical t) : canonical t = t := by
  have hkept : ∀ c ∈ t, c ≠ '\r' ∧ isKept c = true := by
    intro c hc
    refine ⟨?_, isKept_iff.mpr (h.control c hc)⟩
    rintro rfl
    exact absurd (h.control '\r' hc rfl) (by decide)
  have htidy : tidy t = t :=
    tidy_eq_self hkept fun l hl c hc => isIndent_eq_false_iff.mpr (h.lineEnds l hl c hc)
  rw [canonical_eq, htidy]
  refine trim_eq_self (fun c hc => beq_false_of_ne ?_) fun c hc => beq_false_of_ne ?_
  · rintro rfl
    exact h.first hc
  · rintro rfl
    exact h.last hc

/-- Every text becomes canonical, and just the canonical texts stay as they are. -/
theorem canonical_white_space (t : Text) :
    IsCanonical (canonical t) ∧ (canonical t = t ↔ IsCanonical t) ∧ canonical (canonical t) = canonical t := by
  have hcanonical := isCanonical_canonical t
  refine ⟨hcanonical, ⟨fun h => ?_, IsCanonical.canonical_eq_self⟩, hcanonical.canonical_eq_self⟩
  rwa [h] at hcanonical

-- A control character in front of blanks, a lone carriage return, and a last line of blanks.
example : canonical "\n a \u0001\t\rb\r\n \t\n".toList = " a\nb".toList := by decide +kernel

end ClassOutline.Layout
