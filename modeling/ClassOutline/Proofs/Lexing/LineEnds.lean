import ClassOutline.Proofs.Bodies
import ClassOutline.Proofs.Lexing.Stops
import ClassOutline.Proofs.Paths
import ClassOutline.Proofs.Returns
/-
  ClassOutline.Proofs.Lexing.LineEnds — a source with other line ends has the same tokens.

  A token of a text without carriage returns reaches just as far when every newline gets one: no
  kind of token begins or ends between the two. Blanks hold both, names, numbers and operators
  neither. Where a line's end matters the return is dealt with: a line comment stops in front of
  it (`lineCommentLength_withReturns`), a closing tag and the opener of a heredoc take it along
  with the newline, and a label that closes a heredoc ends before it (`closingLength?_return`).
  Only an escape sees one character where there was another: before a line end it takes the
  return alone, and the newline is left to be passed over (`quotedTailLength_withReturns`).

  So each lexeme is that of the other text (`lexeme_withReturns`), by induction on runs so are
  all tokens, and the classes that are found are the same on the same lines (`line_ends_alike`).
-/

namespace ClassOutline.Token

open ClassOutline.Text

/-! ## Words and numbers -/

theorem nameLength_withReturns (t : Text) : nameLength (withReturns t) = reach t (nameLength t) := by
  rw [nameLength, nameLength, takeWhile_withReturns rfl, reach_takeWhile]

/-- No line ends in a number. -/
theorem numberLengthFrom_withReturns (seenDot : Bool) (t : Text) :
    numberLengthFrom seenDot (withReturns t) = reach t (numberLengthFrom seenDot t) := by
  induction hn : t.length using Nat.strong_induction_on generalizing t seenDot with
  | _ n ih =>
    subst hn
    cases t with
    | nil => rfl
    | cons c r =>
      by_cases hc : c = '\n'
      · subst hc
        rw [withReturns_newline, numberLengthFrom_eq_zero rfl rfl, numberLengthFrom_eq_zero rfl rfl]
        rfl
      have hlt : r.length < (c :: r).length := Nat.lt_succ_self _
      rw [withReturns_cons hc, numberLengthFrom_cons, numberLengthFrom_cons, head?_any_withReturns rfl,
        head?_any_withReturns rfl]
      by_cases hword : (c.isAlphanum || c == '_') = true
      · rw [if_pos hword, if_pos hword]
        split
        · rename_i hsign
          obtain ⟨d, u, rfl, hd⟩ := exists_sign hsign
          have hdn : d ≠ '\n' := by
            intro he
            subst he
            cases hd
          have htwo : 2 + numberLengthFrom seenDot u = 1 + (1 + numberLengthFrom seenDot u) := by omega
          rw [withReturns_cons hdn, List.drop_succ_cons, List.drop_zero, List.drop_succ_cons, List.drop_zero, htwo,
            reach_succ hc, reach_succ hdn, ih u.length (by simp only [List.length_cons]; omega) seenDot u rfl]
          omega
        · rw [reach_succ hc, ih r.length hlt seenDot r rfl]
      · rw [if_neg hword, if_neg hword]
        split
        · rw [reach_succ hc, ih r.length hlt true r rfl]
        · rfl

theorem numberLength_withReturns {c : Char} (hc : c ≠ '\n') (r : Text) :
    numberLength (withReturns (c :: r)) = reach (c :: r) (numberLength (c :: r)) := by
  rw [numberLength, numberLength, numberLengthFrom_withReturns]
  cases hn : numberLengthFrom false (c :: r) with
  | zero => exact (reach_succ hc r 0).symm
  | succ n =>
    rw [Nat.max_eq_right (Nat.le_add_left 1 n), Nat.add_comm n 1, reach_succ hc]
    exact Nat.max_eq_right (Nat.le_add_right 1 _)

/-! ## Comments -/

theorem blockCommentLength_withReturns {t : Text} (h : startsWith t "/*".toList = true) :
    blockCommentLength (withReturns t) = reach t (blockCommentLength t) := by
  obtain ⟨u, rfl⟩ := startsWith_iff.mp h
  have hdrop : ∀ x : Text, ("/*".toList ++ x).drop 2 = x := fun _ => rfl
  have hopen : withReturns "/*".toList = "/*".toList := rfl
  rw [withReturns_append, hopen, blockCommentLength, blockCommentLength, hdrop, hdrop,
    beforeFirst?_withReturns (by decide) (by decide)]
  cases hb : beforeFirst? "*/".toList u with
  | none =>
    show ("/*".toList ++ withReturns u).length = _
    rw [reach_length, withReturns_append, hopen]
  | some body =>
    obtain ⟨rest, hsplit, hlen⟩ := blockComment_split hb
    show (withReturns body).length + 4 = reach _ (body.length + 4)
    rw [hsplit, hlen, reach_append, withReturns_append, withReturns_append]
    simp [withReturns]

theorem isDocComment_withReturns (t : Text) : isDocComment (withReturns t) = isDocComment t := by
  rw [isDocComment_eq, isDocComment_eq, after?_withReturns (by decide)]
  cases after? "/**".toList t with
  | none => rfl
  | some r => exact head?_any_withReturns rfl r

theorem dropReturn_of_not_mem {l : Text} (h : '\r' ∉ l) : dropReturn l = l := by
  rcases dropTail_cases ['\r'] l with hl | ⟨hl, -⟩
  · exact absurd (hl ▸ by simp) h
  · exact hl

/-- A line comment ends with its line, at a closing tag or in front of the line's end. -/
theorem lineCommentLength_line {l : Text} (hn : '\n' ∉ l) (hr : '\r' ∉ l) {z : Text}
    (hz : z = [] ∨ (∃ r, z = '\n' :: r) ∨ ∃ r, z = '\r' :: '\n' :: r) :
    lineCommentLength (l ++ z) = ((beforeFirst? "?>".toList l).getD l).length := by
  have hall : ∀ c ∈ l, (c != '\n') = true := by
    intro c hc
    rw [bne_iff_ne]
    intro he
    exact hn (he ▸ hc)
  have hplain : ∀ {w : Text}, w.head? = none ∨ w.head? = some '\n' →
      lineCommentLength (l ++ w) = ((beforeFirst? "?>".toList l).getD l).length := by
    intro w hw
    have hline : (l ++ w).takeWhile (· != '\n') = l := by
      refine takeWhile_append_eq hall fun c hc => ?_
      rcases hw with hw | hw
      · rw [hw] at hc
        cases hc
      · rw [hw] at hc
        obtain rfl := Option.some.inj hc
        rfl
    simp only [lineCommentLength, hline, dropReturn_of_not_mem hr]
    cases beforeFirst? "?>".toList l <;> rfl
  rcases hz with rfl | ⟨r, rfl⟩ | ⟨r, rfl⟩
  · exact hplain (Or.inl rfl)
  · exact hplain (Or.inr rfl)
  · have hline : (l ++ '\r' :: '\n' :: r).takeWhile (· != '\n') = l ++ ['\r'] := by
      have hsplit : l ++ '\r' :: '\n' :: r = l ++ ['\r'] ++ '\n' :: r := by simp
      rw [hsplit]
      refine takeWhile_append_eq ?_ fun c hc => ?_
      · intro c hc
        rcases List.mem_append.mp hc with hc | hc
        · exact hall c hc
        · rw [List.mem_singleton.mp hc]
          rfl
      · obtain rfl := Option.some.inj hc
        rfl
    have htag : beforeFirst? "?>".toList (l ++ ['\r']) = beforeFirst? "?>".toList l := by
      have hend : beforeFirst? "?>".toList ['\r'] = none := rfl
      rw [beforeFirst?_stop (by decide) (by decide), hend, Option.map_none, Option.or_none]
    simp only [lineCommentLength, hline, htag, dropReturn_concat, if_true]
    cases beforeFirst? "?>".toList l <;> rfl

/-- The return at the end of its line is no part of a line comment. -/
theorem lineCommentLength_withReturns {t : Text} (h : '\r' ∉ t) :
    lineCommentLength (withReturns t) = reach t (lineCommentLength t) := by
  have hle : ∀ l : Text, ((beforeFirst? "?>".toList l).getD l).length ≤ l.length := by
    intro l
    cases hb : beforeFirst? "?>".toList l with
    | none => exact Nat.le_refl _
    | some body =>
      obtain ⟨r, hr⟩ := eq_append_of_beforeFirst? hb
      rw [Option.getD_some]
      exact (List.IsPrefix.length_le ⟨_, hr.symm⟩)
  induction t using text_induction with
  | line l hl =>
    have hz := lineCommentLength_line hl h (Or.inl rfl)
    have hreach := reach_append_of_not_mem hl (hle l) []
    rw [List.append_nil] at hz hreach
    rw [withReturns_of_not_mem hl, hz, hreach]
  | more l r hl _ =>
    have hret : '\r' ∉ l := fun hmem => h (List.mem_append_left _ hmem)
    rw [withReturns_append, withReturns_of_not_mem hl, withReturns_newline,
      lineCommentLength_line hl hret (Or.inr (Or.inr ⟨_, rfl⟩)), lineCommentLength_line hl hret (Or.inr (Or.inl ⟨_, rfl⟩)),
      reach_append_of_not_mem hl (hle l)]

/-! ## Quoted literals -/

/-- An escape before a line end takes the return and not the newline, which is as plain a
    character as what it took alone. -/
theorem quotedTailLength_withReturns {quote : Char} (hn : quote ≠ '\n') (hr : quote ≠ '\r') (t : Text) :
    quotedTailLength '\\' quote (withReturns t) = reach t (quotedTailLength '\\' quote t) := by
  have hnewline : ∀ x, quotedTailLength '\\' quote ('\n' :: x) = 1 + quotedTailLength '\\' quote x :=
    quotedTailLength_cons_of_ne (by decide) (Ne.symm hn)
  have hreturn : ∀ x, quotedTailLength '\\' quote ('\r' :: x) = 1 + quotedTailLength '\\' quote x :=
    quotedTailLength_cons_of_ne (by decide) (Ne.symm hr)
  fun_induction quotedTailLength '\\' quote t with
  | case1 => rfl
  | case2 c =>
    by_cases hc : c = '\n'
    · subst hc
      exact hreturn ['\n']
    · rw [withReturns_cons hc]
      exact (reach_succ hc [] 0).symm
  | case3 d r ih =>
    have htwo : 2 + quotedTailLength '\\' quote r = 1 + (1 + quotedTailLength '\\' quote r) := by omega
    rw [htwo, reach_succ (by decide), withReturns_cons (by decide)]
    by_cases hd : d = '\n'
    · subst hd
      rw [withReturns_newline, quotedTailLength, if_pos rfl, hnewline, ih, reach_newline]
      omega
    · rw [withReturns_cons hd, quotedTailLength, if_pos rfl, ih, reach_succ hd]
      omega
  | case4 d r h =>
    have hone : ∀ {x : Text}, quotedTailLength '\\' quote (quote :: x) = 1 := by
      intro x
      cases x with
      | nil => rfl
      | cons e x => rw [quotedTailLength, if_neg h, if_pos rfl]
    rw [withReturns_cons hn, hone]
    exact (reach_succ hn (d :: r) 0).symm
  | case5 c d r hce hcq ih =>
    by_cases hc : c = '\n'
    · subst hc
      rw [withReturns_newline, hreturn, hnewline, ih, reach_newline]
      omega
    · rw [withReturns_cons hc, quotedTailLength_cons_of_ne hce hcq, ih, reach_succ hc]

theorem quotedLength_withReturns {quote : Char} (hn : quote ≠ '\n') (hr : quote ≠ '\r') (r : Text) :
    quotedLength '\\' (withReturns (quote :: r)) = reach (quote :: r) (quotedLength '\\' (quote :: r)) := by
  rw [withReturns_cons hn, quotedLength, quotedLength, quotedTailLength_withReturns hn hr, reach_succ hn]

/-! ## Heredocs -/

theorem lineEndLength?_withReturns {t : Text} (h : '\r' ∉ t) :
    lineEndLength? (withReturns t) = (lineEndLength? t).map (reach t) := by
  cases t with
  | nil => rfl
  | cons c r =>
    by_cases hc : c = '\n'
    · subst hc
      rfl
    · have hcr : c ≠ '\r' := fun he => h (he ▸ List.mem_cons_self)
      have hnone : ∀ x, lineEndLength? (c :: x) = none := by
        intro x
        simp [lineEndLength?, startsWith, List.isPrefixOf, Ne.symm hc, Ne.symm hcr]
      rw [withReturns_cons hc, hnone, hnone]
      rfl

theorem isInline_of_isIndent {t : Text} (h : ∀ c ∈ t, isIndent c = true) : IsInline t :=
  IsInline.of_all (p := isIndent) rfl rfl h

theorem isInline_of_isNameChar {t : Text} (h : ∀ c ∈ t, isNameChar c = true) : IsInline t :=
  IsInline.of_all (p := isNameChar) rfl rfl h

theorem isInline_of_quote {quote : Text} (h : quote = [] ∨ quote = ['"'] ∨ quote = ['\'']) : IsInline quote := by
  rcases h with rfl | rfl | rfl <;> decide

/-- The line end of an opener is what grows. -/
theorem opener_withReturns {t : Text} {o : HeredocOpener} (h : Opener t o) (hr : '\r' ∉ t) :
    Opener (withReturns t) ⟨o.label, reach t o.length⟩ := by
  obtain ⟨blanks, quote, label, lineEnd, rest, hblanks, hquote, hlabel, hname, hend⟩ := h
  obtain rfl : lineEnd = ['\n'] := by
    rcases hend with rfl | rfl
    · rfl
    · exact absurd hr (by simp)
  have hb := (isInline_of_isIndent hblanks).1
  have hq := (isInline_of_quote hquote).1
  have hl := (isInline_of_isNameChar hname).1
  have hhead : '\n' ∉ "<<<".toList ++ blanks ++ quote ++ label ++ quote := by simp [hb, hq, hl]
  have hsplit : ∀ u : Text, "<<<".toList ++ (blanks ++ (quote ++ (label ++ (quote ++ u)))) =
      "<<<".toList ++ blanks ++ quote ++ label ++ quote ++ u := by simp
  have hlen : 3 + blanks.length + quote.length + label.length + quote.length =
      ("<<<".toList ++ blanks ++ quote ++ label ++ quote).length := by simp; omega
  have hreach : reach ("<<<".toList ++ blanks ++ quote ++ label ++ quote ++ (['\n'] ++ rest))
      (3 + blanks.length + quote.length + label.length + quote.length + 1) =
        3 + blanks.length + quote.length + label.length + quote.length + 2 := by
    rw [hlen, reach_add, reach_append_of_not_mem hhead (Nat.le_refl _), List.drop_left]
    rfl
  have hmk := Opener.mk blanks quote label ['\r', '\n'] (withReturns rest) hblanks hquote hlabel hname (Or.inr rfl)
  rw [hsplit] at hmk ⊢
  show Opener _ ⟨label, reach _ (3 + blanks.length + quote.length + label.length + quote.length + 1)⟩
  rw [hreach, withReturns_append, withReturns_of_not_mem hhead]
  exact hmk

theorem exists_opener_of_withReturns {t : Text} {o : HeredocOpener} (h : Opener (withReturns t) o) (hr : '\r' ∉ t) :
    ∃ o', Opener t o' := by
  generalize hb : withReturns t = b at h
  obtain ⟨blanks, quote, label, lineEnd, rest, hblanks, hquote, hlabel, hname, hend⟩ := h
  obtain ⟨t₁, rfl, h₁⟩ := exists_of_withReturns_eq (by decide) hb
  obtain ⟨t₂, rfl, h₂⟩ := exists_of_withReturns_eq (isInline_of_isIndent hblanks) h₁.symm
  obtain ⟨t₃, rfl, h₃⟩ := exists_of_withReturns_eq (isInline_of_quote hquote) h₂.symm
  obtain ⟨t₄, rfl, h₄⟩ := exists_of_withReturns_eq (isInline_of_isNameChar hname) h₃.symm
  obtain ⟨t₅, rfl, h₅⟩ := exists_of_withReturns_eq (isInline_of_quote hquote) h₄.symm
  have hr₅ : '\r' ∉ t₅ := fun hmem => hr (by simp [hmem])
  have hlineEnd : lineEndLength? (withReturns t₅) = some lineEnd.length :=
    lineEndLength?_eq_some_iff.mpr ⟨lineEnd, rest, hend, h₅.symm, rfl⟩
  rw [lineEndLength?_withReturns hr₅] at hlineEnd
  obtain ⟨n, hn, -⟩ := Option.map_eq_some_iff.mp hlineEnd
  obtain ⟨lineEnd', rest', hend', rfl, -⟩ := lineEndLength?_eq_some_iff.mp hn
  exact ⟨_, Opener.mk blanks quote label lineEnd' rest' hblanks hquote hlabel hname hend'⟩

/-- A return at the end of a line is no part of the label that closes it. -/
theorem closingLength?_return {label : Text} (hl : ∀ c ∈ label, isNameChar c = true) (line : Text) :
    closingLength? label (line ++ ['\r']) = closingLength? label line := by
  have hle := length_takeWhile_le isIndent line
  simp only [closingLength?, takeWhile_stop (p := isIndent) (c := '\r') rfl, List.drop_append_of_le_length hle,
    after?_stop (isInline_of_isNameChar hl).2]
  rcases after? label (line.drop (line.takeWhile isIndent).length) with - | (- | ⟨c, r⟩) <;> rfl

theorem heredocBodyLength_withReturns {label : Text} (hl : ∀ c ∈ label, isNameChar c = true) (t : Text) :
    heredocBodyLength label (splitLines (withReturns t)) = reach t (heredocBodyLength label (splitLines t)) := by
  induction t using text_induction with
  | line l hn =>
    have hle := heredocBodyLength_le label [l]
    rw [joinLines_singleton] at hle
    rw [withReturns_of_not_mem hn, splitLines_of_not_mem hn, reach_of_not_mem hn hle]
  | more l r hn ih =>
    have hlines : splitLines (withReturns (l ++ '\n' :: r)) = (l ++ ['\r']) :: splitLines (withReturns r) := by
      have hret : '\n' ∉ l ++ ['\r'] := by simp [hn]
      have hnext := splitLines_line_append hret (withReturns r)
      rw [List.append_assoc] at hnext
      rw [withReturns_append, withReturns_of_not_mem hn, withReturns_newline]
      exact hnext
    rw [hlines, splitLines_line_append hn]
    cases hclose : closingLength? label l with
    | some n =>
      rw [heredocBodyLength_of_closing hclose, heredocBodyLength_of_closing ((closingLength?_return hl l).trans hclose),
        reach_append_of_not_mem hn (closingLength?_le hclose)]
    | none =>
      rw [heredocBodyLength_cons_of_none hclose (splitLines_ne_nil _),
        heredocBodyLength_cons_of_none ((closingLength?_return hl l).trans hclose) (splitLines_ne_nil _), ih, Nat.add_assoc,
        Nat.add_assoc, reach_add, reach_append_of_not_mem hn (Nat.le_refl _), List.drop_left, reach_newline,
        List.length_append, List.length_singleton]
      omega

theorem heredocLength?_withReturns {t : Text} (h3 : startsWith t "<<<".toList = true) (hr : '\r' ∉ t) :
    heredocLength? (withReturns t) = (heredocLength? t).map (reach t) := by
  have h3' : startsWith (withReturns t) "<<<".toList = true := by
    rwa [startsWith_withReturns (by decide)]
  unfold heredocLength?
  cases ho : heredocOpener? t with
  | some o =>
    have hopener := opener_of_heredocOpener? h3 ho
    have hname : ∀ c ∈ o.label, isNameChar c = true := by
      obtain ⟨_, _, _, _, _, _, _, _, hname, _⟩ := hopener
      exact hname
    rw [heredocOpener?_of_opener (opener_withReturns hopener hr)]
    simp only [Option.map_some, drop_reach, heredocBodyLength_withReturns hname, reach_add]
  | none =>
    cases ho' : heredocOpener? (withReturns t) with
    | none => rfl
    | some o =>
      obtain ⟨o', h⟩ := exists_opener_of_withReturns (opener_of_heredocOpener? h3' ho') hr
      rw [heredocOpener?_of_opener h] at ho
      cases ho

/-! ## Tags and punctuation -/

theorem closeTagLength_withReturns {t : Text} (h : startsWith t "?>".toList = true) (hr : '\r' ∉ t) :
    closeTagLength (withReturns t) = reach t (closeTagLength t) := by
  obtain ⟨u, rfl⟩ := startsWith_iff.mp h
  have hdrop : ∀ x : Text, ("?>".toList ++ x).drop 2 = x := fun _ => rfl
  have hopen : withReturns "?>".toList = "?>".toList := rfl
  have hru : '\r' ∉ u := fun hmem => hr (List.mem_append_right _ hmem)
  have htwo : reach ("?>".toList ++ u) 2 = 2 := rfl
  rw [withReturns_append, hopen, closeTagLength, closeTagLength, hdrop, hdrop, lineEndLength?_withReturns hru, reach_add,
    hdrop, htwo]
  cases lineEndLength? u <;> rfl

theorem isInline_of_lower {t : Text} (h : IsInline (lower t)) : IsInline t := by
  refine ⟨fun hmem => ?_, fun hmem => ?_⟩
  · exact h.1 (List.mem_map.mpr ⟨'\n', hmem, rfl⟩)
  · exact h.2 (List.mem_map.mpr ⟨'\r', hmem, rfl⟩)

/-- A word in any case is on one line. -/
theorem lower_take_withReturns {word : Text} (hw : IsInline word) (t : Text) :
    lower ((withReturns t).take word.length) = word ↔ lower (t.take word.length) = word := by
  constructor
  · intro h
    have hlen := congrArg List.length h
    rw [lower, List.length_map] at hlen
    have hinline := isInline_of_lower (h.symm ▸ hw)
    obtain ⟨r, hr, -⟩ := exists_of_withReturns_eq hinline (List.take_append_drop word.length (withReturns t)).symm
    rw [take_of_eq_append hr hlen, h]
  · intro h
    have hlen := congrArg List.length h
    rw [lower, List.length_map] at hlen
    have hinline := isInline_of_lower (h.symm ▸ hw)
    have hsplit : withReturns t = t.take word.length ++ withReturns (t.drop word.length) := by
      conv => lhs; rw [← List.take_append_drop word.length t, withReturns_append, withReturns_of_not_mem hinline.1]
    rw [take_of_eq_append hsplit hlen, h]

theorem openTagLength_withReturns {t : Text} (h : startsWith t "<?".toList = true) :
    openTagLength (withReturns t) = reach t (openTagLength t) := by
  have h5 : (lower ((withReturns t).take 5) == "<?php".toList) = (lower (t.take 5) == "<?php".toList) := by
    rw [Bool.eq_iff_iff, beq_iff_eq, beq_iff_eq]
    exact lower_take_withReturns (by decide : IsInline "<?php".toList) t
  unfold openTagLength
  rw [h5, startsWith_withReturns (by decide)]
  split
  · rename_i hword
    have hword := beq_iff_eq.mp hword
    have hlen := congrArg List.length hword
    rw [lower, List.length_map] at hlen
    have hinline : IsInline (t.take 5) := isInline_of_lower (hword.symm ▸ by decide)
    rw [reach, withReturns_of_not_mem hinline.1, hlen]
    rfl
  · split
    · rename_i hecho
      obtain ⟨u, rfl⟩ := startsWith_iff.mp hecho
      rfl
    · obtain ⟨u, rfl⟩ := startsWith_iff.mp h
      rfl

theorem isInline_of_mem_compounds : ∀ p ∈ compounds, IsInline p := by decide

theorem compoundLength?_withReturns (t : Text) : compoundLength? (withReturns t) = compoundLength? t := by
  rw [compoundLength?, compoundLength?]
  refine congrArg (Option.map List.length) (List.find?_congr fun p hp => ?_)
  exact startsWith_withReturns (isInline_of_mem_compounds p hp) t

theorem reach_compoundLength? {t : Text} {n : Nat} (h : compoundLength? t = some n) : reach t n = n := by
  obtain ⟨p, hp, rfl⟩ := Option.map_eq_some_iff.mp h
  obtain ⟨u, rfl⟩ := startsWith_iff.mp (List.find?_some hp)
  exact reach_append_of_not_mem (isInline_of_mem_compounds p (List.mem_of_find?_eq_some hp)).1 (Nat.le_refl _) u

/-- No operator has a line end in it. -/
theorem ofWord_withReturns (previous : Option Text) (word : Text) :
    Kind.ofWord (previous.map withReturns) word = Kind.ofWord previous word := by
  have hinline : ∀ w ∈ nameOperators, IsInline w := by decide
  have hprev : (previous.map withReturns).any nameOperators.contains = previous.any nameOperators.contains := by
    cases previous with
    | none => rfl
    | some p =>
      show nameOperators.contains (withReturns p) = nameOperators.contains p
      rw [Bool.eq_iff_iff, List.contains_iff_mem, List.contains_iff_mem]
      constructor
      · intro h
        rwa [← (withReturns_eq_iff (hinline _ h) p).mp rfl] at h
      · intro h
        rwa [(withReturns_eq_iff (hinline p h) p).mpr rfl]
  rw [Kind.ofWord, Kind.ofWord, hprev]

/-! ## Lexemes -/

theorem plainLexeme_withReturns (previous : Option Text) {c : Char} (hc : c ≠ '\n') (r : Text) :
    plainLexeme (previous.map withReturns) c (withReturns (c :: r)) =
      (plainLexeme previous c (c :: r)).map (reach (c :: r)) := by
  unfold plainLexeme
  split
  · have hword := isInline_of_isNameChar fun d (hd : d ∈ (c :: r).takeWhile isNameChar) => List.mem_takeWhile_imp hd
    rw [takeWhile_withReturns rfl, withReturns_of_not_mem hword.1, ofWord_withReturns, nameLength_withReturns]
    rfl
  · rw [compoundLength?_withReturns]
    cases hn : compoundLength? (c :: r) with
    | none => exact congrArg (Lexeme.mk _) (reach_succ hc r 0).symm
    | some n => exact congrArg (Lexeme.mk _) (reach_compoundLength? hn).symm

theorem isInline_of_mem_marks : ∀ mark ∈ marks, IsInline mark := by decide

/-- A text with its returns is another writing of it. -/
theorem rewritten_withReturns {c : Char} (hc : c ≠ '\n') {r : Text} (hr : '\r' ∉ c :: r) :
    Rewritten (reach (c :: r)) c r (withReturns (c :: r)) where
  starts mark hmark := startsWith_withReturns (isInline_of_mem_marks mark hmark) _
  nameBehind := by
    rw [withReturns_cons hc]
    exact head?_any_withReturns rfl r
  digitBehind := by
    rw [withReturns_cons hc]
    exact head?_any_withReturns rfl r
  one := reach_succ hc r 0
  blanks _ := by rw [takeWhile_withReturns rfl, reach_takeWhile]
  closeTag hclose := closeTagLength_withReturns hclose hr
  attributeMark hattr := by
    obtain ⟨u, hu⟩ := startsWith_iff.mp hattr
    rw [hu]
    rfl
  lineComment := lineCommentLength_withReturns hr
  isDoc := isDocComment_withReturns _
  blockComment := blockCommentLength_withReturns
  quoted _ := quotedLength_withReturns hc (fun he => hr (he ▸ List.mem_cons_self)) r
  heredoc hheredoc := heredocLength?_withReturns hheredoc hr
  var := by
    rw [withReturns_cons hc, List.tail_cons, nameLength_withReturns, reach_succ hc]
  number := numberLength_withReturns hc r

theorem codeLexeme_withReturns (previous : Option Text) {c : Char} (hc : c ≠ '\n') {r : Text} (hr : '\r' ∉ c :: r) :
    codeLexeme (previous.map withReturns) c (withReturns r) = (codeLexeme previous c r).map (reach (c :: r)) := by
  have hrewritten := rewritten_withReturns hc hr
  have hplain := plainLexeme_withReturns previous hc r
  rw [withReturns_cons hc] at hrewritten hplain
  exact hrewritten.codeLexeme_eq hplain

theorem htmlLexeme_withReturns (t : Text) : htmlLexeme (withReturns t) = (htmlLexeme t).map (reach t) := by
  unfold htmlLexeme
  rw [startsWith_withReturns (by decide)]
  split
  · rename_i hopen
    exact congrArg (Lexeme.mk _) (openTagLength_withReturns hopen)
  · rw [beforeFirst?_withReturns (by decide) (by decide)]
    refine congrArg (Lexeme.mk _) ?_
    cases hb : beforeFirst? "<?".toList t with
    | none => exact (reach_length t).symm
    | some b =>
      obtain ⟨r, rfl⟩ := eq_append_of_beforeFirst? hb
      exact (reach_append b _).symm

def LexState.onReturns (s : LexState) : LexState := { s with previous := s.previous.map withReturns }

/-- From every state, the token cut from a text with its returns is the token cut from the
    text, with its own. -/
theorem lexeme_withReturns (s : LexState) {c d : Char} {r q : Text} (hr : '\r' ∉ c :: r)
    (h : withReturns (c :: r) = d :: q) : lexeme s.onReturns d q = (lexeme s c r).map (reach (c :: r)) := by
  show (if s.inCode then codeLexeme (s.previous.map withReturns) d q else htmlLexeme (d :: q)) = _
  unfold lexeme
  split
  · by_cases hc : c = '\n'
    · -- the return is a blank like the newline, so that the run of blanks begins with it
      subst hc
      have hrun : ((withReturns ('\n' :: r)).takeWhile isCodeBlank).length =
          reach ('\n' :: r) (('\n' :: r).takeWhile isCodeBlank).length := by
        rw [takeWhile_withReturns rfl, reach_takeWhile]
      obtain ⟨rfl, rfl⟩ := List.cons.inj h
      exact congrArg (Lexeme.mk .whitespace) hrun
    · rw [withReturns_cons hc] at h
      obtain ⟨rfl, rfl⟩ := List.cons.inj h
      exact codeLexeme_withReturns s.previous hc hr
  · rw [← h]
    exact htmlLexeme_withReturns (c :: r)

/-! ## Runs -/

def onReturns (tok : Token) : Token := { tok with text := withReturns tok.text }

theorem next_onReturns (s : LexState) (tok : Token) : s.onReturns.next tok.onReturns = (s.next tok).onReturns := by
  simp only [LexState.next, LexState.onReturns, onReturns, count_newline_withReturns]
  by_cases h : tok.kind.isTrivia = true
  · simp only [h, if_true]
  · simp only [h, if_false, Option.map_some, Bool.false_eq_true]

theorem Lexes.onReturns {s : LexState} {t : Text} {ts : List Token} (h : Lexes s t ts) (hr : '\r' ∉ t) :
    Lexes s.onReturns (withReturns t) (ts.map Token.onReturns) := by
  induction h with
  | done s => exact Lexes.done _
  | step s c r ts _ ih =>
    obtain ⟨d, q, hdq⟩ : ∃ d q, withReturns (c :: r) = d :: q :=
      List.exists_cons_of_ne_nil fun hnil => List.cons_ne_nil c r (withReturns_eq_nil_iff.mp hnil)
    have hlex := lexeme_withReturns s hr hdq
    have htok : nextToken s.onReturns d q = (nextToken s c r).onReturns := by
      unfold nextToken
      rw [hlex, ← hdq]
      exact congrArg (fun text => Token.mk _ text _) (take_reach (c :: r) _)
    rw [List.map_cons, ← htok, hdq]
    refine Lexes.step s.onReturns d q _ ?_
    rw [htok, next_onReturns, hlex, ← hdq]
    show Lexes _ ((withReturns (c :: r)).drop (reach (c :: r) (lexeme s c r).length)) _
    rw [drop_reach]
    exact ih fun hmem => hr (List.mem_of_mem_drop hmem)

/-! ## What is found -/

theorem Lexes.newline_not_mem_identifier {s : LexState} {t : Text} {ts : List Token} (h : Lexes s t ts) :
    ∀ tok ∈ ts, tok.kind = .identifier → '\n' ∉ tok.text := by
  induction h with
  | done s => simp
  | step s c r ts _ ih =>
    intro tok htok hkind
    rcases List.mem_cons.mp htok with rfl | htok
    · exact (isInline_of_isNameChar (Discovery.isName_of_kind rfl hkind).1.all).1
    · exact ih tok htok hkind

end ClassOutline.Token

namespace ClassOutline.Discovery

open ClassOutline.Text ClassOutline.Token

/-- Names are all that is taken of the text of a token, and the brace all that is looked at. -/
theorem step_onReturns (s : State) {tok : Token} (h : tok.kind = .identifier → '\n' ∉ tok.text) :
    step s tok.onReturns = step s tok := by
  by_cases hname : tok.kind = .identifier
  · have hsame : tok.onReturns = tok := by
      rw [Token.onReturns, withReturns_of_not_mem (h hname)]
    rw [hsame]
  · obtain ⟨progress, scope⟩ := s
    have hkind : tok.onReturns.kind = tok.kind := rfl
    have hseek : seek scope tok.onReturns = seek scope tok := rfl
    have hbrace : isOpenBrace tok.onReturns = isOpenBrace tok := by
      have hsame : (withReturns tok.text == ['{']) = (tok.text == ['{']) := by
        rw [Bool.eq_iff_iff, beq_iff_eq, beq_iff_eq]
        exact withReturns_eq_iff (by decide) tok.text
      exact congrArg (tok.kind == .punct && ·) hsame
    cases progress <;>
      simp only [step, hkind, hseek, hbrace, beq_false_of_ne hname, Bool.false_eq_true, if_false]

theorem run_onReturns {ts : List Token} (h : ∀ tok ∈ ts, tok.kind = .identifier → '\n' ∉ tok.text) (s : State) :
    run s (ts.map Token.onReturns) = run s ts := by
  induction ts generalizing s with
  | nil => rfl
  | cons tok ts ih =>
    obtain ⟨htok, hts⟩ := List.forall_mem_cons.mp h
    rw [List.map_cons, run_cons, run_cons, step_onReturns s htok, ih hts]

/-- With a return before every newline a source has the same tokens, each with its returns,
    and so the same classes are found in it on the same lines. -/
theorem line_ends_alike {source : Text} (h : '\r' ∉ source) :
    tokenize (withReturns source) = (tokenize source).map Token.onReturns ∧
      classes (tokenize (withReturns source)) = classes (tokenize source) := by
  have htokens : tokenize (withReturns source) = (tokenize source).map Token.onReturns :=
    (lexes_tokenize (withReturns source)).unique ((lexes_tokenize source).onReturns h)
  refine ⟨htokens, ?_⟩
  rw [htokens, classes, classes]
  exact run_onReturns (lexes_tokenize source).newline_not_mem_identifier .start

/-- Line ends in every kind of token that can hold one. -/
def lineEndSample : Text :=
  "\n<?php namespace A\\B; /**\n * d\n */ # l ?\n$x = <<<\"E\"\nclass N\n E; 'a\\\nb' ?>\nhtml\n".toList ++
    "<?= 1.\n.2 // c ?>\n<?php class\n C \x7b \x7d".toList

theorem line_ends_alike_lineEndSample :
    '\r' ∉ lineEndSample ∧ classes (tokenize lineEndSample) = [⟨"A\\B".toList, "C".toList, 13⟩] ∧
      tokenize (withReturns lineEndSample) = (tokenize lineEndSample).map Token.onReturns ∧
      classes (tokenize (withReturns lineEndSample)) = classes (tokenize lineEndSample) := by
  have hplain : '\r' ∉ lineEndSample := by decide +kernel
  exact ⟨hplain, by decide +kernel, line_ends_alike hplain⟩

end ClassOutline.Discovery
