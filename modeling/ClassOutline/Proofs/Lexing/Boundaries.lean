import ClassOutline.Proofs.Lexing.Stops
/-
  ClassOutline.Proofs.Lexing.Boundaries — what a token that ends before a place can see of it.

  Tokens look ahead: a name over one character, an operator over two, a malformed heredoc
  over any number. But a token that ends before a place does not go by what it sees behind
  it. If two texts have a part in common and one more character, and a token ends within
  that part in both, it is the same token (`lexeme_shared`): what would be read further in
  one of them, a longer operator, a number, a heredoc, reaches over the end of the part. So if
  two sources have a beginning and one more character in common, and a token ends with that
  beginning in both, the tokens up to there are the same (`Lexes.shared`).
-/

namespace ClassOutline.Token

open ClassOutline.Text

/-! ## Numbers, operators and tags -/

theorem numberLengthFrom_shared {c : Char} {seenDot : Bool} {a x y : Text}
    (hx : numberLengthFrom seenDot (a ++ c :: x) ≤ a.length) (hy : numberLengthFrom seenDot (a ++ c :: y) ≤ a.length) :
    numberLengthFrom seenDot (a ++ c :: y) = numberLengthFrom seenDot (a ++ c :: x) := by
  -- a digit behind the dot is part of the number, too
  have hdot : ∀ v, c.isDigit = true → 0 < numberLengthFrom true (c :: v) := by
    intro v hc
    have hword : (c.isAlphanum || c == '_') = true := by simp [Char.isAlphanum, hc]
    rw [numberLengthFrom_cons, if_pos hword]
    split <;> omega
  fun_induction numberLengthFrom seenDot a with
  | case1 seen => simp only [List.nil_append, List.length_nil] at hx hy ⊢; omega
  | case2 seen d hd =>
    simp only [List.singleton_append, List.length_singleton, numberLengthFrom, if_pos hd] at hx hy ⊢
    split at hx
    · omega
    · rename_i hs
      rw [if_neg hs] at hy ⊢
      rw [if_neg hs]
      omega
  | case3 seen d hd =>
    simp only [List.singleton_append, List.length_singleton, numberLengthFrom, if_neg hd] at hx hy ⊢
    split at hx
    · rename_i hc
      have := hdot x (by simp only [Bool.and_eq_true] at hc; exact hc.2)
      omega
    · rename_i hc
      rw [if_neg hc, if_neg hc]
  | case4 seen d e r hd he ih =>
    simp only [List.cons_append, List.length_cons, numberLengthFrom, if_pos hd, if_pos he] at hx hy ⊢
    rw [ih (by omega) (by omega)]
  | case5 seen d e r hd he ih =>
    simp only [List.cons_append, List.length_cons, numberLengthFrom, if_pos hd, if_neg he] at hx hy ih ⊢
    rw [ih (by omega) (by omega)]
  | case6 seen d e r hd he ih =>
    simp only [List.cons_append, List.length_cons, numberLengthFrom, if_neg hd, if_pos he] at hx hy ih ⊢
    rw [ih (by omega) (by omega)]
  | case7 seen d e r hd he =>
    simp only [List.cons_append, numberLengthFrom, if_neg hd, if_neg he]

/-- Two searches agree if what each finds first passes the test of the other. -/
theorem find?_eq_find? {ps : List Text} {f g : Text → Bool} (hf : ∀ p, ps.find? f = some p → g p = true)
    (hg : ∀ p, ps.find? g = some p → f p = true) : ps.find? g = ps.find? f := by
  induction ps with
  | nil => rfl
  | cons p ps ih =>
    by_cases hp : f p = true
    · rw [List.find?_cons_of_pos hp, List.find?_cons_of_pos (hf p (List.find?_cons_of_pos hp))]
    · have hq : ¬ g p = true := fun hq => hp (hg p (List.find?_cons_of_pos hq))
      rw [List.find?_cons_of_neg hp] at hf ⊢
      rw [List.find?_cons_of_neg hq] at hg ⊢
      exact ih hf hg

theorem compoundLength?_shared {a x y : Text} (hx : ∀ n, compoundLength? (a ++ x) = some n → n ≤ a.length)
    (hy : ∀ n, compoundLength? (a ++ y) = some n → n ≤ a.length) :
    compoundLength? (a ++ y) = compoundLength? (a ++ x) := by
  have hfits : ∀ {u v : Text}, (∀ n, compoundLength? (a ++ u) = some n → n ≤ a.length) →
      ∀ p, compounds.find? (startsWith (a ++ u)) = some p → startsWith (a ++ v) p = true := by
    intro u v hu p hp
    have hle : p.length ≤ a.length := hu _ (by rw [compoundLength?, hp, Option.map_some])
    have hs : startsWith (a ++ u) p = true := List.find?_some hp
    rw [startsWith_append_of_le hle] at hs ⊢
    exact hs
  exact congrArg (Option.map List.length) (find?_eq_find? (hfits hx) (hfits hy))

theorem lineEndLength?_eq_none {t : Text} (h : (lineEndLength? t).getD 0 = 0) : lineEndLength? t = none := by
  cases hn : lineEndLength? t with
  | none => rfl
  | some n =>
    obtain ⟨lineEnd, rest, hend, -, rfl⟩ := lineEndLength?_eq_some_iff.mp hn
    rw [hn, Option.getD_some] at h
    rcases hend with rfl | rfl <;> cases h

theorem lineEndLength?_shared {c : Char} {a x y : Text} (hx : (lineEndLength? (a ++ c :: x)).getD 0 ≤ a.length)
    (hy : (lineEndLength? (a ++ c :: y)).getD 0 ≤ a.length) :
    lineEndLength? (a ++ c :: y) = lineEndLength? (a ++ c :: x) := by
  cases a with
  | nil => rw [lineEndLength?_eq_none (Nat.le_zero.mp hx), lineEndLength?_eq_none (Nat.le_zero.mp hy)]
  | cons d a =>
    have hone : "\n".toList.length ≤ (d :: a).length + 1 := Nat.le_add_left 1 (a.length + 1)
    have htwo : "\r\n".toList.length ≤ (d :: a).length + 1 := Nat.le_add_left 2 a.length
    simp only [lineEndLength?, startsWith_shared hone x y, startsWith_shared htwo x y]

theorem closeTagLength_shared {c : Char} {a x y : Text} (h : startsWith (a ++ c :: x) "?>".toList = true)
    (hx : closeTagLength (a ++ c :: x) ≤ a.length) (hy : closeTagLength (a ++ c :: y) ≤ a.length) :
    closeTagLength (a ++ c :: y) = closeTagLength (a ++ c :: x) := by
  have hlen : "?>".toList.length ≤ a.length := Nat.le_trans (Nat.le_add_right 2 _) hx
  have hs : startsWith a "?>".toList = true := by rwa [startsWith_append_of_le hlen] at h
  obtain ⟨u, rfl⟩ := startsWith_iff.mp hs
  have hdrop : ∀ v : Text, ("?>".toList ++ u ++ v).drop 2 = u ++ v := fun _ => rfl
  have h2 : ("?>".toList ++ u).length = u.length + 2 := by rw [List.length_append]; exact Nat.add_comm 2 _
  simp only [closeTagLength, hdrop, h2] at hx hy ⊢
  have hend := lineEndLength?_shared (c := c) (a := u) (x := x) (y := y) (by omega) (by omega)
  rw [hend]

theorem openTagLength_shared {c : Char} {a x y : Text} (hx : openTagLength (a ++ c :: x) ≤ a.length)
    (hy : openTagLength (a ++ c :: y) ≤ a.length) : openTagLength (a ++ c :: y) = openTagLength (a ++ c :: x) := by
  have hlen : 2 ≤ a.length := by
    unfold openTagLength at hx
    split at hx
    · omega
    · split at hx <;> omega
  have hthree : "<?=".toList.length ≤ a.length + 1 := Nat.succ_le_succ hlen
  have hecho := startsWith_shared (c := c) hthree x y
  unfold openTagLength at hx hy ⊢
  by_cases h5 : 5 ≤ a.length
  · rw [List.take_append_of_le_length h5, List.take_append_of_le_length h5, hecho]
  · rw [hecho] at hy ⊢
    have hno : ∀ {v : Text}, (if lower ((a ++ c :: v).take 5) == "<?php".toList then 5
        else if startsWith (a ++ c :: x) "<?=".toList then 3 else 2) ≤ a.length →
        (lower ((a ++ c :: v).take 5) == "<?php".toList) = false := by
      intro v hv
      cases h : lower ((a ++ c :: v).take 5) == "<?php".toList with
      | false => rfl
      | true =>
        rw [if_pos h] at hv
        omega
    rw [hno hx, hno hy]

/-! ## Comments -/

theorem length_le_dropReturn (a : Text) (c : Char) (v : Text) : a.length ≤ (dropReturn (a ++ c :: v)).length := by
  rcases dropTail_cases ['\r'] (a ++ c :: v) with h | ⟨h, -⟩
  · have hl := congrArg List.length h
    simp only [List.length_append, List.length_cons, List.length_nil] at hl
    show a.length ≤ (dropTail ['\r'] (a ++ c :: v)).length
    omega
  · rw [dropReturn, h]
    simp

/-- A line comment that no tag ends before a character that follows reaches up to it. -/
theorem length_le_lineComment {a : Text} {c : Char} {v : Text}
    (h : ∀ b, beforeFirst? "?>".toList (a ++ c :: v) = some b → a.length ≤ b.length) :
    a.length ≤ (match beforeFirst? "?>".toList (a ++ c :: v) with
      | some body => body.length
      | none => (dropReturn (a ++ c :: v)).length) := by
  split
  · rename_i b hb
    exact h b hb
  · exact length_le_dropReturn a c v

theorem lineCommentLength_shared {c : Char} {a x y : Text}
    (hx : lineCommentLength (a ++ c :: x) ≤ a.length) (hy : lineCommentLength (a ++ c :: y) ≤ a.length) :
    lineCommentLength (a ++ c :: y) = lineCommentLength (a ++ c :: x) := by
  by_cases hn : '\n' ∈ a ++ [c]
  · -- the line ends in what the texts share
    have hline : ∀ v, (a ++ c :: v).takeWhile (· != '\n') = (a ++ [c]).takeWhile (· != '\n') := by
      intro v
      obtain ⟨l, r, hlr, hl⟩ := List.eq_append_cons_of_mem hn
      have hne : ∀ d ∈ l, (d != '\n') = true := fun d hd => by
        simpa using fun he : d = '\n' => hl (he ▸ hd)
      have hassoc : a ++ c :: v = a ++ [c] ++ v := by simp
      rw [hassoc, hlr, List.append_assoc, List.cons_append, takeWhile_append_eq hne (by simp),
        takeWhile_append_eq hne (by simp)]
    simp only [lineCommentLength, hline]
  · have hne : ∀ d ∈ a ++ [c], (d != '\n') = true := fun d hd => by
      simpa using fun he : d = '\n' => hn (he ▸ hd)
    have hline : ∀ v, (a ++ c :: v).takeWhile (· != '\n') = a ++ c :: v.takeWhile (· != '\n') := by
      intro v
      have hassoc : ∀ w, a ++ c :: w = a ++ [c] ++ w := fun w => by simp
      rw [hassoc, List.takeWhile_append_of_pos hne, ← hassoc]
    simp only [lineCommentLength, hline] at hx hy ⊢
    generalize x.takeWhile (· != '\n') = u at hx ⊢
    generalize y.takeWhile (· != '\n') = v at hy ⊢
    -- a tag in what the texts share ends the comment in both
    by_cases hb : ∃ w b, beforeFirst? "?>".toList (a ++ c :: w) = some b ∧ b.length < a.length
    · obtain ⟨w, b, hb, hlt⟩ := hb
      have hfound := beforeFirst?_shared_of_lt (by decide) hb hlt
      rw [hfound u, hfound v]
    · have hfar : ∀ w b, beforeFirst? "?>".toList (a ++ c :: w) = some b → a.length ≤ b.length := by
        intro w b hwb
        by_contra hlt
        exact hb ⟨w, b, hwb, Nat.lt_of_not_le hlt⟩
      have hu := length_le_lineComment (hfar u)
      have hv := length_le_lineComment (hfar v)
      exact (Nat.le_antisymm hy hv).trans (Nat.le_antisymm hx hu).symm

/-! ## Lexemes -/

theorem plainLexeme_shared {previous : Option Text} {c d : Char} {a x y : Text}
    (hx : (plainLexeme previous d (a ++ c :: x)).length ≤ a.length)
    (hy : (plainLexeme previous d (a ++ c :: y)).length ≤ a.length) :
    plainLexeme previous d (a ++ c :: y) = plainLexeme previous d (a ++ c :: x) := by
  unfold plainLexeme at hx hy ⊢
  by_cases hname : isNameStart d = true
  · simp only [if_pos hname, nameLength] at hx hy ⊢
    rw [takeWhile_shared hx y]
  · simp only [if_neg hname] at hx hy ⊢
    have hcompound : compoundLength? (a ++ c :: y) = compoundLength? (a ++ c :: x) := by
      refine compoundLength?_shared (fun n hn => ?_) (fun n hn => ?_)
      · rw [hn] at hx
        exact hx
      · rw [hn] at hy
        exact hy
    rw [hcompound]

theorem two_le_angleLexeme {previous : Option Text} {d : Char} {r : Text}
    (h : startsWith (d :: r) "<<<".toList = true) : 2 ≤ (angleLexeme previous d (d :: r)).length := by
  unfold angleLexeme
  split
  · rename_i n hn
    obtain ⟨o, ho, rfl⟩ := Option.map_eq_some_iff.mp hn
    have hopener : 3 ≤ o.length := by
      cases opener_of_heredocOpener? h ho
      dsimp only
      omega
    exact Nat.le_trans (Nat.le_of_succ_le hopener) (Nat.le_add_right _ _)
  · obtain ⟨u, hu⟩ := startsWith_iff.mp h
    obtain ⟨rfl, hr⟩ : d = '<' ∧ r = '<' :: '<' :: u := List.cons.inj hu
    have hmem : ∀ q ∈ compounds, 2 ≤ q.length := by decide
    have hsome : (compounds.find? (startsWith ('<' :: r))).isSome = true := by
      rw [List.find?_isSome]
      exact ⟨"<<".toList, by decide, by rw [hr]; rfl⟩
    obtain ⟨q, hq⟩ := Option.isSome_iff_exists.mp hsome
    have hplain : plainLexeme previous '<' ('<' :: r) = ⟨.punct, q.length⟩ := by
      rw [plainLexeme, if_neg (by decide), compoundLength?, hq]
      rfl
    rw [hplain]
    exact hmem q (List.mem_of_find?_eq_some hq)

theorem angleLexeme_shared {previous : Option Text} {c d : Char} {a x y : Text}
    (h : ∀ v, startsWith (a ++ c :: v) "<<<".toList = true)
    (hx : (angleLexeme previous d (a ++ c :: x)).length ≤ a.length)
    (hy : (angleLexeme previous d (a ++ c :: y)).length ≤ a.length) :
    angleLexeme previous d (a ++ c :: y) = angleLexeme previous d (a ++ c :: x) := by
  unfold angleLexeme at hx hy ⊢
  cases hn : heredocLength? (a ++ c :: x) with
  | some n =>
    rw [hn] at hx
    rw [heredocLength?_shared (h x) hn hx y]
  | none =>
    cases hm : heredocLength? (a ++ c :: y) with
    | some m =>
      -- a heredoc that ends in what is shared would be one in the other text, too
      rw [hm] at hy
      rw [heredocLength?_shared (h y) hm hy x] at hn
      cases hn
    | none =>
      rw [hn] at hx
      rw [hm] at hy
      exact plainLexeme_shared hx hy

/-- At `<<<` two characters at least are read, so that the three are shared. -/
theorem startsWith_angles_shared {previous : Option Text} {c d : Char} {a u : Text}
    (hu : (codeLexeme previous d (a ++ c :: u)).length ≤ (d :: a).length)
    (h : startsWith (d :: (a ++ c :: u)) "<<<".toList = true) (v : Text) :
    startsWith (d :: (a ++ c :: v)) "<<<".toList = true := by
  rw [codeLexeme_of_angles h] at hu
  have hlength : "<<<".toList.length ≤ (d :: a).length + 1 := Nat.succ_le_succ (Nat.le_trans (two_le_angleLexeme h) hu)
  exact (startsWith_shared (a := d :: a) hlength u v).trans h

theorem codeLexeme_shared {previous : Option Text} {c d : Char} {a x y : Text}
    (hx : (codeLexeme previous d (a ++ c :: x)).length ≤ (d :: a).length)
    (hy : (codeLexeme previous d (a ++ c :: y)).length ≤ (d :: a).length) :
    codeLexeme previous d (a ++ c :: y) = codeLexeme previous d (a ++ c :: x) := by
  have hangles : startsWith (d :: (a ++ c :: y)) "<<<".toList = startsWith (d :: (a ++ c :: x)) "<<<".toList :=
    Bool.eq_iff_iff.mpr ⟨fun h => startsWith_angles_shared hy h x, fun h => startsWith_angles_shared hx h y⟩
  have hsame : ∀ mark ∈ marks, startsWith (d :: (a ++ c :: y)) mark = startsWith (d :: (a ++ c :: x)) mark := by
    have hshort : ∀ m ∈ marks, m.length ≤ 2 ∨ m = "<<<".toList := by decide
    intro mark hmark
    rcases hshort mark hmark with h | rfl
    · exact startsWith_shared (a := d :: a) (Nat.le_trans h (Nat.le_add_left 2 a.length)) x y
    · exact hangles
  have hhead := head?_append_cons a c y x
  obtain ⟨form, hbegins, hlex, hlex'⟩ := exists_form_of_alike hsame (fun _ => congrArg (Option.any isNameStart) hhead)
    (congrArg (Option.any Char.isDigit) hhead) previous previous
  have hreach := startsWith_angles_shared hx
  rw [hlex] at hx ⊢
  rw [hlex'] at hy ⊢
  cases hbegins with
  | blanks => exact congrArg (fun t => Lexeme.mk _ (List.length t)) (takeWhile_shared (a := d :: a) hx y)
  | closeTag h => exact congrArg (Lexeme.mk _) (closeTagLength_shared (a := d :: a) h hx hy)
  | attributeMark => rfl
  | lineComment => exact congrArg (Lexeme.mk _) (lineCommentLength_shared (a := d :: a) hx hy)
  | blockComment =>
    obtain ⟨hlen, hlength⟩ := blockCommentLength_shared (a := d :: a) hx y
    rw [Form.lexeme, Form.lexeme, ← List.cons_append, ← List.cons_append, isDocComment_shared hlen (c :: x) (c :: y),
      hlength]
  | quoted => exact congrArg (Lexeme.mk _) (quotedLength_shared hx y)
  | angles h => exact angleLexeme_shared (a := d :: a) (hreach h) hx hy
  | var =>
    have hword : ((a ++ c :: x).takeWhile isNameChar).length ≤ a.length := by
      simp only [Form.lexeme, nameLength, List.length_cons] at hx
      omega
    rw [Form.lexeme, Form.lexeme, nameLength, nameLength, takeWhile_shared hword y]
  | number =>
    have hlength := numberLengthFrom_shared (a := d :: a) (Nat.le_trans (Nat.le_max_right 1 _) hx)
      (Nat.le_trans (Nat.le_max_right 1 _) hy)
    rw [Form.lexeme, Form.lexeme, numberLength, numberLength, ← List.cons_append, ← List.cons_append, hlength]
  | separator => rfl
  | plain => exact plainLexeme_shared (a := d :: a) hx hy

theorem htmlLexeme_shared {c d : Char} {a x y : Text} (hx : (htmlLexeme (d :: a ++ c :: x)).length ≤ (d :: a).length)
    (hy : (htmlLexeme (d :: a ++ c :: y)).length ≤ (d :: a).length) :
    htmlLexeme (d :: a ++ c :: y) = htmlLexeme (d :: a ++ c :: x) := by
  have htwo : "<?".toList.length ≤ (d :: a).length + 1 := Nat.le_add_left 2 a.length
  unfold htmlLexeme at hx hy ⊢
  rw [startsWith_shared htwo x y] at hy ⊢
  by_cases hs : startsWith (d :: a ++ c :: x) "<?".toList = true
  · rw [if_pos hs] at hx hy ⊢
    rw [if_pos hs, openTagLength_shared hx hy]
  rw [if_neg hs] at hx hy ⊢
  rw [if_neg hs]
  dsimp only at hx hy
  -- a tag in what is shared ends the text in both, otherwise it reaches to the end of it
  by_cases hb : ∃ u b, beforeFirst? "<?".toList (d :: a ++ c :: u) = some b ∧ b.length < (d :: a).length
  · obtain ⟨u, b, hb, hlt⟩ := hb
    have hfound := beforeFirst?_shared_of_lt (by decide) hb hlt
    rw [hfound x, hfound y]
    rfl
  · have hfar : ∀ u, (d :: a).length ≤ ((beforeFirst? "<?".toList (d :: a ++ c :: u)).getD (d :: a ++ c :: u)).length := by
      intro u
      cases hu : beforeFirst? "<?".toList (d :: a ++ c :: u) with
      | none => simp
      | some b =>
        by_contra hlt
        exact hb ⟨u, b, hu, Nat.lt_of_not_le hlt⟩
    rw [Nat.le_antisymm hx (hfar x), Nat.le_antisymm hy (hfar y)]

/-- A token that ends in what two texts share, with one character more, is the same in both. -/
theorem lexeme_shared {s : LexState} {c d : Char} {a x y : Text}
    (hx : (lexeme s d (a ++ c :: x)).length ≤ (d :: a).length)
    (hy : (lexeme s d (a ++ c :: y)).length ≤ (d :: a).length) :
    lexeme s d (a ++ c :: y) = lexeme s d (a ++ c :: x) := by
  unfold lexeme at hx hy ⊢
  by_cases hs : s.inCode = true
  · rw [if_pos hs] at hx hy ⊢
    rw [if_pos hs, codeLexeme_shared hx hy]
  · rw [if_neg hs] at hx hy ⊢
    rw [if_neg hs]
    exact htmlLexeme_shared hx hy

/-! ## Runs -/

theorem length_nextToken (s : LexState) (c : Char) (r : Text) : (nextToken s c r).text.length = (lexeme s c r).length :=
  List.length_take_of_le (lexeme_bounds s c r).2

/-- A run whose tokens make up a beginning of the text: the first of them, and what is left. -/
theorem of_cons {s : LexState} {c d : Char} {a x : Text} {tok : Token} {ts us : List Token}
    (h : Lexes s (d :: a ++ c :: x) (tok :: ts ++ us)) (htext : textOf (tok :: ts) = d :: a) :
    tok = nextToken s d (a ++ c :: x) ∧ (lexeme s d (a ++ c :: x)).length ≤ (d :: a).length ∧
      Lexes (s.next tok) (textOf ts ++ c :: x) (ts ++ us) := by
  have hsplit : tok.text ++ textOf ts = d :: a := htext
  rw [List.cons_append, List.cons_append] at h
  generalize hr : a ++ c :: x = r at h
  cases h with
  | step _ _ _ _ rest =>
    have hlen : (lexeme s d r).length ≤ (d :: a).length := by
      rw [← length_nextToken, ← hsplit, List.length_append]
      exact Nat.le_add_right _ _
    have hdrop : (d :: r).drop (lexeme s d r).length = textOf ts ++ c :: x := by
      have htext : d :: r = (nextToken s d r).text ++ (textOf ts ++ c :: x) := by
        rw [← List.append_assoc, hsplit, List.cons_append, hr]
      rw [htext, ← length_nextToken, List.drop_left]
    rw [hdrop] at rest
    exact ⟨rfl, hlen, rest⟩

/-- Runs over two texts that share a beginning and one more character, and come to the end of
    a token with that beginning, read the same up to there. -/
theorem Lexes.shared {s : LexState} {c : Char} {x y : Text} {ts us ts' us' : List Token}
    (h : Lexes s (textOf ts ++ c :: x) (ts ++ us)) (h' : Lexes s (textOf ts' ++ c :: y) (ts' ++ us'))
    (htext : textOf ts' = textOf ts) :
    ts' = ts ∧ Lexes (s.afterAll ts) (c :: x) us ∧ Lexes (s.afterAll ts) (c :: y) us' := by
  induction ts generalizing s ts' with
  | nil =>
    have hnil : ts' = [] := by
      cases ts' with
      | nil => rfl
      | cons tok ts' =>
        have hne := h'.text_ne_nil tok (by simp)
        have hempty : tok.text ++ textOf ts' = [] := htext
        exact absurd (List.append_eq_nil_iff.mp hempty).1 hne
    subst hnil
    exact ⟨rfl, h, h'⟩
  | cons tok ts ih =>
    have hne := h.text_ne_nil tok (by simp)
    obtain ⟨d, a, hda⟩ : ∃ d a, textOf (tok :: ts) = d :: a :=
      List.exists_cons_of_ne_nil (List.append_ne_nil_of_left_ne_nil hne (textOf ts))
    cases ts' with
    | nil =>
      rw [hda] at htext
      cases htext
    | cons tok' ts' =>
      rw [htext, hda] at h'
      rw [hda] at h htext
      obtain ⟨rfl, hlen, hrest⟩ := of_cons h hda
      obtain ⟨rfl, hlen', hrest'⟩ := of_cons h' htext
      have htok : nextToken s d (a ++ c :: y) = nextToken s d (a ++ c :: x) := by
        have hlex := lexeme_shared hlen hlen'
        unfold nextToken
        rw [hlex, ← List.cons_append, ← List.cons_append, List.take_append_of_le_length hlen,
          List.take_append_of_le_length hlen]
      rw [htok] at hrest' htext ⊢
      have hbehind : textOf ts' = textOf ts := List.append_cancel_left (htext.trans hda.symm)
      obtain ⟨rfl, hx, hy⟩ := ih hrest hrest' hbehind
      exact ⟨rfl, hx, hy⟩

end ClassOutline.Token
