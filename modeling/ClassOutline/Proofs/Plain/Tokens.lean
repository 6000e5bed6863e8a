import ClassOutline.Proofs.Lexing.Relaid
import ClassOutline.Proofs.Plain.Signs
/-
  ClassOutline.Proofs.Plain.Tokens — the tokens of a plain source over those of the lexer.

  The two lexers go through a source abreast (`Abreast`): the reader of plain sources may be
  some blanks ahead, where a comment took its line end along. Over a run of blanks the lexer
  takes one token (`Abreast.blanks`), over a comment another (`Abreast.comment`), and over a
  plain token one that shows it (`Abreast.token`). So the list of plain tokens lies over the
  token stream (`under_of_tokensFrom`).
-/

namespace ClassOutline.Plain

open ClassOutline.Text ClassOutline.Tree ClassOutline.Discovery
open ClassOutline.Token (LexState Lexes nextToken)

variable {source previousText : Text} {previous : Option Text} {pos : Nat} {pre b t r : Text} {c : Char} {n : Nat}
  {s : LexState} {ls : List ClassOutline.Token} {p : Pos} {gap : List Placed} {before : List Node}

/-! ## Trivia behind a place -/

/-- What the lexer has skipped since a place, which is trivia. -/
structure Skipped (source : Text) (previous : Option Text) (pos stop : Nat) (gap : List Placed) : Prop where
  trivia : ∀ q ∈ gap, q.token.kind.isTrivia = true
  bounds : ∀ q ∈ gap, pos ≤ q.offset ∧ q.offset < stop
  le : pos ≤ stop
  tight : gap = [] → stop = pos
  loose : gap ≠ [] → ∃ c r, source.drop pos = c :: r ∧ isPathChar c = false
  ends : gap = [] → ∀ w ∈ previous, Token.IsName w → ∀ d ∈ (source.drop stop).head?, Token.isNameChar d = false

theorem Skipped.push {stop : Nat} (h : Skipped source previous pos stop gap) (tok : ClassOutline.Token)
    (htrivia : tok.kind.isTrivia = true) (hsource : source.drop stop = c :: r) (hc : isPathChar c = false)
    (hne : tok.text ≠ []) : Skipped source previous pos (stop + tok.text.length) (gap ++ [⟨stop, tok⟩]) := by
  have hpos := List.length_pos_iff.mpr hne
  refine ⟨?_, ?_, Nat.le_add_right_of_le h.le, by simp, fun _ => ?_, by simp⟩
  · rw [List.forall_mem_append]
    exact ⟨h.trivia, by simpa using htrivia⟩
  · rw [List.forall_mem_append, List.forall_mem_singleton]
    refine ⟨fun q hq => ?_, h.le, by simp only; omega⟩
    obtain ⟨hle, hlt⟩ := h.bounds q hq
    exact ⟨hle, by omega⟩
  · by_cases hgap : gap = []
    · rw [h.tight hgap] at hsource
      exact ⟨c, r, hsource, hc⟩
    · exact h.loose hgap

/-! ## The lexers abreast -/

/-- Both lexers stand before the same text of code, but for blanks that the lexer has not read
    yet. -/
structure Abreast (source : Text) (pos : Nat) (pre b t : Text) (s : LexState) (ls : List ClassOutline.Token) (p : Pos)
    (gap : List Placed) : Prop where
  source_eq : source = pre ++ (b ++ t)
  inCode : s.inCode = true
  blank : ∀ d ∈ b, isCodeBlank d = true
  offset : p.offset = pre.length + b.length
  row : s.line + b.count '\n' = p.row + 1
  run : Lexes s (b ++ t) ls
  common : ∀ tok ∈ ls, isCommon tok = true
  skipped : Skipped source s.previous pos pre.length gap

theorem nextToken_of_inCode (hs : s.inCode = true) (c : Char) (r : Text) :
    nextToken s c r = tokenAt s.previous s.line c r := by
  rw [nextToken, ClassOutline.Token.lexeme, if_pos hs]
  rfl

theorem Abreast.drop_eq (h : Abreast source pos pre b t s ls p gap) : source.drop pre.length = b ++ t := by
  rw [h.source_eq, List.drop_left' rfl]

/-- The next token of the lexer and what follows it. -/
theorem exists_next (hs : s.inCode = true) (hrun : Lexes s (c :: r) ls) (hcommon : ∀ tok ∈ ls, isCommon tok = true) :
    ∃ ls', ls = tokenAt s.previous s.line c r :: ls' ∧ isCommon (tokenAt s.previous s.line c r) = true ∧
      Lexes (s.next (tokenAt s.previous s.line c r)) ((c :: r).drop (Token.codeLexeme s.previous c r).length) ls' ∧
        ∀ tok ∈ ls', isCommon tok = true := by
  cases hrun with
  | step _ _ _ ls' hrest =>
    rw [nextToken_of_inCode hs] at hrest hcommon ⊢
    obtain ⟨hhead, htail⟩ := List.forall_mem_cons.mp hcommon
    rw [ClassOutline.Token.lexeme, if_pos hs] at hrest
    exact ⟨ls', rfl, hhead, hrest, htail⟩

/-- A word that begins with a separator above ASCII is not common. -/
theorem not_isSeparator_of_common (hs : s.inCode = true) (hrun : Lexes s (c :: r) ls)
    (hcommon : ∀ tok ∈ ls, isCommon tok = true) (hc : isCodeBlank c = false) : Scan.isSeparator c = false := by
  obtain ⟨-, -, hhead, -⟩ := exists_next hs hrun hcommon
  by_contra hsep
  rw [Bool.not_eq_false, Scan.isSeparator, hc, Bool.false_or] at hsep
  have hstart : Token.isNameStart c = true := by
    simp only [Bool.or_eq_true, beq_iff_eq] at hsep
    rcases hsep with ((rfl | rfl) | rfl) | rfl <;> rfl
  have hname : Token.isNameChar c = true := by rw [Token.isNameChar, hstart, Bool.true_or]
  rw [tokenAt, ClassOutline.Token.codeLexeme_of_isNameStart hstart, Token.plainLexeme, if_pos hstart] at hhead
  have hall := all_of_isCommon (ofWord_mem _ _) hhead
  rw [Token.nameLength, ← List.prefix_iff_eq_take.mp (List.takeWhile_prefix _), List.takeWhile_cons_of_pos hname] at hall
  have := (hall c (by simp)).1
  rw [Scan.isSeparator, hc, Bool.false_or, hsep] at this
  cases this

theorem isSeparator_of_isCodeBlank (h : isCodeBlank c = true) : Scan.isSeparator c = true := by
  rw [Scan.isSeparator, h]
  rfl

theorem takeWhile_isSeparator (h : ∀ d u, t.drop (t.takeWhile isCodeBlank).length = d :: u → Scan.isSeparator d = false) :
    t.takeWhile Scan.isSeparator = t.takeWhile isCodeBlank := by
  conv_lhs => rw [ClassOutline.Token.takeWhile_append_drop isCodeBlank t]
  refine ClassOutline.Token.takeWhile_append_eq (fun d hd => isSeparator_of_isCodeBlank (List.mem_takeWhile_imp hd)) fun d hd => ?_
  obtain ⟨u, hu⟩ := List.head?_eq_some_iff.mp hd
  exact h d u hu

theorem not_isCodeBlank_of_drop {d : Char} {u : Text} (h : t.drop (t.takeWhile isCodeBlank).length = d :: u) :
    isCodeBlank d = false := by
  rw [drop_takeWhile] at h
  have := List.head?_dropWhile_not isCodeBlank t
  rw [h] at this
  simpa using this

theorem isPathChar_of_isCodeBlank (h : isCodeBlank c = true) : isPathChar c = false := by
  have hstart : Token.isNameChar c = false := by
    by_contra hname
    rw [ClassOutline.Token.not_isCodeBlank_of_isNameChar (by simpa using hname)] at h
    cases h
  rw [isPathChar, hstart, Bool.false_or]
  refine beq_false_of_ne fun he => ?_
  rw [he] at h
  cases h

/-- A run of blanks is one token of the lexer, and no separator follows it. -/
theorem exists_whitespace (hs : s.inCode = true) (hrun : Lexes s (c :: r) ls) (hcommon : ∀ tok ∈ ls, isCommon tok = true)
    (hc : isCodeBlank c = true) {w rest : Text} (hw : (c :: r).takeWhile isCodeBlank = w) (hrest : (c :: r).drop w.length = rest) :
    ∃ ls', ls = ⟨.whitespace, w, s.line⟩ :: ls' ∧ Lexes (s.next ⟨.whitespace, w, s.line⟩) rest ls' ∧
      (∀ tok ∈ ls', isCommon tok = true) ∧ ∀ d u, rest = d :: u → Scan.isSeparator d = false := by
  obtain ⟨ls', rfl, -, hlexed, hcommon⟩ := exists_next hs hrun hcommon
  have htok : tokenAt s.previous s.line c r = ⟨.whitespace, w, s.line⟩ := by
    rw [tokenAt, ClassOutline.Token.codeLexeme_of_isCodeBlank hc, ← List.prefix_iff_eq_take.mp (List.takeWhile_prefix _), hw]
  rw [ClassOutline.Token.codeLexeme_of_isCodeBlank hc, hw, hrest, htok] at hlexed
  refine ⟨ls', by rw [htok], hlexed, hcommon, fun d u hd => ?_⟩
  have hin : (s.next ⟨.whitespace, w, s.line⟩).inCode = true := hs
  have hblank : isCodeBlank d = false := not_isCodeBlank_of_drop (t := c :: r) (u := u) (by rw [hw, hrest, hd])
  rw [hd] at hlexed
  exact not_isSeparator_of_common hin hlexed hcommon hblank

/-- The blanks before the next token are one token of the lexer. -/
theorem Abreast.blanks (h : Abreast source pos pre b t s ls p gap) :
    ∃ pre' s' ls' gap', Abreast source pos pre' [] (t.drop (t.takeWhile Scan.isSeparator).length) s' ls'
        (p.past (t.takeWhile Scan.isSeparator)) gap' ∧
      s'.previous = s.previous ∧ gap ++ placedFrom pre.length ls = gap' ++ placedFrom pre'.length ls' ∧
        ((gap' = gap ∧ b = []) ∨ ∃ q, gap' = gap ++ [q] ∧ q.token.kind = .whitespace) := by
  cases hall : b ++ t with
  | nil =>
    obtain ⟨rfl, rfl⟩ := List.append_eq_nil_iff.mp hall
    exact ⟨pre, s, ls, gap, h, rfl, rfl, Or.inl ⟨rfl, rfl⟩⟩
  | cons c r =>
  by_cases hc : isCodeBlank c = true
  · obtain ⟨w, hw⟩ : ∃ w, w = b ++ t.takeWhile isCodeBlank := ⟨_, rfl⟩
    have hbefore : (c :: r).takeWhile isCodeBlank = w := by
      rw [← hall, List.takeWhile_append_of_pos h.blank, hw]
    have hafter : (c :: r).drop w.length = t.drop (t.takeWhile isCodeBlank).length := by
      rw [← hall, hw, List.length_append, List.drop_append]
      simp
    obtain ⟨ls', rfl, hrest, hcommon, hsep⟩ := exists_whitespace h.inCode (hall ▸ h.run) h.common hc hbefore hafter
    have hne : w ≠ [] := by
      rw [← hbefore, List.takeWhile_cons_of_pos hc]
      simp
    have hsource : source = pre ++ w ++ ([] ++ t.drop (t.takeWhile isCodeBlank).length) := by
      rw [h.source_eq, hw, List.nil_append, List.append_assoc, List.append_assoc,
        ← ClassOutline.Token.takeWhile_append_drop isCodeBlank t]
    have hskipped : Skipped source s.previous pos (pre ++ w).length (gap ++ [⟨pre.length, ⟨.whitespace, w, s.line⟩⟩]) := by
      rw [List.length_append]
      exact h.skipped.push ⟨.whitespace, w, s.line⟩ rfl (h.drop_eq.trans hall) (isPathChar_of_isCodeBlank hc) hne
    rw [takeWhile_isSeparator hsep]
    refine ⟨pre ++ w, s.next ⟨.whitespace, w, s.line⟩, ls', gap ++ [⟨pre.length, ⟨.whitespace, w, s.line⟩⟩], ?_, rfl, ?_,
      Or.inr ⟨_, rfl, rfl⟩⟩
    · refine ⟨hsource, h.inCode, by simp, ?_, ?_, hrest, hcommon, hskipped⟩
      · rw [offset_past, h.offset, hw]
        simp only [List.length_append, List.length_nil]
        omega
      · have hrow := h.row
        rw [row_past, List.count_nil]
        show s.line + w.count '\n' + 0 = _
        rw [hw, List.count_append]
        omega
    · rw [placedFrom, List.append_assoc, List.singleton_append, List.length_append]
  · rw [Bool.not_eq_true] at hc
    have hsep := not_isSeparator_of_common h.inCode (hall ▸ h.run) h.common hc
    obtain rfl : b = [] := by
      cases b with
      | nil => rfl
      | cons d b =>
        obtain ⟨rfl, -⟩ := List.cons.inj hall
        rw [h.blank d (by simp)] at hc
        cases hc
    obtain rfl : t = c :: r := hall
    have hnone : (c :: r).takeWhile Scan.isSeparator = [] := List.takeWhile_cons_of_neg (by simp [hsep])
    rw [hnone]
    exact ⟨pre, s, ls, gap, h, rfl, rfl, Or.inl ⟨rfl, rfl⟩⟩

/-- A closing tag is not common. -/
theorem not_closeTag_of_common (hs : s.inCode = true) (hrun : Lexes s t ls) (hcommon : ∀ tok ∈ ls, isCommon tok = true) :
    startsWith t "?>".toList = false := by
  by_contra hclose
  rw [Bool.not_eq_false] at hclose
  obtain ⟨u, rfl⟩ := startsWith_iff.mp hclose
  obtain ⟨-, -, hhead, -⟩ := exists_next hs hrun hcommon
  cases hhead

theorem inCode_next (hs : s.inCode = true) {tok : ClassOutline.Token} (hcommon : isCommon tok = true) :
    (s.next tok).inCode = true := by
  obtain ⟨kind, text, line⟩ := tok
  cases kind with
  | closeTag => cases hcommon
  | openTag => rfl
  | _ => exact hs

theorem head_of_plainComment? (h : plainComment? (c :: r) = some n) : c = '/' ∨ c = '#' := by
  unfold plainComment? at h
  split at h
  · cases h
  · unfold Scan.commentLength? at h
    split at h
    · rename_i he
      exact Or.inl (List.cons.inj he).1
    · rename_i he
      exact Or.inl (List.cons.inj he).1
    · rename_i he
      exact Or.inr (List.cons.inj he).1
    · rename_i he
      exact Or.inr (List.cons.inj he).1
    · cases h

/-- A comment is a token of the lexer, but for a line end that goes with it. -/
theorem Abreast.comment (h : Abreast source pos pre [] (c :: r) s ls p gap) (hn : plainComment? (c :: r) = some n)
    (hlast : source.getLast? ≠ some '?' ∧ source.getLast? ≠ some '\r') :
    ∃ pre' b' s' ls' q, Abreast source pos pre' b' ((c :: r).drop n) s' ls' (p.past ((c :: r).take n)) (gap ++ [q]) ∧
      s'.previous = s.previous ∧ (q.token.kind = .comment ∨ q.token.kind = .docComment) ∧
        placedFrom pre.length ls = q :: placedFrom pre'.length ls' := by
  obtain ⟨ls', rfl, hhead, hrest, hcommon⟩ := exists_next h.inCode h.run h.common
  have hends : ∀ d, source.getLast? ≠ some d → (c :: r).getLast? ≠ some d := by
    intro d hd hlast
    refine hd ?_
    rw [h.source_eq, List.nil_append, List.getLast?_append, hlast]
    rfl
  have hin := inCode_next h.inCode hhead
  obtain ⟨hkind, text, b, rest, hsplit, hb, hlength, rfl⟩ := comment_spec hn hhead
    (not_closeTag_of_common hin hrest hcommon) ⟨hends _ hlast.1, hends _ hlast.2⟩
  have htrivia : (Token.codeLexeme s.previous c r).kind.isTrivia = true := by
    rcases hkind with hkind | hkind <;> · rw [hkind]; rfl
  obtain ⟨tok, htok⟩ : ∃ tok, tok = tokenAt s.previous s.line c r := ⟨_, rfl⟩
  have htext : tok.text = text := by
    rw [htok, tokenAt, hlength, hsplit, List.take_left' rfl]
  have hne : tok.text ≠ [] := by
    rw [htok]
    exact h.run.text_ne_nil _ (List.mem_cons_self ..)
  have hlexed : (c :: r).drop (Token.codeLexeme s.previous c r).length = b ++ rest := by
    rw [hlength, hsplit, List.drop_left' rfl]
  have htake : (c :: r).take (text.length + b.length) = text ++ b := by
    rw [hsplit, ← List.append_assoc, ← List.length_append, List.take_left' rfl]
  have hdrop : (c :: r).drop (text.length + b.length) = rest := by
    rw [hsplit, ← List.append_assoc, ← List.length_append, List.drop_left' rfl]
  have hprevious : (s.next tok).previous = s.previous := by
    rw [htok]
    exact if_pos htrivia
  rw [← htok, hlexed] at hrest
  rw [← htok] at hin ⊢
  have hpath : isPathChar c = false := by rcases head_of_plainComment? hn with rfl | rfl <;> rfl
  have hskipped := h.skipped.push tok (by rw [htok]; exact htrivia) h.drop_eq hpath hne
  refine ⟨pre ++ text, b, s.next tok, ls', ⟨pre.length, tok⟩, ?_, hprevious, by rw [htok]; exact hkind, ?_⟩
  · rw [htake, hdrop]
    refine ⟨?_, hin, hb, ?_, ?_, hrest, hcommon, ?_⟩
    · rw [h.source_eq, List.nil_append, hsplit, List.append_assoc]
    · rw [offset_past, h.offset]
      simp only [List.length_append, List.length_nil]
      omega
    · have hrow := h.row
      rw [List.count_nil] at hrow
      show s.line + tok.text.count '\n' + b.count '\n' = _
      rw [htext, row_past, List.count_append]
      omega
    · rw [hprevious, List.length_append, ← htext]
      exact hskipped
  · rw [placedFrom, List.length_append, ← htext]

theorem isTrivia_shownAs (previous : Option Text) (tk : Token) : (tk.shownAs previous).isTrivia = false := by
  have hword : ∀ w, (Token.Kind.ofWord previous w).isTrivia = false := by
    intro w
    rcases ofWord_mem previous w with h | h | h | h | h <;> · rw [h]; rfl
  unfold Token.shownAs
  split
  · exact hword _
  · exact hword _
  · rfl
  · rfl
  · rfl
  · rfl
  · split <;> rfl
  · rfl

/-- A plain token is a token of the lexer that shows it. -/
theorem Abreast.token (h : Abreast source pos pre [] (c :: r) s ls p gap) {tk : Token}
    (htk : IsLexeme s.previous c r p before tk) :
    ∃ s' ls' q, Abreast source tk.span.stop.offset (pre ++ tk.text) [] ((c :: r).drop tk.text.length) s' ls' tk.span.stop [] ∧
      s'.previous = some tk.text ∧ Shows s.previous tk q ∧
        placedFrom pre.length ls = q :: placedFrom (pre ++ tk.text).length ls' := by
  obtain ⟨ls', rfl, hhead, hrest, hcommon⟩ := exists_next h.inCode h.run h.common
  have hin := inCode_next h.inCode hhead
  obtain ⟨u, hsplit, hends⟩ := htk.text
  have htake : (c :: r).take tk.text.length = tk.text := by rw [hsplit, List.take_left' rfl]
  have hdrop : (c :: r).drop tk.text.length = u := by rw [hsplit, List.drop_left' rfl]
  have htok : tokenAt s.previous s.line c r = ⟨tk.shownAs s.previous, tk.text, s.line⟩ := by
    rw [tokenAt, htk.lexeme, htake]
  have hprevious : (s.next ⟨tk.shownAs s.previous, tk.text, s.line⟩).previous = some tk.text := by
    rw [LexState.next, isTrivia_shownAs]
    rfl
  have hoffset : p.offset = pre.length := h.offset
  have hrow : s.line = p.row + 1 := h.row
  have hstop : (p.past tk.text).offset = (pre ++ tk.text).length := by rw [offset_past, hoffset, List.length_append]
  have hsource : source = pre ++ tk.text ++ ([] ++ u) := by
    rw [h.source_eq, List.nil_append, hsplit, List.nil_append, List.append_assoc]
  rw [htk.lexeme, hdrop, htok] at hrest
  rw [htok] at hin
  rw [htok, hdrop, htk.span]
  refine ⟨_, ls', ⟨pre.length, ⟨tk.shownAs s.previous, tk.text, s.line⟩⟩, ?_, hprevious, ?_, ?_⟩
  · refine ⟨hsource, hin, by simp, hstop, ?_, hrest, hcommon, ?_⟩
    · show s.line + tk.text.count '\n' + 0 = _
      rw [row_past, hrow]
      omega
    · rw [hprevious, hstop]
      refine ⟨by simp, by simp, Nat.le_refl _, fun _ => rfl, fun h => absurd rfl h, fun _ w hw hname => ?_⟩
      obtain rfl : tk.text = w := by simpa using hw
      rw [hsource, List.drop_left' rfl]
      exact hends hname
  · refine ⟨?_, rfl, rfl, ?_⟩
    · rw [htk.span]
      exact hoffset.symm
    · rw [htk.span]
      exact hrow
  · rw [placedFrom, List.length_append]

/-! ## Whole runs -/

/-- A token of the lexer fits where it stands. -/
theorem Abreast.fit (h : Abreast source pos pre [] (c :: r) s ls p gap) {tk : Token}
    (htk : IsLexeme s.previous c r p before tk) (hbefore : CommentsBefore p.offset before) : Fit source tk := by
  obtain ⟨u, hsplit, -⟩ := htk.text
  have hstop : tk.span.stop.offset = p.offset + tk.text.length := by rw [htk.span, offset_past]
  have hfirst : tk.span.first = p := by rw [htk.span]
  have hoffset : p.offset = pre.length := h.offset
  refine ⟨?_, htk.pieces, htk.closes, ?_, ?_, htk.folds, htk.isName, htk.word, htk.isWord, htk.calm⟩
  · rw [htk.before, hfirst]
    exact hbefore
  · rw [Span.text, hstop, hfirst, Nat.add_sub_cancel_left, hoffset, h.drop_eq, List.nil_append, hsplit, List.take_left' rfl]
  · have := List.length_pos_iff.mpr htk.ne
    rw [hstop, hfirst]
    omega

/-- A character that the reader of plain sources gets past is in the basic plane. -/
theorem toNat_le_of_tokensFrom {fuel : Nat} {ts : List Token} (h : tokensFrom fuel p before (c :: r) = some ts) :
    c.toNat ≤ 0xffff := by
  have hascii : c.toNat ≤ 0x7f → c.toNat ≤ 0xffff := fun h => by omega
  cases fuel with
  | zero => cases h
  | succ fuel =>
    by_cases hsep : Scan.isSeparator c = true
    · simp only [Scan.isSeparator, isCodeBlank, Bool.or_eq_true, beq_iff_eq, Bool.and_eq_true, decide_eq_true_eq] at hsep
      rcases hsep with (((((rfl | hrange) | rfl) | rfl) | rfl) | rfl) <;> first | decide | omega
    · rw [tokensFrom, List.takeWhile_cons_of_neg hsep] at h
      simp only [List.length_nil, List.drop_zero] at h
      split at h
      · rename_i hn
        rcases head_of_plainComment? hn with rfl | rfl <;> decide
      · obtain ⟨tk, htk, -⟩ := Option.bind_eq_some_iff.mp h
        rw [token?] at htk
        split at htk
        · rename_i hc
          simp only [Scan.isNameStart, Bool.or_eq_true, Bool.and_eq_true, decide_eq_true_eq] at hc
          rcases hc with hword | ⟨⟨-, hle⟩, -⟩
          · refine hascii (Nat.le_of_lt_succ (ClassOutline.Token.isAscii_of_numberChar (c := c) ?_))
            rw [Char.isAlphanum]
            rcases hword with h | h <;> simp [h]
          · exact hle
        · split at htk
          · rename_i hc
            rw [beq_iff_eq.mp hc]
            decide
          · split at htk
            · rename_i hc
              have := (toNat_of_isDigit hc).2
              omega
            · split at htk
              · rename_i hc
                rcases Bool.or_eq_true_iff.mp hc with h | h <;> · rw [beq_iff_eq.mp h]; decide
              · obtain ⟨n, hn, -⟩ := Option.map_eq_some_iff.mp htk
                obtain ⟨-, -, -, ⟨hattr, rfl⟩ | ⟨hc, -⟩⟩ := markLength?_spec hn
                · rw [(List.cons.inj hattr).1]
                  decide
                · have hall : (oneSigns.all fun d => decide (d.toNat ≤ 0x7f)) = true := by decide
                  exact hascii (of_decide_eq_true (List.all_eq_true.mp hall c hc))

/-- The comments read since the last token and what the lexer has passed of them; it may have a
    line end before it that went with the last comment. -/
structure Commented (place : Nat) (before : List Node) (gap : List Placed) (b : Text) : Prop where
  places : CommentsBefore place before
  fresh : before = [] → gap = [] ∧ b = []
  comment : before ≠ [] → ∃ q ∈ gap, q.token.kind = .comment ∨ q.token.kind = .docComment

theorem commentsBefore_mono {place place' : Nat} (h : CommentsBefore place before) (hle : place ≤ place') :
    CommentsBefore place' before := by
  intro m hm
  obtain ⟨span, rfl, hstop⟩ := h m hm
  exact ⟨span, rfl, Nat.le_trans hstop hle⟩

theorem Commented.nil (place : Nat) : Commented place [] [] [] :=
  ⟨by simp [CommentsBefore], fun _ => ⟨rfl, rfl⟩, fun h => absurd rfl h⟩

/-- What the lexer has passed is the gap before the next token. -/
theorem Abreast.gap_of {gap' : List Placed} (h : Abreast source pos pre [] t s ls p gap') {place : Nat}
    (hcomments : Commented place before gap b)
    (hgap' : (gap' = gap ∧ b = []) ∨ ∃ q, gap' = gap ++ [q] ∧ q.token.kind = .whitespace) {tk : Token}
    (hfirst : tk.span.first = p) (hbefore : tk.before = before.reverse) : Gap source pos tk gap' := by
  have hoffset : p.offset = pre.length := h.offset
  refine ⟨h.skipped.trivia, ?_, fun hnil => ?_, fun hne hkinds => ?_, ?_, h.skipped.loose⟩
  · rw [hfirst, hoffset]
    exact h.skipped.bounds
  · rw [hbefore, List.reverse_eq_nil_iff] at hnil
    obtain ⟨rfl, -⟩ := hcomments.fresh hnil
    rcases hgap' with ⟨rfl, -⟩ | ⟨q, rfl, hq⟩
    · exact Or.inl rfl
    · exact Or.inr (by rw [List.nil_append, tokensOf_cons, tokensOf_nil, List.map_singleton, hq])
  · rw [hbefore, ne_eq, List.reverse_eq_nil_iff] at hne
    obtain ⟨q, hq, hkind⟩ := hcomments.comment hne
    have hq' : q ∈ gap' := by
      rcases hgap' with ⟨rfl, -⟩ | ⟨_, rfl, -⟩
      · exact hq
      · exact List.mem_append_left _ hq
    have hmem : q.token.kind ∈ (tokensOf gap').map Token.kind := List.mem_map_of_mem (List.mem_map_of_mem hq')
    rw [hkinds, List.mem_singleton] at hmem
    rcases hkind with hkind | hkind <;> · rw [hkind] at hmem; cases hmem
  · rw [hfirst, hoffset]
    exact h.skipped.tight

/-- A name does not stand right behind another: both would be one. -/
theorem Abreast.not_joined (h : Abreast source pos pre [] (c :: r) s ls p gap) {tk : Token}
    (htk : IsLexeme s.previous c r p before tk) (hgap : gap = []) (hname : tk.isNameLike = true) :
    ∀ w ∈ s.previous, ¬ Token.IsName w := by
  intro w hw hbefore
  obtain ⟨d, u, hu, hstart, -⟩ := htk.isName hname
  obtain ⟨v, hv, -⟩ := htk.text
  have hhead := h.skipped.ends hgap w hw hbefore d
  rw [h.drop_eq, List.nil_append, hv, hu] at hhead
  have := hhead rfl
  rw [Token.isNameChar, hstart] at this
  cases this

/-- The end of the source over what is left of the stream. -/
theorem Abreast.finish (h : Abreast source pos pre [] [] s ls p gap) {tk : Token} (hlexeme : tk.lexeme = .finish)
    (htext : tk.text = []) (hfirst : tk.span.first = p) (hbefore : CommentsBefore p.offset tk.before)
    (hgap : Gap source pos tk gap) : Under source s.previous pos [tk] (gap ++ placedFrom pre.length ls) := by
  have hnil : ls = [] := by
    cases h.run
    rfl
  have hplace : p.offset = source.length := by
    rw [h.source_eq, List.append_nil, List.append_nil]
    exact h.offset
  rw [hnil, placedFrom, List.append_nil]
  exact .finish hlexeme htext (by rw [hfirst, hplace]) (by rw [← hplace]; exact hbefore) hgap

/-- The tokens of a plain source lie over those of the lexer. -/
theorem under_of_tokensFrom {fuel : Nat} {ts : List Token} (h : tokensFrom fuel p before t = some ts)
    (hat : Abreast source pos pre b t s ls p gap) (hlast : source.getLast? ≠ some '?' ∧ source.getLast? ≠ some '\r')
    (hcomments : Commented p.offset before gap b) : Under source s.previous pos ts (gap ++ placedFrom pre.length ls) := by
  induction fuel generalizing p before t pos pre b s ls gap ts with
  | zero => cases h
  | succ fuel ih =>
    rw [tokensFrom] at h
    dsimp only at h
    obtain ⟨pre', s', ls', gap', hat', hprevious, hps, hgap'⟩ := hat.blanks
    have hplaces : CommentsBefore (p.past (t.takeWhile Scan.isSeparator)).offset before :=
      commentsBefore_mono hcomments.places (by rw [offset_past]; exact Nat.le_add_right _ _)
    rw [hps, ← hprevious]
    generalize p.past (t.takeWhile Scan.isSeparator) = p' at *
    generalize t.drop (t.takeWhile Scan.isSeparator).length = t' at *
    -- behind the blanks stands a comment, the end or a token
    split at h
    · rename_i n hn
      cases t' with
      | nil => cases hn
      | cons c r =>
        obtain ⟨pre'', b'', s'', ls'', q, hat'', hprevious', hkind, hps'⟩ := hat'.comment hn hlast
        rw [hps', ← hprevious', ← List.singleton_append, ← List.append_assoc]
        refine ih h hat'' ⟨?_, fun h => (List.cons_ne_nil _ _ h).elim, fun _ => ⟨q, by simp, hkind⟩⟩
        refine List.forall_mem_cons.mpr ⟨⟨_, rfl, Nat.le_refl _⟩, ?_⟩
        exact commentsBefore_mono hplaces (by rw [offset_past]; exact Nat.le_add_right _ _)
    · rename_i hnone
      obtain ⟨tk, htk, h⟩ := Option.bind_eq_some_iff.mp h
      have hreverse : CommentsBefore p'.offset before.reverse := fun m hm => hplaces m (List.mem_reverse.mp hm)
      cases t' with
      | nil =>
        cases htk
        cases h
        exact hat'.finish rfl rfl rfl hreverse (hat'.gap_of hcomments hgap' rfl rfl)
      | cons c r =>
        obtain ⟨ts', hts, rfl⟩ := Option.map_eq_some_iff.mp h
        obtain ⟨-, -, hcommon, -⟩ := exists_next hat'.inCode hat'.run hat'.common
        have hlex := isLexeme_of_token? htk hnone hcommon fun d u hd => by
          rw [hd] at hts
          exact toNat_le_of_tokensFrom hts
        have hfirst : tk.span.first = p' := by rw [hlex.span]
        obtain ⟨s'', ls'', q, hat'', hprevious', hshows, hps'⟩ := hat'.token hlex
        have hle : pos ≤ tk.span.first.offset := by
          rw [hfirst]
          exact Nat.le_trans hat'.skipped.le (Nat.le_of_eq hat'.offset.symm)
        have hrest := ih hts hat'' (.nil _)
        rw [hprevious', List.nil_append] at hrest
        rw [hps']
        exact .cons hlex.lexeme_ne (hat'.fit hlex hreverse) hle (hat'.gap_of hcomments hgap' hfirst hlex.before)
          (hat'.not_joined hlex) hshows hrest

end ClassOutline.Plain
