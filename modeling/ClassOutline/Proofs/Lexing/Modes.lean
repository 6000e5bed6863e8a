import ClassOutline.Proofs.Lexing.Lossless
/-
  ClassOutline.Proofs.Lexing.Modes — text and code take turns.

  The tokens of a source make up blocks: a stretch of text perhaps, an open tag, tokens of
  code, and a closing tag (`Block`). Only the last block may stop early. The lexer's state says
  whether code is being read, but not whether a text has just ended; that an open tag follows
  it is seen from the characters that are left. So `Begun` says what has been read of a block
  given both, each token takes it one further or ends the block (`Begun.step`), and a run puts
  the blocks together (`Lexes.splits`).

  What is text holds no `<?`, and a comment that ends with its line ends before a closing tag,
  too: the comment's length is measured up to the first of both (`take_lineCommentLength`).
-/

namespace ClassOutline.Text

/-- Nothing that stands before the first occurrence holds another. -/
theorem not_infix_of_beforeFirst? {part : Text} (hne : part ≠ []) {t b : Text} (h : beforeFirst? part t = some b) :
    ¬ part <:+: b := by
  induction t generalizing b with
  | nil =>
    unfold beforeFirst? at h
    split at h
    · rename_i he
      exact absurd (List.isEmpty_iff.mp he) hne
    · cases h
  | cons c t ih =>
    rw [beforeFirst?_cons] at h
    split at h
    · cases h
      rwa [List.infix_nil]
    · rename_i hstart
      obtain ⟨b', hb', rfl⟩ := Option.map_eq_some_iff.mp h
      rw [List.infix_cons_iff]
      rintro (hhead | hinner)
      · obtain ⟨r, rfl⟩ := eq_append_of_beforeFirst? hb'
        obtain ⟨x, hx⟩ := hhead
        refine hstart (startsWith_iff.mpr ⟨x ++ (part ++ r), ?_⟩)
        rw [← List.append_assoc part, hx, List.cons_append]
      · exact ih hb' hinner

theorem not_infix_of_beforeFirst?_eq_none {part t : Text} (h : beforeFirst? part t = none) : ¬ part <:+: t := by
  induction t with
  | nil =>
    rw [List.infix_nil]
    rintro rfl
    cases h
  | cons c t ih =>
    rw [beforeFirst?_cons] at h
    split at h
    · cases h
    · rename_i hstart
      rw [List.infix_cons_iff]
      rintro (⟨x, hx⟩ | hinner)
      · exact hstart (startsWith_iff.mpr ⟨x, hx.symm⟩)
      · exact ih (Option.map_eq_none_iff.mp h) hinner

end ClassOutline.Text

namespace ClassOutline.Token

open ClassOutline.Text

/-! ## Blocks -/

/-- The kinds of tokens that stand between the tags. -/
def Kind.isOfCode : Kind → Bool
  | .inlineHtml | .openTag | .closeTag => false
  | _ => true

def IsOpenTag (tok : Token) : Prop := tok.kind = .openTag ∧ "<?".toList <+: tok.text

def IsCloseTag (tok : Token) : Prop := tok.kind = .closeTag ∧ "?>".toList <+: tok.text

/-- Code between its tags, and the text before it. -/
structure Block where
  html : Option Token
  openTag : Token
  code : List Token
  closeTag : Token
  isHtml : ∀ tok ∈ html, tok.kind = .inlineHtml
  isOpenTag : IsOpenTag openTag
  isOfCode : ∀ tok ∈ code, tok.kind.isOfCode = true
  isCloseTag : IsCloseTag closeTag

def Block.tokens (b : Block) : List Token := b.html.toList ++ b.openTag :: (b.code ++ [b.closeTag])

/-- Whole blocks, and what the last one has if it stops early. -/
def Splits (ts : List Token) : Prop :=
  ∃ (blocks : List Block) (last : List Token),
    ts = blocks.flatMap Block.tokens ++ last ∧ ∃ b : Block, last <+: b.tokens

theorem Splits.block (b : Block) {ts : List Token} (h : Splits ts) : Splits (b.tokens ++ ts) := by
  obtain ⟨blocks, last, rfl, hlast⟩ := h
  exact ⟨b :: blocks, last, by rw [List.flatMap_cons, List.append_assoc], hlast⟩

/-- What has been read of a block, whether code is read now, and the text that is left. -/
inductive Begun : List Token → Bool → Text → Prop
  | nothing (t : Text) : Begun [] false t
  | html {tok : Token} (h : tok.kind = .inlineHtml) {t : Text} (ht : t ≠ [] → startsWith t "<?".toList = true) :
      Begun [tok] false t
  | code {html : Option Token} {openTag : Token} {code : List Token} (hhtml : ∀ tok ∈ html, tok.kind = .inlineHtml)
      (hopen : IsOpenTag openTag) (hcode : ∀ tok ∈ code, tok.kind.isOfCode = true) (t : Text) :
      Begun (html.toList ++ openTag :: code) true t

def emptyOpenTag : Token := ⟨.openTag, "<?".toList, 1⟩

def emptyCloseTag : Token := ⟨.closeTag, "?>".toList, 1⟩

theorem isOpenTag_emptyOpenTag : IsOpenTag emptyOpenTag := ⟨rfl, List.prefix_refl _⟩

theorem isCloseTag_emptyCloseTag : IsCloseTag emptyCloseTag := ⟨rfl, List.prefix_refl _⟩

/-- What has been read can go on to be a block. -/
theorem Begun.splits {pre : List Token} {inCode : Bool} {t : Text} (h : Begun pre inCode t) : Splits pre := by
  refine ⟨[], pre, rfl, ?_⟩
  cases h with
  | nothing =>
    exact ⟨⟨none, emptyOpenTag, [], emptyCloseTag, by simp, isOpenTag_emptyOpenTag, by simp, isCloseTag_emptyCloseTag⟩,
      List.nil_prefix⟩
  | @html tok h =>
    exact ⟨⟨some tok, emptyOpenTag, [], emptyCloseTag, by simpa using h, isOpenTag_emptyOpenTag, by simp,
      isCloseTag_emptyCloseTag⟩, List.prefix_append [tok] _⟩
  | @code html openTag code hhtml hopen hcode =>
    refine ⟨⟨html, openTag, code, emptyCloseTag, hhtml, hopen, hcode, isCloseTag_emptyCloseTag⟩, [emptyCloseTag], ?_⟩
    rw [List.append_assoc, List.cons_append]
    rfl

/-! ## Tokens of both modes -/

theorem startsWith_take {t head : Text} {n : Nat} (h : startsWith t head = true) (hn : head.length ≤ n) :
    head <+: t.take n := by
  obtain ⟨r, rfl⟩ := startsWith_iff.mp h
  rw [List.take_append, List.take_of_length_le hn]
  exact List.prefix_append _ _

theorem two_le_openTagLength (t : Text) : 2 ≤ openTagLength t := by
  unfold openTagLength
  repeat' split
  all_goals omega

/-- Outside code a token is an open tag or a text up to the next one. -/
theorem htmlLexeme_cases (t : Text) :
    (startsWith t "<?".toList = true ∧ (htmlLexeme t).kind = .openTag ∧ "<?".toList <+: t.take (htmlLexeme t).length) ∨
      (startsWith t "<?".toList = false ∧ (htmlLexeme t).kind = .inlineHtml ∧
        ¬ "<?".toList <:+: t.take (htmlLexeme t).length ∧
        (t.drop (htmlLexeme t).length ≠ [] → startsWith (t.drop (htmlLexeme t).length) "<?".toList = true)) := by
  unfold htmlLexeme
  by_cases hs : startsWith t "<?".toList = true
  · rw [if_pos hs]
    exact Or.inl ⟨hs, rfl, startsWith_take hs (two_le_openTagLength t)⟩
  · rw [if_neg hs]
    refine Or.inr ⟨by simpa using hs, rfl, ?_⟩
    dsimp only
    cases hb : beforeFirst? "<?".toList t with
    | none =>
      rw [Option.getD_none, List.take_length, List.drop_length]
      exact ⟨not_infix_of_beforeFirst?_eq_none hb, fun hne => absurd rfl hne⟩
    | some b =>
      have hnot := not_infix_of_beforeFirst? (by decide) hb
      obtain ⟨r, rfl⟩ := eq_append_of_beforeFirst? hb
      rw [Option.getD_some, List.take_left, List.drop_left]
      exact ⟨hnot, fun _ => startsWith_iff.mpr ⟨r, rfl⟩⟩

/-- What a token of code is, as far as its kind tells text, tags and comments from the rest. -/
inductive IsCodeLexeme (c : Char) (r : Text) : Lexeme → Prop
  | closeTag (h : startsWith (c :: r) "?>".toList = true) : IsCodeLexeme c r ⟨.closeTag, closeTagLength (c :: r)⟩
  | lineComment (h : c = '#' ∨ startsWith (c :: r) "//".toList = true) :
      IsCodeLexeme c r ⟨.comment, lineCommentLength (c :: r)⟩
  | blockComment (h : startsWith (c :: r) "/*".toList = true) (isDoc : Bool) (n : Nat) :
      IsCodeLexeme c r ⟨if isDoc then .docComment else .comment, n⟩
  | other {kind : Kind} (h : kind.isOfCode = true) (hc : kind ≠ .comment) (n : Nat) : IsCodeLexeme c r ⟨kind, n⟩

theorem ofWord_cases (previous : Option Text) (word : Text) :
    (Kind.ofWord previous word).isOfCode = true ∧ Kind.ofWord previous word ≠ .comment := by
  unfold Kind.ofWord
  dsimp only
  repeat' split
  all_goals exact ⟨rfl, by decide⟩

theorem isCodeLexeme_plainLexeme (previous : Option Text) (c : Char) (r : Text) :
    IsCodeLexeme c r (plainLexeme previous c (c :: r)) := by
  unfold plainLexeme
  split
  · obtain ⟨hcode, hne⟩ := ofWord_cases previous ((c :: r).takeWhile isNameChar)
    exact .other hcode hne _
  · split
    · exact .other rfl (by decide) _
    · split
      · exact .other rfl (by decide) _
      · exact .other rfl (by decide) _

theorem isCodeLexeme_angleLexeme (previous : Option Text) (c : Char) (r : Text) :
    IsCodeLexeme c r (angleLexeme previous c (c :: r)) := by
  unfold angleLexeme
  split
  · exact .other rfl (by decide) _
  · exact isCodeLexeme_plainLexeme previous c r

theorem isCodeLexeme_codeLexeme (previous : Option Text) (c : Char) (r : Text) :
    IsCodeLexeme c r (codeLexeme previous c r) := by
  obtain ⟨form, hbegins, hlex⟩ := exists_form previous c r
  rw [hlex]
  cases hbegins with
  | closeTag h => exact .closeTag h
  | lineComment h => exact .lineComment h
  | blockComment h => exact .blockComment h _ _
  | angles => exact isCodeLexeme_angleLexeme previous c r
  | plain => exact isCodeLexeme_plainLexeme previous c r
  | blanks | attributeMark | quoted | var | number | separator => exact .other rfl (by decide) _

/-! ## The next token -/

theorem nextToken_of_text {s : LexState} (hs : s.inCode = false) (c : Char) (r : Text) :
    IsOpenTag (nextToken s c r) ∨
      startsWith (c :: r) "<?".toList = false ∧ (nextToken s c r).kind = .inlineHtml ∧
        ¬ "<?".toList <:+: (nextToken s c r).text ∧
        ((c :: r).drop (lexeme s c r).length ≠ [] →
          startsWith ((c :: r).drop (lexeme s c r).length) "<?".toList = true) := by
  have hlexeme : lexeme s c r = htmlLexeme (c :: r) := by rw [lexeme, hs, if_neg Bool.false_ne_true]
  unfold nextToken
  rw [hlexeme]
  rcases htmlLexeme_cases (c :: r) with ⟨-, hkind, htext⟩ | hhtml
  · exact Or.inl ⟨hkind, htext⟩
  · exact Or.inr hhtml

theorem nextToken_of_code {s : LexState} (hs : s.inCode = true) (c : Char) (r : Text) :
    IsCloseTag (nextToken s c r) ∨ (nextToken s c r).kind.isOfCode = true := by
  have hlexeme : lexeme s c r = codeLexeme s.previous c r := by rw [lexeme, if_pos hs]
  unfold nextToken
  rw [hlexeme]
  generalize codeLexeme s.previous c r = l, isCodeLexeme_codeLexeme s.previous c r = h
  cases h with
  | closeTag h => exact Or.inl ⟨rfl, startsWith_take h (Nat.le_add_right 2 _)⟩
  | lineComment => exact Or.inr rfl
  | blockComment _ isDoc => cases isDoc <;> exact Or.inr rfl
  | other h => exact Or.inr h

theorem inCodeAfter_of_isOfCode {kind : Kind} (h : kind.isOfCode = true) (inCode : Bool) :
    kind.inCodeAfter inCode = inCode := by
  cases kind <;> first | rfl | cases h

/-- The next token is the next of the block, or ends it. -/
theorem Begun.step {pre : List Token} {inCode : Bool} {t : Text} (h : Begun pre inCode t) {s : LexState}
    (hs : s.inCode = inCode) {c : Char} {r : Text} (ht : t = c :: r) :
    let tok := nextToken s c r
    Begun (pre ++ [tok]) (s.next tok).inCode ((c :: r).drop (lexeme s c r).length) ∨
      (s.next tok).inCode = false ∧ ∃ b : Block, b.tokens = pre ++ [tok] := by
  intro tok
  have hnext : (s.next tok).inCode = tok.kind.inCodeAfter s.inCode := rfl
  cases h with
  | nothing =>
    rcases nextToken_of_text hs c r with hopen | ⟨-, hkind, -, hrest⟩
    · rw [hnext, hopen.1]
      exact Or.inl (@Begun.code none _ [] (by simp) hopen (by simp) _)
    · rw [hnext, hkind, hs]
      exact Or.inl (.html hkind hrest)
  | @html html hhtml _ hstart =>
    rcases nextToken_of_text hs c r with hopen | ⟨hnot, -⟩
    · rw [hnext, hopen.1]
      exact Or.inl (@Begun.code (some html) _ [] (by simpa using hhtml) hopen (by simp) _)
    · subst ht
      rw [hstart (List.cons_ne_nil c r)] at hnot
      cases hnot
  | @code html openTag code hhtml hopen hcode =>
    rcases nextToken_of_code hs c r with hclose | hkind
    · refine Or.inr ⟨?_, ⟨html, openTag, code, tok, hhtml, hopen, hcode, hclose⟩, ?_⟩
      · rw [hnext, hclose.1]
        rfl
      · rw [Block.tokens, List.append_assoc, List.cons_append]
    · rw [hnext, inCodeAfter_of_isOfCode hkind, hs, List.append_assoc, List.cons_append]
      refine Or.inl (.code hhtml hopen ?_ _)
      rw [List.forall_mem_append]
      exact ⟨hcode, by simpa using hkind⟩

/-- A run puts blocks behind what has been read of one. -/
theorem Lexes.splits {s : LexState} {t : Text} {ts : List Token} (h : Lexes s t ts) {pre : List Token}
    (hpre : Begun pre s.inCode t) : Splits (pre ++ ts) := by
  induction h generalizing pre with
  | done s =>
    rw [List.append_nil]
    exact hpre.splits
  | step s c r ts _ ih =>
    have hsplit : pre ++ nextToken s c r :: ts = pre ++ [nextToken s c r] ++ ts := by simp
    rw [hsplit]
    rcases hpre.step rfl rfl with hmore | ⟨htext, b, hb⟩
    · exact ih hmore
    · have hnothing : Begun [] (s.next (nextToken s c r)).inCode ((c :: r).drop (lexeme s c r).length) := by
        rw [htext]
        exact .nothing _
      rw [← hb]
      exact Splits.block b (ih hnothing)

/-! ## What texts and comments hold -/

/-- A line comment is cut at the end of its line, and at a closing tag before that. -/
theorem lineComment_ends (t : Text) :
    ¬ "?>".toList <:+: t.take (lineCommentLength t) ∧ '\n' ∉ t.take (lineCommentLength t) := by
  have hline : t.takeWhile (· != '\n') <+: t := List.takeWhile_prefix _
  have hnewline : '\n' ∉ t.takeWhile (· != '\n') := fun hmem => by simpa using List.mem_takeWhile_imp hmem
  unfold lineCommentLength
  dsimp only
  generalize t.takeWhile (· != '\n') = line at hline hnewline
  have htake : ∀ {u : Text}, u <+: line → t.take u.length = u := fun hu =>
    (List.prefix_iff_eq_take.mp (hu.trans hline)).symm
  cases hb : beforeFirst? "?>".toList line with
  | some body =>
    have hbegins : body <+: line := by
      obtain ⟨x, hx⟩ := eq_append_of_beforeFirst? hb
      exact ⟨_, hx.symm⟩
    dsimp only
    rw [htake hbegins]
    exact ⟨not_infix_of_beforeFirst? (by decide) hb, fun hmem => hnewline (hbegins.subset hmem)⟩
  | none =>
    have hbegins : dropReturn line <+: line := by
      rcases dropTail_cases ['\r'] line with h | ⟨h, -⟩
      · exact ⟨_, h.symm⟩
      · exact ⟨[], (List.append_nil _).trans h⟩
    dsimp only
    rw [htake hbegins]
    exact ⟨fun hin => not_infix_of_beforeFirst?_eq_none hb (hin.trans hbegins.isInfix),
      fun hmem => hnewline (hbegins.subset hmem)⟩

/-- What holds of the next token from every state and before every text holds of all tokens of
    a run. -/
theorem Lexes.forall_mem {P : Token → Prop} (hnext : ∀ s c r, P (nextToken s c r)) {s : LexState} {t : Text}
    {ts : List Token} (h : Lexes s t ts) : ∀ tok ∈ ts, P tok := by
  induction h with
  | done s => simp
  | step s c r ts _ ih => exact List.forall_mem_cons.mpr ⟨hnext s c r, ih⟩

theorem nextToken_inlineHtml (s : LexState) (c : Char) (r : Text) (hkind : (nextToken s c r).kind = .inlineHtml) :
    ¬ "<?".toList <:+: (nextToken s c r).text := by
  cases hs : s.inCode with
  | false =>
    rcases nextToken_of_text hs c r with hopen | ⟨-, -, hnot, -⟩
    · rw [hopen.1] at hkind
      cases hkind
    · exact hnot
  | true =>
    rcases nextToken_of_code hs c r with hclose | hcode
    · rw [hclose.1] at hkind
      cases hkind
    · rw [hkind] at hcode
      cases hcode

/-- The marks a line comment opens with. -/
def lineMarks : List Text := ["//".toList, "#".toList]

theorem nextToken_lineComment (s : LexState) (c : Char) (r : Text) (hkind : (nextToken s c r).kind = .comment)
    (hmark : ∃ mark ∈ lineMarks, mark <+: (nextToken s c r).text) :
    ¬ "?>".toList <:+: (nextToken s c r).text ∧ '\n' ∉ (nextToken s c r).text := by
  cases hs : s.inCode with
  | false =>
    rcases nextToken_of_text hs c r with hopen | ⟨-, hhtml, -⟩
    · rw [hopen.1] at hkind
      cases hkind
    · rw [hhtml] at hkind
      cases hkind
  | true =>
    have hlexeme : lexeme s c r = codeLexeme s.previous c r := by rw [lexeme, if_pos hs]
    unfold nextToken at hkind hmark ⊢
    rw [hlexeme] at hkind hmark ⊢
    generalize codeLexeme s.previous c r = l, isCodeLexeme_codeLexeme s.previous c r = h at hkind hmark
    cases h with
    | closeTag => cases hkind
    | lineComment => exact lineComment_ends (c :: r)
    | blockComment h =>
      -- a comment between delimiters begins with neither mark
      obtain ⟨mark, hmem, hstart⟩ := hmark
      obtain ⟨x, hx⟩ := startsWith_iff.mp h
      have hbegins := hstart.trans (List.take_prefix _ _)
      rw [hx] at hbegins
      simp only [lineMarks, List.mem_cons, List.not_mem_nil, or_false] at hmem
      rcases hmem with rfl | rfl <;> simp at hbegins
    | other _ hne => exact absurd hkind hne

/-- The tokens of every source are blocks of text, open tag, code and closing tag, of which the
    last may stop early. No text holds what opens a tag, and no comment that opens with a line
    mark holds a closing tag or a newline. -/
theorem text_and_code_take_turns (source : Text) :
    (∃ (blocks : List Block) (last : List Token),
      tokenize source = blocks.flatMap Block.tokens ++ last ∧ ∃ b : Block, last <+: b.tokens) ∧
      (∀ tok ∈ tokenize source, tok.kind = .inlineHtml → ¬ "<?".toList <:+: tok.text) ∧
      ∀ tok ∈ tokenize source, tok.kind = .comment → (∃ mark ∈ lineMarks, mark <+: tok.text) →
        ¬ "?>".toList <:+: tok.text ∧ '\n' ∉ tok.text := by
  have hrun := lexes_tokenize source
  exact ⟨hrun.splits (.nothing source), hrun.forall_mem nextToken_inlineHtml, hrun.forall_mem nextToken_lineComment⟩

end ClassOutline.Token
