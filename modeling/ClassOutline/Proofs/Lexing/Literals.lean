import ClassOutline.Proofs.Lexing.RelaidHeredocs
import Mathlib.Data.List.Infix
/-
  ClassOutline.Proofs.Lexing.Literals — the literals of code that is laid out anew.

  Which literals a text has does not depend on what stands before it: the word before a token
  decides which kind of word it is, never whether it is a literal (`Lexes.literalTexts_eq`). So
  the literals of two texts can be compared token by token. At a character that both begin
  with, either both have a literal that ends at the same place, or neither has one and both
  go on behind it (`matches_codeLexeme`); white space holds no literal (`Passes`). Of the text
  that needs to be `Settled`: its literals and comments end, and it does not leave code.
-/

namespace ClassOutline.Token

open ClassOutline.Text

/-! ## Literals, whatever stands before them -/

def literalTexts (ts : List Token) : List Text := (ts.filter (·.kind == .stringLiteral)).map text

/-- The literals of a text that is code. -/
def codeLiterals (t : Text) : List Text := literalTexts (codeTokens t)

/-- Words, reserved or not. -/
def Kind.isWord : Kind → Bool
  | .identifier | .namespaceKeyword | .classKeyword | .keyword => true
  | _ => false

theorem isWord_ofWord (previous : Option Text) (w : Text) : (Kind.ofWord previous w).isWord = true := by
  unfold Kind.ofWord
  dsimp only
  repeat' split
  all_goals rfl

/-- A word is no literal, and code follows it. -/
theorem of_isWord {k : Kind} (h : k.isWord = true) : (k == .stringLiteral) = false ∧ ∀ b, k.inCodeAfter b = b := by
  cases k <;> simp_all [Kind.isWord, Kind.inCodeAfter]

/-- What stands before a token only decides whether a word is reserved. -/
theorem codeLexeme_previous (previous : Option Text) (c : Char) (r : Text) :
    codeLexeme previous c r = codeLexeme none c r ∨
      (codeLexeme previous c r).kind.isWord = true ∧ (codeLexeme none c r).kind.isWord = true ∧
        (codeLexeme previous c r).length = (codeLexeme none c r).length := by
  by_cases hc : isNameStart c = true
  · right
    simp only [codeLexeme_of_isNameStart hc, plainLexeme, if_pos hc, isWord_ofWord, and_self]
  · left
    refine codeLexeme_congr (fun t => ?_) r
    rw [plainLexeme, plainLexeme, if_neg hc, if_neg hc]

theorem Lexes.literalTexts_eq {s s' : LexState} {t : Text} {ts ts' : List Token} (h : Lexes s t ts)
    (h' : Lexes s' t ts') (hs : s.inCode = s'.inCode) : literalTexts ts = literalTexts ts' := by
  induction h generalizing s' ts' with
  | done s =>
    cases h'
    rfl
  | step s c r ts _ ih =>
    cases h' with
    | step _ _ _ ts' rest' =>
      have hlex : lexeme s c r = lexeme s' c r ∨ (lexeme s c r).kind.isWord = true ∧
          (lexeme s' c r).kind.isWord = true ∧ (lexeme s c r).length = (lexeme s' c r).length := by
        unfold lexeme
        rw [hs]
        split
        · rcases codeLexeme_previous s.previous c r with h₁ | ⟨h₁, h₁', hl₁⟩ <;>
            rcases codeLexeme_previous s'.previous c r with h₂ | ⟨h₂, h₂', hl₂⟩
          · exact Or.inl (h₁.trans h₂.symm)
          · exact Or.inr ⟨h₁ ▸ h₂', h₂, by rw [h₁, hl₂]⟩
          · exact Or.inr ⟨h₁, h₂ ▸ h₁', by rw [h₂, hl₁]⟩
          · exact Or.inr ⟨h₁, h₂, hl₁.trans hl₂.symm⟩
        · exact Or.inl rfl
      rcases hlex with he | ⟨hk, hk', hl⟩
      · have hcode : (s.next (nextToken s c r)).inCode = (s'.next (nextToken s' c r)).inCode := by
          simp only [LexState.next, nextToken, he, hs]
        rw [he] at ih
        have htail := ih rest' hcode
        simp only [literalTexts, List.filter_cons, nextToken, he] at htail ⊢
        split
        · rw [List.map_cons, List.map_cons, htail]
        · exact htail
      · have hcode : (s.next (nextToken s c r)).inCode = (s'.next (nextToken s' c r)).inCode := by
          simp only [LexState.next, nextToken, (of_isWord hk).2, (of_isWord hk').2, hs]
        rw [hl] at ih
        have htail := ih rest' hcode
        simpa only [literalTexts, List.filter_cons, nextToken, (of_isWord hk).1, (of_isWord hk').1, Bool.false_eq_true,
          if_false] using htail

theorem literalTexts_of_lexes {s : LexState} (hs : s.inCode = true) {t : Text} {ts : List Token} (h : Lexes s t ts) :
    literalTexts ts = codeLiterals t :=
  h.literalTexts_eq (lexes_codeTokens t) hs

theorem codeLiterals_cons {c : Char} {r : Text} (hk : (codeLexeme none c r).kind ≠ .closeTag) :
    codeLiterals (c :: r) =
      (if (codeLexeme none c r).kind = .stringLiteral then [(c :: r).take (codeLexeme none c r).length] else []) ++
        codeLiterals ((c :: r).drop (codeLexeme none c r).length) := by
  have hrest := lexes_codeTokens ((c :: r).drop (codeLexeme none c r).length)
  have hrun := lexes_lexFrom (Nat.le_refl ((c :: r).drop (codeLexeme none c r).length).length)
    (LexState.code.next (nextToken .code c r))
  have hcode : (LexState.code.next (nextToken .code c r)).inCode = true := by
    show Kind.inCodeAfter true (codeLexeme none c r).kind = true
    cases hkind : (codeLexeme none c r).kind <;> first | rfl | exact absurd hkind hk
  rw [← literalTexts_of_lexes (s := .code) rfl (Lexes.step .code c r _ hrun), ← literalTexts_of_lexes hcode hrun]
  have hkind : (nextToken .code c r).kind = (codeLexeme none c r).kind := rfl
  simp only [literalTexts, List.filter_cons, hkind, beq_iff_eq]
  split <;> rfl

/-! ## Text whose literals and comments end -/

/-- Whether a literal or a comment ends before a line that follows it. -/
def isTerminated (tok : Token) : Bool :=
  match tok.text with
  | [] => true
  | c :: r =>
    !(tok.kind == .stringLiteral || tok.kind == .comment || tok.kind == .docComment) ||
      decide ((codeLexeme none c (r ++ ['\n'])).length ≤ tok.text.length)

/-- Whether blanks at the ends of lines matter to a heredoc that the text begins with. -/
def keepsHeredoc (t : Text) : Bool :=
  !startsWith t "<<<".toList || heredocSpan? (trimmedLines t) == heredocSpan? t

/-- Code without a closing tag whose literals and comments end, and whose heredocs are the same
    without blanks at the ends of lines. -/
inductive Settled : Text → Prop
  | done : Settled []
  | step (c : Char) (r : Text) (hk : (codeLexeme none c r).kind ≠ .closeTag)
      (ht : isTerminated ⟨(codeLexeme none c r).kind, (c :: r).take (codeLexeme none c r).length, 1⟩ = true)
      (hh : keepsHeredoc (c :: r) = true) (rest : Settled ((c :: r).drop (codeLexeme none c r).length)) :
      Settled (c :: r)

theorem settled_of_lexes {s : LexState} (hs : s.inCode = true) {t : Text} {ts : List Token} (h : Lexes s t ts)
    (hts : ∀ tok ∈ ts, tok.kind ≠ .closeTag ∧ isTerminated tok = true)
    (hh : ∀ us ∈ ts.tails, keepsHeredoc (textOf us) = true) : Settled t := by
  induction h with
  | done s => exact Settled.done
  | step s c r ts rest ih =>
    obtain ⟨⟨hkind, hterm⟩, hts⟩ := List.forall_mem_cons.mp hts
    rw [List.tails_cons, List.forall_mem_cons] at hh
    have htext : textOf (nextToken s c r :: ts) = c :: r := (Lexes.step s c r ts rest).textOf_eq
    rw [htext] at hh
    have hlex : lexeme s c r = codeLexeme s.previous c r := if_pos hs
    have htok : nextToken s c r = ⟨(codeLexeme s.previous c r).kind, (c :: r).take (codeLexeme s.previous c r).length, s.line⟩ := by
      rw [nextToken, hlex]
    rw [hlex] at ih
    rw [htok] at hkind hterm
    have hcode : (s.next (nextToken s c r)).inCode = true := by
      show Kind.inCodeAfter s.inCode (nextToken s c r).kind = true
      rw [htok, hs]
      cases hk : (codeLexeme s.previous c r).kind <;> first | rfl | exact absurd hk hkind
    have hrest := ih hcode hts hh.2
    rcases codeLexeme_previous s.previous c r with he | ⟨-, hword, hl⟩
    · rw [he] at hkind hterm hrest
      exact Settled.step c r hkind hterm hh.1 hrest
    · rw [hl] at hrest
      refine Settled.step c r (fun he => by rw [he] at hword; cases hword) ?_ hh.1 hrest
      have hplain : ((codeLexeme none c r).kind == .stringLiteral || (codeLexeme none c r).kind == .comment ||
          (codeLexeme none c r).kind == .docComment) = false := by
        cases hk : (codeLexeme none c r).kind <;> rw [hk] at hword <;> first | rfl | cases hword
      unfold isTerminated
      split
      · rfl
      · rw [hplain]
        rfl

/-! ## What holds no literal -/

/-- A text whose literals are those of a part behind it. -/
def Passes (t x : Text) : Prop := codeLiterals t = codeLiterals x ∧ (Settled t → Settled x)

theorem Passes.refl (t : Text) : Passes t t := ⟨rfl, id⟩

theorem Passes.trans {t x y : Text} (h : Passes t x) (h' : Passes x y) : Passes t y :=
  ⟨h.1.trans h'.1, fun hs => h'.2 (h.2 hs)⟩

/-- The first token, where it is neither a literal nor a tag. -/
theorem passes_token {c : Char} {r : Text} (hk : (codeLexeme none c r).kind ≠ .closeTag)
    (hl : (codeLexeme none c r).kind ≠ .stringLiteral) : Passes (c :: r) ((c :: r).drop (codeLexeme none c r).length) := by
  refine ⟨?_, fun hs => ?_⟩
  · rw [codeLiterals_cons hk, if_neg hl, List.nil_append]
  · cases hs
    assumption

theorem passes_dropWhile (t : Text) : Passes t (t.dropWhile isCodeBlank) := by
  cases t with
  | nil => exact Passes.refl []
  | cons c r =>
    by_cases hc : isCodeBlank c = true
    · have hlex := codeLexeme_of_isCodeBlank hc none r
      have h := passes_token (c := c) (r := r) (by simp [hlex]) (by simp [hlex])
      rwa [hlex, drop_takeWhile] at h
    · rw [List.dropWhile_cons_of_neg hc]
      exact Passes.refl _

theorem settled_of_dropWhile {t : Text} (h : Settled (t.dropWhile isCodeBlank)) : Settled t := by
  cases t with
  | nil => exact h
  | cons c r =>
    by_cases hc : isCodeBlank c = true
    · have hlex := codeLexeme_of_isCodeBlank hc none r
      have hangle : startsWith (c :: r) "<<<".toList = false := by
        cases hs : startsWith (c :: r) "<<<".toList with
        | false => rfl
        | true =>
          obtain ⟨u, hu⟩ := startsWith_iff.mp hs
          rw [(List.cons.inj hu).1] at hc
          cases hc
      refine Settled.step c r (by simp [hlex]) ?_ (by rw [keepsHeredoc, hangle]; rfl) ?_
      · unfold isTerminated
        split
        · rfl
        · simp [hlex]
      · rwa [hlex, drop_takeWhile]
    · rwa [List.dropWhile_cons_of_neg hc] at h

theorem passes_blank {c : Char} (hc : isCodeBlank c = true) (r : Text) : Passes (c :: r) r := by
  have h := passes_dropWhile (c :: r)
  rw [List.dropWhile_cons_of_pos hc] at h
  exact ⟨h.1.trans (passes_dropWhile r).1.symm, fun hs => settled_of_dropWhile (h.2 hs)⟩

theorem passes_codeBlanks {p : Text} (hp : ∀ c ∈ p, isCodeBlank c = true) (x : Text) : Passes (p ++ x) x := by
  induction p with
  | nil => exact Passes.refl x
  | cons c p ih =>
    obtain ⟨hc, hp⟩ := List.forall_mem_cons.mp hp
    exact (passes_blank hc _).trans (ih hp)

theorem passes_name {c : Char} (hc : isNameStart c = true) (r : Text) :
    Passes (c :: r) ((c :: r).dropWhile isNameChar) := by
  have hlex : codeLexeme none c r = ⟨Kind.ofWord none ((c :: r).takeWhile isNameChar), ((c :: r).takeWhile isNameChar).length⟩ := by
    rw [codeLexeme_of_isNameStart hc, plainLexeme, if_pos hc, nameLength]
  have hword := isWord_ofWord none ((c :: r).takeWhile isNameChar)
  have hne : ∀ k : Kind, k.isWord = false → (codeLexeme none c r).kind ≠ k := by
    rintro k hk rfl
    rw [hlex, hword] at hk
    cases hk
  have h := passes_token (hne .closeTag rfl) (hne .stringLiteral rfl)
  rwa [hlex, drop_takeWhile] at h

/-- Blanks, of which some may be read as names, before what goes on with no name. -/
theorem passes_blanks {z x : Text} (hz : ∀ c ∈ z, isBlank c = true) (hx : x.head?.any isNameChar = false) :
    Passes (z ++ x) x := by
  induction hlen : z.length using Nat.strong_induction_on generalizing z with
  | _ n ih =>
    cases z with
    | nil => exact Passes.refl x
    | cons c z =>
      by_cases hc : isNameStart c = true
      · have hpass := passes_name hc (z ++ x)
        have hshort : ((c :: z).dropWhile isNameChar).length < n := by
          rw [List.dropWhile_cons_of_pos (isNameChar_of_isNameStart hc), ← hlen]
          exact Nat.lt_succ_of_le (List.dropWhile_sublist _).length_le
        rw [← List.cons_append, List.dropWhile_append] at hpass
        split at hpass
        · have hstay : x.dropWhile isNameChar = x := by
            cases x with
            | nil => rfl
            | cons d x => exact List.dropWhile_cons_of_neg (by simpa using hx)
          rwa [hstay] at hpass
        · exact hpass.trans (ih _ hshort (fun d hd => hz d ((List.dropWhile_sublist _).mem hd)) rfl)
      · have hcode := isCodeBlank_of_isBlank (hz c (by simp)) (by simpa using hc)
        refine (passes_blank hcode _).trans (ih z.length ?_ (fun d hd => hz d (by simp [hd])) rfl)
        rw [← hlen]
        exact Nat.lt_succ_self _

/-! ## Token by token -/

/-- Two tokens at the beginning of two texts: literals that are laid out anew, or neither a
    literal nor a tag, and what follows is laid out anew. -/
inductive Matches (t t' : Text) (l l' : Lexeme) : Prop
  | literal (hl : l.kind = .stringLiteral) (hl' : l'.kind = .stringLiteral) (h : CutAt t t' l.length l'.length)
  | other (hl : l.kind ≠ .stringLiteral) (hl' : l'.kind ≠ .stringLiteral ∧ l'.kind ≠ .closeTag)
      (h : Relaid (t.drop l.length) (t'.drop l'.length))

section

variable {c : Char} {r r' : Text}

theorem matches_plain (h : Relaid (c :: r) (c :: r')) (hr : Relaid r r') :
    Matches (c :: r) (c :: r') (plainLexeme none c (c :: r)) (plainLexeme none c (c :: r')) := by
  unfold plainLexeme
  by_cases hc : isNameStart c = true
  · have hword : ∀ w, Kind.ofWord none w ≠ .stringLiteral ∧ Kind.ofWord none w ≠ .closeTag := by
      intro w
      have := isWord_ofWord none w
      constructor <;> intro he <;> rw [he] at this <;> cases this
    rw [if_pos hc, if_pos hc]
    refine Matches.other (hword _).1 (hword _) ?_
    rw [nameLength, nameLength, drop_takeWhile, drop_takeWhile]
    exact h.dropWhile rfl
  · rw [if_neg hc, if_neg hc]
    obtain ⟨hsame, hdrop⟩ := h.compoundLength?
    rw [hsame]
    cases hn : compoundLength? (c :: r) with
    | some n => exact Matches.other (by simp) (by simp) (hdrop n hn)
    | none =>
      have hkind : (if isPunctChar c then Kind.punct else .unknown) ≠ .stringLiteral ∧
          (if isPunctChar c then Kind.punct else .unknown) ≠ .closeTag := by
        split <;> simp
      exact Matches.other hkind.1 hkind hr

theorem length_le_of_isTerminated {kind : Kind} {w : Text} (h : isTerminated ⟨kind, c :: w, 1⟩ = true)
    (hk : kind = .stringLiteral ∨ kind = .comment ∨ kind = .docComment) :
    (codeLexeme none c (w ++ ['\n'])).length ≤ (c :: w).length := by
  rcases hk with rfl | rfl | rfl <;> exact of_decide_eq_true h

/-- The tokens that a quote begins. -/
theorem matches_quoted (hc : c = '\'' ∨ c = '"' ∨ c = '`') (hr : Relaid r r')
    (ht : isTerminated ⟨.stringLiteral, (c :: r).take (quotedLength '\\' (c :: r)), 1⟩ = true) :
    CutAt (c :: r) (c :: r') (quotedLength '\\' (c :: r)) (quotedLength '\\' (c :: r')) := by
  have hquote : isBlank c = false ∧ c ≠ '\\' ∧ c ≠ '\n' ∧ c ≠ '\r' := by
    rcases hc with rfl | rfl | rfl <;> decide
  obtain ⟨hblank, hescape, hnewline, hreturn⟩ := hquote
  simp only [quotedLength, Nat.add_comm 1, List.take_succ_cons] at ht ⊢
  have hshort : quotedTailLength '\\' c (r.take (quotedTailLength '\\' c r) ++ ['\n']) ≤
      (r.take (quotedTailLength '\\' c r)).length := by
    have hle := length_le_of_isTerminated ht (Or.inl rfl)
    have hlex : ∀ w, (codeLexeme none c w).length = 1 + quotedTailLength '\\' c w := by
      rcases hc with rfl | rfl | rfl <;> exact fun _ => rfl
    rw [hlex, List.length_cons] at hle
    omega
  obtain ⟨n, -, hclose⟩ := closes_of_length_le hshort (r.drop (quotedTailLength '\\' c r))
  rw [List.take_append_drop] at hclose
  obtain ⟨n', hclose', hcut⟩ := hr.cutAt_quote hblank hclose
  rw [hclose.length hescape, hclose'.length hescape]
  exact hcut.cons ⟨hnewline, hreturn⟩ fun hb => by rw [hblank] at hb; cases hb

theorem matches_angle (h : Relaid (c :: r) (c :: r')) (hr : Relaid r r') (h3 : startsWith (c :: r) "<<<".toList = true)
    (ht : isTerminated ⟨(angleLexeme none c (c :: r)).kind, (c :: r).take (angleLexeme none c (c :: r)).length, 1⟩ = true)
    (hh : keepsHeredoc (c :: r) = true) :
    Matches (c :: r) (c :: r') (angleLexeme none c (c :: r)) (angleLexeme none c (c :: r')) := by
  have hspan : heredocSpan? (trimmedLines (c :: r)) = heredocSpan? (c :: r) := by
    simpa only [keepsHeredoc, h3, Bool.not_true, Bool.false_or, beq_iff_eq] using hh
  obtain ⟨hnone, hsome⟩ := h.heredocLength? h3 hspan
  unfold angleLexeme at ht ⊢
  cases hn : heredocLength? (c :: r) with
  | none =>
    rw [hnone hn]
    exact matches_plain h hr
  | some n =>
    rw [hn] at ht
    have hclosed : ∀ label, heredocSpan? (c :: r) ≠ some (label, none) := by
      intro label hopen
      -- what no line ends would go on with a line that follows
      obtain ⟨hall, hmore⟩ := heredocLength?_of_open h3 hopen
      obtain rfl : (c :: r).length = n := Option.some.inj (hall.symm.trans hn)
      have h3' : startsWith (c :: (r ++ ['\n'])) "<<<".toList = true := startsWith_append h3 ['\n']
      rw [List.cons_append] at hmore
      dsimp only at ht
      rw [List.take_length] at ht
      have hle := length_le_of_isTerminated ht (Or.inl rfl)
      rw [codeLexeme_of_angles h3', angleLexeme, hmore] at hle
      exact Nat.not_succ_le_self _ hle
    obtain ⟨n', hn', hcut⟩ := hsome n hn hclosed
    rw [hn']
    exact Matches.literal rfl rfl hcut

/-- A comment that a line behind it is no part of is closed. -/
theorem exists_commentEnd {kind : Kind} (hk : kind = .comment ∨ kind = .docComment) {v : Text}
    (ht : isTerminated ⟨kind, ('/' :: '*' :: v).take (blockCommentLength ('/' :: '*' :: v)), 1⟩ = true) :
    ∃ body, beforeFirst? "*/".toList v = some body := by
  refine Option.ne_none_iff_exists'.mp fun hnone => ?_
  have hall : blockCommentLength ('/' :: '*' :: v) = ('/' :: '*' :: v).length := by
    have hdrop : beforeFirst? "*/".toList (('/' :: '*' :: v).drop 2) = none := hnone
    rw [blockCommentLength, hdrop]
  have hmore : (codeLexeme none '/' ('*' :: v ++ ['\n'])).length = ('/' :: '*' :: v ++ ['\n']).length := by
    have hdrop : beforeFirst? "*/".toList (('/' :: '*' :: v ++ ['\n']).drop 2) = none := by
      show beforeFirst? "*/".toList (v ++ ['\n']) = none
      rw [beforeFirst?_stop (by decide) (by decide), hnone]
      rfl
    show blockCommentLength ('/' :: '*' :: v ++ ['\n']) = _
    rw [blockCommentLength, hdrop]
  rw [hall, List.take_length] at ht
  have hle := length_le_of_isTerminated ht (Or.inr hk)
  rw [hmore, List.length_append, List.length_singleton] at hle
  omega

theorem matches_block (h : Relaid (c :: r) (c :: r')) (hstar : startsWith (c :: r) "/*".toList = true) {kind kind' : Kind}
    (hk : kind = .comment ∨ kind = .docComment) (hk' : kind' = .comment ∨ kind' = .docComment)
    (ht : isTerminated ⟨kind, (c :: r).take (blockCommentLength (c :: r)), 1⟩ = true) :
    Matches (c :: r) (c :: r') ⟨kind, blockCommentLength (c :: r)⟩ ⟨kind', blockCommentLength (c :: r')⟩ := by
  have hother : ∀ {k : Kind}, k = .comment ∨ k = .docComment → k ≠ .stringLiteral ∧ k ≠ .closeTag := by
    rintro k (rfl | rfl) <;> decide
  refine Matches.other (hother hk).1 (hother hk') ?_
  dsimp only
  have hmark : "/*".toList.all (!isBlank ·) = true := by decide
  have hbehind := h.drop_of_startsWith hmark hstar
  obtain ⟨v, hv⟩ := startsWith_iff.mp hstar
  obtain ⟨v', hv'⟩ := startsWith_iff.mp ((h.startsWith_eq hmark).trans hstar)
  rw [hv] at ht hbehind ⊢
  rw [hv'] at hbehind ⊢
  obtain ⟨body, hbody⟩ : ∃ body, beforeFirst? "*/".toList v = some body := exists_commentEnd hk ht
  have hvv : Relaid v v' := hbehind
  obtain ⟨body', hbody', hdrop⟩ := hvv.commentEnd hbody
  have hlength : ∀ {x b : Text}, beforeFirst? "*/".toList x = some b →
      blockCommentLength ("/*".toList ++ x) = "/*".toList.length + (b.length + 2) := by
    intro x b hb
    have hfirst : beforeFirst? "*/".toList (("/*".toList ++ x).drop 2) = some b := hb
    rw [blockCommentLength, hfirst]
    exact Nat.add_comm _ 4 |>.trans (by simp; omega)
  rw [hlength hbody, hlength hbody', List.drop_length_add_append, List.drop_length_add_append]
  exact hdrop

/-- A line comment in settled text holds no closing tag. -/
theorem no_tag_of_settled (hrest : Settled ((c :: r).drop (lineCommentLength (c :: r)))) :
    beforeFirst? "?>".toList ((c :: r).takeWhile (· != '\n')) = none := by
  cases hb : beforeFirst? "?>".toList ((c :: r).takeWhile (· != '\n')) with
  | none => rfl
  | some b =>
    obtain ⟨x, hx⟩ := eq_append_of_beforeFirst? hb
    have hsplit : c :: r = b ++ ("?>".toList ++ (x ++ (c :: r).dropWhile (· != '\n'))) := by
      conv => lhs; rw [← List.takeWhile_append_dropWhile (p := (· != '\n')) (l := c :: r), hx]
      simp only [List.append_assoc]
    have hlength : lineCommentLength (c :: r) = b.length := by simp only [lineCommentLength, hb]
    rw [hlength] at hrest
    conv at hrest => rw [hsplit]
    rw [List.drop_left' rfl] at hrest
    cases hrest with
    | step _ _ hk => exact absurd rfl hk

/-- What `$` begins. A name behind it can begin with a blank, and where that one ends a line no
    name is left in the second text. -/
theorem matches_dollar (h : Relaid ('$' :: r) ('$' :: r')) (hr : Relaid r r') :
    Matches ('$' :: r) ('$' :: r') (codeLexeme none '$' r) (codeLexeme none '$' r') := by
  have hlex : ∀ u, codeLexeme none '$' u =
      if u.head?.any isNameStart then ⟨.var, 1 + nameLength u⟩ else plainLexeme none '$' ('$' :: u) := fun _ => rfl
  rw [hlex, hlex]
  by_cases hname : r.head?.any isNameStart = true
  · rw [if_pos hname]
    have hbehind : Relaid (('$' :: r).drop (1 + nameLength r)) (r'.dropWhile isNameChar) := by
      rw [Nat.add_comm, List.drop_succ_cons, nameLength, drop_takeWhile]
      exact hr.dropWhile rfl
    by_cases hname' : r'.head?.any isNameStart = true
    · rw [if_pos hname']
      refine Matches.other (by simp) (by simp) ?_
      rwa [Nat.add_comm 1 (nameLength r'), List.drop_succ_cons, nameLength, nameLength, drop_takeWhile] at *
    · rw [if_neg hname']
      rcases hr.head_cases with ⟨u', rfl⟩ | ⟨d, v, v', rfl, rfl⟩
      · show Matches _ _ _ ⟨.punct, 1⟩
        exact Matches.other (by simp) (by simp) hbehind
      · exact absurd hname hname'
  · have hname' : ¬ r'.head?.any isNameStart = true := by
      rcases hr.head_cases with ⟨u', rfl⟩ | ⟨d, v, v', rfl, rfl⟩
      · exact Bool.false_ne_true
      · exact hname
    rw [if_neg hname, if_neg hname']
    exact matches_plain h hr

theorem matches_number (h : Relaid (c :: r) (c :: r')) (hr : Relaid r r') :
    Relaid ((c :: r).drop (numberLength (c :: r))) ((c :: r').drop (numberLength (c :: r'))) := by
  obtain ⟨hsame, hdrop⟩ := h.numberLengthFrom false
  simp only [numberLength, hsame]
  cases hn : numberLengthFrom false (c :: r) with
  | zero => exact hr
  | succ n =>
    rw [hn] at hdrop
    rwa [Nat.max_eq_right (Nat.le_add_left 1 n)]

/-- The token at the head of settled text has its match in the text that is laid out anew. -/
theorem matches_codeLexeme (h : Relaid (c :: r) (c :: r')) (hr : Relaid r r') (hblank : isCodeBlank c = false)
    (hs : Settled (c :: r)) : Matches (c :: r) (c :: r') (codeLexeme none c r) (codeLexeme none c r') := by
  obtain ⟨hk, ht, hh, hrest⟩ : (codeLexeme none c r).kind ≠ .closeTag ∧
      isTerminated ⟨(codeLexeme none c r).kind, (c :: r).take (codeLexeme none c r).length, 1⟩ = true ∧
      keepsHeredoc (c :: r) = true ∧ Settled ((c :: r).drop (codeLexeme none c r).length) := by
    cases hs with
    | step _ _ hk ht hh hrest => exact ⟨hk, ht, hh, hrest⟩
  by_cases hdollar : c = '$'
  · subst hdollar
    exact matches_dollar h hr
  have hsame : ∀ mark ∈ marks, startsWith (c :: r') mark = startsWith (c :: r) mark := by
    have hink : ∀ m ∈ marks, m.all (!isBlank ·) = true := by decide
    exact fun mark hmark => h.startsWith_eq (hink mark hmark)
  obtain ⟨form, hbegins, hlex, hlex'⟩ := exists_form_of_alike hsame (fun hc => absurd hc hdollar)
    (hr.head?_any not_isDigit_of_isBlank) none none
  rw [hlex] at hk ht hrest ⊢
  rw [hlex']
  cases hbegins with
  | blanks hc =>
    rw [hblank] at hc
    cases hc
  | closeTag => exact absurd rfl hk
  | attributeMark hattr => exact Matches.other (by simp [Form.lexeme]) (by simp [Form.lexeme]) (h.drop_of_startsWith (by decide) hattr)
  | lineComment =>
    exact Matches.other (by simp [Form.lexeme]) (by simp [Form.lexeme]) (h.lineComment (no_tag_of_settled hrest))
  | blockComment hblock =>
    have hkind : ∀ b : Bool, (if b then Kind.docComment else .comment) = .comment ∨
        (if b then Kind.docComment else .comment) = .docComment := by decide
    exact matches_block h hblock (hkind _) (hkind _) ht
  | quoted hquote => exact Matches.literal rfl rfl (matches_quoted (by simpa [or_assoc] using hquote) hr ht)
  | angles hangles => exact matches_angle h hr hangles ht hh
  | var hvar => exact absurd (beq_iff_eq.mp (Bool.and_eq_true_iff.mp hvar).1) hdollar
  | number => exact Matches.other (by simp [Form.lexeme]) (by simp [Form.lexeme]) (matches_number h hr)
  | separator => exact Matches.other (by simp [Form.lexeme]) (by simp [Form.lexeme]) hr
  | plain => exact matches_plain h hr

end

/-- The literals of settled text are those of the text as it is laid out anew: as many, in the
    same order, and each laid out anew. -/
theorem Relaid.literals {t t' : Text} (h : Relaid t t') (hs : Settled t) :
    List.Forall₂ LaidPart (codeLiterals t) (codeLiterals t') := by
  induction hlen : t.length using Nat.strong_induction_on generalizing t t' with
  | _ n ih =>
    have hmargin : ∀ {margin : Text}, (∀ c ∈ margin, isIndent c = true) → ∀ c ∈ '\n' :: margin, isCodeBlank c = true := by
      intro margin hm c hc
      rcases List.mem_cons.mp hc with rfl | hc
      · rfl
      · exact isCodeBlank_of_isIndent (hm c hc)
    cases h with
    | stop h =>
      obtain ⟨ht, margin, rfl, hm⟩ := h
      have hleft : codeLiterals t = [] := by
        have := (passes_blanks (x := []) ht rfl).1
        rwa [List.append_nil] at this
      have hright : codeLiterals ('\n' :: margin) = [] := by
        have := (passes_codeBlanks (hmargin hm) []).1
        rwa [List.append_nil] at this
      rw [hleft, hright]
      exact List.Forall₂.nil
    | @line u u' blanks margin margin' hb hm hm' rest =>
      have hleft := (passes_blanks (x := '\n' :: (margin ++ u)) (fun c hc => (hb c hc).1) rfl).trans
        (passes_codeBlanks (hmargin hm) u)
      have hright := passes_codeBlanks (hmargin hm') u'
      rw [List.cons_append] at hright
      rw [hleft.1, hright.1]
      refine ih u.length ?_ rest (hleft.2 hs) rfl
      rw [← hlen]
      simp only [List.length_append, List.length_cons]
      omega
    | @same r r' c hc hb rest =>
      rw [List.length_cons] at hlen
      by_cases hblank : isCodeBlank c = true
      · rw [(passes_blank hblank r).1, (passes_blank hblank r').1]
        exact ih r.length (by omega) rest ((passes_blank hblank r).2 hs) rfl
      · have hmatch := matches_codeLexeme (Laid.same c hc hb rest) rest (by simpa using hblank) hs
        have hcuts := cuts_codeLexeme none c r
        cases hs with
        | step _ _ hk _ _ hrest =>
          have hshort : ((c :: r).drop (codeLexeme none c r).length).length < n := by
            have := hcuts.1
            rw [List.length_drop, List.length_cons]
            omega
          cases hmatch with
          | literal hl hl' hcut =>
            rw [codeLiterals_cons hk, codeLiterals_cons (by simp [hl']), if_pos hl, if_pos hl']
            exact List.Forall₂.cons hcut.1 (ih _ hshort hcut.2 hrest rfl)
          | other hl hl' hdrop =>
            rw [codeLiterals_cons hk, codeLiterals_cons hl'.2, if_neg hl, if_neg hl'.1]
            exact ih _ hshort hdrop hrest rfl

end ClassOutline.Token
