import ClassOutline.Proofs.Lexing.Bytes
/-
  ClassOutline.Proofs.Lexing.Lossless — a source is its tokens.

  `Lexes` is the lexer's loop without a bound: it goes on until the text is used up. Every
  step takes a character at least (`lexeme_bounds`), so `tokenize` is a run of it that has
  ended, whatever the source is (`lexes_tokenize`). By induction on runs: the token texts
  are non-empty and make up the source, a token's line is counted by the newlines before
  it, and the run on the bytes of a text cuts it at the same characters (`Lexes.onBytes`).
  `tokenize_lossless` gathers them.
-/

namespace ClassOutline.Token

open ClassOutline.Text

/-! ## Runs of the lexer -/

/-- The next token from a state. -/
def nextToken (s : LexState) (c : Char) (r : Text) : Token :=
  ⟨(lexeme s c r).kind, (c :: r).take (lexeme s c r).length, s.line⟩

/-- A run from a state over a text to its end, and the tokens it leaves. -/
inductive Lexes : LexState → Text → List Token → Prop
  | done (s : LexState) : Lexes s [] []
  | step (s : LexState) (c : Char) (r : Text) (ts : List Token)
      (rest : Lexes (s.next (nextToken s c r)) ((c :: r).drop (lexeme s c r).length) ts) :
      Lexes s (c :: r) (nextToken s c r :: ts)

theorem lexes_lexFrom {fuel : Nat} {t : Text} (h : t.length ≤ fuel) (s : LexState) :
    Lexes s t (lexFrom fuel s t) := by
  induction fuel generalizing s t with
  | zero =>
    obtain rfl : t = [] := List.eq_nil_of_length_eq_zero (Nat.le_zero.mp h)
    exact Lexes.done s
  | succ fuel ih =>
    cases t with
    | nil => exact Lexes.done s
    | cons c r =>
      obtain ⟨hpos, -⟩ := lexeme_bounds s c r
      refine Lexes.step s c r _ (ih ?_ _)
      rw [List.length_drop]
      simp only [List.length_cons] at h ⊢
      omega

theorem lexes_tokenize (source : Text) : Lexes .start source (tokenize source) :=
  lexes_lexFrom (Nat.le_refl _) _

theorem Lexes.unique {s : LexState} {t : Text} {ts us : List Token} (h : Lexes s t ts) (h' : Lexes s t us) :
    ts = us := by
  induction h generalizing us with
  | done s => cases h'; rfl
  | step s c r ts _ ih =>
    cases h' with
    | step _ _ _ us rest => rw [ih rest]

/-! ## What a run keeps -/

/-- The text of a list of tokens. -/
def textOf (ts : List Token) : Text := ts.flatMap Token.text

theorem Lexes.textOf_eq {s : LexState} {t : Text} {ts : List Token} (h : Lexes s t ts) : textOf ts = t := by
  induction h with
  | done s => rfl
  | step s c r ts _ ih =>
    show (nextToken s c r).text ++ textOf ts = c :: r
    rw [ih]
    exact List.take_append_drop _ _

theorem Lexes.text_ne_nil {s : LexState} {t : Text} {ts : List Token} (h : Lexes s t ts) :
    ∀ tok ∈ ts, tok.text ≠ [] := by
  induction h with
  | done s => simp
  | step s c r ts _ ih =>
    intro tok htok
    rcases List.mem_cons.mp htok with rfl | htok
    · obtain ⟨hpos, -⟩ := lexeme_bounds s c r
      intro hnil
      rcases List.take_eq_nil_iff.mp hnil with h | h
      · omega
      · cases h
    · exact ih tok htok

/-- The state behind a token knows the lines of everything up to it. -/
theorem Lexes.line_eq {s : LexState} {t : Text} {ts : List Token} (h : Lexes s t ts)
    {before after : List Token} {tok : Token} (hts : ts = before ++ tok :: after) :
    tok.line = s.line + (textOf before).count '\n' := by
  induction h generalizing before with
  | done s => simp at hts
  | step s c r ts _ ih =>
    cases before with
    | nil =>
      obtain ⟨rfl, -⟩ := List.cons.inj hts
      rfl
    | cons first before =>
      obtain ⟨rfl, hrest⟩ := List.cons.inj hts
      rw [ih hrest]
      show s.line + (nextToken s c r).text.count '\n' + _ =
        s.line + ((nextToken s c r).text ++ textOf before).count '\n'
      rw [List.count_append, Nat.add_assoc]

/-! ## Slices at byte positions -/

theorem dropWidth?_append (a b : Text) : dropWidth? (width a) (a ++ b) = some b := by
  induction a with
  | nil => cases b <;> rfl
  | cons c a ih =>
    have hpos := Char.utf8Size_pos c
    obtain ⟨n, hn⟩ : ∃ n, c.utf8Size + width a = n + 1 := ⟨c.utf8Size + width a - 1, by omega⟩
    rw [width, hn, List.cons_append, dropWidth?, if_pos (by omega), ← hn, Nat.add_sub_cancel_left, ih]

theorem takeWidth?_append (a b : Text) : takeWidth? (width a) (a ++ b) = some a := by
  induction a with
  | nil => cases b <;> rfl
  | cons c a ih =>
    have hpos := Char.utf8Size_pos c
    obtain ⟨n, hn⟩ : ∃ n, c.utf8Size + width a = n + 1 := ⟨c.utf8Size + width a - 1, by omega⟩
    rw [width, hn, List.cons_append, takeWidth?, if_pos (by omega), ← hn, Nat.add_sub_cancel_left, ih]
    rfl

/-- The text of `n` bytes from byte `i` on; `none` unless both ends are character boundaries. -/
def slice? (source : Text) (i n : Nat) : Option Text := (dropWidth? i source).bind (takeWidth? n)

theorem slice?_append (a b c : Text) : slice? (a ++ (b ++ c)) (width a) (width b) = some b := by
  rw [slice?, dropWidth?_append, Option.bind_some, takeWidth?_append]

/-! ## The same run on bytes -/

def onBytes (tok : Token) : Token := { tok with text := bytes tok.text }

theorem next_onBytes (s : LexState) (tok : Token) : s.onBytes.next tok.onBytes = (s.next tok).onBytes := by
  simp only [LexState.next, LexState.onBytes, onBytes, count_newline_bytes]
  by_cases h : tok.kind.isTrivia = true
  · simp only [h, if_true]
  · simp only [h, if_false, Option.map_some, Bool.false_eq_true]

theorem Lexes.onBytes {s : LexState} {t : Text} {ts : List Token} (h : Lexes s t ts) :
    Lexes s.onBytes (bytes t) (ts.map Token.onBytes) := by
  induction h with
  | done s => exact Lexes.done _
  | step s c r ts _ ih =>
    obtain ⟨d, q, hdq⟩ : ∃ d q, bytes (c :: r) = d :: q := by
      apply List.exists_cons_of_ne_nil
      rw [bytes_cons]
      exact List.append_ne_nil_of_left_ne_nil (charBytes_ne_nil c) _
    have hlex := lexeme_bytes s hdq
    have htok : nextToken s.onBytes d q = (nextToken s c r).onBytes := by
      unfold nextToken
      rw [hlex, ← hdq]
      exact congrArg (fun text => Token.mk _ text _) (take_bytes (c :: r) _)
    rw [List.map_cons, ← htok, hdq]
    refine Lexes.step s.onBytes d q _ ?_
    rw [htok, next_onBytes, hlex, ← hdq]
    show Lexes _ ((bytes (c :: r)).drop (width ((c :: r).take (lexeme s c r).length))) _
    rw [drop_bytes]
    exact ih

theorem tokenize_bytes (source : Text) : tokenize (bytes source) = (tokenize source).map onBytes :=
  (lexes_tokenize (bytes source)).unique (lexes_tokenize source).onBytes

/-! ## Lossless lexing -/

/-- The lexer's loop ends on every source. The tokens it leaves are not empty, put together
    they are the source, and each knows how many newlines stand before it. Cut by bytes
    instead of characters the tokens are the same, and so every token can be sliced out of
    the source at its byte positions. -/
theorem tokenize_lossless (source : Text) :
    Lexes .start source (tokenize source) ∧
      (∀ tok ∈ tokenize source, tok.text ≠ []) ∧
      textOf (tokenize source) = source ∧
      tokenize (bytes source) = (tokenize source).map onBytes ∧
      ∀ before tok after, tokenize source = before ++ tok :: after →
        tok.line = 1 + (textOf before).count '\n' ∧
        slice? source (textOf (before.map onBytes)).length tok.onBytes.text.length = some tok.text := by
  have hrun := lexes_tokenize source
  refine ⟨hrun, hrun.text_ne_nil, hrun.textOf_eq, tokenize_bytes source, ?_⟩
  intro before tok after hsplit
  refine ⟨hrun.line_eq hsplit, ?_⟩
  have hsource : source = textOf before ++ (tok.text ++ textOf after) := by
    rw [← hrun.textOf_eq, hsplit]
    simp [textOf]
  have hbefore : textOf (before.map onBytes) = bytes (textOf before) := by
    simp [textOf, bytes, onBytes, List.flatMap_map, List.flatMap_assoc]
  have hlen : tok.onBytes.text.length = width tok.text := length_bytes tok.text
  rw [hbefore, length_bytes, hlen]
  conv => lhs; rw [hsource]
  exact slice?_append _ _ _

end ClassOutline.Token
