import ClassOutline.Token.Lexer
import ClassOutline.Proofs.Text
/-
  ClassOutline.Proofs.Lexing.Forms — the forms of a token of code.

  `codeLexeme` tries eleven forms in turn. `Form.of` is the first that fits, and a lexeme is that
  of a form its text begins as (`exists_form`): so what holds of every lexeme is shown form by
  form. Two texts with the same first character that begin with the same marks have the same
  form (`exists_form_of_alike`), whatever stands before them.
-/

namespace ClassOutline.Token

open ClassOutline.Text

/-- What a token of code can be, in the order in which it is tried. -/
inductive Form where
  | blanks
  | closeTag
  | attributeMark
  | lineComment
  | blockComment
  | quoted
  | angles
  | var
  | number
  | separator
  | plain

/-- The first form that fits. -/
def Form.of (c : Char) (r : Text) : Form :=
  if isCodeBlank c then blanks
  else if startsWith (c :: r) "?>".toList then closeTag
  else if startsWith (c :: r) "#[".toList then attributeMark
  else if c == '#' || startsWith (c :: r) "//".toList then lineComment
  else if startsWith (c :: r) "/*".toList then blockComment
  else if c == '\'' || c == '"' || c == '`' then quoted
  else if startsWith (c :: r) "<<<".toList then angles
  else if c == '$' && r.head?.any isNameStart then var
  else if c.isDigit || (c == '.' && r.head?.any Char.isDigit) then number
  else if c == '\\' then separator
  else plain

/-- What a text of a form begins with. -/
inductive Form.Begins (c : Char) (r : Text) : Form → Prop
  | blanks (h : isCodeBlank c = true) : Begins c r .blanks
  | closeTag (h : startsWith (c :: r) "?>".toList = true) : Begins c r .closeTag
  | attributeMark (h : startsWith (c :: r) "#[".toList = true) : Begins c r .attributeMark
  | lineComment (h : c = '#' ∨ startsWith (c :: r) "//".toList = true) : Begins c r .lineComment
  | blockComment (h : startsWith (c :: r) "/*".toList = true) : Begins c r .blockComment
  | quoted (h : (c == '\'' || c == '"' || c == '`') = true) : Begins c r .quoted
  | angles (h : startsWith (c :: r) "<<<".toList = true) : Begins c r .angles
  | var (h : (c == '$' && r.head?.any isNameStart) = true) : Begins c r .var
  | number (h : (c.isDigit || (c == '.' && r.head?.any Char.isDigit)) = true) : Begins c r .number
  | separator (h : c = '\\') : Begins c r .separator
  | plain : Begins c r .plain

/-- The lexeme at `<<<`, with a heredoc there or without. -/
def angleLexeme (previous : Option Text) (d : Char) (t : Text) : Lexeme :=
  match heredocLength? t with
  | some n => ⟨.stringLiteral, n⟩
  | none => plainLexeme previous d t

/-- The lexeme that a form makes of a text. -/
def Form.lexeme (previous : Option Text) (c : Char) (r : Text) : Form → Lexeme
  | blanks => ⟨.whitespace, ((c :: r).takeWhile isCodeBlank).length⟩
  | closeTag => ⟨.closeTag, closeTagLength (c :: r)⟩
  | attributeMark => ⟨.punct, 2⟩
  | lineComment => ⟨.comment, lineCommentLength (c :: r)⟩
  | blockComment => ⟨if isDocComment (c :: r) then .docComment else .comment, blockCommentLength (c :: r)⟩
  | quoted => ⟨.stringLiteral, quotedLength '\\' (c :: r)⟩
  | angles => angleLexeme previous c (c :: r)
  | var => ⟨.var, 1 + nameLength r⟩
  | number => ⟨.numberLiteral, numberLength (c :: r)⟩
  | separator => ⟨.nsSeparator, 1⟩
  | plain => plainLexeme previous c (c :: r)

theorem codeLexeme_eq (previous : Option Text) (c : Char) (r : Text) :
    codeLexeme previous c r = (Form.of c r).lexeme previous c r := by
  simp only [Form.of, apply_ite (Form.lexeme previous c r)]
  rfl

theorem Form.begins_ite {c : Char} {r : Text} {p : Prop} [Decidable p] {form other : Form} (h : p → form.Begins c r)
    (hother : other.Begins c r) : (if p then form else other).Begins c r := by
  by_cases hp : p
  · rw [if_pos hp]
    exact h hp
  · rw [if_neg hp]
    exact hother

theorem Form.begins_of (c : Char) (r : Text) : (Form.of c r).Begins c r := by
  have hline : (c == '#' || startsWith (c :: r) "//".toList) = true → Begins c r .lineComment :=
    fun h => .lineComment ((Bool.or_eq_true_iff.mp h).imp_left beq_iff_eq.mp)
  have hseparator : (c == '\\') = true → Begins c r .separator := fun h => .separator (beq_iff_eq.mp h)
  exact begins_ite .blanks (begins_ite .closeTag (begins_ite .attributeMark (begins_ite hline
    (begins_ite .blockComment (begins_ite .quoted (begins_ite .angles (begins_ite .var (begins_ite .number
    (begins_ite hseparator .plain)))))))))

/-- A lexeme is that of a form its text begins as. -/
theorem exists_form (previous : Option Text) (c : Char) (r : Text) :
    ∃ form : Form, form.Begins c r ∧ codeLexeme previous c r = form.lexeme previous c r :=
  ⟨.of c r, Form.begins_of c r, codeLexeme_eq previous c r⟩

/-- What begins a kind of token with more than its first character. -/
def marks : List Text := ["?>".toList, "#[".toList, "//".toList, "/*".toList, "<<<".toList]

theorem Form.of_congr {c : Char} {r r' : Text}
    (hmarks : ∀ mark ∈ marks, startsWith (c :: r') mark = startsWith (c :: r) mark)
    (hname : c = '$' → r'.head?.any isNameStart = r.head?.any isNameStart)
    (hdigit : r'.head?.any Char.isDigit = r.head?.any Char.isDigit) : Form.of c r' = Form.of c r := by
  have hvar : (c == '$' && r'.head?.any isNameStart) = (c == '$' && r.head?.any isNameStart) := by
    by_cases hc : c = '$'
    · rw [hname hc]
    · rw [beq_false_of_ne hc, Bool.false_and, Bool.false_and]
  unfold Form.of
  rw [hmarks "?>".toList (by simp [marks]), hmarks "#[".toList (by simp [marks]), hmarks "//".toList (by simp [marks]),
    hmarks "/*".toList (by simp [marks]), hmarks "<<<".toList (by simp [marks]), hvar, hdigit]

/-- Texts with the same first character and the same marks have lexemes of the same form. -/
theorem exists_form_of_alike {c : Char} {r r' : Text}
    (hmarks : ∀ mark ∈ marks, startsWith (c :: r') mark = startsWith (c :: r) mark)
    (hname : c = '$' → r'.head?.any isNameStart = r.head?.any isNameStart)
    (hdigit : r'.head?.any Char.isDigit = r.head?.any Char.isDigit) (previous previous' : Option Text) :
    ∃ form : Form, form.Begins c r ∧ codeLexeme previous c r = form.lexeme previous c r ∧
      codeLexeme previous' c r' = form.lexeme previous' c r' := by
  refine ⟨.of c r, Form.begins_of c r, codeLexeme_eq previous c r, ?_⟩
  rw [codeLexeme_eq, Form.of_congr hmarks hname hdigit]

/-- What stands before a token is looked at in plain ones only. -/
theorem codeLexeme_congr {previous previous' : Option Text} {c : Char}
    (h : ∀ t, plainLexeme previous c t = plainLexeme previous' c t) (r : Text) :
    codeLexeme previous c r = codeLexeme previous' c r := by
  rw [codeLexeme_eq, codeLexeme_eq]
  cases Form.of c r with
  | angles => rw [Form.lexeme, Form.lexeme, angleLexeme, angleLexeme, h]
  | plain => exact h (c :: r)
  | blanks | closeTag | attributeMark | lineComment | blockComment | quoted | var | number | separator => rfl

theorem codeLexeme_of_isCodeBlank {c : Char} (hc : isCodeBlank c = true) (previous : Option Text) (r : Text) :
    codeLexeme previous c r = ⟨.whitespace, ((c :: r).takeWhile isCodeBlank).length⟩ := by
  rw [codeLexeme_eq, Form.of, if_pos hc, Form.lexeme]

theorem codeLexeme_of_angles {c : Char} {r : Text} (h : startsWith (c :: r) "<<<".toList = true) (previous : Option Text) :
    codeLexeme previous c r = angleLexeme previous c (c :: r) := by
  obtain ⟨u, hu⟩ := startsWith_iff.mp h
  obtain ⟨rfl, rfl⟩ : c = '<' ∧ r = '<' :: '<' :: u := List.cons.inj hu
  rfl

end ClassOutline.Token
