import ClassOutline.Proofs.Plain.Comments
import ClassOutline.Proofs.Plain.Strings
/-
  ClassOutline.Proofs.Plain.Lexemes — what the lexer makes of a token of a plain source.

  Both lexers take the same characters for a token that the reader of plain sources knows, and
  the lexer gives it the kind that the plain token is shown as (`isLexeme_of_token?`).
-/

namespace ClassOutline.Plain

open ClassOutline.Text ClassOutline.Tree ClassOutline.Discovery

variable {c : Char} {r t : Text} {n : Nat} {previous : Option Text}

/-! ## Words -/

theorem isNameStart_of_plain {d : Char} (h : Scan.isNameStart d = true) : Token.isNameStart d = true := by
  simp only [Scan.isNameStart, Bool.or_eq_true, Bool.and_eq_true] at h
  simp only [Token.isNameStart, Bool.or_eq_true]
  exact h.imp_right fun h => h.1.1

theorem isNameChar_of_plain {d : Char} (h : Scan.isNamePart d = true) : Token.isNameChar d = true :=
  Bool.or_eq_true_iff.mpr ((Bool.or_eq_true_iff.mp h).imp_left isNameStart_of_plain)

/-- The lexer has more characters for names: blanks above ASCII, and all beyond the basic plane. -/
theorem isNamePart_of_isNameChar {d : Char} (h : Token.isNameChar d = true) (hsep : Scan.isSeparator d = false)
    (hplane : d.toNat ≤ 0xffff) : Scan.isNamePart d = true := by
  simp only [Token.isNameChar, Token.isNameStart, Bool.or_eq_true] at h
  simp only [Scan.isNamePart, Scan.isNameStart, Bool.or_eq_true, Bool.and_eq_true, Bool.not_eq_true']
  exact h.imp_left fun h => h.imp_right fun h => ⟨⟨h, decide_eq_true hplane⟩, hsep⟩

/-- A word ends in both lexers at once, if what follows it is read at all. -/
theorem takeWhile_word (hsep : ∀ d ∈ t.takeWhile Token.isNameChar, Scan.isSeparator d = false)
    (hbehind : ∀ d u, t.drop (t.takeWhile Scan.isNamePart).length = d :: u → d.toNat ≤ 0xffff) :
    t.takeWhile Token.isNameChar = t.takeWhile Scan.isNamePart ∧
      ∀ d ∈ (t.drop (t.takeWhile Scan.isNamePart).length).head?, Token.isNameChar d = false := by
  have hall : ∀ d ∈ t.takeWhile Scan.isNamePart, Token.isNameChar d = true := fun d hd =>
    isNameChar_of_plain (List.mem_takeWhile_imp hd)
  have hsplit : t = t.takeWhile Scan.isNamePart ++ t.drop (t.takeWhile Scan.isNamePart).length :=
    ClassOutline.Token.takeWhile_append_drop _ t
  have hhead : ∀ d u, t.drop (t.takeWhile Scan.isNamePart).length = d :: u → Token.isNameChar d = false := by
    intro d u hd
    -- then the lexer's word goes on with it, and it would be a character of plain names too
    by_contra hname
    rw [Bool.not_eq_false] at hname
    have hmem : d ∈ t.takeWhile Token.isNameChar := by
      rw [hsplit, hd, List.takeWhile_append_of_pos hall, List.takeWhile_cons_of_pos hname]
      simp
    have hpart := isNamePart_of_isNameChar hname (hsep d hmem) (hbehind d u hd)
    rw [drop_takeWhile] at hd
    have := List.head?_dropWhile_not Scan.isNamePart t
    rw [hd] at this
    simp [hpart] at this
  refine ⟨?_, fun d hd => ?_⟩
  · conv_lhs => rw [hsplit]
    refine ClassOutline.Token.takeWhile_append_eq hall fun d hd => ?_
    obtain ⟨u, hu⟩ := List.head?_eq_some_iff.mp hd
    exact hhead d u hu
  · obtain ⟨u, hu⟩ := List.head?_eq_some_iff.mp hd
    exact hhead d u hu

/-- What a token of a plain source comes to: a token of the lexer. -/
structure IsLexeme (previous : Option Text) (c : Char) (r : Text) (p : Pos) (before : List Node) (tk : Token) : Prop where
  lexeme : Token.codeLexeme previous c r = ⟨tk.shownAs previous, tk.text.length⟩
  text : ∃ u, c :: r = tk.text ++ u ∧ (Token.IsName tk.text → ∀ d ∈ u.head?, Token.isNameChar d = false)
  ne : tk.text ≠ []
  span : tk.span = ⟨p, p.past tk.text⟩
  before : tk.before = before
  lexeme_ne : tk.lexeme ≠ .finish
  pieces : ArePieces tk.span.stop.offset tk.pieces
  closes : tk.lexeme = .variable ∨ tk.lexeme = .string →
    ∃ l, tk.pieces.getLast? = some l ∧ l.span.stop.offset = tk.span.stop.offset
  folds : tk.isNameLike = true → Folds tk.text
  isName : tk.isNameLike = true → Token.IsName tk.text
  word : ∀ w, word? tk.text = some w → tk.lexeme = .name → False
  isWord : ∀ w, tk.lexeme = .word w → word? tk.text = some w
  calm : tk.lexeme ≠ .mark → behindOperator (some tk.text) = false

variable {p : Pos} {before : List Node} {tk : Token} {line : Nat}

theorem behindOperator_eq_false {d : Char} {u : Text} (hd : d ≠ '-' ∧ d ≠ '?' ∧ d ≠ ':' ∧ d ≠ '\\') :
    behindOperator (some (d :: u)) = false := by
  obtain ⟨h1, h2, h3, h4⟩ := hd
  simp [behindOperator, Token.nameOperators, h1, h2, h3, h4]

theorem ofWord_mem (previous : Option Text) (w : Text) : Token.Kind.ofWord previous w = .identifier ∨
    Token.Kind.ofWord previous w = .keyword ∨ Token.Kind.ofWord previous w = .classKeyword ∨
      Token.Kind.ofWord previous w = .namespaceKeyword ∨ Token.Kind.ofWord previous w = .var := by
  unfold Token.Kind.ofWord
  dsimp only
  repeat' split
  all_goals simp

theorem all_of_isCommon {kind : Token.Kind} {text : Text} (hkind : kind = .identifier ∨ kind = .keyword ∨ kind = .classKeyword ∨
    kind = .namespaceKeyword ∨ kind = .var) (h : isCommon ⟨kind, text, line⟩ = true) :
    ∀ d ∈ text, Scan.isSeparator d = false ∧ Scan.foldCase d = d.toLower := by
  have hall : (text.all fun c => !Scan.isSeparator c && Scan.foldCase c == c.toLower) = true := by
    rcases hkind with rfl | rfl | rfl | rfl | rfl <;> exact h
  intro d hd
  simpa using List.all_eq_true.mp hall d hd

theorem isName_takeWhile (hc : Scan.isNameStart c = true) (r : Text) :
    Token.IsName ((c :: r).takeWhile Scan.isNamePart) := by
  have hpart : Scan.isNamePart c = true := by rw [Scan.isNamePart, hc, Bool.true_or]
  rw [List.takeWhile_cons_of_pos hpart]
  exact ⟨c, _, rfl, isNameStart_of_plain hc, fun d hd => isNameChar_of_plain (List.mem_takeWhile_imp hd)⟩

theorem calm_of_isName {w : Text} (h : Token.IsName w) : behindOperator (some w) = false := by
  obtain ⟨d, u, rfl, hd, -⟩ := h
  refine behindOperator_eq_false ⟨?_, ?_, ?_, ?_⟩ <;>
  · intro he
    rw [he] at hd
    cases hd

theorem isLexeme_name (hc : Scan.isNameStart c = true) (h : nameToken? p before (c :: r) = some tk)
    (hcommon : isCommon (tokenAt previous line c r) = true)
    (hbehind : ∀ d u, (c :: r).drop tk.text.length = d :: u → d.toNat ≤ 0xffff) :
    IsLexeme previous c r p before tk := by
  have hstart := isNameStart_of_plain hc
  have hlexeme : Token.codeLexeme previous c r =
      ⟨.ofWord previous ((c :: r).takeWhile Token.isNameChar), ((c :: r).takeWhile Token.isNameChar).length⟩ := by
    rw [ClassOutline.Token.codeLexeme_of_isNameStart hstart, Token.plainLexeme, if_pos hstart, Token.nameLength]
  rw [tokenAt, hlexeme] at hcommon
  have hall := all_of_isCommon (ofWord_mem _ _) hcommon
  rw [← List.prefix_iff_eq_take.mp (List.takeWhile_prefix _)] at hall
  have hname := isName_takeWhile hc r
  unfold nameToken? at h
  dsimp only at h
  split at h
  · cases h
  · cases h
    obtain ⟨hword, hhead⟩ := takeWhile_word (fun d hd => (hall d hd).1) hbehind
    rw [hword] at hlexeme hall
    have hne : (c :: r).takeWhile Scan.isNamePart ≠ [] := by
      obtain ⟨d, u, hu, -⟩ := hname
      rw [hu]
      simp
    have hfolds : Folds ((c :: r).takeWhile Scan.isNamePart) := fun d hd => (hall d hd).2
    have hsplit := (ClassOutline.Token.takeWhile_append_drop Scan.isNamePart (c :: r))
    generalize (c :: r).takeWhile Scan.isNamePart = w at *
    cases hw : word? w with
    | none =>
      refine ⟨hlexeme, ⟨_, hsplit, fun _ => hhead⟩, hne, rfl, rfl, by simp, by simp [ArePieces], by simp, fun _ => hfolds,
        fun _ => hname, fun v hv => ?_, by simp, fun _ => calm_of_isName hname⟩
      exact absurd (hw.symm.trans hv) (by simp)
    | some v =>
      refine ⟨hlexeme, ⟨_, hsplit, fun _ => hhead⟩, hne, rfl, rfl, by simp, by simp [ArePieces], by simp, fun _ => hfolds,
        fun _ => hname, by simp, fun v' hv => ?_, fun _ => calm_of_isName hname⟩
      rw [hw]
      simpa using hv

/-! ## Variables -/

theorem isLexeme_variable (h : variableToken? p before r = some tk)
    (hcommon : isCommon (tokenAt previous line '$' r) = true)
    (hbehind : ∀ d u, ('$' :: r).drop tk.text.length = d :: u → d.toNat ≤ 0xffff) :
    IsLexeme previous '$' r p before tk := by
  obtain ⟨n, hn, rfl⟩ := Option.map_eq_some_iff.mp h
  unfold Scan.nameLength? at hn
  split at hn
  · rename_i c r
    split at hn
    · rename_i hc
      cases hn
      have hstart := isNameStart_of_plain hc
      have hpart : Scan.isNamePart c = true := by rw [Scan.isNamePart, hc, Bool.true_or]
      have htake : (c :: r).take (1 + (r.takeWhile Scan.isNamePart).length) = (c :: r).takeWhile Scan.isNamePart := by
        rw [List.takeWhile_cons_of_pos hpart, Nat.add_comm, List.take_succ_cons,
          ← List.prefix_iff_eq_take.mp (List.takeWhile_prefix _)]
      simp only [htake] at hbehind ⊢
      have hlexeme : Token.codeLexeme previous '$' (c :: r) =
          ⟨.var, 1 + ((c :: r).takeWhile Token.isNameChar).length⟩ := by
        simp [Token.codeLexeme, startsWith, List.isPrefixOf, hstart, Token.nameLength, show isCodeBlank '$' = false from rfl]
      rw [tokenAt, hlexeme, Nat.add_comm, List.take_succ_cons, ← List.prefix_iff_eq_take.mp (List.takeWhile_prefix _)] at hcommon
      have hall := all_of_isCommon (by simp) hcommon
      obtain ⟨hword, hhead⟩ := takeWhile_word (t := c :: r) (fun d hd => (hall d (List.mem_cons_of_mem _ hd)).1)
        fun d u hd => hbehind d u (by rwa [List.length_cons, List.drop_succ_cons])
      have hsplit := (ClassOutline.Token.takeWhile_append_drop Scan.isNamePart (c :: r))
      rw [hword] at hlexeme
      generalize (c :: r).takeWhile Scan.isNamePart = w at *
      have hnot : ¬ Token.IsName ('$' :: w) := by
        rintro ⟨d, u, hu, hd, -⟩
        obtain ⟨rfl, -⟩ := List.cons.inj hu
        cases hd
      have hpieces : ArePieces ((p.step '$').past w).offset
          [.leaf (.token ['$']) none ⟨p, p.step '$'⟩, .leaf .name none ⟨p.step '$', (p.step '$').past w⟩] := by
        rw [ArePieces, List.forall_mem_cons, List.forall_mem_singleton]
        exact ⟨⟨_, _, rfl, (fun h => by cases h), rfl, by rw [offset_past]; exact Nat.le_add_right _ _⟩,
          ⟨_, _, rfl, (fun h => by cases h), rfl, Nat.le_refl _⟩⟩
      refine ⟨?_, ⟨_, congrArg ('$' :: ·) hsplit, fun hname => absurd hname hnot⟩, by simp, rfl, rfl, by simp, hpieces,
        fun _ => ⟨_, rfl, rfl⟩, ?_, ?_, ?_, ?_, fun _ => behindOperator_eq_false (by decide)⟩
      · rw [hlexeme, List.length_cons, Nat.add_comm]
        rfl
      · exact fun h => by cases h
      · exact fun h => by cases h
      · exact fun _ _ h => by cases h
      · exact fun _ h => by cases h
    · cases hn
  · cases hn

/-! ## Numbers -/

theorem numberLengthFrom_digits {ds : Text} (hds : ∀ d ∈ ds, d.isDigit = true) (seenDot : Bool) (r : Text) :
    Token.numberLengthFrom seenDot (ds ++ r) = ds.length + Token.numberLengthFrom seenDot r := by
  induction ds with
  | nil => simp
  | cons d ds ih =>
    obtain ⟨hd, hds⟩ := List.forall_mem_cons.mp hds
    have halnum : (d.isAlphanum || d == '_') = true := by rw [Char.isAlphanum, hd, Bool.or_true, Bool.true_or]
    have he : (d == 'e' || d == 'E') = false := by
      rw [Bool.or_eq_false_iff]
      constructor <;>
      · refine beq_false_of_ne fun he => ?_
        rw [he] at hd
        cases hd
    rw [List.cons_append, ClassOutline.Token.numberLengthFrom_cons, halnum, he, ih hds, List.length_cons]
    simp only [if_true, Bool.false_and, Bool.false_eq_true, if_false]
    omega

/-- A number of a plain source ends where the lexer ends it. -/
theorem numberLengthFrom_of_endsNumber {r : Text} (h : endsNumber r = true) (seenDot : Bool) :
    Token.numberLengthFrom seenDot r = 0 := by
  cases r with
  | nil => rfl
  | cons c r =>
    obtain ⟨hpart, hdot⟩ := Bool.and_eq_true_iff.mp h
    rw [Bool.not_eq_true'] at hpart
    simp only [Scan.isNamePart, Scan.isNameStart, Bool.or_eq_false_iff] at hpart
    obtain ⟨⟨⟨halpha, hunder⟩, -⟩, hdigit⟩ := hpart
    refine ClassOutline.Token.numberLengthFrom_eq_zero ?_ (by simpa using hdot) seenDot r
    rw [Char.isAlphanum, halpha, hunder, hdigit]
    rfl

theorem number?_spec {lx : Lexeme} (h : number? t = some (lx, n)) :
    Token.numberLengthFrom false t = n ∧ n ≤ t.length ∧ (lx = .integer ∨ lx = .float) := by
  unfold number? at h
  dsimp only at h
  split at h
  · cases h
  have hdigits : ∀ u : Text, ∀ d ∈ u.takeWhile Char.isDigit, d.isDigit = true := fun u d hd => List.mem_takeWhile_imp hd
  have hsplit := ClassOutline.Token.takeWhile_append_drop Char.isDigit t
  generalize t.drop (t.takeWhile Char.isDigit).length = rest at *
  have hlength := congrArg List.length hsplit
  have hfrom := numberLengthFrom_digits (hdigits t) false rest
  rw [← hsplit] at hfrom
  rw [List.length_append] at hlength
  split at h
  · rename_i r
    split at h
    · cases h
    · rename_i hmore
      cases h
      have hrest := ClassOutline.Token.takeWhile_append_drop Char.isDigit r
      simp only [Bool.or_eq_true, beq_iff_eq, Bool.not_eq_true', not_or, Bool.not_eq_false] at hmore
      obtain ⟨hne, hend⟩ := hmore
      have hfraction := numberLengthFrom_digits (hdigits r) true (r.drop (r.takeWhile Char.isDigit).length)
      rw [← hrest, numberLengthFrom_of_endsNumber hend] at hfraction
      obtain ⟨d, u, hr, hd⟩ : ∃ d u, r = d :: u ∧ d.isDigit = true := by
        cases r with
        | nil => exact absurd rfl hne
        | cons d u =>
          refine ⟨d, u, rfl, ?_⟩
          by_contra hd
          rw [List.takeWhile_cons_of_neg hd] at hne
          exact hne rfl
      have hle : (r.takeWhile Char.isDigit).length ≤ r.length := (List.takeWhile_prefix _).length_le
      have hdot : Token.numberLengthFrom false ('.' :: r) = 1 + Token.numberLengthFrom true r := by
        rw [ClassOutline.Token.numberLengthFrom_cons, hr]
        simp [hd]
      rw [List.length_cons] at hlength
      exact ⟨by omega, by omega, Or.inr rfl⟩
  · split at h
    · rename_i hend
      cases h
      rw [numberLengthFrom_of_endsNumber hend] at hfrom
      exact ⟨by omega, by omega, Or.inl rfl⟩
    · cases h

/-! ## Tokens that are no words -/

/-- A token that is no word is read as its length and kind say. -/
theorem isLexeme_take {lx : Lexeme} {pieces : List Node} (hlx : lx = .integer ∨ lx = .float ∨ lx = .string ∨ lx = .mark)
    (hc : Token.isNameStart c = false) (hpos : 0 < n) (hle : n ≤ (c :: r).length)
    (hlexeme : Token.codeLexeme previous c r = ⟨Token.shownAs previous ⟨lx, (c :: r).take n, ⟨p, p⟩, before, pieces⟩, n⟩)
    (hpieces : ArePieces (p.offset + n) pieces)
    (hcloses : lx = .string → ∃ l, pieces.getLast? = some l ∧ l.span.stop.offset = p.offset + n)
    (hcalm : lx ≠ .mark → c ≠ '-' ∧ c ≠ '?' ∧ c ≠ ':' ∧ c ≠ '\\') :
    IsLexeme previous c r p before ⟨lx, (c :: r).take n, ⟨p, p.past ((c :: r).take n)⟩, before, pieces⟩ := by
  have hlength : ((c :: r).take n).length = n := List.length_take_of_le hle
  have hstop : (p.past ((c :: r).take n)).offset = p.offset + n := by rw [offset_past, hlength]
  have hsplit : c :: r = (c :: r).take n ++ (c :: r).drop n := (List.take_append_drop n _).symm
  obtain ⟨u, hu⟩ : ∃ u, (c :: r).take n = c :: u := by
    cases n with
    | zero => exact absurd hpos (Nat.lt_irrefl 0)
    | succ n => exact ⟨r.take n, rfl⟩
  have hname : ¬ Token.IsName ((c :: r).take n) := by
    rintro ⟨d, v, hv, hd, -⟩
    obtain ⟨rfl, -⟩ := List.cons.inj (hu.symm.trans hv)
    exact absurd hd (by simp [hc])
  have hlike : ∀ span, ¬ Token.isNameLike ⟨lx, (c :: r).take n, span, before, pieces⟩ = true := by
    intro span
    rcases hlx with rfl | rfl | rfl | rfl <;> exact Bool.false_ne_true
  refine ⟨?_, ⟨_, hsplit, fun h => absurd h hname⟩, by rw [hu]; simp, rfl, rfl, ?_, by rw [hstop]; exact hpieces, ?_,
    fun h => absurd h (hlike _), fun h => absurd h (hlike _), ?_, ?_, ?_⟩
  · rw [hlexeme, hlength]
    rfl
  · rcases hlx with rfl | rfl | rfl | rfl <;> exact fun h => by cases h
  · intro h
    rw [hstop]
    rcases h with h | h
    · rcases hlx with rfl | rfl | rfl | rfl <;> cases h
    · exact hcloses h
  · intro w _ h
    rcases hlx with rfl | rfl | rfl | rfl <;> cases h
  · intro w h
    rcases hlx with rfl | rfl | rfl | rfl <;> cases h
  · intro h
    rw [hu]
    exact behindOperator_eq_false (hcalm h)

theorem toNat_of_isDigit (hc : c.isDigit = true) : 0x30 ≤ c.toNat ∧ c.toNat ≤ 0x39 := by
  obtain ⟨h0, h9⟩ := Bool.and_eq_true_iff.mp hc
  exact ⟨UInt32.le_iff_toNat_le.mp (of_decide_eq_true h0), UInt32.le_iff_toNat_le.mp (of_decide_eq_true h9)⟩

theorem codeLexeme_of_isDigit (hc : c.isDigit = true) (previous : Option Text) (r : Text) :
    Token.codeLexeme previous c r = ⟨.numberLiteral, Token.numberLength (c :: r)⟩ := by
  have hne : ∀ d : Char, d.isDigit = false → c ≠ d := by
    intro d hd he
    rw [he, hd] at hc
    cases hc
  have hbeq : ∀ d : Char, d.isDigit = false → (c == d) = false := fun d hd => beq_false_of_ne (hne d hd)
  have hstarts : ∀ (d : Char) (head : Text), d.isDigit = false → startsWith (c :: r) (d :: head) = false := by
    intro d head hd
    simp [startsWith, List.isPrefixOf, Ne.symm (hne d hd)]
  have hblank : isCodeBlank c = false := by
    have hrange : decide (c.toNat ≤ 0x0d) = false := decide_eq_false (by have := toNat_of_isDigit hc; omega)
    rw [isCodeBlank, hbeq ' ' rfl, hrange, Bool.and_false, Bool.or_false]
  have hclose : startsWith (c :: r) "?>".toList = false := hstarts '?' _ rfl
  have hattr : startsWith (c :: r) "#[".toList = false := hstarts '#' _ rfl
  have hline : startsWith (c :: r) "//".toList = false := hstarts '/' _ rfl
  have hblock : startsWith (c :: r) "/*".toList = false := hstarts '/' _ rfl
  have hheredoc : startsWith (c :: r) "<<<".toList = false := hstarts '<' _ rfl
  rw [ClassOutline.Token.codeLexeme_eq]
  simp only [Token.Form.of, hblank, hclose, hattr, hline, hblock, hheredoc, hc, Bool.false_eq_true, if_false, if_true,
    Bool.or_false, hbeq '#' rfl, hbeq '\'' rfl, hbeq '"' rfl, hbeq '\x60' rfl, hbeq '$' rfl, Bool.false_and, Bool.true_or,
    Token.Form.lexeme]

theorem isLexeme_number (hc : c.isDigit = true) {lx : Lexeme} (h : number? (c :: r) = some (lx, n)) :
    IsLexeme previous c r p before ⟨lx, (c :: r).take n, ⟨p, p.past ((c :: r).take n)⟩, before, []⟩ := by
  obtain ⟨hlength, hle, hlx⟩ := number?_spec h
  have hpos : 0 < n := by
    have hdigit : ∀ d ∈ [c], d.isDigit = true := by simpa using hc
    have := numberLengthFrom_digits hdigit false r
    rw [List.singleton_append, List.length_singleton] at this
    omega
  have hne : ∀ d : Char, d.isDigit = false → c ≠ d := by
    intro d hd he
    rw [he, hd] at hc
    cases hc
  have hname : Token.isNameStart c = false := by
    by_contra hstart
    have := ClassOutline.Token.le_toNat_of_isNameStart (by simpa using hstart)
    have := toNat_of_isDigit hc
    omega
  refine isLexeme_take (hlx.elim Or.inl fun h => Or.inr (Or.inl h)) hname hpos hle ?_ (by simp [ArePieces]) ?_
    fun _ => ⟨hne _ rfl, hne _ rfl, hne _ rfl, hne _ rfl⟩
  · rw [codeLexeme_of_isDigit hc, Token.numberLength, hlength, Nat.max_eq_right hpos]
    rcases hlx with rfl | rfl <;> rfl
  · rintro rfl
    rcases hlx with h | h <;> cases h

/-- A string of a plain source is a literal of the lexer. -/
theorem isLexeme_string (hc : c = '"' ∨ c = '\'') {nodes : List Node} (h : stringNodes? c p (c :: r) = some (nodes, n)) :
    IsLexeme previous c r p before ⟨.string, (c :: r).take n, ⟨p, p.past ((c :: r).take n)⟩, before, nodes⟩ := by
  obtain ⟨hlength, hle, htwo, hnodes, hcloses⟩ := stringNodes?_spec hc h
  have hlexeme : Token.codeLexeme previous c r = ⟨.stringLiteral, Token.quotedLength '\\' (c :: r)⟩ := by
    rcases hc with rfl | rfl <;> rfl
  refine isLexeme_take (by simp) ?_ (by omega) hle ?_ hnodes (fun _ => hcloses) fun _ => ?_
  · rcases hc with rfl | rfl <;> rfl
  · rw [hlexeme, hlength]
    rfl
  · rcases hc with rfl | rfl <;> decide

end ClassOutline.Plain
