import ClassOutline.Proofs.Plain.Lexemes
/-
  ClassOutline.Proofs.Plain.Signs — the signs of plain sources, and all their tokens.

  Both lexers have the same signs of two and three characters (`compoundLength?_eq`), and the
  reader of plain sources refuses where the lexer would see something else in one.
-/

namespace ClassOutline.Plain

open ClassOutline.Text ClassOutline.Tree ClassOutline.Discovery

variable {c : Char} {r t : Text} {n : Nat} {previous : Option Text} {p : Pos} {before : List Node}

/-! ## Signs -/

theorem startsWith_iff_take {w : Text} : startsWith t w = true ↔ t.take w.length = w := by
  rw [startsWith, List.isPrefixOf_iff_prefix, List.prefix_iff_eq_take, eq_comm]

/-- Of signs of one length the one that a text begins with is its beginning. -/
theorem find?_startsWith {signs signs' : List Text} {k : Nat} (hperm : signs.Perm signs')
    (hlength : ∀ w ∈ signs, w.length = k) (t : Text) :
    signs.find? (startsWith t) = if signs'.contains (t.take k) then some (t.take k) else none := by
  have hmem : signs'.contains (t.take k) = true ↔ t.take k ∈ signs := by
    rw [List.contains_iff_mem, hperm.mem_iff]
  split
  · rename_i h
    rw [hmem] at h
    have hk := hlength _ h
    cases hfind : signs.find? (startsWith t) with
    | none =>
      refine absurd (startsWith_iff_take.mpr ?_) (List.find?_eq_none.mp hfind _ h)
      rw [hk]
    | some w =>
      have hw := startsWith_iff_take.mp (List.find?_some hfind)
      rw [hlength w (List.mem_of_find?_eq_some hfind)] at hw
      rw [hw]
  · rename_i h
    rw [hmem] at h
    rw [List.find?_eq_none]
    intro w hw hstart
    rw [startsWith_iff_take, hlength w hw] at hstart
    exact h (hstart ▸ hw)

/-- Both lexers have the same signs of more than one character. -/
theorem compoundLength?_eq (t : Text) :
    Token.compoundLength? t =
      if threeSigns.contains (t.take 3) then some 3 else if twoSigns.contains (t.take 2) then some 2 else none := by
  have hperm : (Token.compounds.take 9).Perm threeSigns := by decide
  have hperm' : (Token.compounds.drop 9).Perm twoSigns := by decide
  have hthree := find?_startsWith hperm (by decide : ∀ w ∈ Token.compounds.take 9, w.length = 3) t
  have htwo := find?_startsWith hperm' (by decide : ∀ w ∈ Token.compounds.drop 9, w.length = 2) t
  have hlength : ∀ w ∈ threeSigns, w.length = 3 := by decide
  have hlength' : ∀ w ∈ twoSigns, w.length = 2 := by decide
  rw [Token.compoundLength?, ← List.take_append_drop 9 Token.compounds, List.find?_append, hthree, htwo]
  split
  · rename_i h
    rw [Option.some_or, Option.map_some, hlength _ (by simpa using h)]
  · split
    · rename_i h
      rw [Option.none_or, Option.map_some, hlength' _ (by simpa using h)]
    · rfl

/-- What no sign of one character is. -/
theorem isSign_spec : ∀ c ∈ oneSigns, isCodeBlank c = false ∧ Token.isNameStart c = false ∧ c.isDigit = false ∧
    Token.isPunctChar c = true ∧ c ≠ '#' ∧ c ≠ '\'' ∧ c ≠ '"' ∧ c ≠ '\x60' ∧ c ≠ '$' := by
  have hall : (oneSigns.all fun c => !isCodeBlank c && !Token.isNameStart c && !c.isDigit && Token.isPunctChar c &&
      c != '#' && c != '\'' && c != '"' && c != '\x60' && c != '$') = true := by decide
  intro c hc
  simpa [and_assoc] using List.all_eq_true.mp hall c hc

theorem digitsLength_pos {d : Char} (hd : d.isDigit = true) (u : Text) : 0 < Scan.digitsLength Char.isDigit (d :: u) := by
  cases u with
  | nil => rw [Scan.digitsLength, if_pos hd]; exact Nat.one_pos
  | cons e u =>
    rw [Scan.digitsLength, if_pos hd]
    · exact Nat.succ_pos _
    · rintro rfl
      cases hd

/-- A dot before a digit begins a number. -/
theorem isPeculiar_dot {d : Char} (hd : d.isDigit = true) (u : Text) : isPeculiar ('.' :: d :: u) = true := by
  have hpos := digitsLength_pos hd u
  have hzero : Scan.digitsLength Char.isDigit ('.' :: d :: u) = 0 := rfl
  rw [isPeculiar, Scan.floatLength?]
  simp only [hzero, List.drop_zero, Option.any_some, decide_eq_true_eq]
  omega

/-- A sign that begins nothing else is punctuation. -/
theorem codeLexeme_of_sign (hc : c ∈ oneSigns) (hpeculiar : isPeculiar (c :: r) = false)
    (hcomment : plainComment? (c :: r) = none) (previous : Option Text) :
    Token.codeLexeme previous c r = if c = '\\' then ⟨.nsSeparator, 1⟩ else ⟨.punct, (Token.compoundLength? (c :: r)).getD 1⟩ := by
  obtain ⟨hblank, hname, hdigit, hpunct, hhash, happ, hquote, htick, hdollar⟩ := isSign_spec c hc
  -- what the lexer would try first is refused or taken for a comment by the plain reader
  have hstarts : ∀ head : Text, (∀ u, isPeculiar (head ++ u) = true ∨ plainComment? (head ++ u) ≠ none) →
      startsWith (c :: r) head = false := by
    intro head hhead
    by_contra hstart
    rw [Bool.not_eq_false] at hstart
    obtain ⟨u, hu⟩ := startsWith_iff.mp hstart
    rw [hu] at hpeculiar hcomment
    rcases hhead u with h | h
    · rw [h] at hpeculiar
      cases hpeculiar
    · exact h hcomment
  have hclose : startsWith (c :: r) "?>".toList = false := hstarts _ fun _ => Or.inl rfl
  have hline : startsWith (c :: r) "//".toList = false := hstarts _ fun _ => Or.inr (by simp [plainComment?, Scan.commentLength?])
  have hblock : startsWith (c :: r) "/*".toList = false := hstarts _ fun _ => Or.inl rfl
  have hangles : startsWith (c :: r) "<<<".toList = false := hstarts _ fun _ => Or.inl rfl
  have hattr : startsWith (c :: r) "#[".toList = false := by simp [startsWith, List.isPrefixOf, hhash.symm]
  have hdot : (c == '.' && r.head?.any Char.isDigit) = false := by
    by_contra hdot
    rw [Bool.not_eq_false, Bool.and_eq_true, beq_iff_eq] at hdot
    obtain ⟨rfl, hd⟩ := hdot
    cases r with
    | nil => cases hd
    | cons d u =>
      rw [isPeculiar_dot hd u] at hpeculiar
      cases hpeculiar
  have hplain : Token.plainLexeme previous c (c :: r) = ⟨.punct, (Token.compoundLength? (c :: r)).getD 1⟩ := by
    rw [Token.plainLexeme, hname, hpunct]
    cases Token.compoundLength? (c :: r) <;> rfl
  rw [ClassOutline.Token.codeLexeme_eq]
  simp only [Token.Form.of, hblank, hclose, hattr, hline, hblock, hangles, hdigit, hdot, Bool.false_eq_true, if_false,
    Bool.or_false, beq_false_of_ne hhash, beq_false_of_ne happ, beq_false_of_ne hquote, beq_false_of_ne htick,
    beq_false_of_ne hdollar, Bool.false_and, beq_iff_eq]
  split <;> simp only [Token.Form.lexeme, hplain]

theorem threeSigns_spec : ∀ w ∈ threeSigns, w.length = 3 ∧ ∀ d ∈ w.head?, d ∈ oneSigns := by
  have hall : (threeSigns.all fun w => w.length == 3 && w.head?.all fun d => List.contains oneSigns d) = true := by decide
  intro w hw
  simpa [Option.all_eq_true] using List.all_eq_true.mp hall w hw

theorem twoSigns_spec : ∀ w ∈ twoSigns, w.length = 2 ∧ (w = ['#', '['] ∨ ∀ d ∈ w.head?, d ∈ oneSigns) := by
  have hall : (twoSigns.all fun w =>
      w.length == 2 && (w == ['#', '['] || w.head?.all fun d => List.contains oneSigns d)) = true := by decide
  intro w hw
  simpa [Option.all_eq_true] using List.all_eq_true.mp hall w hw

/-- A sign begins as one of one character does, but for that of an attribute. -/
theorem markLength?_spec (h : markLength? (c :: r) = some n) :
    isPeculiar (c :: r) = false ∧ 0 < n ∧ n ≤ (c :: r).length ∧
      ((c :: r).take n = ['#', '['] ∧ n = 2 ∨ c ∈ oneSigns ∧ (Token.compoundLength? (c :: r)).getD 1 = n) := by
  have hle : ∀ {k : Nat}, ((c :: r).take k).length = k → k ≤ (c :: r).length := by
    intro k hk
    rw [List.length_take] at hk
    omega
  have hcompound := compoundLength?_eq (c :: r)
  unfold markLength? at h
  split at h
  · cases h
  rename_i hpeculiar
  refine ⟨by simpa using hpeculiar, ?_⟩
  split at h
  · rename_i hthree
    cases h
    rw [if_pos hthree] at hcompound
    obtain ⟨hlength, hhead⟩ := threeSigns_spec _ (by simpa using hthree)
    exact ⟨by omega, hle hlength, Or.inr ⟨hhead c rfl, by rw [hcompound, Option.getD_some]⟩⟩
  · rename_i hthree
    rw [if_neg hthree] at hcompound
    split at h
    · rename_i htwo
      cases h
      rw [if_pos htwo] at hcompound
      obtain ⟨hlength, hhead⟩ := twoSigns_spec _ (by simpa using htwo)
      refine ⟨by omega, hle hlength, ?_⟩
      rcases hhead with hhead | hhead
      · exact Or.inl ⟨hhead, rfl⟩
      · exact Or.inr ⟨hhead c rfl, by rw [hcompound, Option.getD_some]⟩
    · rename_i htwo
      rw [if_neg htwo] at hcompound
      rw [List.head?_cons, Option.bind_some] at h
      split at h
      · rename_i hone
        cases h
        refine ⟨by omega, by simp, Or.inr ⟨by simpa using hone, by rw [hcompound, Option.getD_none]⟩⟩
      · cases h

/-- A sign of a plain source is punctuation of the lexer. -/
theorem isLexeme_mark (h : markLength? (c :: r) = some n) (hcomment : plainComment? (c :: r) = none) :
    IsLexeme previous c r p before ⟨.mark, (c :: r).take n, ⟨p, p.past ((c :: r).take n)⟩, before, []⟩ := by
  obtain ⟨hpeculiar, hpos, hle, hsign⟩ := markLength?_spec h
  rcases hsign with ⟨hattr, rfl⟩ | ⟨hc, hlength⟩
  · obtain ⟨rfl, u, rfl⟩ : c = '#' ∧ ∃ u, r = '[' :: u := by
      cases r with
      | nil => cases hattr
      | cons d u =>
        cases hattr
        exact ⟨rfl, u, rfl⟩
    exact isLexeme_take (by simp) rfl hpos hle rfl (by simp [ArePieces]) (fun h => by cases h) fun h => absurd rfl h
  · obtain ⟨-, hname, -⟩ := isSign_spec c hc
    refine isLexeme_take (by simp) hname hpos hle ?_ (by simp [ArePieces]) (fun h => by cases h) fun h => absurd rfl h
    rw [codeLexeme_of_sign hc hpeculiar hcomment, hlength]
    by_cases hbackslash : c = '\\'
    · subst hbackslash
      obtain rfl : n = 1 := hlength.symm
      rfl
    · obtain ⟨k, rfl⟩ : ∃ k, n = k + 1 := ⟨n - 1, by omega⟩
      have hne : ((c :: r).take (k + 1) == ['\\']) = false := by
        refine beq_false_of_ne fun he => hbackslash ?_
        exact (List.cons.inj he).1
      rw [if_neg hbackslash, Token.shownAs, hne]
      rfl

/-! ## Tokens -/

/-- A token of a plain source is one of the lexer, if a character that can be read follows it. -/
theorem isLexeme_of_token? {line : Nat} {tk : Token} (h : token? p before (c :: r) = some tk)
    (hcomment : plainComment? (c :: r) = none) (hcommon : isCommon (tokenAt previous line c r) = true)
    (hbehind : ∀ d u, (c :: r).drop tk.text.length = d :: u → d.toNat ≤ 0xffff) :
    IsLexeme previous c r p before tk := by
  rw [token?] at h
  split at h
  · rename_i hc
    exact isLexeme_name hc h hcommon hbehind
  · split at h
    · rename_i hc
      rw [beq_iff_eq.mp hc] at hcommon hbehind ⊢
      exact isLexeme_variable h hcommon hbehind
    · split at h
      · rename_i hc
        obtain ⟨⟨lx, n⟩, hn, rfl⟩ := Option.map_eq_some_iff.mp h
        exact isLexeme_number hc hn
      · split at h
        · rename_i hc
          obtain ⟨⟨nodes, n⟩, hn, rfl⟩ := Option.map_eq_some_iff.mp h
          exact isLexeme_string (by simpa using hc) hn
        · obtain ⟨n, hn, rfl⟩ := Option.map_eq_some_iff.mp h
          exact isLexeme_mark hn hcomment

end ClassOutline.Plain
