import ClassOutline.Proofs.Lexing.Forms
import Mathlib.Data.List.TakeWhile
/-
  ClassOutline.Proofs.Lexing.Extents — every extent is a piece of the text it is measured in.

  Each function of `Token.Extent` is asked only about a text that begins as its kind of token
  does. There it gives a length that is positive and no longer than the text, so that a token
  can be cut off and the rest is shorter. `lexeme_bounds` gathers them: it holds from every
  state and for every text, inside code and outside.
-/

namespace ClassOutline.Token

open ClassOutline.Text

/-- A length that cuts a non-empty piece off a text. -/
def Cuts (n : Nat) (t : Text) : Prop := 0 < n ∧ n ≤ t.length

/-! ## Runs of characters -/

theorem length_takeWhile_le (p : Char → Bool) (t : Text) : (t.takeWhile p).length ≤ t.length :=
  (List.takeWhile_prefix p).length_le

theorem cuts_takeWhile {p : Char → Bool} {c : Char} (h : p c = true) (r : Text) :
    Cuts ((c :: r).takeWhile p).length (c :: r) := by
  refine ⟨?_, length_takeWhile_le p _⟩
  rw [List.takeWhile_cons, if_pos h]
  simp

theorem isNameChar_of_isNameStart {c : Char} (h : isNameStart c = true) : isNameChar c = true := by
  simp [isNameChar, h]

theorem numberLengthFrom_le (seenDot : Bool) (t : Text) : numberLengthFrom seenDot t ≤ t.length := by
  fun_induction numberLengthFrom seenDot t <;> simp_all <;> omega

theorem cuts_numberLength (c : Char) (r : Text) : Cuts (numberLength (c :: r)) (c :: r) := by
  have hle := numberLengthFrom_le false (c :: r)
  simp only [List.length_cons] at hle
  simp only [Cuts, numberLength, List.length_cons]
  omega

/-! ## Comments -/

/-- A comment that is closed, and what follows it. -/
theorem blockComment_split {u body : Text} (h : beforeFirst? "*/".toList u = some body) :
    ∃ rest, "/*".toList ++ u = "/*".toList ++ body ++ "*/".toList ++ rest ∧
      body.length + 4 = ("/*".toList ++ body ++ "*/".toList).length := by
  obtain ⟨rest, rfl⟩ := eq_append_of_beforeFirst? h
  exact ⟨rest, by simp, by simp⟩

theorem cuts_blockCommentLength {t : Text} (h : startsWith t "/*".toList = true) :
    Cuts (blockCommentLength t) t := by
  have hlen : 2 ≤ t.length := length_le_of_startsWith h
  unfold blockCommentLength
  split
  · rename_i body hb
    obtain ⟨r, hr⟩ := eq_append_of_beforeFirst? hb
    have hl := congrArg List.length hr
    have h2 : "*/".toList.length = 2 := by decide
    simp only [List.length_drop, List.length_append, h2] at hl
    exact ⟨by omega, by omega⟩
  · exact ⟨by omega, Nat.le_refl _⟩

/-- A line comment does not begin with what ends it. -/
theorem cuts_lineCommentLength {c : Char} {r : Text} (hq : c ≠ '?') (hn : c ≠ '\n') (hr : c ≠ '\r') :
    Cuts (lineCommentLength (c :: r)) (c :: r) := by
  have hline : (c :: r).takeWhile (· != '\n') = c :: r.takeWhile (· != '\n') := by
    simp [hn]
  have hle := length_takeWhile_le (· != '\n') r
  unfold lineCommentLength
  simp only [hline]
  split
  · rename_i body hb
    obtain ⟨a, ha⟩ := eq_append_of_beforeFirst? hb
    have hl := congrArg List.length ha
    simp only [List.length_cons, List.length_append] at hl
    refine ⟨?_, by simp only [List.length_cons]; omega⟩
    cases body with
    | nil =>
      simp only [List.nil_append] at ha
      exact absurd (List.cons.inj ha).1 hq
    | cons => simp
  · have hd := length_dropTail_le ['\r'] (c :: r.takeWhile (· != '\n'))
    simp only [List.length_cons] at hd
    refine ⟨?_, by simp only [dropReturn, List.length_cons]; omega⟩
    rcases dropTail_cases ['\r'] (c :: r.takeWhile (· != '\n')) with h | ⟨h, -⟩
    · cases hk : dropTail ['\r'] (c :: r.takeWhile (· != '\n')) with
      | nil =>
        rw [hk] at h
        exact absurd (List.cons.inj h).1 hr
      | cons => simp [dropReturn, hk]
    · simp [dropReturn, h]

theorem isDocComment_eq (t : Text) :
    isDocComment t = (after? "/**".toList t).any fun r => r.head?.any isCodeBlank := by
  unfold isDocComment
  rcases after? "/**".toList t with - | (- | ⟨c, r⟩) <;> rfl

/-! ## Quoted literals -/

theorem quotedTailLength_le {α : Type} [DecidableEq α] (escape quote : α) (t : List α) :
    quotedTailLength escape quote t ≤ t.length := by
  fun_induction quotedTailLength escape quote t <;> simp_all <;> omega

theorem cuts_quotedLength (c : Char) (r : Text) : Cuts (quotedLength '\\' (c :: r)) (c :: r) := by
  have hle := quotedTailLength_le '\\' c r
  simp only [Cuts, quotedLength, List.length_cons]
  omega

/-! ## Heredocs -/

theorem lineEndLength?_le {t : Text} {n : Nat} (h : lineEndLength? t = some n) : n ≤ t.length := by
  unfold lineEndLength? at h
  split at h
  · rename_i hs
    cases h
    exact length_le_of_startsWith hs
  · split at h
    · rename_i hs
      cases h
      exact length_le_of_startsWith hs
    · cases h

theorem closingLength?_le {label line : Text} {n : Nat} (h : closingLength? label line = some n) :
    n ≤ line.length := by
  simp only [closingLength?] at h
  split at h
  · rename_i rest hr
    split at h
    · cases h
    · cases h
      have hl := congrArg List.length (after?_eq_some_iff.mp hr)
      have hb := length_takeWhile_le isIndent line
      simp only [List.length_drop, List.length_append] at hl
      omega
  · cases h

theorem heredocBodyLength_le (label : Text) (ls : List Text) :
    heredocBodyLength label ls ≤ (joinLines ls).length := by
  fun_induction heredocBodyLength label ls with
  | case1 => exact Nat.zero_le _
  | case2 line =>
    rw [joinLines_singleton]
    cases h : closingLength? label line with
    | none => exact Nat.le_refl _
    | some n => exact closingLength?_le h
  | case3 line rest hr n hn =>
    obtain ⟨next, more, rfl⟩ := List.exists_cons_of_ne_nil hr
    have hle := closingLength?_le hn
    rw [joinLines_cons_cons, List.length_append]
    omega
  | case4 line rest hr hn ih =>
    obtain ⟨next, more, rfl⟩ := List.exists_cons_of_ne_nil hr
    rw [joinLines_cons_cons, List.length_append, List.length_cons]
    omega

/-- How an opener is written: blanks, a label between two equal quotes or none, a line end. -/
inductive Opener : Text → HeredocOpener → Prop
  | mk (blanks quote label lineEnd rest : Text) (hblanks : ∀ c ∈ blanks, isIndent c = true)
      (hquote : quote = [] ∨ quote = ['"'] ∨ quote = ['\'']) (hlabel : label ≠ [])
      (hname : ∀ c ∈ label, isNameChar c = true) (hend : lineEnd = ['\n'] ∨ lineEnd = ['\r', '\n']) :
      Opener ("<<<".toList ++ (blanks ++ (quote ++ (label ++ (quote ++ (lineEnd ++ rest))))))
        ⟨label, 3 + blanks.length + quote.length + label.length + quote.length + lineEnd.length⟩

theorem lineEndLength?_eq_some_iff {t : Text} {n : Nat} :
    lineEndLength? t = some n ↔
      ∃ lineEnd rest, (lineEnd = ['\n'] ∨ lineEnd = ['\r', '\n']) ∧ t = lineEnd ++ rest ∧ n = lineEnd.length := by
  unfold lineEndLength?
  by_cases hr : startsWith t "\r\n".toList = true
  · obtain ⟨r, rfl⟩ := startsWith_iff.mp hr
    simp only [hr, if_true, Option.some.injEq]
    constructor
    · intro heq
      subst heq
      exact ⟨_, r, Or.inr rfl, by simp, rfl⟩
    · intro h
      obtain ⟨_, rest, rfl | rfl, he, rfl⟩ := h
      · simp at he
      · rfl
  · by_cases hn : startsWith t "\n".toList = true
    · obtain ⟨r, rfl⟩ := startsWith_iff.mp hn
      simp only [hr, hn, if_true, if_false, Bool.false_eq_true, Option.some.injEq]
      constructor
      · intro heq
        subst heq
        exact ⟨_, r, Or.inl rfl, by simp, rfl⟩
      · intro h
        obtain ⟨_, rest, rfl | rfl, he, rfl⟩ := h
        · rfl
        · simp at he
    · simp only [hr, hn, if_false, Bool.false_eq_true, reduceCtorEq, false_iff]
      intro h
      obtain ⟨_, rest, rfl | rfl, rfl, rfl⟩ := h
      · exact hn (startsWith_iff.mpr ⟨rest, by simp⟩)
      · exact hr (startsWith_iff.mpr ⟨rest, by simp⟩)

/-- A run that a character outside it ends. -/
theorem takeWhile_append_eq {p : Char → Bool} {a b : Text} (ha : ∀ c ∈ a, p c = true)
    (hb : ∀ c, b.head? = some c → p c = false) : (a ++ b).takeWhile p = a := by
  rw [List.takeWhile_append_of_pos ha]
  cases b with
  | nil => simp
  | cons c b => simp [hb c rfl]

theorem not_isIndent_of_isNameChar {c : Char} (h : isNameChar c = true) : isIndent c = false := by
  cases hi : isIndent c with
  | false => rfl
  | true =>
    have hc : c = ' ' ∨ c = '\t' := by simpa only [isIndent, Bool.or_eq_true, beq_iff_eq] using hi
    rcases hc with rfl | rfl <;> exact absurd h (by decide)

theorem not_isQuote_of_isNameChar {c : Char} (h : isNameChar c = true) : (c == '"' || c == '\'') = false := by
  cases hi : (c == '"' || c == '\'') with
  | false => rfl
  | true =>
    have hc : c = '"' ∨ c = '\'' := by simpa only [Bool.or_eq_true, beq_iff_eq] using hi
    rcases hc with rfl | rfl <;> exact absurd h (by decide)

/-- A label ends at its quote or at the line's end. -/
theorem takeWhile_label {label quote lineEnd : Text} (hname : ∀ c ∈ label, isNameChar c = true)
    (hquote : quote = [] ∨ quote = ['"'] ∨ quote = ['\''])
    (hend : lineEnd = ['\n'] ∨ lineEnd = ['\r', '\n']) (rest : Text) :
    (label ++ (quote ++ (lineEnd ++ rest))).takeWhile isNameChar = label := by
  refine takeWhile_append_eq hname fun d hd => ?_
  rcases hquote with rfl | rfl | rfl
  · rcases hend with rfl | rfl <;> simp at hd <;> subst hd <;> decide
  · simp at hd; subst hd; decide
  · simp at hd; subst hd; decide

theorem heredocOpener?_of_opener {t : Text} {o : HeredocOpener} (h : Opener t o) :
    heredocOpener? t = some o := by
  obtain ⟨blanks, quote, label, lineEnd, rest, hblanks, hquote, hlabel, hname, hend⟩ := h
  obtain ⟨c, l, rfl⟩ := List.exists_cons_of_ne_nil hlabel
  have hc : isNameChar c = true := hname c (by simp)
  have hlineEnd : lineEndLength? (lineEnd ++ rest) = some lineEnd.length :=
    lineEndLength?_eq_some_iff.mpr ⟨lineEnd, rest, hend, rfl, rfl⟩
  have hbl : (blanks ++ (quote ++ (c :: l ++ (quote ++ (lineEnd ++ rest))))).takeWhile isIndent = blanks := by
    refine takeWhile_append_eq hblanks fun d hd => ?_
    rcases hquote with rfl | rfl | rfl
    · simp at hd; subst hd; exact not_isIndent_of_isNameChar hc
    · simp at hd; subst hd; decide
    · simp at hd; subst hd; decide
  have hla := takeWhile_label hname hquote hend rest
  have hdrop : ("<<<".toList ++ (blanks ++ (quote ++ (c :: l ++ (quote ++ (lineEnd ++ rest)))))).drop
      (3 + blanks.length) = quote ++ (c :: l ++ (quote ++ (lineEnd ++ rest))) := by
    rw [← List.drop_drop]
    simp
  have h3 : ("<<<".toList ++ (blanks ++ (quote ++ (c :: l ++ (quote ++ (lineEnd ++ rest)))))).drop 3 =
      blanks ++ (quote ++ (c :: l ++ (quote ++ (lineEnd ++ rest)))) := rfl
  simp only [heredocOpener?, h3, hbl, hdrop]
  have hquote' : quote = [] ∨ ∃ q, (q == '"' || q == '\'') = true ∧ quote = [q] := by
    rcases hquote with rfl | rfl | rfl
    · exact Or.inl rfl
    · exact Or.inr ⟨'"', rfl, rfl⟩
    · exact Or.inr ⟨'\'', rfl, rfl⟩
  rcases hquote' with rfl | ⟨q, hq, rfl⟩
  · have hq := not_isQuote_of_isNameChar hc
    simp only [List.nil_append, List.cons_append, List.head?_cons, Option.filter_some, hq] at hla ⊢
    simp [hla, hlineEnd]
  · have hbehind : ([q] ++ (c :: l ++ ([q] ++ (lineEnd ++ rest)))).drop (1 + (c :: l).length) =
        [q] ++ (lineEnd ++ rest) := by
      rw [← List.drop_drop]
      exact List.drop_left
    have h1 : ([q] ++ (c :: l ++ ([q] ++ (lineEnd ++ rest)))).drop 1 = c :: l ++ ([q] ++ (lineEnd ++ rest)) := rfl
    simp only [List.singleton_append, List.head?_cons, Option.filter_some, hq, if_true, Option.isSome_some] at h1 hbehind hla ⊢
    simp only [h1, hla, hbehind, List.drop_succ_cons, List.drop_zero, hlineEnd]
    simp

theorem takeWhile_append_drop (p : Char → Bool) (t : Text) :
    t = t.takeWhile p ++ t.drop (t.takeWhile p).length :=
  (List.prefix_iff_eq_append.mp (List.takeWhile_prefix p)).symm

theorem opener_of_heredocOpener? {t : Text} {o : HeredocOpener} (h3 : startsWith t "<<<".toList = true)
    (h : heredocOpener? t = some o) : Opener t o := by
  obtain ⟨x, rfl⟩ := startsWith_iff.mp h3
  obtain ⟨u, hu⟩ : ∃ u, u = x.drop (x.takeWhile isIndent).length := ⟨_, rfl⟩
  have hx : x = x.takeWhile isIndent ++ u := by rw [hu]; exact takeWhile_append_drop isIndent x
  have hdrop : ("<<<".toList ++ x).drop (3 + (x.takeWhile isIndent).length) = u := by
    rw [hu, ← List.drop_drop]
    rfl
  have hthree : ("<<<".toList ++ x).drop 3 = x := rfl
  have hblanks : ∀ c ∈ x.takeWhile isIndent, isIndent c = true := fun c hc => List.mem_takeWhile_imp hc
  simp only [heredocOpener?, hthree, hdrop] at h
  cases hq : u.head?.filter (fun c => c == '"' || c == '\'') with
  | none =>
    simp only [hq, Option.isSome_none, Bool.false_eq_true, if_false, List.drop_zero, Nat.zero_add,
      Bool.false_and, Nat.add_zero] at h
    split at h
    · cases h
    · rename_i hl
      obtain ⟨n, hn, rfl⟩ := Option.map_eq_some_iff.mp h
      obtain ⟨lineEnd, rest, hend, hv, rfl⟩ := lineEndLength?_eq_some_iff.mp hn
      have hu' := takeWhile_append_drop isNameChar u
      rw [hv] at hu'
      have := Opener.mk (x.takeWhile isIndent) [] (u.takeWhile isNameChar) lineEnd rest hblanks (Or.inl rfl)
        (by simpa using hl) (fun c hc => List.mem_takeWhile_imp hc) hend
      simpa [← hu', ← hx] using this
  | some q =>
    obtain ⟨hhead, hquote⟩ := Option.filter_eq_some_iff.mp hq
    obtain ⟨u', rfl⟩ : ∃ u', u = q :: u' := by
      cases u with
      | nil => simp at hhead
      | cons d u' => exact ⟨u', by simpa using hhead⟩
    simp only [hq, Option.isSome_some, if_true, List.drop_succ_cons, List.drop_zero, Bool.true_and] at h
    split at h
    · cases h
    · rename_i hl
      split at h
      · cases h
      · rename_i hclose
        obtain ⟨n, hn, rfl⟩ := Option.map_eq_some_iff.mp h
        obtain ⟨lineEnd, rest, hend, hv, rfl⟩ := lineEndLength?_eq_some_iff.mp hn
        have hu' := takeWhile_append_drop isNameChar u'
        obtain ⟨v, hvq⟩ : ∃ v, u'.drop (u'.takeWhile isNameChar).length = q :: v := by
          rw [Nat.add_comm, List.drop_succ_cons] at hclose
          cases hd : u'.drop (u'.takeWhile isNameChar).length with
          | nil => simp [hd] at hclose
          | cons d v => exact ⟨v, by simpa [hd] using hclose⟩
        rw [Nat.add_comm, List.drop_succ_cons, hvq, List.drop_succ_cons, List.drop_zero] at hv
        rw [hvq, hv] at hu'
        have hq' : [q] = [] ∨ [q] = ['"'] ∨ [q] = ['\''] := by simpa using hquote
        have := Opener.mk (x.takeWhile isIndent) [q] (u'.takeWhile isNameChar) lineEnd rest hblanks hq'
          (by simpa using hl) (fun c hc => List.mem_takeWhile_imp hc) hend
        simpa [← hu', ← hx] using this

theorem Opener.cuts {t : Text} {o : HeredocOpener} (h : Opener t o) : Cuts o.length t := by
  obtain ⟨blanks, quote, label, lineEnd, rest, -, -, -, -, -⟩ := h
  have h3 : "<<<".toList.length = 3 := by decide
  simp only [Cuts, List.length_append, h3]
  omega

theorem cuts_heredocLength? {t : Text} {n : Nat} (h3 : startsWith t "<<<".toList = true)
    (h : heredocLength? t = some n) : Cuts n t := by
  obtain ⟨o, ho, rfl⟩ := Option.map_eq_some_iff.mp h
  obtain ⟨hpos, hle⟩ := (opener_of_heredocOpener? h3 ho).cuts
  have hb := heredocBodyLength_le o.label (splitLines (t.drop o.length))
  rw [joinLines_splitLines, List.length_drop] at hb
  exact ⟨by omega, by omega⟩

/-! ## Tags and punctuation -/

theorem cuts_openTagLength {t : Text} (h : startsWith t "<?".toList = true) : Cuts (openTagLength t) t := by
  have h2 : 2 ≤ t.length := length_le_of_startsWith h
  unfold openTagLength
  split
  · rename_i h5
    have hl := congrArg List.length (beq_iff_eq.mp h5)
    have h5' : "<?php".toList.length = 5 := by decide
    simp only [lower, List.length_map, List.length_take, h5'] at hl
    exact ⟨by omega, by omega⟩
  · split
    · rename_i h3
      exact ⟨by omega, length_le_of_startsWith h3⟩
    · exact ⟨by omega, h2⟩

theorem cuts_closeTagLength {t : Text} (h : startsWith t "?>".toList = true) : Cuts (closeTagLength t) t := by
  have h2 : 2 ≤ t.length := length_le_of_startsWith h
  unfold closeTagLength
  cases hn : lineEndLength? (t.drop 2) with
  | none => exact ⟨by omega, h2⟩
  | some n =>
    have hle := lineEndLength?_le hn
    rw [List.length_drop] at hle
    rw [Option.getD_some]
    exact ⟨by omega, by omega⟩

theorem cuts_compoundLength? {t : Text} {n : Nat} (h : compoundLength? t = some n) : Cuts n t := by
  obtain ⟨p, hp, rfl⟩ := Option.map_eq_some_iff.mp h
  have hmem : ∀ q ∈ compounds, 0 < q.length := by decide
  exact ⟨hmem p (List.mem_of_find?_eq_some hp), length_le_of_startsWith (List.find?_some hp)⟩

theorem cuts_beforeFirst? {part : Text} {c : Char} {r : Text} (h : startsWith (c :: r) part = false) :
    Cuts ((beforeFirst? part (c :: r)).getD (c :: r)).length (c :: r) := by
  rw [beforeFirst?_cons, h]
  cases hb : beforeFirst? part r with
  | none => exact ⟨by simp, by simp⟩
  | some b =>
    obtain ⟨a, rfl⟩ := eq_append_of_beforeFirst? hb
    exact ⟨by simp, by simp⟩

/-! ## Lexemes -/

theorem le_toNat_of_isNameStart {c : Char} (h : isNameStart c = true) : 0x41 ≤ c.toNat := by
  simp only [isNameStart, Bool.or_eq_true, beq_iff_eq, decide_eq_true_eq] at h
  rcases h with (h | rfl) | h
  · rcases Bool.or_eq_true_iff.mp h with hu | hl
    · exact UInt32.le_iff_toNat_le.mp (of_decide_eq_true hu).1
    · have ha : 'a'.val.toNat ≤ c.val.toNat :=
        UInt32.le_iff_toNat_le.mp (of_decide_eq_true (Bool.and_eq_true_iff.mp hl).1)
      exact Nat.le_trans (by decide) ha
  · decide
  · exact Nat.le_trans (by decide) h

theorem not_isCodeBlank_of_isNameStart {c : Char} (h : isNameStart c = true) : isCodeBlank c = false := by
  have hle := le_toNat_of_isNameStart h
  have hspace : c ≠ ' ' := by
    intro he
    rw [he] at hle
    exact absurd hle (by decide)
  have hrange : decide (c.toNat ≤ 0x0d) = false := decide_eq_false (by omega)
  rw [isCodeBlank, beq_false_of_ne hspace, hrange, Bool.and_false, Bool.or_false]

/-- A character that begins a name begins nothing else. -/
theorem codeLexeme_of_isNameStart {c : Char} (h : isNameStart c = true) (previous : Option Text) (r : Text) :
    codeLexeme previous c r = plainLexeme previous c (c :: r) := by
  have hle := le_toNat_of_isNameStart h
  have hne : ∀ d : Char, isNameStart d = false → c ≠ d := by
    intro d hd he
    rw [he, hd] at h
    cases h
  have hbeq : ∀ d : Char, isNameStart d = false → (c == d) = false := fun d hd => beq_false_of_ne (hne d hd)
  have hstarts : ∀ (d : Char) (head : Text), isNameStart d = false → startsWith (c :: r) (d :: head) = false := by
    intro d head hd
    simp [startsWith, List.isPrefixOf, Ne.symm (hne d hd)]
  have hblank := not_isCodeBlank_of_isNameStart h
  have hdigit : c.isDigit = false := by
    cases hd : c.isDigit with
    | false => rfl
    | true =>
      have h9 : c.val.toNat ≤ '9'.val.toNat :=
        UInt32.le_iff_toNat_le.mp (of_decide_eq_true (Bool.and_eq_true_iff.mp hd).2)
      have h57 : '9'.val.toNat = 57 := rfl
      have hval : c.toNat = c.val.toNat := rfl
      omega
  have hclose : startsWith (c :: r) "?>".toList = false := hstarts '?' _ rfl
  have hattr : startsWith (c :: r) "#[".toList = false := hstarts '#' _ rfl
  have hline : startsWith (c :: r) "//".toList = false := hstarts '/' _ rfl
  have hblock : startsWith (c :: r) "/*".toList = false := hstarts '/' _ rfl
  have hheredoc : startsWith (c :: r) "<<<".toList = false := hstarts '<' _ rfl
  rw [codeLexeme_eq]
  simp only [Form.of, hblank, hclose, hattr, hline, hblock, hheredoc, hdigit, Bool.false_eq_true, if_false,
    Bool.or_false, hbeq '#' rfl, hbeq '\'' rfl, hbeq '"' rfl, hbeq '`' rfl, hbeq '$' rfl, hbeq '.' rfl,
    hbeq '\\' rfl, Bool.false_and, Form.lexeme]

theorem cuts_plainLexeme (previous : Option Text) (c : Char) (r : Text) :
    Cuts (plainLexeme previous c (c :: r)).length (c :: r) := by
  unfold plainLexeme
  split
  · rename_i hc
    exact cuts_takeWhile (isNameChar_of_isNameStart hc) r
  · split
    · rename_i n hn
      exact cuts_compoundLength? hn
    · exact ⟨by simp, by simp⟩

theorem cuts_angleLexeme {c : Char} {r : Text} (h : startsWith (c :: r) "<<<".toList = true) (previous : Option Text) :
    Cuts (angleLexeme previous c (c :: r)).length (c :: r) := by
  unfold angleLexeme
  split
  · rename_i n hn
    exact cuts_heredocLength? h hn
  · exact cuts_plainLexeme previous c r

theorem cuts_codeLexeme (previous : Option Text) (c : Char) (r : Text) :
    Cuts (codeLexeme previous c r).length (c :: r) := by
  obtain ⟨form, hbegins, hlex⟩ := exists_form previous c r
  rw [hlex]
  cases hbegins with
  | blanks h => exact cuts_takeWhile h r
  | closeTag h => exact cuts_closeTagLength h
  | attributeMark h => exact ⟨Nat.succ_pos 1, length_le_of_startsWith h⟩
  | lineComment h =>
    have hc : c = '#' ∨ c = '/' := by
      refine h.imp_right fun h => ?_
      obtain ⟨a, ha⟩ := startsWith_iff.mp h
      exact (List.cons.inj ha).1
    rcases hc with rfl | rfl <;> exact cuts_lineCommentLength (by decide) (by decide) (by decide)
  | blockComment h => exact cuts_blockCommentLength h
  | quoted => exact cuts_quotedLength c r
  | angles h => exact cuts_angleLexeme h previous
  | var =>
    have hle := length_takeWhile_le isNameChar r
    simp only [Cuts, Form.lexeme, nameLength, List.length_cons]
    omega
  | number => exact cuts_numberLength c r
  | separator => exact ⟨Nat.succ_pos 0, Nat.succ_le_succ (Nat.zero_le _)⟩
  | plain => exact cuts_plainLexeme previous c r

/-- Two writings of a text, one given with its first character: they begin with the same marks,
    and where a token takes `n` characters of that one, it takes `g n` of the other. -/
structure Rewritten (g : Nat → Nat) (c : Char) (r t' : Text) : Prop where
  starts : ∀ mark ∈ marks, startsWith t' mark = startsWith (c :: r) mark
  nameBehind : t'.tail.head?.any isNameStart = r.head?.any isNameStart
  digitBehind : t'.tail.head?.any Char.isDigit = r.head?.any Char.isDigit
  one : g 1 = 1
  blanks : isCodeBlank c = true →
    (t'.takeWhile isCodeBlank).length = g ((c :: r).takeWhile isCodeBlank).length
  closeTag : startsWith (c :: r) "?>".toList = true → closeTagLength t' = g (closeTagLength (c :: r))
  attributeMark : startsWith (c :: r) "#[".toList = true → g 2 = 2
  lineComment : lineCommentLength t' = g (lineCommentLength (c :: r))
  isDoc : isDocComment t' = isDocComment (c :: r)
  blockComment : startsWith (c :: r) "/*".toList = true →
    blockCommentLength t' = g (blockCommentLength (c :: r))
  quoted : (c == '\'' || c == '"' || c == '`') = true →
    quotedLength '\\' t' = g (quotedLength '\\' (c :: r))
  heredoc : startsWith (c :: r) "<<<".toList = true →
    heredocLength? t' = (heredocLength? (c :: r)).map g
  var : 1 + nameLength t'.tail = g (1 + nameLength r)
  number : numberLength t' = g (numberLength (c :: r))

/-- The lexeme with another length. -/
def Lexeme.map (g : Nat → Nat) (l : Lexeme) : Lexeme := ⟨l.kind, g l.length⟩

/-- In two writings of a text the same token comes first, if it does where it is plain. -/
theorem Rewritten.codeLexeme_eq {g : Nat → Nat} {c : Char} {r r' : Text} (h : Rewritten g c r (c :: r'))
    {previous previous' : Option Text}
    (hplain : plainLexeme previous' c (c :: r') = (plainLexeme previous c (c :: r)).map g) :
    codeLexeme previous' c r' = (codeLexeme previous c r).map g := by
  obtain ⟨form, hbegins, hlex, hlex'⟩ :=
    exists_form_of_alike h.starts (fun _ => h.nameBehind) h.digitBehind previous previous'
  rw [hlex, hlex']
  cases hbegins with
  | blanks hc => exact congrArg (Lexeme.mk _) (h.blanks hc)
  | closeTag hc => exact congrArg (Lexeme.mk _) (h.closeTag hc)
  | attributeMark hc => exact congrArg (Lexeme.mk _) (h.attributeMark hc).symm
  | lineComment => exact congrArg (Lexeme.mk _) h.lineComment
  | blockComment hc =>
    rw [Form.lexeme, Form.lexeme, h.isDoc, h.blockComment hc]
    rfl
  | quoted hc => exact congrArg (Lexeme.mk _) (h.quoted hc)
  | angles hc =>
    rw [Form.lexeme, Form.lexeme, angleLexeme, angleLexeme, h.heredoc hc]
    cases heredocLength? (c :: r) with
    | none => exact hplain
    | some n => rfl
  | var => exact congrArg (Lexeme.mk _) h.var
  | number => exact congrArg (Lexeme.mk _) h.number
  | separator => exact congrArg (Lexeme.mk _) h.one.symm
  | plain => exact hplain

/-- From every state, the next token takes something of the text and no more than there is. -/
theorem lexeme_bounds (s : LexState) (c : Char) (r : Text) : Cuts (lexeme s c r).length (c :: r) := by
  unfold lexeme
  split
  · exact cuts_codeLexeme s.previous c r
  · unfold htmlLexeme
    split
    · rename_i h
      exact cuts_openTagLength h
    · rename_i h
      exact cuts_beforeFirst? (by simpa using h)

end ClassOutline.Token
