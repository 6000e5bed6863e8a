import ClassOutline.Proofs.Lexing.Lossless
import ClassOutline.Proofs.Lexing.Shared
/-
  ClassOutline.Proofs.Lexing.Stops — text that lexes by itself.

  A semicolon or a brace ends whatever token stands before it: no name, number, operator or
  tag goes on with one. So a token that ends before a stop is the same whatever stands
  behind the stop (`lexeme_stop`); only comments and literals can reach over it, and those
  that are closed before it do not. A text that lexes to its last character, and that
  character is a stop, is closed: in front of anything it gives its own tokens, and what
  follows is lexed as code (`Lexes.append`).
-/

namespace ClassOutline.Token

open ClassOutline.Text

/-! ## Stops -/

/-- The marks that end a statement, and open and close a block. -/
def stops : Text := [';', '{', '}']

theorem eq_false_of_stop (p : Char → Bool) {c : Char} (hc : c ∈ stops)
    (h : stops.all (fun d => !p d) = true) : p c = false := by
  simpa using List.all_eq_true.mp h c hc

theorem not_mem_of_stop {head : Text} {c : Char} (hc : c ∈ stops)
    (h : stops.all (fun d => decide (d ∉ head)) = true) : c ∉ head :=
  of_decide_eq_true (List.all_eq_true.mp h c hc)

theorem takeWhile_stop {p : Char → Bool} {c : Char} (h : p c = false) (a x : Text) :
    (a ++ c :: x).takeWhile p = a.takeWhile p := by
  induction a with
  | nil => simp [h]
  | cons d a ih =>
    rw [List.cons_append, List.takeWhile_cons, List.takeWhile_cons, ih]

theorem startsWith_stop {head : Text} {c : Char} (h : c ∉ head) (a x : Text) :
    startsWith (a ++ c :: x) head = startsWith a head := by
  induction head generalizing a with
  | nil => simp [startsWith]
  | cons e head ih =>
    obtain ⟨hne, hmem⟩ : c ≠ e ∧ c ∉ head := by simpa using h
    cases a with
    | nil => simp [startsWith, List.isPrefixOf, Ne.symm hne]
    | cons d a =>
      have hrec : head.isPrefixOf (a ++ c :: x) = head.isPrefixOf a := ih hmem a
      simp only [startsWith, List.cons_append, List.isPrefixOf, hrec]

theorem after?_stop {head : Text} {c : Char} (h : c ∉ head) (a x : Text) :
    after? head (a ++ c :: x) = (after? head a).map (· ++ c :: x) := by
  cases ha : after? head a with
  | some r =>
    rw [after?_eq_some_iff.mp ha]
    exact after?_eq_some_iff.mpr (List.append_assoc ..)
  | none =>
    refine Option.eq_none_iff_forall_ne_some.mpr fun r hr => ?_
    have hs : startsWith a head = true := by
      rw [← startsWith_stop h a x]
      exact startsWith_iff.mpr ⟨r, after?_eq_some_iff.mp hr⟩
    obtain ⟨u, hu⟩ := startsWith_iff.mp hs
    rw [after?_eq_some_iff.mpr hu] at ha
    cases ha

/-- A part is found before the stop, or else behind it. -/
theorem beforeFirst?_stop {part : Text} {c : Char} (hne : part ≠ []) (h : c ∉ part) (a x : Text) :
    beforeFirst? part (a ++ c :: x) =
      (beforeFirst? part a).or ((beforeFirst? part (c :: x)).map (a ++ ·)) := by
  induction a with
  | nil =>
    have hnil : beforeFirst? part [] = none := by simp [beforeFirst?, hne]
    rw [hnil, Option.none_or]
    simp
  | cons d a ih =>
    rw [List.cons_append, beforeFirst?_cons, beforeFirst?_cons, ← List.cons_append, startsWith_stop h, ih]
    split
    · rfl
    · cases beforeFirst? part a with
      | some b => rfl
      | none => cases beforeFirst? part (c :: x) <;> simp

/-! ## Numbers and tags -/

theorem numberLengthFrom_stop {c : Char} (hc : c ∈ stops) (seenDot : Bool) (a x : Text) :
    numberLengthFrom seenDot (a ++ c :: x) = numberLengthFrom seenDot a := by
  have hword : (c.isAlphanum || c == '_') = false :=
    eq_false_of_stop (fun d => d.isAlphanum || d == '_') hc rfl
  have hsign : (c == '+' || c == '-') = false := eq_false_of_stop (fun d => d == '+' || d == '-') hc rfl
  have hdigit : c.isDigit = false := eq_false_of_stop Char.isDigit hc rfl
  have hdot : (c == '.') = false := eq_false_of_stop (· == '.') hc rfl
  have hzero : ∀ seen, numberLengthFrom seen (c :: x) = 0 := fun seen => numberLengthFrom_eq_zero hword hdot seen x
  fun_induction numberLengthFrom seenDot a with
  | case1 seen => exact hzero seen
  | case2 seen d hd => simp [numberLengthFrom_cons, hd, hsign, hzero]
  | case3 seen d hd => simp [numberLengthFrom_cons, hd, hdigit]
  | case4 seen d e r hd he ih => simp [numberLengthFrom, hd, he, ih]
  | case5 seen d e r hd he ih => simpa [numberLengthFrom, hd, he] using ih
  | case6 seen d e r hd he ih => simpa [numberLengthFrom, hd, he] using ih
  | case7 seen d e r hd he => simp [numberLengthFrom, hd, he]

theorem lineEndLength?_stop {c : Char} (hc : c ∈ stops) (a x : Text) :
    lineEndLength? (a ++ c :: x) = lineEndLength? a := by
  unfold lineEndLength?
  rw [startsWith_stop (not_mem_of_stop hc rfl), startsWith_stop (not_mem_of_stop hc rfl)]

theorem compoundLength?_stop {c : Char} (hc : c ∈ stops) (a x : Text) :
    compoundLength? (a ++ c :: x) = compoundLength? a := by
  have hmem : compounds.all (fun p => stops.all fun d => decide (d ∉ p)) = true := rfl
  unfold compoundLength?
  refine congrArg (Option.map List.length) (List.find?_congr fun p hp => ?_)
  exact startsWith_stop (not_mem_of_stop hc (List.all_eq_true.mp hmem p hp)) a x

theorem closeTagLength_stop {c : Char} (hc : c ∈ stops) {a : Text} (h : startsWith a "?>".toList = true)
    (x : Text) : closeTagLength (a ++ c :: x) = closeTagLength a := by
  obtain ⟨u, rfl⟩ := startsWith_iff.mp h
  have hdrop : ∀ v : Text, ("?>".toList ++ v).drop 2 = v := fun _ => rfl
  rw [closeTagLength, closeTagLength, List.append_assoc, hdrop, hdrop, lineEndLength?_stop hc]

/-- A tag that a stop cuts short is not spelled out. -/
theorem openTagLength_stop {c : Char} (hc : c ∈ stops) (a x : Text) :
    openTagLength (a ++ c :: x) = openTagLength a := by
  have htag : lower ((a ++ c :: x).take 5) = "<?php".toList ↔ lower (a.take 5) = "<?php".toList := by
    by_cases hlen : 5 ≤ a.length
    · rw [List.take_append_of_le_length hlen]
    · have hc' : c.toLower ∉ "<?php".toList := by
        have hall : stops.all (fun d => decide (d.toLower ∉ "<?php".toList)) = true := rfl
        exact of_decide_eq_true (List.all_eq_true.mp hall c hc)
      constructor
      · intro h
        have hmem : c ∈ (a ++ c :: x).take 5 := by
          rw [List.take_append, List.mem_append]
          obtain ⟨k, hk⟩ : ∃ k, 5 - a.length = k + 1 := ⟨4 - a.length, by omega⟩
          exact Or.inr (by simp [hk])
        exact absurd (h ▸ List.mem_map_of_mem hmem) hc'
      · intro h
        have hl := congrArg List.length h
        have h5 : "<?php".toList.length = 5 := rfl
        rw [lower, List.length_map, List.length_take, h5] at hl
        omega
  unfold openTagLength
  rw [startsWith_stop (not_mem_of_stop hc rfl)]
  simp only [beq_iff_eq, htag]

/-! ## Comments -/

/-- A carriage return that goes with the line's end does not stand before the stop. -/
theorem length_lt_dropReturn {c : Char} (hc : c ≠ '\r') (a v : Text) :
    a.length < (dropReturn (a ++ c :: v)).length := by
  rcases dropTail_cases ['\r'] (a ++ c :: v) with h | ⟨h, -⟩
  · have hl := congrArg List.length h
    simp only [List.length_append, List.length_cons, List.length_nil] at hl
    cases v with
    | nil =>
      have hlast := congrArg List.getLast? h
      simp only [List.getLast?_concat, Option.some.injEq] at hlast
      exact absurd hlast hc
    | cons d v =>
      simp only [List.length_cons] at hl
      show _ < (dropTail ['\r'] _).length
      omega
  · rw [dropReturn, h]
    simp

theorem lineCommentLength_stop {c : Char} (hc : c ∈ stops) {a x : Text}
    (hle : lineCommentLength (a ++ c :: x) ≤ a.length) (y : Text) :
    lineCommentLength (a ++ c :: y) = lineCommentLength (a ++ c :: x) := by
  by_cases hn : '\n' ∈ a
  · -- the line ends before the stop
    have hline : ∀ v, (a ++ v).takeWhile (· != '\n') = a.takeWhile (· != '\n') := by
      intro v
      obtain ⟨l, r, rfl, hl⟩ := List.eq_append_cons_of_mem hn
      have hne : ∀ d ∈ l, (d != '\n') = true := fun d hd => by
        simpa using fun he : d = '\n' => hl (he ▸ hd)
      rw [List.append_assoc, List.cons_append, takeWhile_append_eq hne (by simp),
        takeWhile_append_eq hne (by simp)]
    simp only [lineCommentLength, hline]
  · have hne : ∀ d ∈ a, (d != '\n') = true := fun d hd => by
      simpa using fun he : d = '\n' => hn (he ▸ hd)
    have hnc : (c != '\n') = true := by
      simpa using eq_false_of_stop (· == '\n') hc rfl
    have hline : ∀ v, (a ++ c :: v).takeWhile (· != '\n') = a ++ c :: v.takeWhile (· != '\n') := by
      intro v
      rw [List.takeWhile_append_of_pos hne, List.takeWhile_cons, if_pos hnc]
    have htag : c ∉ "?>".toList := not_mem_of_stop hc rfl
    have hsplit := beforeFirst?_stop (by decide) htag a
    simp only [lineCommentLength, hline, hsplit] at hle ⊢
    cases hu : beforeFirst? "?>".toList a with
    | some body => rfl
    | none =>
      exfalso
      rw [hu, Option.none_or] at hle
      obtain ⟨v, hv⟩ : ∃ v, v = x.takeWhile (· != '\n') := ⟨_, rfl⟩
      rw [← hv] at hle
      cases hx : beforeFirst? "?>".toList (c :: v) with
      | some b =>
        have hno : startsWith (c :: v) "?>".toList = false := startsWith_stop htag [] v
        have hpos := (cuts_beforeFirst? hno).1
        rw [hx, Option.getD_some] at hpos
        rw [hx] at hle
        simp only [Option.map_some, List.length_append] at hle
        omega
      | none =>
        rw [hx] at hle
        exact absurd hle (by simpa using length_lt_dropReturn (by simpa using eq_false_of_stop (· == '\r') hc rfl) a v)

/-! ## Heredocs -/

/-- A piece without a stop, at the front of a text, stands before the stop. -/
theorem eq_append_of_append_eq {c : Char} {p rest a x : Text} (hp : c ∉ p) (h : p ++ rest = a ++ c :: x) :
    ∃ b, a = p ++ b ∧ rest = b ++ c :: x := by
  rcases List.append_eq_append_iff.mp h with ⟨b, rfl, hb⟩ | ⟨b, rfl, hb⟩
  · exact ⟨b, rfl, hb⟩
  · cases b with
    | nil => exact ⟨[], by simp, by simpa using hb.symm⟩
    | cons d b =>
      obtain ⟨rfl, -⟩ := List.cons.inj hb
      exact absurd (by simp) hp

/-- No part of an opener is a stop, so it stands before the stop. -/
theorem Opener.stop {c : Char} (hc : c ∈ stops) {a x : Text} {o : HeredocOpener} (h : Opener (a ++ c :: x) o) :
    o.length ≤ a.length ∧ (∀ d ∈ o.label, isNameChar d = true) ∧ ∀ y, Opener (a ++ c :: y) o := by
  generalize ht : a ++ c :: x = t at h
  obtain ⟨blanks, quote, label, lineEnd, rest, hblanks, hquote, hlabel, hname, hend⟩ := h
  have hp : c ∉ "<<<".toList ++ (blanks ++ (quote ++ (label ++ (quote ++ lineEnd)))) := by
    have hopen : c ∉ "<<<".toList := not_mem_of_stop hc rfl
    have hb : c ∉ blanks := fun hmem => absurd (hblanks c hmem) (by simp [eq_false_of_stop isIndent hc rfl])
    have hl : c ∉ label := fun hmem => absurd (hname c hmem) (by simp [eq_false_of_stop isNameChar hc rfl])
    have hq : c ∉ quote := by
      rcases hquote with rfl | rfl | rfl <;> exact not_mem_of_stop hc rfl
    have he : c ∉ lineEnd := by
      rcases hend with rfl | rfl <;> exact not_mem_of_stop hc rfl
    simp only [List.mem_append, not_or]
    exact ⟨hopen, hb, hq, hl, hq, he⟩
  have hfront : "<<<".toList ++ (blanks ++ (quote ++ (label ++ (quote ++ lineEnd)))) ++ rest = a ++ c :: x := by
    simpa using ht.symm
  obtain ⟨b, rfl, hb⟩ := eq_append_of_append_eq hp hfront
  have h3 : "<<<".toList.length = 3 := rfl
  refine ⟨?_, hname, fun y => ?_⟩
  · simp only [List.length_append, h3]
    omega
  · have := Opener.mk blanks quote label lineEnd (b ++ c :: y) hblanks hquote hlabel hname hend
    simpa using this

theorem heredocOpener?_stop {c : Char} (hc : c ∈ stops) {a : Text} (h3 : startsWith a "<<<".toList = true)
    (x y : Text) : heredocOpener? (a ++ c :: y) = heredocOpener? (a ++ c :: x) := by
  have hthree : ∀ v, startsWith (a ++ c :: v) "<<<".toList = true := by
    intro v
    rw [startsWith_stop (not_mem_of_stop hc rfl), h3]
  refine Option.ext fun o => ?_
  constructor
  · intro h
    exact heredocOpener?_of_opener ((opener_of_heredocOpener? (hthree y) h).stop hc |>.2.2 x)
  · intro h
    exact heredocOpener?_of_opener ((opener_of_heredocOpener? (hthree x) h).stop hc |>.2.2 y)

theorem heredocLength?_stop {c : Char} (hc : c ∈ stops) {a x : Text} (h3 : startsWith a "<<<".toList = true)
    (hle : ∀ n, heredocLength? (a ++ c :: x) = some n → n ≤ a.length) (y : Text) :
    heredocLength? (a ++ c :: y) = heredocLength? (a ++ c :: x) := by
  have hthree : startsWith (a ++ c :: x) "<<<".toList = true := by
    rw [startsWith_stop (not_mem_of_stop hc rfl), h3]
  unfold heredocLength? at hle ⊢
  rw [heredocOpener?_stop hc h3 x y]
  cases ho : heredocOpener? (a ++ c :: x) with
  | none => rfl
  | some o =>
    rw [ho] at hle
    have hlen := ((opener_of_heredocOpener? hthree ho).stop hc).1
    have hn := hle _ rfl
    simp only [List.drop_append_of_le_length hlen, Option.map_some] at hn ⊢
    have hle' : heredocBodyLength o.label (splitLines (a.drop o.length ++ c :: x)) ≤ (a.drop o.length).length := by
      rw [List.length_drop]
      omega
    rw [heredocBodyLength_shared hle' y]

/-! ## Lexemes -/

theorem plainLexeme_stop {c : Char} (hc : c ∈ stops) (previous : Option Text) (d : Char) (a x : Text) :
    plainLexeme previous d (a ++ c :: x) = plainLexeme previous d a := by
  unfold plainLexeme nameLength
  rw [takeWhile_stop (eq_false_of_stop isNameChar hc rfl), compoundLength?_stop hc]

theorem codeLexeme_stop {c : Char} (hc : c ∈ stops) {previous : Option Text} {d : Char} {a x : Text}
    (hle : (codeLexeme previous d (a ++ c :: x)).length ≤ (d :: a).length) (y : Text) :
    codeLexeme previous d (a ++ c :: y) = codeLexeme previous d (a ++ c :: x) := by
  have hmarks : ∀ mark ∈ marks, ∀ v, startsWith (d :: (a ++ c :: v)) mark = startsWith (d :: a) mark := by
    intro mark hmark v
    have hnone : ∀ m ∈ marks, stops.all (fun d => decide (d ∉ m)) = true := by decide
    exact startsWith_stop (not_mem_of_stop hc (hnone mark hmark)) (d :: a) v
  have hsame : ∀ mark ∈ marks, startsWith (d :: (a ++ c :: y)) mark = startsWith (d :: (a ++ c :: x)) mark :=
    fun mark hmark => (hmarks mark hmark y).trans (hmarks mark hmark x).symm
  have hhead := head?_append_cons a c y x
  obtain ⟨form, hbegins, hlex, hlex'⟩ := exists_form_of_alike hsame (fun _ => congrArg (Option.any isNameStart) hhead)
    (congrArg (Option.any Char.isDigit) hhead) previous previous
  rw [hlex] at hle ⊢
  rw [hlex']
  cases hbegins with
  | blanks =>
    have hrun : ∀ v, (d :: a ++ c :: v).takeWhile isCodeBlank = (d :: a).takeWhile isCodeBlank :=
      takeWhile_stop (eq_false_of_stop isCodeBlank hc rfl) (d :: a)
    exact congrArg (fun t => Lexeme.mk _ (List.length t)) ((hrun y).trans (hrun x).symm)
  | closeTag h =>
    have hlength := closeTagLength_stop hc ((hmarks "?>".toList (by simp [marks]) x).symm.trans h)
    exact congrArg (Lexeme.mk _) ((hlength y).trans (hlength x).symm)
  | attributeMark => rfl
  | lineComment => exact congrArg (Lexeme.mk _) (lineCommentLength_stop (a := d :: a) hc hle y)
  | blockComment =>
    obtain ⟨hlen, hlength⟩ := blockCommentLength_shared (a := d :: a) hle y
    rw [Form.lexeme, Form.lexeme, ← List.cons_append, ← List.cons_append, isDocComment_shared hlen (c :: x) (c :: y),
      hlength]
  | quoted => exact congrArg (Lexeme.mk _) (quotedLength_shared hle y)
  | angles h =>
    have hown := (hmarks "<<<".toList (by simp [marks]) x).symm.trans h
    have hreach : ∀ n, heredocLength? (d :: a ++ c :: x) = some n → n ≤ (d :: a).length := by
      intro n hn
      rw [List.cons_append] at hn
      rw [Form.lexeme, angleLexeme, hn] at hle
      exact hle
    rw [Form.lexeme, Form.lexeme, angleLexeme, angleLexeme, ← List.cons_append, ← List.cons_append,
      heredocLength?_stop hc hown hreach y, plainLexeme_stop hc, plainLexeme_stop hc]
  | var => rw [Form.lexeme, Form.lexeme, nameLength, nameLength, takeWhile_stop (eq_false_of_stop isNameChar hc rfl),
      takeWhile_stop (eq_false_of_stop isNameChar hc rfl)]
  | number => rw [Form.lexeme, Form.lexeme, numberLength, numberLength, ← List.cons_append, ← List.cons_append,
      numberLengthFrom_stop hc, numberLengthFrom_stop hc]
  | separator => rfl
  | plain => rw [Form.lexeme, Form.lexeme, ← List.cons_append, ← List.cons_append, plainLexeme_stop hc, plainLexeme_stop hc]

theorem htmlLexeme_stop {c : Char} (hc : c ∈ stops) {a x : Text}
    (hle : (htmlLexeme (a ++ c :: x)).length ≤ a.length) (y : Text) :
    htmlLexeme (a ++ c :: y) = htmlLexeme (a ++ c :: x) := by
  have hopen : c ∉ "<?".toList := not_mem_of_stop hc rfl
  simp only [htmlLexeme, startsWith_stop hopen, openTagLength_stop hc,
    beforeFirst?_stop (by decide) hopen] at hle ⊢
  by_cases hs : startsWith a "<?".toList = true
  · simp only [if_pos hs]
  · simp only [if_neg hs] at hle ⊢
    cases hu : beforeFirst? "<?".toList a with
    | some b => rfl
    | none =>
      exfalso
      rw [hu, Option.none_or] at hle
      cases hx : beforeFirst? "<?".toList (c :: x) with
      | some b =>
        have hno : startsWith (c :: x) "<?".toList = false := startsWith_stop hopen [] x
        have hpos := (cuts_beforeFirst? hno).1
        rw [hx, Option.getD_some] at hpos
        rw [hx] at hle
        simp only [Option.map_some, Option.getD_some, List.length_append] at hle
        omega
      | none =>
        rw [hx] at hle
        simp only [Option.map_none, Option.getD_none, List.length_append, List.length_cons] at hle
        omega

/-- A token that ends before a stop does not depend on what stands behind the stop. -/
theorem lexeme_stop {c : Char} (hc : c ∈ stops) {s : LexState} {d : Char} {a x : Text}
    (hle : (lexeme s d (a ++ c :: x)).length ≤ (d :: a).length) (y : Text) :
    lexeme s d (a ++ c :: y) = lexeme s d (a ++ c :: x) := by
  unfold lexeme at hle ⊢
  by_cases hs : s.inCode = true
  · rw [if_pos hs] at hle ⊢
    rw [if_pos hs, codeLexeme_stop hc hle y]
  · rw [if_neg hs] at hle ⊢
    rw [if_neg hs, ← List.cons_append, ← List.cons_append, htmlLexeme_stop hc hle y]

theorem codeLexeme_of_stop {c : Char} (hc : c ∈ stops) (previous : Option Text) (x : Text) :
    codeLexeme previous c x = ⟨.punct, 1⟩ := by
  simp only [stops, List.mem_cons, List.not_mem_nil, or_false] at hc
  rcases hc with rfl | rfl | rfl <;> rfl

/-! ## Runs over closed texts -/

/-- The state behind some tokens. -/
def LexState.afterAll (s : LexState) (ts : List Token) : LexState := ts.foldl LexState.next s

/-- The last token is a stop that stands for itself. -/
def EndsAtStop (ts : List Token) : Prop := ∃ us tok, ts = us ++ [tok] ∧ tok.kind = .punct ∧ ∃ c ∈ stops, tok.text = [c]

theorem EndsAtStop.cons {ts : List Token} (h : EndsAtStop ts) (tok : Token) : EndsAtStop (tok :: ts) := by
  obtain ⟨us, last, rfl, hlast⟩ := h
  exact ⟨tok :: us, last, rfl, hlast⟩

theorem inCode_of_punct {s : LexState} {c : Char} {r : Text} (h : (lexeme s c r).kind = .punct) :
    s.inCode = true := by
  cases hs : s.inCode with
  | true => rfl
  | false =>
    rw [lexeme, hs, if_neg Bool.false_ne_true, htmlLexeme] at h
    split at h <;> cases h

theorem nextToken_append {s : LexState} {d : Char} {r y : Text} (h : lexeme s d (r ++ y) = lexeme s d r) :
    nextToken s d (r ++ y) = nextToken s d r := by
  unfold nextToken
  rw [h, ← List.cons_append, List.take_append_of_le_length (lexeme_bounds s d r).2]

/-- A step whose token is the same with more text behind. -/
theorem Lexes.step_append {s : LexState} {d : Char} {r y : Text} {ts : List Token}
    (h : lexeme s d (r ++ y) = lexeme s d r)
    (rest : Lexes (s.next (nextToken s d r)) ((d :: r).drop (lexeme s d r).length ++ y) ts) :
    Lexes s (d :: (r ++ y)) (nextToken s d r :: ts) := by
  rw [← nextToken_append h]
  refine Lexes.step s d (r ++ y) ts ?_
  rw [nextToken_append h, h, ← List.cons_append, List.drop_append_of_le_length (lexeme_bounds s d r).2]
  exact rest

/-- A run that ends at a stop goes on, with more text behind the stop, as a run over that
    text would. -/
theorem Lexes.append {s : LexState} {t : Text} {ts : List Token} (h : Lexes s t ts) (hends : EndsAtStop ts)
    {y : Text} {us : List Token} (hy : Lexes (s.afterAll ts) y us) : Lexes s (t ++ y) (ts ++ us) := by
  induction h with
  | done s =>
    obtain ⟨before, tok, hnil, -⟩ := hends
    simp at hnil
  | step s d r ts rest ih =>
    obtain ⟨before, tok, hts, hpunct, c, hc, htext⟩ := hends
    have htake : (nextToken s d r).text = (d :: r).take (lexeme s d r).length := rfl
    have hsplit := List.take_append_drop (lexeme s d r).length (d :: r)
    cases before with
    | nil =>
      -- the stop is all there is
      obtain ⟨rfl, rfl⟩ := List.cons.inj hts
      have hdrop : (d :: r).drop (lexeme s d r).length = [] := rest.textOf_eq.symm
      rw [← htake, hdrop, htext, List.append_nil] at hsplit
      obtain ⟨rfl, rfl⟩ := List.cons.inj hsplit
      have hcode : s.inCode = true := inCode_of_punct hpunct
      have hlex : ∀ v, lexeme s c v = ⟨.punct, 1⟩ := by
        intro v
        rw [lexeme, if_pos hcode, codeLexeme_of_stop hc]
      refine Lexes.step_append ((hlex _).trans (hlex _).symm) ?_
      rw [hdrop]
      exact hy
    | cons first before =>
      obtain ⟨-, rfl⟩ := List.cons.inj hts
      have hends' : EndsAtStop (before ++ [tok]) := ⟨before, tok, rfl, hpunct, c, hc, htext⟩
      have hrest : (d :: r).drop (lexeme s d r).length = textOf before ++ [c] := by
        rw [← rest.textOf_eq]
        simp [textOf, htext]
      obtain ⟨a, rfl, hlen⟩ : ∃ a, r = a ++ [c] ∧ (lexeme s d r).length ≤ (d :: a).length := by
        obtain ⟨hpos, hle⟩ := lexeme_bounds s d r
        obtain ⟨k, hk⟩ : ∃ k, (lexeme s d r).length = k + 1 := ⟨_, (Nat.succ_pred_eq_of_pos hpos).symm⟩
        rw [hrest, hk, List.take_succ_cons, List.cons_append, List.cons.injEq] at hsplit
        refine ⟨r.take k ++ textOf before, ?_, ?_⟩
        · rw [List.append_assoc]
          exact hsplit.2.symm
        · rw [hk, List.length_cons] at hle
          rw [hk, List.length_cons, List.length_append, List.length_take]
          omega
      refine Lexes.step_append ?_ (ih hends' hy)
      rw [List.append_assoc]
      exact lexeme_stop hc hlen y

/-! ## What a run does not depend on -/

/-- Two states from which words are sorted alike. -/
def LexState.Alike (s s' : LexState) : Prop :=
  s.inCode = s'.inCode ∧ s.previous.any nameOperators.contains = s'.previous.any nameOperators.contains

theorem lexeme_alike {s s' : LexState} (h : s.Alike s') (c : Char) (r : Text) : lexeme s c r = lexeme s' c r := by
  have hplain : ∀ t, plainLexeme s.previous c t = plainLexeme s'.previous c t := by
    intro t
    simp only [plainLexeme, Kind.ofWord, h.2]
  rw [lexeme, lexeme, h.1, codeLexeme_congr hplain]

/-- A token without its line. -/
def bare (tok : Token) : Kind × Text := (tok.kind, tok.text)

theorem LexState.Alike.next {s s' : LexState} (h : s.Alike s') {tok tok' : Token} (hb : tok.bare = tok'.bare) :
    (s.next tok).Alike (s'.next tok') := by
  obtain ⟨hk, ht⟩ := Prod.mk.inj hb
  refine ⟨?_, ?_⟩
  · simp only [LexState.next, hk, h.1]
  · simp only [LexState.next, hk, ht]
    split
    · exact h.2
    · rfl

/-- From alike states the runs over a text differ in nothing but lines. -/
theorem Lexes.alike {s s' : LexState} {t : Text} {ts ts' : List Token} (h : Lexes s t ts) (h' : Lexes s' t ts')
    (ha : s.Alike s') : ts.map bare = ts'.map bare := by
  induction h generalizing s' ts' with
  | done s =>
    cases h'
    rfl
  | step s c r ts _ ih =>
    cases h' with
    | step _ _ _ ts' rest' =>
      have hlex := lexeme_alike ha c r
      have hb : (nextToken s c r).bare = (nextToken s' c r).bare := by
        simp only [bare, nextToken, hlex]
      rw [← hlex] at rest'
      rw [List.map_cons, List.map_cons, hb, ih rest' (ha.next hb)]

end ClassOutline.Token
