import ClassOutline.Proofs.Lexing.Modes
import ClassOutline.Proofs.Plain.Overlay
/-
  ClassOutline.Proofs.Plain.Comments — comments of plain sources.

  Both lexers take the same characters for a comment, but for a line end that goes with it
  (`comment_spec`): in the reader of plain sources a question mark takes the character behind
  it along, also a line break. Where the lexers differ is seen from the token (`isCommon`).
-/

namespace ClassOutline.Plain

open ClassOutline.Text ClassOutline.Tree ClassOutline.Discovery

/-- Whether a token is none of what the lexers read differently: a closing tag, a line comment
    with a return or one that begins as `#?`, or a word with a blank above ASCII or a letter
    that folds to one of ASCII. -/
def isCommon (tok : ClassOutline.Token) : Bool :=
  match tok.kind with
  | .closeTag => false
  | .comment => startsWith tok.text "/*".toList || (tok.text.all (· != '\r') && !startsWith tok.text "#?".toList)
  | .identifier | .keyword | .classKeyword | .namespaceKeyword | .var =>
    tok.text.all fun c => !Scan.isSeparator c && Scan.foldCase c == c.toLower
  | _ => true

variable {c : Char} {r t : Text} {n : Nat} {previous : Option Text}

/-! ## Comments -/

theorem lineCommentTail_pair {d : Char} (hd : d ≠ '>' ∧ d ≠ '\n' ∧ d ≠ '\r') (r : Text) :
    Scan.lineCommentTail ('?' :: d :: r) = Scan.lineCommentTail r + 2 := by
  rw [Scan.lineCommentTail]
  · exact hd.1
  · exact hd.2.1
  · exact fun u hr _ => hd.2.2 hr
  · exact hd.2.2

theorem lineCommentTail_char {c : Char} (hc : c ≠ '?') (hbreak : Scan.isLineBreak c = false) (r : Text) :
    Scan.lineCommentTail (c :: r) = Scan.lineCommentTail r + 1 := by
  rw [Scan.lineCommentTail]
  · rw [hbreak]
    rfl
  all_goals
    intros
    exact absurd ‹c = '?'› hc

theorem getLast?_tail {p : Prop} {b c : Char} {u : Text} (h : p → (c :: u).getLast? ≠ some b) :
    p → u.getLast? ≠ some b := by
  intro hp hu
  refine h hp ?_
  rw [List.getLast?_cons, hu]
  rfl

/-- A line comment without closing tags ends where its line does, or behind the line end if a
    question mark stands before it. -/
theorem lineCommentTail_append {body rest : Text} (hbreak : ∀ d ∈ body, Scan.isLineBreak d = false)
    (hclose : ¬ "?>".toList <:+: body) (hrest : rest = [] ∨ (∃ u, rest = '\n' :: u) ∨ ∃ u, rest = '\r' :: '\n' :: u)
    (hlast : rest = [] → body.getLast? ≠ some '?') :
    ∃ b rest', (∀ d ∈ b, isCodeBlank d = true) ∧ rest = b ++ rest' ∧
      Scan.lineCommentTail (body ++ rest) = body.length + b.length := by
  -- on the length, since a question mark takes two characters at once
  induction hlength : body.length using Nat.strong_induction_on generalizing body with
  | _ length ih =>
  subst hlength
  rcases body with _ | ⟨c, body⟩
  · refine ⟨[], rest, by simp, rfl, ?_⟩
    rcases hrest with rfl | ⟨u, rfl⟩ | ⟨u, rfl⟩ <;> rfl
  obtain ⟨hbreak, hbody⟩ := List.forall_mem_cons.mp hbreak
  by_cases hc : c = '?'
  · subst hc
    rcases body with _ | ⟨d, body⟩
    · rcases hrest with rfl | ⟨u, rfl⟩ | ⟨u, rfl⟩
      · exact absurd rfl (hlast rfl)
      · exact ⟨['\n'], u, List.all_eq_true.mp rfl, rfl, rfl⟩
      · exact ⟨['\r', '\n'], u, List.all_eq_true.mp rfl, rfl, rfl⟩
    · obtain ⟨hd, hbody⟩ := List.forall_mem_cons.mp hbody
      have hne : d ≠ '>' ∧ d ≠ '\n' ∧ d ≠ '\r' := by
        refine ⟨fun he => hclose ⟨[], body, by rw [he]; rfl⟩, ?_, ?_⟩ <;>
        · intro he
          rw [he] at hd
          cases hd
      obtain ⟨b, rest', hb, hsplit, htail⟩ := ih body.length (by simp only [List.length_cons]; omega) hbody
        (fun hin => hclose (hin.trans ⟨['?', d], [], by simp⟩)) (getLast?_tail (getLast?_tail hlast)) rfl
      refine ⟨b, rest', hb, hsplit, ?_⟩
      rw [List.cons_append, List.cons_append, lineCommentTail_pair hne, htail, List.length_cons, List.length_cons]
      omega
  · obtain ⟨b, rest', hb, hsplit, htail⟩ := ih body.length (by simp) hbody
      (fun hin => hclose (hin.trans ⟨[c], [], by simp⟩)) (getLast?_tail hlast) rfl
    refine ⟨b, rest', hb, hsplit, ?_⟩
    rw [List.cons_append, lineCommentTail_char hc hbreak, htail, List.length_cons]
    omega

/-- A line comment that no closing tag follows is its line but for the line end. -/
theorem lineComment_split (hnext : startsWith (t.drop (Token.lineCommentLength t)) "?>".toList = false)
    (hlast : t.getLast? ≠ some '\r') :
    ∃ text rest, t = text ++ rest ∧ Token.lineCommentLength t = text.length ∧ '\n' ∉ text ∧ ¬ "?>".toList <:+: text ∧
      (rest = [] ∨ (∃ u, rest = '\n' :: u) ∨ ∃ u, rest = '\r' :: '\n' :: u) := by
  have hsplit : t.takeWhile (· != '\n') ++ t.dropWhile (· != '\n') = t := List.takeWhile_append_dropWhile
  have hnewline : '\n' ∉ t.takeWhile (· != '\n') := fun hmem => by simpa using List.mem_takeWhile_imp hmem
  have hafter : t.dropWhile (· != '\n') = [] ∨ ∃ u, t.dropWhile (· != '\n') = '\n' :: u := by
    cases hdrop : t.dropWhile (· != '\n') with
    | nil => exact Or.inl rfl
    | cons c u =>
      have := List.head?_dropWhile_not (· != '\n') t
      rw [hdrop] at this
      exact Or.inr ⟨u, by simpa using this⟩
  unfold Token.lineCommentLength at hnext ⊢
  dsimp only at hnext ⊢
  generalize t.takeWhile (· != '\n') = line at *
  generalize t.dropWhile (· != '\n') = after at *
  subst hsplit
  cases hbody : beforeFirst? "?>".toList line with
  | some body =>
    obtain ⟨u, rfl⟩ := eq_append_of_beforeFirst? hbody
    rw [hbody] at hnext
    dsimp only at hnext
    rw [List.append_assoc, List.drop_left' rfl, List.append_assoc, startsWith_iff.mpr ⟨_, rfl⟩] at hnext
    cases hnext
  | none =>
    dsimp only
    have hclose := not_infix_of_beforeFirst?_eq_none hbody
    rcases dropTail_cases ['\r'] line with hdrop | ⟨hdrop, -⟩
    · have hline : line = dropReturn line ++ ['\r'] := hdrop
      have hbegins : dropReturn line <+: line := ⟨_, hline.symm⟩
      refine ⟨dropReturn line, '\r' :: after, ?_, rfl, fun hmem => hnewline (hbegins.subset hmem),
        fun hin => hclose (hin.trans hbegins.isInfix), ?_⟩
      · conv_lhs => rw [hline]
        simp
      · rcases hafter with rfl | ⟨u, rfl⟩
        · rw [List.append_nil, hline] at hlast
          simp at hlast
        · exact Or.inr (Or.inr ⟨u, rfl⟩)
    · exact ⟨line, after, rfl, by rw [dropReturn, hdrop], hnewline, hclose, hafter.imp_right Or.inl⟩

/-- What a comment of a plain source comes to: a comment of the lexer, and a line end perhaps. -/
structure IsComment (previous : Option Text) (c : Char) (r : Text) (n : Nat) : Prop where
  kind : (Token.codeLexeme previous c r).kind = .comment ∨ (Token.codeLexeme previous c r).kind = .docComment
  ends : ∃ text b rest, c :: r = text ++ (b ++ rest) ∧ (∀ d ∈ b, isCodeBlank d = true) ∧
    (Token.codeLexeme previous c r).length = text.length ∧ n = text.length + b.length

/-- The token at the head of a text of code. -/
def tokenAt (previous : Option Text) (line : Nat) (c : Char) (r : Text) : ClassOutline.Token :=
  ⟨(Token.codeLexeme previous c r).kind, (c :: r).take (Token.codeLexeme previous c r).length, line⟩

/-- What begins a line comment stands before its body. -/
theorem exists_body {head text rest r' : Text} (hhead : ∀ d ∈ head, d ≠ '\n' ∧ d ≠ '\r')
    (hsplit : text ++ rest = head ++ r')
    (hrest : rest = [] ∨ (∃ u, rest = '\n' :: u) ∨ ∃ u, rest = '\r' :: '\n' :: u) :
    ∃ body, text = head ++ body ∧ r' = body ++ rest := by
  rcases List.append_eq_append_iff.mp hsplit with ⟨a, rfl, rfl⟩ | ⟨body, rfl, rfl⟩
  · cases a with
    | nil => exact ⟨[], by simp, rfl⟩
    | cons d a =>
      have hd := hhead d (by simp)
      rcases hrest with h | ⟨u, h⟩ | ⟨u, h⟩
      · cases h
      · exact absurd (List.cons.inj h).1 hd.1
      · exact absurd (List.cons.inj h).1 hd.2
  · exact ⟨body, rfl, rfl⟩

/-- A line comment is read to its end. -/
theorem isComment_of_line (head : Text) {r' : Text} {line : Nat} (ht : c :: r = head ++ r')
    (hmark : head = ['#'] ∨ head = ['/', '/'])
    (hlexeme : Token.codeLexeme previous c r = ⟨.comment, Token.lineCommentLength (c :: r)⟩)
    (hn : (head = ['#'] → r'.head? ≠ some '?') → n = head.length + Scan.lineCommentTail r')
    (hcommon : isCommon (tokenAt previous line c r) = true)
    (hnext : startsWith ((c :: r).drop (Token.codeLexeme previous c r).length) "?>".toList = false)
    (hlast : (c :: r).getLast? ≠ some '?' ∧ (c :: r).getLast? ≠ some '\r') : IsComment previous c r n := by
  refine ⟨Or.inl (by rw [hlexeme]), ?_⟩
  rw [tokenAt, hlexeme] at hcommon
  rw [hlexeme] at hnext ⊢
  obtain ⟨text, rest, hsplit, hlength, hnewline, hclose, hrest⟩ := lineComment_split hnext hlast.2
  dsimp only at hcommon
  rw [hlength, hsplit, List.take_left' rfl] at hcommon
  have hplain : ∀ d ∈ head, d ≠ '\n' ∧ d ≠ '\r' := by rcases hmark with rfl | rfl <;> simp
  obtain ⟨body, rfl, rfl⟩ := exists_body hplain (hsplit.symm.trans ht) hrest
  have hblock : startsWith (head ++ body) "/*".toList = false := by rcases hmark with rfl | rfl <;> rfl
  rw [isCommon, hblock, Bool.false_or, Bool.and_eq_true, List.all_eq_true, Bool.not_eq_true'] at hcommon
  obtain ⟨hreturn, hquestion⟩ := hcommon
  have hbreak : ∀ d ∈ body, Scan.isLineBreak d = false := by
    intro d hd
    have hne : d ≠ '\n' := fun he => hnewline (by rw [← he]; exact List.mem_append_right _ hd)
    rw [Scan.isLineBreak, beq_false_of_ne hne, beq_false_of_ne (bne_iff_ne.mp (hreturn d (List.mem_append_right _ hd)))]
    rfl
  have hend : rest = [] → body.getLast? ≠ some '?' := by
    rintro rfl hbody
    refine hlast.1 ?_
    rw [hsplit, List.append_nil, List.getLast?_append, hbody]
    rfl
  have hmarked : head = ['#'] → (body ++ rest).head? ≠ some '?' := by
    rintro rfl hhead
    cases body with
    | nil => rcases hrest with rfl | ⟨u, rfl⟩ | ⟨u, rfl⟩ <;> cases hhead
    | cons d body =>
      cases hhead
      cases hquestion
  obtain ⟨b, rest', hb, rfl, htail⟩ :=
    lineCommentTail_append hbreak (fun hin => hclose (hin.trans ⟨head, [], by simp⟩)) hrest hend
  refine ⟨head ++ body, b, rest', hsplit, hb, hlength, ?_⟩
  rw [hn hmarked, htail, List.length_append, Nat.add_assoc]

/-- A comment of a plain source is one of the lexer. -/
theorem comment_spec {line : Nat} (h : plainComment? (c :: r) = some n)
    (hcommon : isCommon (tokenAt previous line c r) = true)
    (hnext : startsWith ((c :: r).drop (Token.codeLexeme previous c r).length) "?>".toList = false)
    (hlast : (c :: r).getLast? ≠ some '?' ∧ (c :: r).getLast? ≠ some '\r') : IsComment previous c r n := by
  unfold plainComment? at h
  split at h
  · cases h
  rename_i hbracket
  unfold Scan.commentLength? at h
  split at h
  · rename_i u he
    cases he
    cases h
    exact isComment_of_line ['/', '/'] rfl (Or.inr rfl) rfl (fun _ => rfl) hcommon hnext hlast
  · rename_i u he
    cases he
    obtain ⟨body, hbody, rfl⟩ := Option.map_eq_some_iff.mp h
    obtain ⟨x, hx⟩ := eq_append_of_beforeFirst? hbody
    have hlexeme : Token.codeLexeme previous '/' ('*' :: u) =
        ⟨if Token.isDocComment ('/' :: '*' :: u) then .docComment else .comment, Token.blockCommentLength ('/' :: '*' :: u)⟩ := rfl
    have hlength : Token.blockCommentLength ('/' :: '*' :: u) = body.length + 4 := by
      rw [Token.blockCommentLength, List.drop_succ_cons, List.drop_succ_cons, List.drop_zero, hbody]
    refine ⟨?_, '/' :: '*' :: (body ++ "*/".toList), [], x, by rw [hx]; simp, by simp, ?_, by simp⟩
    · rw [hlexeme]
      dsimp only
      split
      · exact Or.inr rfl
      · exact Or.inl rfl
    · rw [hlexeme, hlength]
      simp
  · rename_i d u he
    cases he
    have hd : d ≠ '[' := fun he => hbracket u (by rw [he])
    have hattr : startsWith ('#' :: d :: u) "#[".toList = false := by simp [startsWith, List.isPrefixOf, hd.symm]
    have hlexeme : Token.codeLexeme previous '#' (d :: u) = ⟨.comment, Token.lineCommentLength ('#' :: d :: u)⟩ := by
      rw [Token.codeLexeme_eq, Token.Form.of, if_neg (by decide), if_neg (by simp [startsWith, List.isPrefixOf]),
        if_neg (by rw [hattr]; decide), if_pos (by rfl)]
      rfl
    refine isComment_of_line ['#'] rfl (Or.inl rfl) hlexeme (fun hne => ?_) hcommon hnext hlast
    have hq : d ≠ '?' := fun he => hne rfl (by rw [he]; rfl)
    rw [beq_false_of_ne hq, beq_false_of_ne hd, Bool.false_or, Bool.false_or] at h
    split at h
    · rename_i hbreak
      cases h
      rcases Bool.or_eq_true_iff.mp hbreak with he | he <;> · rw [beq_iff_eq.mp he]; rfl
    · rename_i hbreak
      cases h
      rw [lineCommentTail_char hq (by simpa using hbreak), List.length_singleton]
      omega
  · rename_i he
    cases he
    cases h
    exact isComment_of_line ['#'] rfl (Or.inl rfl) rfl (fun _ => rfl) hcommon hnext hlast
  · cases h

end ClassOutline.Plain
