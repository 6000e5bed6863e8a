import ClassOutline.Proofs.Bodies
import ClassOutline.Proofs.Lexing.Stops
/-
  ClassOutline.Proofs.Lexing.Heredocs — where a heredoc ends.

  The lexer reads an opener and then goes over the lines behind it. Said of the whole text: a
  line closes a heredoc if it holds blanks, the label and no name character behind it, and the
  heredoc ends with the label of the first line that closes it, or with the text if there is
  none (`EndsHeredoc`). The opener holds one newline, its last character, so every line but the
  first is a line behind it (`Opener.length_eq`), and no line of the text is left out or looked
  at twice.

  The lines are gone through by induction on the text. A line that closes nothing moves all
  that follows it by its length (`EndsHeredoc.shift`).

  The lengths are in characters. The same holds of the bytes of a text, and there the end is
  where the last of these characters ends (`heredoc_end`).
-/

namespace ClassOutline.Token

open ClassOutline.Text

/-- A line behind the first begins at `p`, and the label closes it: blanks, the label, which
    ends at `n`, and no name character behind. -/
inductive ClosingLine (label : Text) : Text → Nat → Nat → Prop
  | mk (before margin behind : Text) (hmargin : ∀ c ∈ margin, isIndent c = true)
      (hbehind : behind.head?.any isNameChar = false) :
      ClosingLine label (before ++ '\n' :: (margin ++ (label ++ behind))) (before.length + 1)
        (before.length + 1 + margin.length + label.length)

/-- `n` is where the label ends on the first line it closes, or the whole length if it closes
    none. -/
def EndsHeredoc (label t : Text) (n : Nat) : Prop :=
  (∃ p, ClosingLine label t p n ∧ ∀ q < p, ∀ m, ¬ ClosingLine label t q m) ∨
    (∀ p m, ¬ ClosingLine label t p m) ∧ n = t.length

/-- There is no length without an opener, and with one it is the place where the heredoc ends. -/
structure IsHeredocLength (t : Text) (r : Option Nat) : Prop where
  none_iff : r = none ↔ ∀ o, ¬ Opener t o
  ends : ∀ o, Opener t o → ∃ n, r = some n ∧ EndsHeredoc o.label t n

/-! ## Openers -/

theorem heredocOpener?_eq_some_iff {t : Text} (h3 : startsWith t "<<<".toList = true) {o : HeredocOpener} :
    heredocOpener? t = some o ↔ Opener t o :=
  ⟨opener_of_heredocOpener? h3, heredocOpener?_of_opener⟩

theorem Opener.newline_mem {t : Text} {o : HeredocOpener} (h : Opener t o) : '\n' ∈ t := by
  obtain ⟨blanks, quote, label, lineEnd, rest, -, -, -, -, hend⟩ := h
  have hnewline : '\n' ∈ lineEnd := by rcases hend with rfl | rfl <;> decide
  simp [hnewline]

/-- An opener ends with its line. -/
theorem Opener.length_eq {m x : Text} {o : HeredocOpener} (h : Opener (m ++ '\n' :: x) o) (hm : '\n' ∉ m) :
    o.length = m.length + 1 ∧ o.label ≠ [] ∧ ∀ c ∈ o.label, isNameChar c = true := by
  generalize ht : m ++ '\n' :: x = t at h
  obtain ⟨blanks, quote, label, lineEnd, rest, hblanks, hquote, hlabel, hname, hend⟩ := h
  obtain ⟨e, rfl, he⟩ : ∃ e : Text, lineEnd = e ++ ['\n'] ∧ '\n' ∉ e := by
    rcases hend with rfl | rfl
    · exact ⟨[], rfl, by simp⟩
    · exact ⟨['\r'], rfl, by decide⟩
  have hfront : '\n' ∉ "<<<".toList ++ (blanks ++ (quote ++ (label ++ (quote ++ e)))) := by
    have hb : '\n' ∉ blanks := fun hmem => by cases hblanks _ hmem
    have hl : '\n' ∉ label := fun hmem => by cases hname _ hmem
    have hq : '\n' ∉ quote := by rcases hquote with rfl | rfl | rfl <;> decide
    simp only [List.mem_append, not_or]
    exact ⟨by decide, hb, hq, hl, hq, he⟩
  have hsplit : "<<<".toList ++ (blanks ++ (quote ++ (label ++ (quote ++ e)))) ++ '\n' :: rest = m ++ '\n' :: x := by
    simpa using ht.symm
  have hmeq : m = "<<<".toList ++ (blanks ++ (quote ++ (label ++ (quote ++ e)))) := by
    have hlines := congrArg splitLines hsplit
    rw [splitLines_line_append hfront, splitLines_line_append hm] at hlines
    exact (List.cons.inj hlines).1.symm
  refine ⟨?_, hlabel, hname⟩
  have h3 : "<<<".toList.length = 3 := rfl
  rw [hmeq]
  simp only [List.length_append, List.length_cons, List.length_nil, h3]
  omega

/-! ## Newlines -/

/-- A newline in two texts that one stands between is that one or in the second, or else it is
    in the first. -/
theorem newline_append_cases {before w a u : Text} (h : a ++ '\n' :: u = before ++ '\n' :: w) :
    (∃ b, before = a ++ b ∧ '\n' :: u = b ++ '\n' :: w) ∨ ∃ b, a = before ++ '\n' :: b ∧ w = b ++ '\n' :: u := by
  rcases List.append_eq_append_iff.mp h with ⟨b, rfl, hb⟩ | ⟨b, rfl, hb⟩
  · exact .inl ⟨b, rfl, hb⟩
  · cases b with
    | nil => exact .inl ⟨[], by simp, hb.symm⟩
    | cons d b =>
      obtain ⟨rfl, hw⟩ := List.cons.inj hb
      exact .inr ⟨b, rfl, hw⟩

/-- A newline in front of a line is the only one. -/
theorem eq_of_newline_append {l before w : Text} (hl : '\n' ∉ l) (h : '\n' :: l = before ++ '\n' :: w) : w = l := by
  cases before with
  | nil => exact (List.cons.inj h).2.symm
  | cons d before =>
    refine absurd ?_ hl
    rw [(List.cons.inj h).2]
    simp

/-! ## Closing lines -/

theorem closingLength?_margin {margin : Text} (hm : ∀ c ∈ margin, isIndent c = true) (label line : Text) :
    closingLength? label (margin ++ line) = (closingLength? label line).map (margin.length + ·) := by
  have hrun : ((margin ++ line).takeWhile isIndent).length = margin.length + (line.takeWhile isIndent).length := by
    rw [List.takeWhile_append_of_pos hm, List.length_append]
  unfold closingLength?
  simp only [hrun, List.drop_length_add_append]
  cases after? label (line.drop (line.takeWhile isIndent).length) with
  | none => rfl
  | some r =>
    dsimp only
    split
    · rfl
    · rw [Option.map_some, Nat.add_assoc]

theorem eq_append_of_closingLength? {label line : Text} {n : Nat} (h : closingLength? label line = some n) :
    ∃ margin rest, line = margin ++ (label ++ rest) ∧ (∀ c ∈ margin, isIndent c = true) ∧
      n = margin.length + label.length := by
  unfold closingLength? at h
  dsimp only at h
  split at h
  · rename_i rest hrest
    split at h
    · cases h
    · refine ⟨line.takeWhile isIndent, rest, ?_, fun c hc => List.mem_takeWhile_imp hc, (Option.some.inj h).symm⟩
      rw [← after?_eq_some_iff.mp hrest, drop_takeWhile, List.takeWhile_append_dropWhile]
  · cases h

section

variable {label : Text} (hne : label ≠ []) (hname : ∀ c ∈ label, isNameChar c = true)

include hne hname

theorem closingLength?_append {margin : Text} (hm : ∀ c ∈ margin, isIndent c = true) (rest : Text) :
    closingLength? label (margin ++ (label ++ rest)) =
      if rest.head?.any isNameChar then none else some (margin.length + label.length) := by
  obtain ⟨c, l, rfl⟩ := List.exists_cons_of_ne_nil hne
  have hrun : (c :: l ++ rest).takeWhile isIndent = [] :=
    List.takeWhile_cons_of_neg (by simp [not_isIndent_of_isNameChar (hname c (by simp))])
  have hafter : after? (c :: l) (c :: l ++ rest) = some rest := after?_eq_some_iff.mpr rfl
  rw [closingLength?_margin hm, closingLength?]
  simp only [hrun, List.length_nil, List.drop_zero, hafter, Nat.zero_add]
  split <;> rfl

theorem closingLength?_eq_some_iff {w : Text} {k : Nat} :
    closingLength? label w = some k ↔
      ∃ margin behind, w = margin ++ (label ++ behind) ∧ (∀ c ∈ margin, isIndent c = true) ∧
        behind.head?.any isNameChar = false ∧ k = margin.length + label.length := by
  constructor
  · intro h
    obtain ⟨margin, behind, rfl, hmargin, rfl⟩ := eq_append_of_closingLength? h
    refine ⟨margin, behind, rfl, hmargin, ?_, rfl⟩
    rw [closingLength?_append hne hname hmargin] at h
    split at h
    · cases h
    · rename_i hbehind
      exact Bool.not_eq_true _ ▸ hbehind
  · rintro ⟨margin, behind, rfl, hmargin, hbehind, rfl⟩
    rw [closingLength?_append hne hname hmargin, hbehind, if_neg Bool.false_ne_true]

/-- Closing lines are those the lexer takes for one, when it looks at all that follows. -/
theorem closingLine_iff {t : Text} {p n : Nat} :
    ClosingLine label t p n ↔
      ∃ before w k, t = before ++ '\n' :: w ∧ closingLength? label w = some k ∧
        p = before.length + 1 ∧ n = before.length + 1 + k := by
  constructor
  · rintro ⟨before, margin, behind, hmargin, hbehind⟩
    refine ⟨before, _, _, rfl, ?_, rfl, Nat.add_assoc ..⟩
    exact (closingLength?_eq_some_iff hne hname).mpr ⟨margin, behind, rfl, hmargin, hbehind, rfl⟩
  · rintro ⟨before, w, k, rfl, hk, rfl, rfl⟩
    obtain ⟨margin, behind, rfl, hmargin, hbehind, rfl⟩ := (closingLength?_eq_some_iff hne hname).mp hk
    rw [← Nat.add_assoc]
    exact .mk before margin behind hmargin hbehind

omit hne in
/-- Whether a line closes does not depend on what follows it. -/
theorem closingLength?_line (l r : Text) : closingLength? label (l ++ '\n' :: r) = closingLength? label l := by
  have hmem : '\n' ∉ label := fun h => by cases hname _ h
  have hle := length_takeWhile_le isIndent l
  simp only [closingLength?, takeWhile_stop (show isIndent '\n' = false from rfl),
    List.drop_append_of_le_length hle, after?_stop hmem]
  cases after? label (l.drop (l.takeWhile isIndent).length) with
  | none => rfl
  | some rest => cases rest <;> rfl

/-- A text in front of a newline in which no line begins that closes: the closing lines are those
    from the newline on, moved by the text's length. -/
theorem closingLine_append_iff {a u : Text}
    (hopen : ∀ before w, a = before ++ '\n' :: w → closingLength? label w = none) {p n : Nat} :
    ClosingLine label (a ++ '\n' :: u) p n ↔
      ∃ q m, ClosingLine label ('\n' :: u) q m ∧ p = a.length + q ∧ n = a.length + m := by
  simp only [closingLine_iff hne hname]
  constructor
  · rintro ⟨before, w, k, heq, hk, rfl, rfl⟩
    rcases newline_append_cases heq with ⟨b, rfl, hb⟩ | ⟨b, rfl, rfl⟩
    · refine ⟨b.length + 1, b.length + 1 + k, ⟨b, w, k, hb, hk, rfl, rfl⟩, ?_, ?_⟩ <;> rw [List.length_append] <;> omega
    · rw [closingLength?_line hname, hopen before b rfl] at hk
      cases hk
  · rintro ⟨_, _, ⟨b, w, k, heq, hk, rfl, rfl⟩, rfl, rfl⟩
    refine ⟨a ++ b, w, k, by rw [heq, List.append_assoc], hk, ?_, ?_⟩ <;> rw [List.length_append] <;> omega

/-- Lines that close nothing move the end behind them by their length. -/
theorem EndsHeredoc.shift {a u : Text} {n : Nat} (h : EndsHeredoc label ('\n' :: u) n)
    (hopen : ∀ before w, a = before ++ '\n' :: w → closingLength? label w = none) :
    EndsHeredoc label (a ++ '\n' :: u) (a.length + n) := by
  rcases h with ⟨p, hp, hfirst⟩ | ⟨hnone, rfl⟩
  · refine .inl ⟨a.length + p, (closingLine_append_iff hne hname hopen).mpr ⟨p, n, hp, rfl, rfl⟩, ?_⟩
    intro q hq m hm
    obtain ⟨q', m', hm', rfl, rfl⟩ := (closingLine_append_iff hne hname hopen).mp hm
    exact hfirst q' (by omega) m' hm'
  · refine .inr ⟨fun p m hm => ?_, List.length_append.symm⟩
    obtain ⟨q, m, hm, -, -⟩ := (closingLine_append_iff hne hname hopen).mp hm
    exact hnone q m hm

theorem endsHeredoc_of_closing {w : Text} {k : Nat} (h : closingLength? label w = some k) :
    EndsHeredoc label ('\n' :: w) (1 + k) := by
  refine .inl ⟨1, (closingLine_iff hne hname).mpr ⟨[], w, k, rfl, h, rfl, rfl⟩, fun q hq m hm => ?_⟩
  obtain ⟨before, _, _, -, -, rfl, -⟩ := (closingLine_iff hne hname).mp hm
  omega

/-- Line by line, the lexer gets to the end of the heredoc. -/
theorem endsHeredoc_lines (x : Text) : EndsHeredoc label ('\n' :: x) (1 + heredocBodyLength label (splitLines x)) := by
  induction x using text_induction with
  | line l hl =>
    rw [splitLines_of_not_mem hl]
    cases hk : closingLength? label l with
    | some k =>
      rw [heredocBodyLength_of_closing hk]
      exact endsHeredoc_of_closing hne hname hk
    | none =>
      rw [heredocBodyLength, hk, Option.getD_none]
      refine .inr ⟨fun p m hm => ?_, Nat.add_comm ..⟩
      obtain ⟨before, w, k, heq, hw, -, -⟩ := (closingLine_iff hne hname).mp hm
      rw [eq_of_newline_append hl heq, hk] at hw
      cases hw
  | more l r hl ih =>
    rw [splitLines_line_append hl]
    cases hk : closingLength? label l with
    | some k =>
      rw [heredocBodyLength_of_closing hk]
      exact endsHeredoc_of_closing hne hname ((closingLength?_line hname l r).trans hk)
    | none =>
      have hshift := ih.shift hne hname (a := '\n' :: l) fun before w heq => by rwa [eq_of_newline_append hl heq]
      have hlength : 1 + (l.length + 1 + heredocBodyLength label (splitLines r)) =
          ('\n' :: l).length + (1 + heredocBodyLength label (splitLines r)) := by
        rw [List.length_cons]
        omega
      rw [heredocBodyLength_cons_of_none hk (splitLines_ne_nil r), hlength]
      exact hshift

end

/-! ## The end of a heredoc -/

theorem isHeredocLength_heredocLength? {t : Text} (h3 : startsWith t "<<<".toList = true) :
    IsHeredocLength t (heredocLength? t) := by
  constructor
  · rw [heredocLength?, Option.map_eq_none_iff, Option.eq_none_iff_forall_ne_some]
    exact forall_congr' fun o => not_congr (heredocOpener?_eq_some_iff h3)
  · intro o ho
    refine ⟨_, by rw [heredocLength?, heredocOpener?_of_opener ho, Option.map_some], ?_⟩
    obtain ⟨m, x, rfl, hm⟩ := List.eq_append_cons_of_mem ho.newline_mem
    obtain ⟨hlength, hne, hname⟩ := ho.length_eq hm
    -- the first line is the opener's
    have hend := (endsHeredoc_lines hne hname x).shift hne hname (a := m) fun before w heq =>
      absurd (heq ▸ List.mem_append_right before List.mem_cons_self) hm
    rw [hlength, List.drop_length_add_append]
    rwa [Nat.add_assoc]

/-- A heredoc is there exactly if there is an opener: blanks, a label in equal quotes or none,
    and a line end. It ends with the label on the first line behind the opener that holds
    blanks, the label and no name character behind, or else with the text. The same is true of
    bytes, and in the bytes of a text it ends where it ends in the text. -/
theorem heredoc_end {t : Text} (h3 : startsWith t "<<<".toList = true) :
    IsHeredocLength t (heredocLength? t) ∧ IsHeredocLength (bytes t) (heredocLength? (bytes t)) ∧
      heredocLength? (bytes t) = (heredocLength? t).map fun n => width (t.take n) := by
  have h3' : startsWith (bytes t) "<<<".toList = true := by rwa [startsWith_bytes_ascii (isAscii_of_all rfl)]
  exact ⟨isHeredocLength_heredocLength? h3, isHeredocLength_heredocLength? h3', heredocLength?_bytes h3⟩

/-- An opener with a blank, quotes and two characters to its line end, a line on which the label
    goes on, and an indented label in front of a semicolon. -/
def heredocSample : Text := "<<< \"é\"\r\néx\n\t é;é".toList

theorem heredoc_end_heredocSample :
    startsWith heredocSample "<<<".toList = true ∧ heredocLength? heredocSample = some 15 ∧
      IsHeredocLength heredocSample (some 15) ∧ heredocLength? (bytes heredocSample) = some 18 ∧
      IsHeredocLength (bytes heredocSample) (some 18) := by
  have h3 : startsWith heredocSample "<<<".toList = true := by decide
  have hlength : heredocLength? heredocSample = some 15 := by decide
  obtain ⟨hchars, hbytes, hwidth⟩ := heredoc_end h3
  have hwidth : heredocLength? (bytes heredocSample) = some 18 := by
    rw [hwidth, hlength]
    decide
  exact ⟨h3, hlength, hlength ▸ hchars, hwidth, hwidth ▸ hbytes⟩

end ClassOutline.Token
