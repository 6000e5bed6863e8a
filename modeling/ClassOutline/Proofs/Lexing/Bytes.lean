import ClassOutline.Proofs.Lexing.Extents
import ClassOutline.Proofs.Utf8
import Mathlib.Data.List.Find
/-
  ClassOutline.Proofs.Lexing.Bytes — lexemes measured in bytes.

  A lexer over bytes has no notion of a character: it must not stop inside one. Every extent,
  asked about the bytes of a text, gives the bytes of the characters it gives for the text
  itself (`numberLength_bytes`, `quotedTailLength_bytes`, `heredocLength?_bytes` and so on), so a lexeme cut
  from bytes ends where a character ends (`lexeme_bytes`). The two that need an argument of
  their own are quoted literals, where an escape takes one byte of the character behind it
  and the rest of that character is passed over, and heredocs, whose label is a run of bytes
  that turns out to be the bytes of a run of characters.
-/

namespace ClassOutline.Token

open ClassOutline.Text

/-! ## Lengths of pieces -/

theorem width_take_append (a r : Text) : width ((a ++ r).take a.length) = width a := by simp

theorem width_take_add (t : Text) (m n : Nat) :
    width (t.take (m + n)) = width (t.take m) + width ((t.drop m).take n) := by
  rw [List.take_add, width_append]

theorem width_take_of_isAscii {a : Text} (ha : ∀ c ∈ a, IsAscii c) (r : Text) :
    width ((a ++ r).take a.length) = a.length := by
  rw [width_take_append, width_of_isAscii ha]

theorem width_take_takeWhile (p : Char → Bool) (t : Text) :
    width (t.take (t.takeWhile p).length) = width (t.takeWhile p) := by
  rw [← List.prefix_iff_eq_take.mp (List.takeWhile_prefix p)]

theorem length_takeWhile_bytes {p : Char → Bool} (hp : Uniform p) (t : Text) :
    ((bytes t).takeWhile p).length = width (t.take (t.takeWhile p).length) := by
  rw [takeWhile_bytes hp, length_bytes, width_take_takeWhile]

theorem width_take_succ {c : Char} (h : IsAscii c) (r : Text) (n : Nat) :
    width ((c :: r).take (1 + n)) = 1 + width (r.take n) := by
  rw [Nat.add_comm 1 n, List.take_succ_cons, width, utf8Size_eq_one_iff_isAscii.mpr h]

/-! ## Characters -/

theorem uniform_of_isAscii {p : Char → Bool} (h : ∀ c, p c = true → IsAscii c) : Uniform p := by
  have hp : ∀ c, ¬ IsAscii c → p c = false := by
    intro c hc
    cases hpc : p c with
    | false => rfl
    | true => exact absurd (h c hpc) hc
  intro c d hc hd
  rw [hp c hc, hp d hd]

theorem isAscii_of_isAlpha {c : Char} (h : c.isAlpha = true) : IsAscii c := by
  rcases Bool.or_eq_true_iff.mp h with hu | hl
  · have hZ : c.val ≤ 'Z'.val := (of_decide_eq_true hu).2
    exact Nat.lt_of_le_of_lt (UInt32.le_iff_toNat_le.mp hZ) (by decide)
  · have hz : c.val ≤ 'z'.val := of_decide_eq_true (Bool.and_eq_true_iff.mp hl).2
    exact Nat.lt_of_le_of_lt (UInt32.le_iff_toNat_le.mp hz) (by decide)

theorem isAscii_of_isDigit {c : Char} (h : c.isDigit = true) : IsAscii c := by
  simp only [Char.isDigit, decide_eq_true_eq, Bool.and_eq_true, UInt32.le_iff_toNat_le] at h
  show c.val.toNat < 128
  have h9 : '9'.val.toNat = 57 := rfl
  omega

theorem isAscii_of_isCodeBlank {c : Char} (h : isCodeBlank c = true) : IsAscii c := by
  simp only [isCodeBlank, Bool.or_eq_true, beq_iff_eq, Bool.and_eq_true, decide_eq_true_eq] at h
  rcases h with rfl | h
  · decide
  · show c.toNat < 128
    omega

theorem isAscii_of_isIndent {c : Char} (h : isIndent c = true) : IsAscii c := by
  simp only [isIndent, Bool.or_eq_true, beq_iff_eq] at h
  rcases h with rfl | rfl <;> decide

theorem isNameStart_of_not_isAscii {c : Char} (h : ¬ IsAscii c) : isNameStart c = true := by
  have hc : 0x80 ≤ c.toNat := Nat.le_of_not_lt h
  simp [isNameStart, hc]

theorem uniform_isNameStart : Uniform isNameStart := fun _ _ hc hd => by
  rw [isNameStart_of_not_isAscii hc, isNameStart_of_not_isAscii hd]

theorem uniform_isNameChar : Uniform isNameChar := fun _ _ hc hd => by
  rw [isNameChar_of_isNameStart (isNameStart_of_not_isAscii hc),
    isNameChar_of_isNameStart (isNameStart_of_not_isAscii hd)]

theorem uniform_isCodeBlank : Uniform isCodeBlank := uniform_of_isAscii fun _ => isAscii_of_isCodeBlank

theorem uniform_isIndent : Uniform isIndent := uniform_of_isAscii fun _ => isAscii_of_isIndent

theorem uniform_isDigit : Uniform Char.isDigit := uniform_of_isAscii fun _ => isAscii_of_isDigit

theorem uniform_ne_newline : Uniform (· != '\n') := by
  have hne : ∀ c : Char, ¬ IsAscii c → (c != '\n') = true := by
    intro c hc
    rw [bne_iff_ne]
    intro heq
    subst heq
    exact hc (by decide)
  exact fun c d hc hd => (hne c hc).trans (hne d hd).symm

/-! ## Words and numbers -/

theorem nameLength_bytes (t : Text) : nameLength (bytes t) = width (t.take (nameLength t)) :=
  length_takeWhile_bytes uniform_isNameChar t

theorem numberLengthFrom_cons (seenDot : Bool) (c : Char) (r : Text) :
    numberLengthFrom seenDot (c :: r) =
      if c.isAlphanum || c == '_' then
        if (c == 'e' || c == 'E') && r.head?.any (fun d => d == '+' || d == '-') then
          2 + numberLengthFrom seenDot (r.drop 1)
        else 1 + numberLengthFrom seenDot r
      else if c == '.' && !seenDot && r.head?.any Char.isDigit then 1 + numberLengthFrom true r
      else 0 := by
  cases r with
  | nil => simp [numberLengthFrom]
  | cons d r => simp [numberLengthFrom]

/-- Only a letter, a digit, an underscore or a dot goes on with a number. -/
theorem numberLengthFrom_eq_zero {c : Char} (hword : (c.isAlphanum || c == '_') = false) (hdot : (c == '.') = false)
    (seenDot : Bool) (r : Text) : numberLengthFrom seenDot (c :: r) = 0 := by
  rw [numberLengthFrom_cons, hword, hdot]
  rfl

/-- The sign behind the `e` of a number. -/
theorem exists_sign {p : Bool} {r : Text} (h : (p && r.head?.any fun d => d == '+' || d == '-') = true) :
    ∃ d u, r = d :: u ∧ (d == '+' || d == '-') = true := by
  cases r with
  | nil => simp at h
  | cons d u => exact ⟨d, u, rfl, (Bool.and_eq_true_iff.mp h).2⟩

theorem isAscii_of_isSign {c : Char} (h : (c == '+' || c == '-') = true) : IsAscii c := by
  simp only [Bool.or_eq_true, beq_iff_eq] at h
  rcases h with rfl | rfl <;> decide

theorem isAscii_of_numberChar {c : Char} (h : (c.isAlphanum || c == '_') = true) : IsAscii c := by
  simp only [Char.isAlphanum, Bool.or_eq_true, beq_iff_eq] at h
  rcases h with (h | h) | rfl
  · exact isAscii_of_isAlpha h
  · exact isAscii_of_isDigit h
  · decide

theorem bytes_cons_of_isAscii {c : Char} (h : IsAscii c) (r : Text) : bytes (c :: r) = c :: bytes r := by
  rw [bytes_cons, charBytes_of_isAscii h]
  rfl

/-- A number is ASCII throughout: it is as long in bytes. -/
theorem numberLengthFrom_bytes (seenDot : Bool) (t : Text) :
    numberLengthFrom seenDot (bytes t) = numberLengthFrom seenDot t ∧
      width (t.take (numberLengthFrom seenDot t)) = numberLengthFrom seenDot t := by
  induction hn : t.length using Nat.strong_induction_on generalizing t seenDot with
  | _ n ih =>
    subst hn
    cases t with
    | nil => simp [numberLengthFrom, width]
    | cons c r =>
      have hsign : Uniform fun d : Char => d == '+' || d == '-' := uniform_of_isAscii fun _ => isAscii_of_isSign
      by_cases hc : (c.isAlphanum || c == '_') = true
      · have ha := isAscii_of_numberChar hc
        rw [bytes_cons_of_isAscii ha, numberLengthFrom_cons, numberLengthFrom_cons, if_pos hc, if_pos hc,
          head?_any_bytes hsign]
        split
        · rename_i h
          obtain ⟨d, u, rfl, hd⟩ := exists_sign h
          obtain ⟨h1, h2⟩ := ih u.length (by simp only [List.length_cons]; omega) seenDot u rfl
          have hda := isAscii_of_isSign hd
          rw [bytes_cons_of_isAscii hda, List.drop_succ_cons, List.drop_zero, List.drop_succ_cons,
            List.drop_zero, h1, show 2 + numberLengthFrom seenDot u = 1 + (1 + numberLengthFrom seenDot u) by omega,
            width_take_succ ha, width_take_succ hda, h2]
          exact ⟨rfl, rfl⟩
        · obtain ⟨h1, h2⟩ := ih r.length (by simp) seenDot r rfl
          rw [width_take_succ ha, h1, h2]
          exact ⟨rfl, rfl⟩
      · by_cases hdot : c = '.'
        · subst hdot
          have ha : IsAscii '.' := by decide
          rw [bytes_cons_of_isAscii ha, numberLengthFrom_cons, numberLengthFrom_cons, if_neg hc, if_neg hc,
            head?_any_bytes uniform_isDigit]
          split
          · obtain ⟨h1, h2⟩ := ih r.length (by simp) true r rfl
            rw [width_take_succ ha, h1, h2]
            exact ⟨rfl, rfl⟩
          · exact ⟨rfl, rfl⟩
        · have hword : (c.isAlphanum || c == '_') = false := by simpa using hc
          rw [numberLengthFrom_eq_zero hword (beq_false_of_ne hdot)]
          refine ⟨?_, rfl⟩
          rcases bytes_cons_cases c r with ⟨ha, h⟩ | ⟨ha, d, w, h, -, hd, -⟩
          · rw [h]
            exact numberLengthFrom_eq_zero hword (beq_false_of_ne hdot) seenDot _
          · rw [h, List.cons_append]
            refine numberLengthFrom_eq_zero ?_ (beq_false_of_ne ?_) seenDot _
            · cases hd' : (d.isAlphanum || d == '_') with
              | false => rfl
              | true => exact absurd (isAscii_of_numberChar hd') hd
            · intro heq
              subst heq
              exact hd (by decide)

/-- A number that opens with a character of ASCII. -/
theorem numberLength_bytes {c : Char} (h : IsAscii c) (r : Text) :
    numberLength (bytes (c :: r)) = width ((c :: r).take (numberLength (c :: r))) := by
  obtain ⟨h1, h2⟩ := numberLengthFrom_bytes false (c :: r)
  rw [numberLength, numberLength, h1]
  rcases Nat.eq_zero_or_pos (numberLengthFrom false (c :: r)) with h0 | hpos
  · rw [h0]
    exact (width_take_succ h r 0).symm
  · rw [Nat.max_eq_right hpos, h2]

/-! ## Comments -/

theorem bytes_head {head : Text} (h : ∀ c ∈ head, IsAscii c) (u : Text) :
    bytes (head ++ u) = head ++ bytes u := by
  rw [bytes_append, bytes_of_isAscii h]

theorem blockCommentLength_bytes {t : Text} (h : startsWith t "/*".toList = true) :
    blockCommentLength (bytes t) = width (t.take (blockCommentLength t)) := by
  obtain ⟨u, rfl⟩ := startsWith_iff.mp h
  have hdrop : ∀ x : Text, ("/*".toList ++ x).drop 2 = x := fun _ => rfl
  rw [bytes_head (isAscii_of_all rfl), blockCommentLength, blockCommentLength, hdrop, hdrop,
    beforeFirst?_bytes (by decide) (isAscii_of_all rfl)]
  cases hb : beforeFirst? "*/".toList u with
  | none =>
    rw [Option.map_none, List.take_length, ← length_bytes, bytes_head (isAscii_of_all rfl)]
  | some body =>
    obtain ⟨rest, hsplit, hlen⟩ := blockComment_split hb
    simp only [Option.map_some]
    rw [hsplit, hlen, width_take_append, width_append, width_append, length_bytes,
      width_of_isAscii (isAscii_of_all rfl : ∀ c ∈ "/*".toList, IsAscii c),
      width_of_isAscii (isAscii_of_all rfl : ∀ c ∈ "*/".toList, IsAscii c)]
    show width body + 4 = 2 + width body + 2
    omega

theorem lineCommentLength_bytes (t : Text) :
    lineCommentLength (bytes t) = width (t.take (lineCommentLength t)) := by
  have hpre : t.takeWhile (· != '\n') <+: t := List.takeWhile_prefix _
  simp only [lineCommentLength, takeWhile_bytes uniform_ne_newline]
  rw [beforeFirst?_bytes (by decide) (isAscii_of_all rfl)]
  cases hb : beforeFirst? "?>".toList (t.takeWhile (· != '\n')) with
  | none =>
    have hret : dropReturn (t.takeWhile (· != '\n')) <+: t := by
      rcases dropTail_cases ['\r'] (t.takeWhile (· != '\n')) with h | ⟨h, -⟩
      · exact List.IsPrefix.trans ⟨_, h.symm⟩ hpre
      · rw [dropReturn, h]
        exact hpre
    rw [Option.map_none, dropReturn_bytes, length_bytes, ← List.prefix_iff_eq_take.mp hret]
  | some body =>
    obtain ⟨rest, hr⟩ := eq_append_of_beforeFirst? hb
    have hbody : body <+: t := List.IsPrefix.trans ⟨_, hr.symm⟩ hpre
    simp only [Option.map_some]
    rw [length_bytes, ← List.prefix_iff_eq_take.mp hbody]

theorem isDocComment_bytes (t : Text) : isDocComment (bytes t) = isDocComment t := by
  have h3 : bytes "/**".toList = "/**".toList := bytes_of_isAscii (isAscii_of_all rfl)
  have ha := after?_bytes "/**".toList t
  rw [h3] at ha
  rw [isDocComment_eq, isDocComment_eq, ha]
  cases after? "/**".toList t with
  | none => rfl
  | some r => exact head?_any_bytes uniform_isCodeBlank r

/-! ## Quoted literals -/

theorem quotedTailLength_cons_of_ne {escape quote c : Char} (he : c ≠ escape) (hq : c ≠ quote) (x : Text) :
    quotedTailLength escape quote (c :: x) = 1 + quotedTailLength escape quote x := by
  cases x with
  | nil => rfl
  | cons d x => rw [quotedTailLength, if_neg he, if_neg hq]

theorem quotedTailLength_append_of_ne {escape quote : Char} {w : Text}
    (hw : ∀ c ∈ w, c ≠ escape ∧ c ≠ quote) (x : Text) :
    quotedTailLength escape quote (w ++ x) = w.length + quotedTailLength escape quote x := by
  induction w with
  | nil => simp
  | cons c w ih =>
    obtain ⟨he, hq⟩ := hw c (by simp)
    rw [List.cons_append, quotedTailLength_cons_of_ne he hq, ih fun d hd => hw d (by simp [hd]),
      List.length_cons]
    omega

/-- An escape takes the first byte of what it escapes; the bytes left of that character
    neither escape nor quote. -/
theorem quotedTailLength_bytes {escape quote : Char} (he : IsAscii escape) (hq : IsAscii quote) (t : Text) :
    quotedTailLength escape quote (bytes t) = width (t.take (quotedTailLength escape quote t)) := by
  have hne : ∀ c : Char, ¬ IsAscii c → c ≠ escape ∧ c ≠ quote := by
    intro c hc
    constructor
    · intro heq
      subst heq
      exact hc he
    · intro heq
      subst heq
      exact hc hq
  have hbytes : ∀ c : Char, c ≠ escape → c ≠ quote → ∀ d ∈ charBytes c, d ≠ escape ∧ d ≠ quote := by
    intro c hce hcq d hd
    by_cases ha : IsAscii c
    · rw [charBytes_of_isAscii ha, List.mem_singleton] at hd
      exact hd ▸ ⟨hce, hcq⟩
    · exact hne d (not_isAscii_of_mem_charBytes ha hd)
  fun_induction quotedTailLength escape quote t with
  | case1 => rfl
  | case2 c =>
    by_cases ha : IsAscii c
    · rw [bytes_cons_of_isAscii ha]
      exact (width_take_succ ha [] 0).symm
    · rw [bytes_cons, quotedTailLength_append_of_ne fun d hd => hne d (not_isAscii_of_mem_charBytes ha hd),
        length_charBytes]
      rfl
  | case3 d r ih =>
    obtain ⟨e, w, hew⟩ := List.exists_cons_of_ne_nil (charBytes_ne_nil d)
    have hlen : 1 + w.length = d.utf8Size := by
      rw [← length_charBytes, hew, List.length_cons, Nat.add_comm]
    have hw : ∀ x ∈ w, x ≠ escape ∧ x ≠ quote := by
      intro x hx
      by_cases ha : IsAscii d
      · rw [charBytes_of_isAscii ha] at hew
        rw [← (List.cons.inj hew).2] at hx
        cases hx
      · exact hne x (not_isAscii_of_mem_charBytes ha (hew ▸ List.mem_cons_of_mem e hx))
    calc quotedTailLength escape quote (bytes (escape :: d :: r))
        = quotedTailLength escape quote (escape :: e :: (w ++ bytes r)) := by
          rw [bytes_cons_of_isAscii he, bytes_cons, hew, List.cons_append]
      _ = 2 + (w.length + quotedTailLength escape quote (bytes r)) := by
          rw [quotedTailLength, if_pos rfl, quotedTailLength_append_of_ne hw]
      _ = 1 + (d.utf8Size + width (r.take (quotedTailLength escape quote r))) := by
          rw [← hlen, ih]
          omega
      _ = width ((escape :: d :: r).take (1 + (quotedTailLength escape quote r + 1))) := by
          rw [width_take_succ he, List.take_succ_cons, width]
      _ = width ((escape :: d :: r).take (2 + quotedTailLength escape quote r)) := by
          rw [show 2 + quotedTailLength escape quote r = 1 + (quotedTailLength escape quote r + 1) by omega]
  | case4 d r h =>
    obtain ⟨e, w, hew⟩ := List.exists_cons_of_ne_nil (charBytes_ne_nil d)
    rw [bytes_cons_of_isAscii hq, bytes_cons, hew, List.cons_append, quotedTailLength, if_neg h, if_pos rfl]
    exact (width_take_succ hq _ 0).symm
  | case5 c d r hce hcq ih =>
    rw [bytes_cons, quotedTailLength_append_of_ne (hbytes c hce hcq), ih, length_charBytes, Nat.add_comm 1,
      List.take_succ_cons, width]

theorem quotedLength_bytes {c : Char} (h : IsAscii c) (r : Text) :
    quotedLength '\\' (bytes (c :: r)) = width ((c :: r).take (quotedLength '\\' (c :: r))) := by
  rw [bytes_cons_of_isAscii h, quotedLength, quotedLength, quotedTailLength_bytes (by decide) h,
    width_take_succ h]

/-! ## Heredocs -/

theorem lineEndLength?_bytes (t : Text) : lineEndLength? (bytes t) = lineEndLength? t := by
  unfold lineEndLength?
  rw [startsWith_bytes_ascii (isAscii_of_all rfl), startsWith_bytes_ascii (isAscii_of_all rfl)]

theorem closingLength?_bytes (label line : Text) :
    closingLength? (bytes label) (bytes line) =
      (closingLength? label line).map fun n => width (line.take n) := by
  have hline := takeWhile_append_drop isIndent line
  have hdrop : (bytes line).drop ((bytes line).takeWhile isIndent).length =
      bytes (line.drop (line.takeWhile isIndent).length) := by
    rw [length_takeWhile_bytes uniform_isIndent, drop_bytes]
  simp only [closingLength?, hdrop, after?_bytes]
  cases ha : after? label (line.drop (line.takeWhile isIndent).length) with
  | none => rfl
  | some rest =>
    simp only [Option.map_some, head?_any_bytes uniform_isNameChar]
    split
    · rfl
    · have hlabel := after?_eq_some_iff.mp ha
      rw [Option.map_some, width_take_add, hlabel, width_take_append, length_bytes,
        length_takeWhile_bytes uniform_isIndent]

theorem heredocBodyLength_bytes (label : Text) (ls : List Text) :
    heredocBodyLength (bytes label) (ls.map bytes) =
      width ((joinLines ls).take (heredocBodyLength label ls)) := by
  fun_induction heredocBodyLength label ls with
  | case1 => rfl
  | case2 line =>
    rw [joinLines_singleton, List.map_singleton, heredocBodyLength, closingLength?_bytes]
    cases closingLength? label line with
    | none => simp [length_bytes]
    | some n => rfl
  | case3 line rest hr n hn =>
    obtain ⟨next, more, rfl⟩ := List.exists_cons_of_ne_nil hr
    have hle := closingLength?_le hn
    rw [joinLines_cons_cons, List.take_append_of_le_length hle, List.map_cons, List.map_cons,
      heredocBodyLength, closingLength?_bytes, hn]
    · rfl
    · simp
  | case4 line rest hr hn ih =>
    obtain ⟨next, more, rfl⟩ := List.exists_cons_of_ne_nil hr
    have hsplit : line ++ '\n' :: joinLines (next :: more) = (line ++ ['\n']) ++ joinLines (next :: more) := by simp
    have hlen : line.length + 1 = (line ++ ['\n']).length := by simp
    have hwidth : width (line ++ ['\n']) = (bytes line).length + 1 := by
      rw [width_append, length_bytes]
      rfl
    rw [joinLines_cons_cons, List.map_cons, heredocBodyLength, closingLength?_bytes, hn]
    · rw [hsplit, hlen, width_take_add, width_take_append, List.drop_left, ← ih, hwidth]
      rfl
    · simp

theorem isAscii_of_quote {quote : Text} (h : quote = [] ∨ quote = ['"'] ∨ quote = ['\'']) :
    ∀ c ∈ quote, IsAscii c := by
  rcases h with rfl | rfl | rfl <;> exact isAscii_of_all rfl

theorem isAscii_of_lineEnd {lineEnd : Text} (h : lineEnd = ['\n'] ∨ lineEnd = ['\r', '\n']) :
    ∀ c ∈ lineEnd, IsAscii c := by
  rcases h with rfl | rfl <;> exact isAscii_of_all rfl

theorem isNameChar_of_mem_bytes {label : Text} (h : ∀ c ∈ label, isNameChar c = true) :
    ∀ d ∈ bytes label, isNameChar d = true := by
  intro d hd
  obtain ⟨c, hc, hd⟩ := List.mem_flatMap.mp hd
  by_cases ha : IsAscii c
  · rw [charBytes_of_isAscii ha, List.mem_singleton] at hd
    exact hd ▸ h c hc
  · exact isNameChar_of_isNameStart (isNameStart_of_not_isAscii (not_isAscii_of_mem_charBytes ha hd))

theorem Opener.onBytes {t : Text} {o : HeredocOpener} (h : Opener t o) :
    Opener (bytes t) ⟨bytes o.label, width (t.take o.length)⟩ := by
  obtain ⟨blanks, quote, label, lineEnd, rest, hblanks, hquote, hlabel, hname, hend⟩ := h
  have h3 : ∀ c ∈ "<<<".toList, IsAscii c := isAscii_of_all rfl
  have hb : ∀ c ∈ blanks, IsAscii c := fun c hc => isAscii_of_isIndent (hblanks c hc)
  have hq := isAscii_of_quote hquote
  have he := isAscii_of_lineEnd hend
  have hmk := Opener.mk blanks quote (bytes label) lineEnd (bytes rest) hblanks hquote
    (fun h => hlabel (bytes_injective h)) (isNameChar_of_mem_bytes hname) hend
  have hsplit : "<<<".toList ++ (blanks ++ (quote ++ (label ++ (quote ++ (lineEnd ++ rest))))) =
      ("<<<".toList ++ blanks ++ quote ++ label ++ quote ++ lineEnd) ++ rest := by simp
  have hlen : 3 + blanks.length + quote.length + label.length + quote.length + lineEnd.length =
      ("<<<".toList ++ blanks ++ quote ++ label ++ quote ++ lineEnd).length := by simp; omega
  have hwidth : width ("<<<".toList ++ blanks ++ quote ++ label ++ quote ++ lineEnd) =
      3 + blanks.length + quote.length + (bytes label).length + quote.length + lineEnd.length := by
    simp only [width_append, width_of_isAscii h3, width_of_isAscii hb, width_of_isAscii hq,
      width_of_isAscii he, length_bytes]
    rfl
  have hbytes : bytes ("<<<".toList ++ (blanks ++ (quote ++ (label ++ (quote ++ (lineEnd ++ rest)))))) =
      "<<<".toList ++ (blanks ++ (quote ++ (bytes label ++ (quote ++ (lineEnd ++ bytes rest))))) := by
    simp only [bytes_append, bytes_of_isAscii h3, bytes_of_isAscii hb, bytes_of_isAscii hq, bytes_of_isAscii he]
  show Opener _ ⟨bytes label, width (List.take (3 + blanks.length + quote.length + label.length + quote.length +
    lineEnd.length) _)⟩
  rw [hbytes, hsplit, hlen, width_take_append, hwidth]
  exact hmk

theorem Opener.ofBytes {t : Text} {o : HeredocOpener} (h : Opener (bytes t) o) : ∃ o', Opener t o' := by
  generalize hb : bytes t = b at h
  obtain ⟨blanks, quote, label, lineEnd, rest, hblanks, hquote, hlabel, hname, hend⟩ := h
  have strip : ∀ {a x u : Text}, (∀ c ∈ a, IsAscii c) → bytes u = a ++ x → ∃ v, u = a ++ v ∧ x = bytes v := by
    intro a x u ha hu
    exact eq_append_of_bytes_eq (by rwa [bytes_of_isAscii ha])
  obtain ⟨t₁, rfl, h₁⟩ := strip (isAscii_of_all rfl) hb
  obtain ⟨t₂, rfl, h₂⟩ := strip (fun c hc => isAscii_of_isIndent (hblanks c hc)) h₁.symm
  obtain ⟨t₃, rfl, h₃⟩ := strip (isAscii_of_quote hquote) h₂.symm
  -- The label is the run of name bytes, so it is the bytes of the run of name characters.
  have hrun : label = bytes (t₃.takeWhile isNameChar) := by
    rw [← takeWhile_bytes uniform_isNameChar, ← h₃, takeWhile_label hname hquote hend]
  have hname' : ∀ c ∈ t₃.takeWhile isNameChar, isNameChar c = true := fun c hc => List.mem_takeWhile_imp hc
  have hlabel' : t₃.takeWhile isNameChar ≠ [] := fun h => hlabel (by rw [hrun, h, bytes_nil])
  generalize t₃.takeWhile isNameChar = l at hrun hname' hlabel'
  subst hrun
  obtain ⟨t₄, rfl, h₄⟩ := eq_append_of_bytes_eq h₃.symm
  obtain ⟨t₅, rfl, h₅⟩ := strip (isAscii_of_quote hquote) h₄.symm
  obtain ⟨t₆, rfl, -⟩ := strip (isAscii_of_lineEnd hend) h₅.symm
  exact ⟨_, Opener.mk blanks quote l lineEnd t₆ hblanks hquote hlabel' hname' hend⟩

theorem heredocLength?_bytes {t : Text} (h3 : startsWith t "<<<".toList = true) :
    heredocLength? (bytes t) = (heredocLength? t).map fun n => width (t.take n) := by
  have h3' : startsWith (bytes t) "<<<".toList = true := by rwa [startsWith_bytes_ascii (isAscii_of_all rfl)]
  unfold heredocLength?
  cases ho : heredocOpener? t with
  | some o =>
    have hopener := opener_of_heredocOpener? h3 ho
    rw [heredocOpener?_of_opener hopener.onBytes]
    simp only [Option.map_some, drop_bytes, splitLines_bytes, heredocBodyLength_bytes, joinLines_splitLines,
      width_take_add]
  | none =>
    cases ho' : heredocOpener? (bytes t) with
    | none => rfl
    | some o =>
      obtain ⟨o', h⟩ := (opener_of_heredocOpener? h3' ho').ofBytes
      rw [heredocOpener?_of_opener h] at ho
      cases ho

/-! ## Tags and punctuation -/

theorem isAscii_of_lower {t : Text} (h : ∀ c ∈ lower t, IsAscii c) : ∀ c ∈ t, IsAscii c := by
  intro c hc
  by_contra hn
  have := h c.toLower (List.mem_map.mpr ⟨c, hc, rfl⟩)
  rw [toLower_of_not_isAscii hn] at this
  exact hn this

theorem take_of_eq_append {t a r : Text} {n : Nat} (h : t = a ++ r) (hn : a.length = n) : t.take n = a := by
  rw [h, ← hn, List.take_left]

/-- The first letters read a word in any case exactly if the first bytes do. -/
theorem lower_take_bytes {word : Text} (hw : ∀ c ∈ word, IsAscii c) (t : Text) :
    lower ((bytes t).take word.length) = word ↔ lower (t.take word.length) = word := by
  constructor
  · intro h
    have ha : ∀ c ∈ (bytes t).take word.length, IsAscii c := isAscii_of_lower (h.symm ▸ hw)
    have hlen := congrArg List.length h
    rw [lower, List.length_map] at hlen
    obtain ⟨u, hu, -⟩ := eq_append_of_bytes_eq (t := t) (a := (bytes t).take word.length)
      (x := (bytes t).drop word.length) (by rw [bytes_of_isAscii ha, List.take_append_drop])
    rw [take_of_eq_append hu hlen, h]
  · intro h
    have ha : ∀ c ∈ t.take word.length, IsAscii c := isAscii_of_lower (h.symm ▸ hw)
    have hlen := congrArg List.length h
    rw [lower, List.length_map] at hlen
    have hsplit : bytes t = t.take word.length ++ bytes (t.drop word.length) := by
      conv => lhs; rw [← List.take_append_drop word.length t, bytes_append, bytes_of_isAscii ha]
    rw [take_of_eq_append hsplit hlen, h]

theorem openTagLength_bytes {t : Text} (h : startsWith t "<?".toList = true) :
    openTagLength (bytes t) = width (t.take (openTagLength t)) := by
  have h5 : (lower ((bytes t).take 5) == "<?php".toList) = (lower (t.take 5) == "<?php".toList) := by
    rw [Bool.eq_iff_iff, beq_iff_eq, beq_iff_eq]
    exact lower_take_bytes (isAscii_of_all rfl : ∀ c ∈ "<?php".toList, IsAscii c) t
  unfold openTagLength
  rw [h5, startsWith_bytes_ascii (isAscii_of_all rfl)]
  split
  · rename_i hl
    have hl' := beq_iff_eq.mp hl
    have ha : ∀ c ∈ t.take 5, IsAscii c := isAscii_of_lower (hl'.symm ▸ isAscii_of_all rfl)
    have hlen := congrArg List.length hl'
    rw [lower, List.length_map] at hlen
    rw [width_of_isAscii ha, hlen]
    rfl
  · split
    · rename_i hs
      obtain ⟨u, rfl⟩ := startsWith_iff.mp hs
      exact (width_take_of_isAscii (a := "<?=".toList) (isAscii_of_all rfl) u).symm
    · obtain ⟨u, rfl⟩ := startsWith_iff.mp h
      exact (width_take_of_isAscii (a := "<?".toList) (isAscii_of_all rfl) u).symm

theorem closeTagLength_bytes {t : Text} (h : startsWith t "?>".toList = true) :
    closeTagLength (bytes t) = width (t.take (closeTagLength t)) := by
  obtain ⟨u, rfl⟩ := startsWith_iff.mp h
  have hdrop : ∀ x : Text, ("?>".toList ++ x).drop 2 = x := fun _ => rfl
  have htwo : width (("?>".toList ++ u).take 2) = 2 :=
    width_take_of_isAscii (a := "?>".toList) (isAscii_of_all rfl) u
  rw [bytes_head (isAscii_of_all rfl), closeTagLength, closeTagLength, hdrop, hdrop, lineEndLength?_bytes,
    width_take_add, hdrop, htwo]
  cases hn : lineEndLength? u with
  | none => rfl
  | some n =>
    obtain ⟨lineEnd, rest, hend, rfl, rfl⟩ := lineEndLength?_eq_some_iff.mp hn
    rw [Option.getD_some, width_take_of_isAscii (isAscii_of_lineEnd hend)]

theorem isAscii_of_mem_compounds : ∀ p ∈ compounds, ∀ c ∈ p, IsAscii c := isAscii_of_all_all rfl

theorem compoundLength?_bytes (t : Text) : compoundLength? (bytes t) = compoundLength? t := by
  rw [compoundLength?, compoundLength?]
  refine congrArg (Option.map List.length) (List.find?_congr fun p hp => ?_)
  exact startsWith_bytes_ascii (isAscii_of_mem_compounds p hp) t

theorem width_take_compoundLength? {t : Text} {n : Nat} (h : compoundLength? t = some n) :
    width (t.take n) = n := by
  obtain ⟨p, hp, rfl⟩ := Option.map_eq_some_iff.mp h
  obtain ⟨u, rfl⟩ := startsWith_iff.mp (List.find?_some hp)
  exact width_take_of_isAscii (isAscii_of_mem_compounds p (List.mem_of_find?_eq_some hp)) u

/-! ## Words -/

theorem bytes_eq_iff {word : Text} (hw : ∀ c ∈ word, IsAscii c) (t : Text) : bytes t = word ↔ t = word := by
  constructor
  · intro h
    exact bytes_injective (h.trans (bytes_of_isAscii hw).symm)
  · intro heq
    subst heq
    exact bytes_of_isAscii hw

theorem contains_bytes {words : List Text} (hw : ∀ w ∈ words, ∀ c ∈ w, IsAscii c) (t : Text) :
    words.contains (bytes t) = words.contains t := by
  rw [Bool.eq_iff_iff, List.contains_iff_mem, List.contains_iff_mem]
  constructor
  · intro h
    rwa [← (bytes_eq_iff (hw _ h) t).mp rfl] at h
  · intro h
    rwa [bytes_of_isAscii (hw t h)]

/-- Operators and reserved words are ASCII. -/
theorem ofWord_bytes (previous : Option Text) (word : Text) :
    Kind.ofWord (previous.map bytes) (bytes word) = Kind.ofWord previous word := by
  have hprev : (previous.map bytes).any nameOperators.contains = previous.any nameOperators.contains := by
    cases previous with
    | none => rfl
    | some p => exact contains_bytes (isAscii_of_all_all rfl) p
  have heq : ∀ w : Text, (∀ c ∈ w, IsAscii c) → (bytes (lower word) == w) = (lower word == w) := by
    intro w hw
    rw [Bool.eq_iff_iff, beq_iff_eq, beq_iff_eq]
    exact bytes_eq_iff hw _
  simp only [Kind.ofWord, hprev, lower_bytes]
  rw [heq _ (isAscii_of_all rfl), heq _ (isAscii_of_all rfl), contains_bytes (isAscii_of_all_all rfl)]

/-! ## Lexemes -/

/-- The lexeme of the bytes of a text. -/
def Lexeme.onBytes (l : Lexeme) (t : Text) : Lexeme := ⟨l.kind, width (t.take l.length)⟩

theorem plainLexeme_bytes (previous : Option Text) {c d : Char} {r q : Text} (h : bytes (c :: r) = d :: q) :
    plainLexeme (previous.map bytes) d (d :: q) = (plainLexeme previous c (c :: r)).onBytes (c :: r) := by
  have hstart : isNameStart d = isNameStart c := by
    have := head?_any_bytes uniform_isNameStart (c :: r)
    rwa [h] at this
  unfold plainLexeme
  rw [hstart, ← h]
  split
  · rw [takeWhile_bytes uniform_isNameChar, ofWord_bytes, nameLength_bytes]
    rfl
  · rename_i hn
    -- Only ASCII is left, so the first byte is the first character.
    have ha : IsAscii c := by
      by_contra ha
      exact hn (isNameStart_of_not_isAscii ha)
    obtain rfl : c = d := by
      rw [bytes_cons_of_isAscii ha] at h
      exact (List.cons.inj h).1
    rw [compoundLength?_bytes]
    cases hn : compoundLength? (c :: r) with
    | none => exact congrArg (Lexeme.mk _) (width_take_succ ha r 0).symm
    | some n => exact congrArg (Lexeme.mk _) (width_take_compoundLength? hn).symm

theorem isAscii_of_mem_marks : ∀ mark ∈ marks, ∀ c ∈ mark, IsAscii c := isAscii_of_all_all rfl

/-- The bytes of a text that begins with a character of ASCII are another writing of it. -/
theorem rewritten_bytes {c : Char} (ha : IsAscii c) (r : Text) :
    Rewritten (fun n => width ((c :: r).take n)) c r (bytes (c :: r)) where
  starts mark hmark := startsWith_bytes_ascii (isAscii_of_mem_marks mark hmark) _
  nameBehind := by
    rw [bytes_cons_of_isAscii ha]
    exact head?_any_bytes uniform_isNameStart r
  digitBehind := by
    rw [bytes_cons_of_isAscii ha]
    exact head?_any_bytes uniform_isDigit r
  one := width_take_succ ha r 0
  blanks _ := length_takeWhile_bytes uniform_isCodeBlank _
  closeTag := closeTagLength_bytes
  attributeMark hattr := by
    obtain ⟨u, hu⟩ := startsWith_iff.mp hattr
    rw [hu]
    exact width_take_of_isAscii (a := "#[".toList) (isAscii_of_all rfl) u
  lineComment := lineCommentLength_bytes _
  isDoc := isDocComment_bytes _
  blockComment := blockCommentLength_bytes
  quoted _ := quotedLength_bytes ha r
  heredoc := heredocLength?_bytes
  var := by
    rw [bytes_cons_of_isAscii ha, List.tail_cons, nameLength_bytes, width_take_succ ha]
  number := numberLength_bytes ha r

/-- Every other kind of token opens with a character of ASCII. -/
theorem codeLexeme_bytes (previous : Option Text) {c d : Char} {r q : Text} (h : bytes (c :: r) = d :: q) :
    codeLexeme (previous.map bytes) d q = (codeLexeme previous c r).onBytes (c :: r) := by
  rcases bytes_cons_cases c r with ⟨ha, hb⟩ | ⟨ha, e, w, hb, -, he, -⟩
  · obtain ⟨rfl, rfl⟩ := List.cons.inj (hb.symm.trans h)
    have hrewritten := rewritten_bytes ha r
    rw [hb] at hrewritten
    exact hrewritten.codeLexeme_eq (plainLexeme_bytes previous hb)
  · obtain ⟨rfl, -⟩ := List.cons.inj ((List.cons_append ▸ hb).symm.trans h)
    rw [codeLexeme_of_isNameStart (isNameStart_of_not_isAscii ha),
      codeLexeme_of_isNameStart (isNameStart_of_not_isAscii he)]
    exact plainLexeme_bytes previous h

theorem htmlLexeme_bytes (t : Text) : htmlLexeme (bytes t) = (htmlLexeme t).onBytes t := by
  unfold htmlLexeme
  rw [startsWith_bytes_ascii (isAscii_of_all rfl)]
  split
  · rename_i hs
    exact congrArg (Lexeme.mk _) (openTagLength_bytes hs)
  · rw [beforeFirst?_bytes (by decide) (isAscii_of_all rfl)]
    refine congrArg (Lexeme.mk _) ?_
    cases hb : beforeFirst? "<?".toList t with
    | none => simp [length_bytes]
    | some b =>
      obtain ⟨r, rfl⟩ := eq_append_of_beforeFirst? hb
      simp [length_bytes]

def LexState.onBytes (s : LexState) : LexState := { s with previous := s.previous.map bytes }

/-- From every state, the token cut from the bytes of a text is the bytes of the token cut
    from the text: it ends where a character ends. -/
theorem lexeme_bytes (s : LexState) {c d : Char} {r q : Text} (h : bytes (c :: r) = d :: q) :
    lexeme s.onBytes d q = (lexeme s c r).onBytes (c :: r) := by
  show (if s.inCode then codeLexeme (s.previous.map bytes) d q else htmlLexeme (d :: q)) = _
  unfold lexeme
  split
  · exact codeLexeme_bytes s.previous h
  · rw [← h]
    exact htmlLexeme_bytes (c :: r)

end ClassOutline.Token
