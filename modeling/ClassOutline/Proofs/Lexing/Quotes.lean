import ClassOutline.Proofs.Lexing.Bytes
import Mathlib.Algebra.Group.Nat.Even
/-
  ClassOutline.Proofs.Lexing.Quotes — where a quoted literal ends.

  The lexer goes over a literal from its opening quote on and steps over what a backslash
  escapes. Said without going over it: a quote closes the literal if the run of backslashes
  right before it is even, and the literal ends behind the first quote that does, or with the
  text if there is none (`BehindFirst`, `behindFirst_quotedLength`). An escape takes two places
  and changes no run behind them but by two (`even_run_escape`), so the two agree over any
  alphabet, and over bytes of any kind.

  The byte a backslash escapes may be the first of several that make a character. In UTF-8 the
  others are neither backslash nor quote, and the end is the one that is found in characters
  (`quotedLength_utf8`).
-/

namespace ClassOutline.Token

open ClassOutline.Text

/-- `n` is the place behind the first position of a kind, or the whole length if no position is
    of that kind. -/
def BehindFirst (P : Nat → Prop) (length n : Nat) : Prop :=
  (∃ p, P p ∧ (∀ k < p, ¬ P k) ∧ n = p + 1) ∨ ((∀ p, ¬ P p) ∧ n = length)

/-- Behind places that are not of the kind everything is moved by their number. -/
theorem BehindFirst.shift {P Q : Nat → Prop} {length n : Nat} (h : BehindFirst P length n) {m : Nat}
    (hbefore : ∀ k < m, ¬ Q k) (hbehind : ∀ k, Q (m + k) ↔ P k) : BehindFirst Q (m + length) (m + n) := by
  have hcases : ∀ k, k < m ∨ ∃ j, k = m + j := fun k => (Nat.lt_or_ge k m).imp_right Nat.exists_eq_add_of_le
  rcases h with ⟨p, hp, hfirst, rfl⟩ | ⟨hnone, rfl⟩
  · refine Or.inl ⟨m + p, (hbehind p).mpr hp, fun k hk => ?_, Nat.add_assoc m p 1⟩
    rcases hcases k with hk' | ⟨j, rfl⟩
    · exact hbefore k hk'
    · rw [hbehind]
      exact hfirst j (by omega)
  · refine Or.inr ⟨fun k => ?_, rfl⟩
    rcases hcases k with hk | ⟨j, rfl⟩
    · exact hbefore k hk
    · rw [hbehind]
      exact hnone j

section

variable {α : Type} [DecidableEq α] {escape quote : α}

/-! ## Runs of escapes -/

/-- The length of the run of escapes at the end of a text. -/
def escapeRun (escape : α) (t : List α) : Nat := (t.reverse.takeWhile (· = escape)).length

theorem escapeRun_le (t : List α) : escapeRun escape t ≤ t.length :=
  (List.takeWhile_prefix _).length_le.trans (List.length_reverse).le

theorem escapeRun_cons (c : α) (t : List α) :
    escapeRun escape (c :: t) =
      if escapeRun escape t = t.length then t.length + (if c = escape then 1 else 0) else escapeRun escape t := by
  unfold escapeRun
  rw [List.reverse_cons, List.takeWhile_append, List.length_reverse]
  split
  · by_cases hc : c = escape <;> simp [hc]
  · rfl

theorem escapeRun_cons_of_ne {c : α} (hc : c ≠ escape) (t : List α) : escapeRun escape (c :: t) = escapeRun escape t := by
  rw [escapeRun_cons, if_neg hc]
  split
  · rename_i h
    rw [h, Nat.add_zero]
  · rfl

/-- An escape lengthens the run behind it only if nothing else stands between. -/
theorem escapeRun_cons_of_lt {c : α} {t : List α} (h : escapeRun escape t < t.length) :
    escapeRun escape (c :: t) = escapeRun escape t := by
  rw [escapeRun_cons, if_neg (Nat.ne_of_lt h)]

/-- An escape and what it escapes leave the run behind them even, or odd, as it is. -/
theorem even_run_escape (d : α) (t : List α) :
    Even (escapeRun escape (escape :: d :: t)) ↔ Even (escapeRun escape t) := by
  have hlt : ∀ u : List α, escapeRun escape u < u.length + 1 := fun u => Nat.lt_succ_of_le (escapeRun_le u)
  by_cases hd : d = escape
  · subst hd
    by_cases hrun : escapeRun d t = t.length
    · have htwo : escapeRun d (d :: d :: t) = t.length + 2 := by simp [escapeRun_cons, hrun]
      rw [htwo, hrun, Nat.even_add]
      exact iff_true_right ⟨1, rfl⟩
    · have hone : escapeRun d (d :: t) = escapeRun d t :=
        escapeRun_cons_of_lt (Nat.lt_of_le_of_ne (escapeRun_le t) hrun)
      rw [escapeRun_cons_of_lt, hone]
      rw [hone]
      exact hlt t
  · have hone : escapeRun escape (d :: t) = escapeRun escape t := escapeRun_cons_of_ne hd t
    rw [escapeRun_cons_of_lt, hone]
    rw [hone]
    exact hlt t

/-! ## Quotes that close -/

/-- The text has a quote at a position, and the run of escapes that ends before it is even. -/
def HasFreeQuote (escape quote : α) (t : List α) (i : Nat) : Prop :=
  t[i]? = some quote ∧ Even (escapeRun escape (t.take i))

theorem hasFreeQuote_zero {c : α} {t : List α} : HasFreeQuote escape quote (c :: t) 0 ↔ c = quote := by
  simp [HasFreeQuote, escapeRun]

theorem hasFreeQuote_cons {c : α} (hc : c ≠ escape) (t : List α) (i : Nat) :
    HasFreeQuote escape quote (c :: t) (1 + i) ↔ HasFreeQuote escape quote t i := by
  rw [HasFreeQuote, Nat.add_comm, List.getElem?_cons_succ, List.take_succ_cons, escapeRun_cons_of_ne hc]
  rfl

theorem hasFreeQuote_escape (d : α) (t : List α) (i : Nat) :
    HasFreeQuote escape quote (escape :: d :: t) (2 + i) ↔ HasFreeQuote escape quote t i := by
  rw [HasFreeQuote, Nat.add_comm, List.getElem?_cons_succ, List.getElem?_cons_succ, List.take_succ_cons,
    List.take_succ_cons, even_run_escape]
  rfl

/-- What an escape escapes closes nothing. -/
theorem not_hasFreeQuote_escaped (hq : quote ≠ escape) (d : α) (t : List α) {k : Nat} (hk : k < 2) :
    ¬ HasFreeQuote escape quote (escape :: d :: t) k := by
  rintro ⟨hquote, heven⟩
  obtain rfl | rfl : k = 0 ∨ k = 1 := by omega
  · exact hq (Option.some.inj hquote).symm
  · simp [escapeRun] at heven

/-- The tail of a literal ends behind its first free quote. -/
theorem behindFirst_quotedTailLength (hq : quote ≠ escape) (t : List α) :
    BehindFirst (HasFreeQuote escape quote t) t.length (quotedTailLength escape quote t) := by
  fun_induction quotedTailLength escape quote t with
  | case1 => exact Or.inr ⟨fun p h => by simp [HasFreeQuote] at h, rfl⟩
  | case2 c =>
    by_cases hc : c = quote
    · exact Or.inl ⟨0, hasFreeQuote_zero.mpr hc, fun k hk => absurd hk (Nat.not_lt_zero k), rfl⟩
    · refine Or.inr ⟨fun p h => ?_, rfl⟩
      cases p with
      | zero => exact hc (hasFreeQuote_zero.mp h)
      | succ p => simp [HasFreeQuote] at h
  | case3 d t ih =>
    rw [List.length_cons, List.length_cons, Nat.add_assoc, Nat.add_comm t.length]
    exact ih.shift (fun k hk => not_hasFreeQuote_escaped hq d t hk) (hasFreeQuote_escape d t)
  | case4 d t h => exact Or.inl ⟨0, hasFreeQuote_zero.mpr rfl, fun k hk => absurd hk (Nat.not_lt_zero k), rfl⟩
  | case5 c d t he hc ih =>
    rw [List.length_cons, Nat.add_comm]
    refine ih.shift (fun k hk => ?_) (hasFreeQuote_cons he (d :: t))
    obtain rfl : k = 0 := by omega
    exact fun h => hc (hasFreeQuote_zero.mp h)

/-- The literal closes at a position behind its opening quote: the same quote stands there, and
    the escapes right before it, no further back than position one, are even in number. -/
def ClosesAt (escape : α) (t : List α) (p : Nat) : Prop :=
  1 ≤ p ∧ t[p]? = t.head? ∧ Even (escapeRun escape ((t.take p).drop 1))

theorem closesAt_cons (r : List α) (i : Nat) :
    ClosesAt escape (quote :: r) (1 + i) ↔ HasFreeQuote escape quote r i := by
  rw [ClosesAt, HasFreeQuote, Nat.add_comm, List.getElem?_cons_succ, List.head?_cons, List.take_succ_cons,
    List.drop_succ_cons, List.drop_zero]
  exact and_iff_right (Nat.succ_le_succ (Nat.zero_le i))

theorem behindFirst_quotedLength (hq : quote ≠ escape) (r : List α) :
    BehindFirst (ClosesAt escape (quote :: r)) (quote :: r).length (quotedLength escape (quote :: r)) := by
  rw [List.length_cons, Nat.add_comm]
  refine (behindFirst_quotedTailLength hq r).shift (fun k hk h => ?_) (closesAt_cons r)
  have := h.1
  omega

/-- Over another alphabet a literal is as long. -/
theorem quotedTailLength_map {β : Type} [DecidableEq β] {f : α → β} (hf : Function.Injective f) (t : List α) :
    quotedTailLength (f escape) (f quote) (t.map f) = quotedTailLength escape quote t := by
  fun_induction quotedTailLength escape quote t with
  | case1 => rfl
  | case2 c => rfl
  | case3 d t ih => rw [List.map_cons, List.map_cons, quotedTailLength, if_pos rfl, ih]
  | case4 d t h => rw [List.map_cons, List.map_cons, quotedTailLength, if_neg (hf.ne h), if_pos rfl]
  | case5 c d t he hc ih =>
    rw [List.map_cons, List.map_cons, quotedTailLength, if_neg (hf.ne he), if_neg (hf.ne hc), ← List.map_cons, ih]

theorem quotedLength_map {β : Type} [DecidableEq β] {f : α → β} (hf : Function.Injective f) (t : List α) :
    quotedLength (f escape) (t.map f) = quotedLength escape t := by
  cases t with
  | nil => rfl
  | cons c t => rw [List.map_cons, quotedLength, quotedLength, quotedTailLength_map hf]

end

/-! ## Bytes -/

/-- A text in UTF-8. -/
def utf8 (t : Text) : List UInt8 := t.flatMap String.utf8EncodeChar

theorem map_ofUInt8_utf8 (t : Text) : (utf8 t).map Char.ofUInt8 = bytes t := by
  rw [utf8, List.map_flatMap]
  rfl

theorem ofUInt8_injective : Function.Injective Char.ofUInt8 :=
  Function.LeftInverse.injective toUInt8_ofUInt8

def backslash : UInt8 := '\\'.toUInt8

/-- The quotes a literal can open with. -/
def quoteMarks : List UInt8 := ['\''.toUInt8, '"'.toUInt8, '`'.toUInt8]

/-- A text whose bytes begin with a quote begins with it. -/
theorem head_of_utf8 {t : Text} {q : UInt8} (hq : q ∈ quoteMarks) {r : List UInt8} (h : utf8 t = q :: r) :
    ∃ c u, t = c :: u ∧ IsAscii c := by
  have hascii : IsAscii (Char.ofUInt8 q) := by
    have hall : quoteMarks.all (fun q => decide (IsAscii (Char.ofUInt8 q))) = true := by decide
    exact of_decide_eq_true (List.all_eq_true.mp hall q hq)
  cases t with
  | nil => cases h
  | cons c u =>
    refine ⟨c, u, rfl, ?_⟩
    have hbytes := congrArg (List.map Char.ofUInt8) h
    rw [map_ofUInt8_utf8, List.map_cons] at hbytes
    rcases bytes_cons_cases c u with ⟨hc, -⟩ | ⟨-, d, w, hd, -, hnot, -⟩
    · exact hc
    · rw [hd] at hbytes
      exact absurd ((List.cons.inj hbytes).1 ▸ hascii) hnot

/-- The bytes of a literal are those of its characters. -/
theorem quotedLength_utf8 {t : Text} {q : UInt8} (hq : q ∈ quoteMarks) {r : List UInt8} (h : utf8 t = q :: r) :
    quotedLength backslash (utf8 t) = (utf8 (t.take (quotedLength '\\' t))).length := by
  obtain ⟨c, u, rfl, hc⟩ := head_of_utf8 hq h
  rw [← quotedLength_map ofUInt8_injective, map_ofUInt8_utf8,
    show Char.ofUInt8 backslash = '\\' from by decide, quotedLength_bytes hc, ← length_bytes, ← map_ofUInt8_utf8,
    List.length_map]

/-- Over any bytes, a literal that opens with a quote ends behind the first quote of its kind
    that an even run of backslashes precedes, or with the bytes. In the bytes of a text it ends
    where a character ends. -/
theorem literal_end {q : UInt8} (hq : q ∈ quoteMarks) (r : List UInt8) :
    BehindFirst (ClosesAt backslash (q :: r)) (q :: r).length (quotedLength backslash (q :: r)) ∧
      quotedLength backslash (q :: r) ≤ (q :: r).length ∧
      ∀ t : Text, utf8 t = q :: r →
        quotedLength backslash (q :: r) = (utf8 (t.take (quotedLength '\\' t))).length := by
  have hall : quoteMarks.all (· != backslash) = true := by decide
  have hne : q ≠ backslash := bne_iff_ne.mp (List.all_eq_true.mp hall q hq)
  refine ⟨behindFirst_quotedLength hne r, ?_, fun t ht => ht ▸ quotedLength_utf8 hq ht⟩
  rw [quotedLength, List.length_cons, Nat.add_comm]
  exact Nat.succ_le_succ (quotedTailLength_le backslash q r)

/-- An escaped character of two bytes, an escaped backslash, the quote, and a letter behind it. -/
def quoteSample : Text := "'\\é\\\\'x".toList

theorem literal_end_quoteSample :
    utf8 quoteSample = 39 :: [92, 195, 169, 92, 92, 39, 120] ∧ 39 ∈ quoteMarks ∧
      BehindFirst (ClosesAt backslash [39, 92, 195, 169, 92, 92, 39, 120]) 8
        (quotedLength backslash [39, 92, 195, 169, 92, 92, 39, 120]) ∧
      quotedLength backslash [39, 92, 195, 169, 92, 92, 39, 120] = 7 ∧
      (utf8 (quoteSample.take (quotedLength '\\' quoteSample))).length = 7 := by
  have hbytes : utf8 quoteSample = 39 :: [92, 195, 169, 92, 92, 39, 120] := by decide +kernel
  have hquote : (39 : UInt8) ∈ quoteMarks := by decide
  have hlength : quotedLength backslash [39, 92, 195, 169, 92, 92, 39, 120] = 7 := by decide
  obtain ⟨hend, -, htext⟩ := literal_end hquote [92, 195, 169, 92, 92, 39, 120]
  exact ⟨hbytes, hquote, hend, hlength, (htext quoteSample hbytes).symm.trans hlength⟩

end ClassOutline.Token
