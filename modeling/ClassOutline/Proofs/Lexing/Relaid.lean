import ClassOutline.Proofs.Lexing.Boundaries
import ClassOutline.Proofs.Paths
/-
  ClassOutline.Proofs.Lexing.Relaid — the scanners on text that is laid out anew.

  `Laid` relates two texts that differ in nothing but the white space at the edges of their
  lines. The scanners of the lexer look for ends that hold no white space: a quote, `*/`, the
  first character that belongs to no number. So they find the same ends in both texts, and
  what they leave is laid out anew like what they were given (`Relaid.commentEnd`,
  `Relaid.cutAt_quote`). Heredocs go by lines and are a matter of their own.
-/

namespace ClassOutline.Token

open ClassOutline.Text

/-! ## Texts with other edges -/

/-- Two texts that differ in nothing but the white space at the edges of their lines, up to
    what ends them. In the second no line ends in a blank. -/
inductive Laid (ends : Text → Text → Prop) : Text → Text → Prop
  | stop {t t' : Text} (h : ends t t') : Laid ends t t'
  | same {t t' : Text} (c : Char) (hc : c ≠ '\n' ∧ c ≠ '\r') (hb : isBlank c = true → t'.head? ≠ some '\n')
      (rest : Laid ends t t') : Laid ends (c :: t) (c :: t')
  | line {t t' : Text} (blanks margin margin' : Text) (hb : ∀ c ∈ blanks, isBlank c = true ∧ c ≠ '\n')
      (hm : ∀ c ∈ margin, isIndent c = true) (hm' : ∀ c ∈ margin', isIndent c = true) (rest : Laid ends t t') :
      Laid ends (blanks ++ '\n' :: (margin ++ t)) ('\n' :: (margin' ++ t'))

/-- White space at the end of a text, and a last line that holds nothing. -/
def BlankEnds (t t' : Text) : Prop :=
  (∀ c ∈ t, isBlank c = true) ∧ ∃ margin, t' = '\n' :: margin ∧ ∀ c ∈ margin, isIndent c = true

/-- A text, and the same laid out anew with a last line behind it. -/
abbrev Relaid : Text → Text → Prop := Laid BlankEnds

/-- Two texts that end with the same character. -/
abbrev LaidPart : Text → Text → Prop := Laid fun t t' => t = [] ∧ t' = []

theorem laidPart_nil : LaidPart [] [] := Laid.stop ⟨rfl, rfl⟩

section

variable {ends : Text → Text → Prop} {t t' : Text}

/-- A line of both texts before an end or a line's edges. -/
theorem Laid.append {m : Text} (hm : ∀ c ∈ m, c ≠ '\n' ∧ c ≠ '\r') (hlast : ∀ c ∈ m.getLast?, isBlank c = false)
    (h : Laid ends t t') : Laid ends (m ++ t) (m ++ t') := by
  induction m with
  | nil => exact h
  | cons c m ih =>
    obtain ⟨hc, hm⟩ := List.forall_mem_cons.mp hm
    cases m with
    | nil =>
      refine Laid.same c hc (fun hb => ?_) h
      rw [hlast c rfl] at hb
      cases hb
    | cons d m =>
      refine Laid.same c hc (fun _ hd => ?_) (ih hm hlast)
      exact (hm d (by simp)).1 (Option.some.inj hd)

theorem laidPart_refl {m : Text} (hm : ∀ c ∈ m, c ≠ '\n' ∧ c ≠ '\r') : LaidPart m m := by
  induction m with
  | nil => exact laidPart_nil
  | cons c m ih =>
    obtain ⟨hc, hm⟩ := List.forall_mem_cons.mp hm
    refine Laid.same c hc (fun _ hd => ?_) (ih hm)
    exact (hm '\n' (List.mem_of_head? hd)).1 rfl

theorem drop_length_append_add (a b t : Text) (k : Nat) : (a ++ t).drop ((a ++ b).length + k) = t.drop (b.length + k) := by
  rw [List.length_append, Nat.add_assoc, List.drop_length_add_append]

end

section

variable {t t' : Text}

/-- A character that is no blank stands in both. -/
theorem Relaid.of_cons {c : Char} {r : Text} (h : Relaid (c :: r) t') (hc : isBlank c = false) :
    ∃ r', t' = c :: r' ∧ Relaid r r' := by
  generalize ht : c :: r = t at h
  cases h with
  | stop h =>
    have := h.1 c (by simp [← ht])
    rw [hc] at this
    cases this
  | same d _ _ rest =>
    obtain ⟨rfl, rfl⟩ := List.cons.inj ht
    exact ⟨_, rfl, rest⟩
  | line blanks margin margin' hb _ _ rest =>
    cases blanks with
    | nil =>
      obtain ⟨rfl, -⟩ := List.cons.inj ht
      cases hc
    | cons d blanks =>
      obtain ⟨rfl, -⟩ := List.cons.inj ht
      rw [(hb c (by simp)).1] at hc
      cases hc

/-- What begins no line of the second text stands in both. -/
theorem Relaid.of_cons_right {c : Char} {r' : Text} (h : Relaid t (c :: r')) (hc : c ≠ '\n') :
    c ≠ '\r' ∧ (isBlank c = true → r'.head? ≠ some '\n') ∧ ∃ r, t = c :: r ∧ Relaid r r' := by
  generalize ht : c :: r' = t' at h
  cases h with
  | stop h =>
    obtain ⟨-, margin, rfl, -⟩ := h
    exact absurd (List.cons.inj ht).1 hc
  | same d hd hb rest =>
    obtain ⟨rfl, rfl⟩ := List.cons.inj ht
    exact ⟨hd.2, hb, _, rfl, rest⟩
  | line => exact absurd (List.cons.inj ht).1 hc

/-- At the end of a line of the second text: the first ends there, or its line does. -/
theorem Relaid.of_newline {r' : Text} (h : Relaid t ('\n' :: r')) :
    ((∀ c ∈ t, isBlank c = true) ∧ ∀ c ∈ r', isIndent c = true) ∨
      ∃ blanks margin margin' u u', t = blanks ++ '\n' :: (margin ++ u) ∧ r' = margin' ++ u' ∧
        (∀ c ∈ blanks, isBlank c = true ∧ c ≠ '\n') ∧ (∀ c ∈ margin, isIndent c = true) ∧
        (∀ c ∈ margin', isIndent c = true) ∧ Relaid u u' := by
  generalize ht : '\n' :: r' = t' at h
  cases h with
  | stop h =>
    obtain ⟨hblank, margin, rfl, hm⟩ := h
    obtain ⟨-, rfl⟩ := List.cons.inj ht
    exact Or.inl ⟨hblank, hm⟩
  | same d hd => exact absurd (List.cons.inj ht).1.symm hd.1
  | line blanks margin margin' hb hm hm' rest =>
    obtain ⟨-, rfl⟩ := List.cons.inj ht
    exact Or.inr ⟨blanks, margin, margin', _, _, rfl, rfl, hb, hm, hm', rest⟩

/-- Up to the end of the first line of the second text both are the same. -/
theorem Relaid.firstLine (h : Relaid t t') :
    ∃ m u u', t = m ++ u ∧ t' = m ++ '\n' :: u' ∧ (∀ c ∈ m, c ≠ '\n' ∧ c ≠ '\r') ∧
      (∀ c ∈ m.getLast?, isBlank c = false) ∧ Relaid u ('\n' :: u') := by
  induction h with
  | @stop t t' h =>
    obtain ⟨hblank, margin, rfl, hm⟩ := h
    exact ⟨[], t, margin, rfl, rfl, by simp, by simp, Laid.stop ⟨hblank, margin, rfl, hm⟩⟩
  | same c hc hb rest ih =>
    obtain ⟨m, u, u', rfl, rfl, hm, hlast, hu⟩ := ih
    refine ⟨c :: m, u, u', rfl, rfl, ?_, ?_, hu⟩
    · exact List.forall_mem_cons.mpr ⟨hc, hm⟩
    · cases m with
      | nil =>
        intro d hd
        obtain rfl : c = d := by simpa using hd
        cases hblank : isBlank c with
        | false => rfl
        | true => exact absurd rfl (hb hblank)
      | cons d m => simpa using hlast
  | @line t t' blanks margin margin' hb hm hm' rest ih =>
    exact ⟨[], _, margin' ++ t', rfl, rfl, by simp, by simp, Laid.line blanks margin margin' hb hm hm' rest⟩

/-- A line of the second text ends, or both texts begin with the same character. -/
theorem Relaid.head_cases (h : Relaid t t') :
    (∃ u', t' = '\n' :: u') ∨ ∃ c r r', t = c :: r ∧ t' = c :: r' := by
  cases h with
  | stop h =>
    obtain ⟨-, margin, rfl, -⟩ := h
    exact Or.inl ⟨margin, rfl⟩
  | same c => exact Or.inr ⟨c, _, _, rfl, rfl⟩
  | line blanks margin margin' => exact Or.inl ⟨_, rfl⟩

/-- What stands at the end of a line of the first text may go. -/
theorem Relaid.drop_blanks {u' : Text} (h : Relaid t ('\n' :: u')) {k : Nat}
    (hk : k ≤ (t.takeWhile (· != '\n')).length) : Relaid (t.drop k) ('\n' :: u') := by
  rcases h.of_newline with ⟨hblank, hm⟩ | ⟨blanks, margin, margin', u, v, rfl, rfl, hb, hm, hm', hrest⟩
  · exact Laid.stop ⟨fun c hc => hblank c (List.mem_of_mem_drop hc), u', rfl, hm⟩
  · have hline : (blanks ++ '\n' :: (margin ++ u)).takeWhile (· != '\n') = blanks := by
      refine takeWhile_append_eq (fun c hc => ?_) (by simp)
      simpa using (hb c hc).2
    rw [hline] at hk
    rw [List.drop_append_of_le_length hk]
    exact Laid.line _ margin margin' (fun c hc => hb c (List.mem_of_mem_drop hc)) hm hm' hrest

/-! ## What begins both -/

theorem isBlank_of_head?_edge {blanks r : Text} (hb : ∀ c ∈ blanks, isBlank c = true) :
    ∀ c ∈ (blanks ++ '\n' :: r).head?, isBlank c = true := by
  intro c hc
  cases blanks with
  | nil =>
    obtain rfl : '\n' = c := Option.some.inj hc
    rfl
  | cons d blanks =>
    obtain rfl : d = c := Option.some.inj hc
    exact hb d (by simp)

theorem Relaid.head?_any (h : Relaid t t') {p : Char → Bool} (hp : ∀ c, isBlank c = true → p c = false) :
    t'.head?.any p = t.head?.any p := by
  have hnewline : p '\n' = false := hp '\n' rfl
  have hblank : ∀ {u : Text}, (∀ c ∈ u.head?, isBlank c = true) → u.head?.any p = false := by
    intro u hu
    cases hd : u.head? with
    | none => rfl
    | some d => exact hp d (hu d hd)
  cases h with
  | stop h =>
    obtain ⟨ht, margin, rfl, -⟩ := h
    rw [hblank fun c hc => ht c (List.mem_of_head? hc)]
    exact hnewline
  | same c => rfl
  | @line t t' blanks margin margin' hb =>
    rw [hblank (isBlank_of_head?_edge fun c hc => (hb c hc).1)]
    exact hnewline

theorem Relaid.startsWith_drop {p : Text} (hp : ∀ c ∈ p, isBlank c = false) (h : Relaid t t') :
    startsWith t' p = startsWith t p ∧ (startsWith t p = true → Relaid (t.drop p.length) (t'.drop p.length)) := by
  induction p generalizing t t' with
  | nil => simpa [startsWith] using h
  | cons e p ih =>
    obtain ⟨he, hp⟩ := List.forall_mem_cons.mp hp
    by_cases ht : ∃ r, t = e :: r
    · obtain ⟨r, rfl⟩ := ht
      obtain ⟨r', rfl, hr⟩ := h.of_cons he
      obtain ⟨hsame, hdrop⟩ := ih hp hr
      have hcons : ∀ v, startsWith (e :: v) (e :: p) = startsWith v p := fun v => by simp [startsWith, List.isPrefixOf]
      rw [hcons, hcons]
      exact ⟨hsame, hdrop⟩
    · have hno : startsWith t (e :: p) = false := by
        cases hs : startsWith t (e :: p) with
        | false => rfl
        | true =>
          obtain ⟨r, hr⟩ := startsWith_iff.mp hs
          exact absurd ⟨p ++ r, hr⟩ ht
      have hno' : startsWith t' (e :: p) = false := by
        cases hs : startsWith t' (e :: p) with
        | false => rfl
        | true =>
          obtain ⟨r, rfl⟩ := startsWith_iff.mp hs
          have hne : e ≠ '\n' := by
            rintro rfl
            cases he
          obtain ⟨-, -, r, rfl, -⟩ := h.of_cons_right hne
          exact absurd ⟨r, rfl⟩ ht
      rw [hno, hno']
      exact ⟨rfl, fun hs => by cases hs⟩

theorem Relaid.startsWith_eq (h : Relaid t t') {p : Text} (hp : p.all (!isBlank ·) = true) :
    startsWith t' p = startsWith t p :=
  (h.startsWith_drop fun c hc => by simpa using List.all_eq_true.mp hp c hc).1

theorem Relaid.drop_of_startsWith (h : Relaid t t') {p : Text} (hp : p.all (!isBlank ·) = true)
    (hs : startsWith t p = true) : Relaid (t.drop p.length) (t'.drop p.length) :=
  (h.startsWith_drop fun c hc => by simpa using List.all_eq_true.mp hp c hc).2 hs

/-- A run of characters ends in both with the line at the latest. -/
theorem Relaid.dropWhile (h : Relaid t t') {p : Char → Bool} (hp : p '\n' = false) :
    Relaid (t.dropWhile p) (t'.dropWhile p) := by
  have hstay : ∀ u : Text, ('\n' :: u).dropWhile p = '\n' :: u := fun u => List.dropWhile_cons_of_neg (by simp [hp])
  induction h with
  | stop h =>
    obtain ⟨ht, margin, rfl, hm⟩ := h
    rw [hstay]
    exact Laid.stop ⟨fun c hc => ht c ((List.dropWhile_sublist p).mem hc), margin, rfl, hm⟩
  | same c hc hb rest ih =>
    by_cases hpc : p c = true
    · rw [List.dropWhile_cons_of_pos hpc, List.dropWhile_cons_of_pos hpc]
      exact ih
    · rw [List.dropWhile_cons_of_neg hpc, List.dropWhile_cons_of_neg hpc]
      exact Laid.same c hc hb rest
  | @line t t' blanks margin margin' hb hm hm' rest ih =>
    rw [hstay]
    have hdrop : (blanks ++ '\n' :: (margin ++ t)).dropWhile p = blanks.dropWhile p ++ '\n' :: (margin ++ t) := by
      rw [List.dropWhile_append]
      split
      · rename_i he
        rw [List.isEmpty_iff.mp he, hstay, List.nil_append]
      · rfl
    rw [hdrop]
    exact Laid.line _ margin margin' (fun c hc => hb c ((List.dropWhile_sublist p).mem hc)) hm hm' rest

/-! ## Numbers and operators -/

theorem isCodeBlank_or_of_isBlank {c : Char} (h : isBlank c = true) : isCodeBlank c = true ∨ 0x80 ≤ c.toNat := by
  simp only [isBlank, blankRanges, List.any_cons, List.any_nil, Bool.or_eq_true, Bool.or_false, Bool.and_eq_true,
    decide_eq_true_eq] at h
  by_cases h20 : c.toNat = 0x20
  · left
    have hc : c = ' ' := Char.ext (UInt32.toNat_inj.mp h20)
    rw [hc]
    rfl
  · by_cases hlow : 0x09 ≤ c.toNat ∧ c.toNat ≤ 0x0d
    · left
      simp [isCodeBlank, hlow]
    · right
      omega

/-- Blanks that begin no name separate tokens. -/
theorem isCodeBlank_of_isBlank {c : Char} (h : isBlank c = true) (hn : isNameStart c = false) : isCodeBlank c = true := by
  rcases isCodeBlank_or_of_isBlank h with hc | hc
  · exact hc
  · simp [isNameStart, hc] at hn

theorem not_isBlank_of_isAscii {c : Char} (ha : IsAscii c) (h : isCodeBlank c = false) : isBlank c = false := by
  cases hb : isBlank c with
  | false => rfl
  | true =>
    rcases isCodeBlank_or_of_isBlank hb with hc | hc
    · rw [h] at hc
      cases hc
    · exact absurd ha (Nat.not_lt.mpr hc)

theorem not_isCodeBlank_of_isNameChar {c : Char} (h : isNameChar c = true) : isCodeBlank c = false := by
  obtain ⟨hle, -⟩ := bounds_of_isNameChar h
  cases hb : isCodeBlank c with
  | false => rfl
  | true =>
    simp only [isCodeBlank, Bool.or_eq_true, beq_iff_eq, Bool.and_eq_true, decide_eq_true_eq] at hb
    rcases hb with rfl | hb
    · exact absurd hle (by decide)
    · omega

theorem not_isBlank_of_word {c : Char} (h : (c.isAlphanum || c == '_') = true) : isBlank c = false := by
  refine not_isBlank_of_isAscii (isAscii_of_numberChar h) (not_isCodeBlank_of_isNameChar ?_)
  simp only [Char.isAlphanum, Bool.or_eq_true] at h
  simp only [isNameChar, isNameStart, Bool.or_eq_true]
  rcases h with (h | h) | h
  · exact Or.inl (Or.inl (Or.inl h))
  · exact Or.inr h
  · exact Or.inl (Or.inl (Or.inr h))

theorem not_isDigit_of_isBlank (c : Char) (h : isBlank c = true) : c.isDigit = false := by
  cases hd : c.isDigit with
  | false => rfl
  | true =>
    rw [not_isBlank_of_word (by simp [Char.isAlphanum, hd])] at h
    cases h

theorem not_isSign_of_isBlank (c : Char) (h : isBlank c = true) : (c == '+' || c == '-') = false := by
  cases hs : (c == '+' || c == '-') with
  | false => rfl
  | true =>
    simp only [Bool.or_eq_true, beq_iff_eq] at hs
    rcases hs with rfl | rfl <;> cases h

/-- Where the second text has a line's end, the first has a blank or ends. -/
theorem Relaid.head_of_newline {u' : Text} (h : Relaid t ('\n' :: u')) : ∀ c ∈ t.head?, isBlank c = true := by
  intro c hc
  rcases h.of_newline with ⟨hblank, -⟩ | ⟨blanks, margin, -, u, -, rfl, -, hb, -⟩
  · exact hblank c (List.mem_of_head? hc)
  · exact isBlank_of_head?_edge (fun d hd => (hb d hd).1) c hc

theorem numberLengthFrom_of_blank {c : Char} (hc : isBlank c = true) (seen : Bool) (r : Text) :
    numberLengthFrom seen (c :: r) = 0 := by
  have hword : (c.isAlphanum || c == '_') = false := by
    cases hw : (c.isAlphanum || c == '_') with
    | false => rfl
    | true =>
      rw [not_isBlank_of_word hw] at hc
      cases hc
  have hdot : (c == '.') = false := by
    cases hd : c == '.' with
    | false => rfl
    | true =>
      rw [beq_iff_eq.mp hd] at hc
      cases hc
  exact numberLengthFrom_eq_zero hword hdot seen r

/-- A number holds no blank, so it ends in both where it ends in one. -/
theorem Relaid.numberLengthFrom (h : Relaid t t') (seen : Bool) :
    numberLengthFrom seen t' = numberLengthFrom seen t ∧
      Relaid (t.drop (numberLengthFrom seen t)) (t'.drop (numberLengthFrom seen t)) := by
  induction hlen : t.length using Nat.strong_induction_on generalizing t t' seen with
  | _ n ih =>
    obtain ⟨c, r', rfl⟩ : ∃ c r', t' = c :: r' := by
      obtain ⟨m, u, u', -, rfl, -⟩ := h.firstLine
      exact List.exists_cons_of_ne_nil (List.append_ne_nil_of_right_ne_nil m (List.cons_ne_nil _ _))
    by_cases hc : c = '\n'
    · -- neither goes on with a number
      subst hc
      have hhead := h.head_of_newline
      have hzero : Token.numberLengthFrom seen t = 0 := by
        cases t with
        | nil => rfl
        | cons d r => exact numberLengthFrom_of_blank (hhead d rfl) seen r
      rw [hzero]
      exact ⟨numberLengthFrom_of_blank rfl seen r', h⟩
    · obtain ⟨-, -, r, rfl, hr⟩ := h.of_cons_right hc
      have hsign := hr.head?_any not_isSign_of_isBlank
      have hdigit := hr.head?_any not_isDigit_of_isBlank
      have hshort : r.length < n := by rw [← hlen]; exact Nat.lt_succ_self _
      rw [numberLengthFrom_cons, numberLengthFrom_cons, hsign, hdigit]
      split
      · split
        · rename_i he
          obtain ⟨d, u, rfl, hd⟩ := exists_sign he
          have hblank : isBlank d = false := by
            cases hb : isBlank d with
            | false => rfl
            | true =>
              rw [not_isSign_of_isBlank d hb] at hd
              cases hd
          obtain ⟨u', rfl, hu⟩ := hr.of_cons hblank
          obtain ⟨hlength, hdrop⟩ := ih u.length (Nat.lt_of_succ_lt hshort) hu seen rfl
          rw [List.drop_succ_cons, List.drop_zero, List.drop_succ_cons, List.drop_zero, hlength, Nat.add_comm 2]
          exact ⟨rfl, hdrop⟩
        · obtain ⟨hlength, hdrop⟩ := ih r.length hshort hr seen rfl
          rw [hlength, Nat.add_comm 1]
          exact ⟨rfl, hdrop⟩
      · split
        · obtain ⟨hlength, hdrop⟩ := ih r.length hshort hr true rfl
          rw [hlength, Nat.add_comm 1]
          exact ⟨rfl, hdrop⟩
        · exact ⟨rfl, h⟩

theorem Relaid.compoundLength? (h : Relaid t t') :
    compoundLength? t' = compoundLength? t ∧ ∀ n, compoundLength? t = some n → Relaid (t.drop n) (t'.drop n) := by
  have hplain : compounds.all (·.all (!isBlank ·)) = true := by decide
  constructor
  · refine congrArg (Option.map List.length) (List.find?_congr fun p hp => ?_)
    exact h.startsWith_eq (List.all_eq_true.mp hplain p hp)
  · intro n hn
    obtain ⟨p, hp, rfl⟩ := Option.map_eq_some_iff.mp hn
    exact h.drop_of_startsWith (List.all_eq_true.mp hplain p (List.mem_of_find?_eq_some hp)) (List.find?_some hp)

/-! ## Comments -/

/-- A comment ends in both behind the same mark. -/
theorem Relaid.commentEnd (h : Relaid t t') {body : Text} (hbody : beforeFirst? "*/".toList t = some body) :
    ∃ body', beforeFirst? "*/".toList t' = some body' ∧
      Relaid (t.drop (body.length + 2)) (t'.drop (body'.length + 2)) := by
  have hmark : "*/".toList.all (!isBlank ·) = true := by decide
  induction h generalizing body with
  | stop h =>
    obtain ⟨r, hr⟩ := eq_append_of_beforeFirst? hbody
    have : isBlank '*' = true := h.1 '*' (by rw [hr]; simp)
    cases this
  | same c hc hb rest ih =>
    have hall := Laid.same c hc hb rest
    rw [beforeFirst?_cons] at hbody ⊢
    rw [Relaid.startsWith_eq hall hmark]
    split at hbody
    · rename_i hs
      obtain rfl := Option.some.inj hbody
      rw [if_pos hs]
      exact ⟨[], rfl, Relaid.drop_of_startsWith hall hmark hs⟩
    · rename_i hs
      obtain ⟨b, hb', rfl⟩ := Option.map_eq_some_iff.mp hbody
      obtain ⟨b', hb'', hdrop⟩ := ih hb'
      rw [if_neg hs, hb'']
      exact ⟨c :: b', rfl, hdrop⟩
  | @line t t' blanks margin margin' hb hm hm' rest ih =>
    -- the edges of the line hold no star
    have hleft : ∀ c ∈ blanks ++ '\n' :: margin, c ≠ '*' := by
      intro c hc he
      subst he
      rcases List.mem_append.mp hc with hc | hc
      · cases (hb '*' hc).1
      · rcases List.mem_cons.mp hc with hc | hc
        · cases hc
        · cases hm '*' hc
    have hright : ∀ c ∈ '\n' :: margin', c ≠ '*' := by
      intro c hc he
      subst he
      rcases List.mem_cons.mp hc with hc | hc
      · cases hc
      · cases hm' '*' hc
    have hassoc : blanks ++ '\n' :: (margin ++ t) = (blanks ++ '\n' :: margin) ++ t := by simp
    rw [hassoc, beforeFirst?_append (p := '*') rfl hleft] at hbody
    obtain ⟨b, hb', rfl⟩ := Option.map_eq_some_iff.mp hbody
    obtain ⟨b', hb'', hdrop⟩ := ih hb'
    refine ⟨'\n' :: margin' ++ b', ?_, ?_⟩
    · rw [← List.cons_append, beforeFirst?_append (p := '*') rfl hright, hb'', Option.map_some]
    · rw [hassoc, ← List.cons_append, drop_length_append_add, drop_length_append_add]
      exact hdrop

/-- A comment of one line, without a tag: in the second text it ends with the line. -/
theorem Relaid.lineComment (h : Relaid t t') (htag : beforeFirst? "?>".toList (t.takeWhile (· != '\n')) = none) :
    Relaid (t.drop (lineCommentLength t)) (t'.drop (lineCommentLength t')) := by
  obtain ⟨m, u, u', rfl, rfl, hm, hlast, hu⟩ := h.firstLine
  have hne : ∀ c ∈ m, (c != '\n') = true := fun c hc => by simpa using (hm c hc).1
  have hline : (m ++ u).takeWhile (· != '\n') = m ++ u.takeWhile (· != '\n') := List.takeWhile_append_of_pos hne
  have hline' : (m ++ '\n' :: u').takeWhile (· != '\n') = m := takeWhile_append_eq hne (by simp)
  -- the beginning of a line without a tag has none either
  have htag' : beforeFirst? "?>".toList m = none := by
    cases hb : beforeFirst? "?>".toList m with
    | none => rfl
    | some b =>
      obtain ⟨r, hr⟩ := eq_append_of_beforeFirst? hb
      have hle : b.length + "?>".toList.length ≤ m.length := by
        rw [hr]
        simp
      have hnil : beforeFirst? "?>".toList (m ++ []) = some b := by rwa [List.append_nil]
      rw [hline, beforeFirst?_shared hnil hle] at htag
      cases htag
  have hreturn : dropReturn m = m := by
    rcases dropTail_cases ['\r'] m with hr | ⟨hr, -⟩
    · exact absurd rfl (hm '\r' (by rw [hr]; simp)).2
    · exact hr
  have hlength' : lineCommentLength (m ++ '\n' :: u') = m.length := by
    simp only [lineCommentLength, hline', htag', hreturn]
  have hlength : ∃ k, lineCommentLength (m ++ u) = m.length + k ∧ k ≤ (u.takeWhile (· != '\n')).length := by
    have hcut : lineCommentLength (m ++ u) = (dropReturn (m ++ u.takeWhile (· != '\n'))).length := by
      rw [hline] at htag
      simp only [lineCommentLength, hline, htag]
    have hle : (dropReturn (m ++ u.takeWhile (· != '\n'))).length ≤ (m ++ u.takeWhile (· != '\n')).length :=
      length_dropTail_le _ _
    have hge : m.length ≤ (dropReturn (m ++ u.takeWhile (· != '\n'))).length := by
      cases hv : u.takeWhile (· != '\n') with
      | nil => rw [List.append_nil, hreturn]
      | cons c v => exact length_le_dropReturn m c v
    rw [List.length_append] at hle
    rw [hcut]
    exact ⟨(dropReturn (m ++ u.takeWhile (· != '\n'))).length - m.length, by omega, by omega⟩
  obtain ⟨k, hk, hle⟩ := hlength
  rw [hlength', List.drop_left' rfl, hk, List.drop_length_add_append]
  exact hu.drop_blanks hle

/-! ## Quoted literals -/

/-- A quote closes a literal at a distance behind the one that opens it. -/
inductive Closes (quote : Char) : Text → Nat → Prop
  | here (r : Text) : Closes quote (quote :: r) 1
  | escaped (d : Char) (r : Text) (n : Nat) (rest : Closes quote r n) : Closes quote ('\\' :: d :: r) (n + 2)
  | plain (c : Char) (r : Text) (n : Nat) (he : c ≠ '\\') (hq : c ≠ quote) (rest : Closes quote r n) :
      Closes quote (c :: r) (n + 1)

theorem Closes.mem {quote : Char} {n : Nat} (h : Closes quote t n) : quote ∈ t := by
  induction h with
  | here r => simp
  | escaped d r n _ ih => simp [ih]
  | plain c r n _ _ _ ih => simp [ih]

theorem Closes.length {quote : Char} (hq : quote ≠ '\\') {n : Nat} (h : Closes quote t n) :
    quotedTailLength '\\' quote t = n := by
  induction h with
  | here r => cases r <;> simp [quotedTailLength, hq]
  | escaped d r n _ ih => rw [quotedTailLength, if_pos rfl, ih, Nat.add_comm]
  | plain c r n he hq rest ih => rw [quotedTailLength_cons_of_ne he hq, ih, Nat.add_comm]

/-- A literal that a line behind it is no part of is closed. -/
theorem closes_of_length_le {quote : Char} {w : Text}
    (h : quotedTailLength '\\' quote (w ++ ['\n']) ≤ w.length) (x : Text) :
    ∃ n, n ≤ w.length ∧ Closes quote (w ++ x) n := by
  fun_induction quotedTailLength '\\' quote w with
  | case1 => exact absurd h (Nat.not_succ_le_zero 0)
  | case2 d =>
    simp only [List.singleton_append, List.length_singleton, quotedTailLength] at h ⊢
    split at h
    · omega
    · split at h
      · rename_i hq
        subst hq
        exact ⟨1, Nat.le_refl 1, Closes.here x⟩
      · omega
  | case3 d r ih =>
    simp only [List.cons_append, List.length_cons, quotedTailLength, if_true] at h ⊢
    obtain ⟨n, hn, hr⟩ := ih (by omega)
    exact ⟨n + 2, by omega, Closes.escaped d _ n hr⟩
  | case4 d r hd => exact ⟨1, by simp, Closes.here _⟩
  | case5 c d r hd hq ih =>
    simp only [List.cons_append, List.length_cons, quotedTailLength, if_neg hd, if_neg hq] at h ih ⊢
    obtain ⟨n, hn, hr⟩ := ih (by omega)
    exact ⟨n + 1, by omega, Closes.plain c _ n hd hq hr⟩

theorem Closes.of_append {quote : Char} {p : Text} (hp : ∀ c ∈ p, c ≠ '\\' ∧ c ≠ quote) {n : Nat}
    (h : Closes quote (p ++ t) n) : ∃ k, n = p.length + k ∧ Closes quote t k := by
  induction p generalizing n with
  | nil => exact ⟨n, (Nat.zero_add n).symm, h⟩
  | cons c p ih =>
    obtain ⟨⟨he, hq⟩, hp⟩ := List.forall_mem_cons.mp hp
    rw [List.cons_append] at h
    generalize hu : p ++ t = u at h
    cases h with
    | here => exact absurd rfl hq
    | escaped => exact absurd rfl he
    | plain _ _ n _ _ rest =>
      obtain ⟨k, rfl, hk⟩ := ih hp (hu ▸ rest)
      exact ⟨k, by rw [List.length_cons]; omega, hk⟩

theorem Closes.append {quote : Char} {p : Text} (hp : ∀ c ∈ p, c ≠ '\\' ∧ c ≠ quote) {k : Nat}
    (h : Closes quote t k) : Closes quote (p ++ t) (p.length + k) := by
  induction p with
  | nil => rwa [List.nil_append, List.length_nil, Nat.zero_add]
  | cons c p ih =>
    obtain ⟨⟨he, hq⟩, hp⟩ := List.forall_mem_cons.mp hp
    have := Closes.plain c _ _ he hq (ih hp)
    rwa [Nat.add_right_comm] at this

/-- Both texts, cut so that what is before the cuts and what is behind them is laid out anew. -/
def CutAt (t t' : Text) (n n' : Nat) : Prop := LaidPart (t.take n) (t'.take n') ∧ Relaid (t.drop n) (t'.drop n')

theorem CutAt.cons {n n' : Nat} (h : CutAt t t' n n') {c : Char} (hc : c ≠ '\n' ∧ c ≠ '\r')
    (hb : isBlank c = true → t'.head? ≠ some '\n') : CutAt (c :: t) (c :: t') (n + 1) (n' + 1) := by
  refine ⟨?_, h.2⟩
  rw [List.take_succ_cons, List.take_succ_cons]
  refine Laid.same c hc (fun hblank hhead => hb hblank ?_) h.1
  rw [← hhead]
  cases n' with
  | zero => cases hhead
  | succ k => cases t' <;> rfl

/-- Where one line ends and the next begins: blanks, a newline and a margin. -/
theorem edge_append (blanks margin v : Text) : blanks ++ '\n' :: (margin ++ v) = (blanks ++ '\n' :: margin) ++ v := by
  rw [List.append_assoc, List.cons_append]

theorem isBlank_of_mem_edge {blanks margin : Text} (hb : ∀ c ∈ blanks, isBlank c = true ∧ c ≠ '\n')
    (hm : ∀ c ∈ margin, isIndent c = true) : ∀ c ∈ blanks ++ '\n' :: margin, isBlank c = true := by
  intro c hc
  rcases List.mem_append.mp hc with hc | hc
  · exact (hb c hc).1
  · rcases List.mem_cons.mp hc with rfl | hc
    · rfl
    · exact isBlank_of_isIndent (hm c hc)

theorem CutAt.line {n n' : Nat} (h : CutAt t t' n n') {blanks margin margin' : Text}
    (hb : ∀ c ∈ blanks, isBlank c = true ∧ c ≠ '\n') (hm : ∀ c ∈ margin, isIndent c = true)
    (hm' : ∀ c ∈ margin', isIndent c = true) :
    CutAt (blanks ++ '\n' :: (margin ++ t)) ('\n' :: (margin' ++ t')) ((blanks ++ '\n' :: margin).length + n)
      (('\n' :: margin').length + n') := by
  rw [edge_append, ← List.cons_append]
  refine ⟨?_, ?_⟩
  · rw [List.take_length_add_append, List.take_length_add_append, ← edge_append]
    exact Laid.line blanks margin margin' hb hm hm' h.1
  · rw [List.drop_length_add_append, List.drop_length_add_append]
    exact h.2

section

variable {quote : Char} (hquote : isBlank quote = false)

include hquote in
/-- Blanks neither close a literal nor escape what does. -/
theorem plain_of_isBlank {p : Text} (hp : ∀ c ∈ p, isBlank c = true) : ∀ c ∈ p, c ≠ '\\' ∧ c ≠ quote := by
  intro c hc
  have hb := hp c hc
  refine ⟨?_, ?_⟩ <;> rintro rfl
  · cases hb
  · rw [hquote] at hb
    cases hb

include hquote in
theorem not_closes_of_blankEnds {n : Nat} (h : BlankEnds t t') : ¬ Closes quote t n := by
  intro hc
  have hb := h.1 quote hc.mem
  rw [hquote] at hb
  cases hb

include hquote in
/-- A literal goes on behind the end of a line, also behind one that is escaped. -/
theorem Closes.of_escaped_edge {e : Text} (he : ∀ c ∈ e, isBlank c = true) (hne : e ≠ []) {d : Char} {r : Text} {n : Nat}
    (hd : d :: r = e ++ t) (h : Closes quote r n) : ∃ k, n + 1 = e.length + k ∧ Closes quote t k := by
  obtain ⟨f, p, rfl⟩ := List.exists_cons_of_ne_nil hne
  obtain ⟨-, rfl⟩ := List.cons.inj hd
  obtain ⟨k, rfl, hk⟩ := h.of_append (plain_of_isBlank hquote fun c hc => he c (List.mem_cons_of_mem f hc))
  exact ⟨k, by rw [List.length_cons]; omega, hk⟩

include hquote in
/-- A literal that is closed is closed in both by the same quote. -/
theorem Relaid.cutAt_quote {n : Nat} (h : Relaid t t') (hc : Closes quote t n) :
    ∃ n', Closes quote t' n' ∧ CutAt t t' n n' := by
  induction hlen : t.length using Nat.strong_induction_on generalizing t t' n with
  | _ len ih =>
    cases h with
    | stop h => exact absurd hc (not_closes_of_blankEnds hquote h)
    | @same t t' c hchar hb rest =>
      rw [List.length_cons] at hlen
      cases hc with
      | here =>
        refine ⟨1, Closes.here t', ?_, rest⟩
        exact Laid.same quote hchar (fun hblank => absurd hblank (by simp [hquote])) laidPart_nil
      | plain _ _ n he hq hr =>
        obtain ⟨n', hn', hcut⟩ := ih t.length (by omega) rest hr rfl
        exact ⟨n' + 1, Closes.plain c t' n' he hq hn', hcut.cons hchar hb⟩
      | escaped d r n hr =>
        generalize hd : d :: r = v at rest
        cases rest with
        | stop h => exact absurd hr (not_closes_of_blankEnds hquote ⟨fun c hc => h.1 c (hd ▸ List.mem_cons_of_mem d hc), h.2⟩)
        | @same u u' e he hbe rest =>
          obtain ⟨rfl, rfl⟩ := List.cons.inj hd
          obtain ⟨n', hn', hcut⟩ := ih r.length (by simp only [List.length_cons] at hlen; omega) rest hr rfl
          exact ⟨n' + 2, Closes.escaped d _ n' hn', (hcut.cons he hbe).cons hchar hb⟩
        | @line u u' blanks margin margin' hbl hm hm' rest =>
          -- in the second text it is the newline that is escaped
          have hshort : u.length < len := by
            have := congrArg List.length hd
            simp only [List.length_append, List.length_cons] at this hlen
            omega
          rw [edge_append] at hd
          obtain ⟨k, hk, hu⟩ := hr.of_escaped_edge hquote (isBlank_of_mem_edge hbl hm) (by simp) hd
          obtain ⟨k', hk', hcut⟩ := ih u.length hshort rest hu rfl
          have hcount : ('\n' :: margin').length + k' + 1 = margin'.length + k' + 2 := by
            rw [List.length_cons]
            omega
          have hcut := (hcut.line hbl hm hm').cons hchar hb
          rw [← hk, hcount] at hcut
          refine ⟨margin'.length + k' + 2, Closes.escaped '\n' _ _ (hk'.append ?_), hcut⟩
          exact plain_of_isBlank hquote fun c hc => isBlank_of_isIndent (hm' c hc)
    | @line u u' blanks margin margin' hb hm hm' rest =>
      rw [edge_append] at hc
      obtain ⟨k, rfl, hk⟩ := hc.of_append (plain_of_isBlank hquote (isBlank_of_mem_edge hb hm))
      have hshort : u.length < len := by
        simp only [List.length_append, List.length_cons] at hlen
        omega
      obtain ⟨k', hk', hcut⟩ := ih u.length hshort rest hk rfl
      refine ⟨('\n' :: margin').length + k', ?_, hcut.line hb hm hm'⟩
      have hedge : ∀ d ∈ [] ++ '\n' :: margin', isBlank d = true := isBlank_of_mem_edge (by simp) hm'
      rw [← List.cons_append]
      exact hk'.append (plain_of_isBlank hquote hedge)

end

theorem CutAt.append {m : Text} (hm : ∀ c ∈ m, c ≠ '\n' ∧ c ≠ '\r') (hlast : ∀ c ∈ m.getLast?, isBlank c = false)
    {n n' : Nat} (h : CutAt t t' n n') : CutAt (m ++ t) (m ++ t') (m.length + n) (m.length + n') := by
  refine ⟨?_, ?_⟩
  · rw [List.take_length_add_append, List.take_length_add_append]
    exact h.1.append hm hlast
  · rw [List.drop_length_add_append, List.drop_length_add_append]
    exact h.2

/-- A cut within a line of both texts. -/
theorem cutAt_shared {m : Text} (hm : ∀ c ∈ m, c ≠ '\n' ∧ c ≠ '\r') (hlast : ∀ c ∈ m.getLast?, isBlank c = false)
    (h : Relaid t t') {n : Nat} (hn : n ≤ m.length) : CutAt (m ++ t) (m ++ t') n n := by
  refine ⟨?_, ?_⟩
  · rw [List.take_append_of_le_length hn, List.take_append_of_le_length hn]
    exact laidPart_refl fun c hc => hm c (List.mem_of_mem_take hc)
  · rw [List.drop_append_of_le_length hn, List.drop_append_of_le_length hn]
    refine h.append (fun c hc => hm c (List.mem_of_mem_drop hc)) fun c hc => hlast c ?_
    have hne : m.drop n ≠ [] := fun he => by simp [he] at hc
    rw [List.getLast?_drop, if_neg (by simpa using hne)] at hc
    exact hc

end

end ClassOutline.Token
