import ClassOutline.Proofs.Lexing.Extents
/-
  ClassOutline.Proofs.Lexing.Shared — what ends within a part that two texts share.

  Two texts begin with the same part and one more character. What is cut off one of them and ends
  within that part is cut off the other, whatever follows: the quote, `*/` or label that ends a
  comment or a literal stands in the part (`blockCommentLength_shared`, `quotedLength_shared`,
  `heredocLength?_shared`), and the one more character is all that they look ahead.
-/

namespace ClassOutline.Token

open ClassOutline.Text

/-! ## Searches -/

theorem takeWhile_shared {p : Char → Bool} {c : Char} {a x : Text}
    (h : ((a ++ c :: x).takeWhile p).length ≤ a.length) (y : Text) :
    (a ++ c :: y).takeWhile p = (a ++ c :: x).takeWhile p := by
  induction a with
  | nil =>
    have hc : p c = false := by
      by_contra hc
      simp [hc] at h
    simp [hc]
  | cons d a ih =>
    rw [List.cons_append, List.takeWhile_cons] at h ⊢
    rw [List.cons_append, List.takeWhile_cons]
    split
    · rename_i hd
      rw [if_pos hd, List.length_cons, List.length_cons] at h
      rw [ih (by omega)]
    · rfl

theorem startsWith_append_of_le {head a : Text} (h : head.length ≤ a.length) (x : Text) :
    startsWith (a ++ x) head = startsWith a head := by
  rw [Bool.eq_iff_iff, startsWith, startsWith, List.isPrefixOf_iff_prefix, List.isPrefixOf_iff_prefix]
  constructor
  · intro hp
    exact List.prefix_of_prefix_length_le hp (List.prefix_append a x) h
  · intro hp
    exact hp.trans (List.prefix_append a x)

theorem startsWith_shared {head a : Text} {c : Char} (h : head.length ≤ a.length + 1) (x y : Text) :
    startsWith (a ++ c :: y) head = startsWith (a ++ c :: x) head := by
  have hlen : head.length ≤ (a ++ [c]).length := by simpa using h
  have hassoc : ∀ v, a ++ c :: v = a ++ [c] ++ v := fun v => by simp
  rw [hassoc x, hassoc y, startsWith_append_of_le hlen, startsWith_append_of_le hlen]

theorem after?_append_of_le {head a : Text} (h : head.length ≤ a.length) (x : Text) :
    after? head (a ++ x) = (after? head a).map (· ++ x) := by
  cases ha : after? head a with
  | some r =>
    rw [after?_eq_some_iff.mp ha]
    exact after?_eq_some_iff.mpr (List.append_assoc ..)
  | none =>
    refine Option.eq_none_iff_forall_ne_some.mpr fun r hr => ?_
    have hs : startsWith (a ++ x) head = true := startsWith_iff.mpr ⟨r, after?_eq_some_iff.mp hr⟩
    rw [startsWith_append_of_le h] at hs
    obtain ⟨u, hu⟩ := startsWith_iff.mp hs
    rw [after?_eq_some_iff.mpr hu] at ha
    cases ha

/-- What is found within a text is found there whatever follows. -/
theorem beforeFirst?_shared {part a x b : Text} (h : beforeFirst? part (a ++ x) = some b)
    (hle : b.length + part.length ≤ a.length) (y : Text) : beforeFirst? part (a ++ y) = some b := by
  induction a generalizing b with
  | nil =>
    have hpart : part = [] := List.eq_nil_of_length_eq_zero (by simp only [List.length_nil] at hle; omega)
    have hb : b = [] := List.eq_nil_of_length_eq_zero (by simp only [List.length_nil] at hle; omega)
    subst hpart hb
    cases y <;> rfl
  | cons d a ih =>
    have hlen : part.length ≤ (d :: a).length := by omega
    rw [List.cons_append, beforeFirst?_cons, ← List.cons_append, startsWith_append_of_le hlen] at h ⊢
    split at h
    · rename_i hs
      rw [if_pos hs]
      exact h
    · rename_i hs
      obtain ⟨b', hb', rfl⟩ := Option.map_eq_some_iff.mp h
      rw [if_neg hs, ih hb' (by simp only [List.length_cons] at hle; omega), Option.map_some]

/-- With one more character shared, also what ends behind it. -/
theorem beforeFirst?_shared_of_lt {part a x b : Text} {c : Char} (hpart : part.length ≤ 2)
    (h : beforeFirst? part (a ++ c :: x) = some b) (hlt : b.length < a.length) (y : Text) :
    beforeFirst? part (a ++ c :: y) = some b := by
  have hassoc : ∀ v, a ++ c :: v = a ++ [c] ++ v := fun v => by simp
  have hle : b.length + part.length ≤ (a ++ [c]).length := by
    rw [List.length_append, List.length_singleton]
    omega
  rw [hassoc] at h ⊢
  exact beforeFirst?_shared h hle y

theorem head?_append_cons (a : Text) (c : Char) (x y : Text) : (a ++ c :: x).head? = (a ++ c :: y).head? := by
  cases a <;> rfl

/-! ## Comments and quoted literals -/

theorem isDocComment_shared {a : Text} (h : 4 ≤ a.length) (x y : Text) :
    isDocComment (a ++ y) = isDocComment (a ++ x) := by
  have hthree : "/**".toList.length ≤ a.length := Nat.le_of_succ_le h
  rw [isDocComment_eq, isDocComment_eq, after?_append_of_le hthree, after?_append_of_le hthree]
  cases ha : after? "/**".toList a with
  | none => rfl
  | some r =>
    obtain ⟨d, r, rfl⟩ : ∃ d r', r = d :: r' := by
      refine List.exists_cons_of_ne_nil fun hr => ?_
      rw [after?_eq_some_iff.mp ha, hr] at h
      exact absurd h (by decide)
    rfl

theorem blockCommentLength_shared {c : Char} {a x : Text} (hx : blockCommentLength (a ++ c :: x) ≤ a.length) (y : Text) :
    4 ≤ a.length ∧ blockCommentLength (a ++ c :: y) = blockCommentLength (a ++ c :: x) := by
  unfold blockCommentLength at hx
  split at hx
  · rename_i body hbody
    have hdrop : ∀ v, (a ++ c :: v).drop 2 = a.drop 2 ++ c :: v := fun v => List.drop_append_of_le_length (by omega)
    have h2 : "*/".toList.length = 2 := rfl
    have hle : body.length + "*/".toList.length ≤ (a.drop 2).length := by
      rw [List.length_drop]
      omega
    have hfound := fun v => beforeFirst?_shared (hdrop x ▸ hbody) hle (c :: v)
    refine ⟨by omega, ?_⟩
    simp only [blockCommentLength, hdrop, hfound]
  · simp only [List.length_append, List.length_cons] at hx
    omega

theorem quotedTailLength_pos (escape quote c : Char) (r : Text) :
    0 < quotedTailLength escape quote (c :: r) := by
  cases r with
  | nil => exact Nat.one_pos
  | cons d r =>
    rw [quotedTailLength]
    repeat' split
    all_goals omega

/-- A quote closes the literal before the stop, or the literal reaches over it. -/
theorem quotedTailLength_shared {escape quote c : Char} {a x : Text}
    (hle : quotedTailLength escape quote (a ++ c :: x) ≤ a.length) (y : Text) :
    quotedTailLength escape quote (a ++ c :: y) = quotedTailLength escape quote (a ++ c :: x) := by
  fun_induction quotedTailLength escape quote a with
  | case1 =>
    have := quotedTailLength_pos escape quote c x
    simp only [List.nil_append, List.length_nil] at hle
    omega
  | case2 d =>
    have hpos := quotedTailLength_pos escape quote c x
    simp only [List.singleton_append, List.length_singleton, quotedTailLength] at hle ⊢
    by_cases hd : d = escape
    · rw [if_pos hd] at hle
      omega
    · rw [if_neg hd] at hle ⊢
      by_cases hq : d = quote
      · rw [if_pos hq, if_neg hd, if_pos hq]
      · rw [if_neg hq] at hle
        omega
  | case3 e r ih =>
    simp only [List.cons_append, List.length_cons, quotedTailLength, if_true] at hle ⊢
    rw [ih (by omega)]
  | case4 e r hd =>
    simp [quotedTailLength, hd]
  | case5 d e r hd hq ih =>
    simp only [List.cons_append, List.length_cons, quotedTailLength, if_neg hd, if_neg hq] at hle ih ⊢
    rw [ih (by omega)]

theorem quotedLength_shared {d c : Char} {a x : Text}
    (hle : quotedLength '\\' (d :: (a ++ c :: x)) ≤ (d :: a).length) (y : Text) :
    quotedLength '\\' (d :: (a ++ c :: y)) = quotedLength '\\' (d :: (a ++ c :: x)) := by
  simp only [quotedLength, List.length_cons] at hle ⊢
  have hle' : quotedTailLength '\\' d (a ++ c :: x) ≤ a.length := by omega
  rw [quotedTailLength_shared hle' y]

/-! ## Heredocs -/

/-- An opener that ends within a text is there whatever follows. -/
theorem Opener.shared {a x : Text} {o : HeredocOpener} (h : Opener (a ++ x) o) (hle : o.length ≤ a.length)
    (y : Text) : Opener (a ++ y) o := by
  generalize ht : a ++ x = t at h
  obtain ⟨blanks, quote, label, lineEnd, rest, hblanks, hquote, hlabel, hname, hend⟩ := h
  have hfront : "<<<".toList ++ (blanks ++ (quote ++ (label ++ (quote ++ lineEnd)))) ++ rest = a ++ x := by
    simpa using ht.symm
  have hlen : ("<<<".toList ++ (blanks ++ (quote ++ (label ++ (quote ++ lineEnd))))).length ≤ a.length := by
    have h3 : "<<<".toList.length = 3 := rfl
    simp only [List.length_append, h3] at hle ⊢
    omega
  obtain ⟨b, rfl⟩ := List.prefix_of_prefix_length_le ⟨rest, hfront⟩ (List.prefix_append a x) hlen
  have := Opener.mk blanks quote label lineEnd (b ++ y) hblanks hquote hlabel hname hend
  simpa using this

theorem closingLength?_shared {c : Char} {label line x : Text} {n : Nat}
    (h : closingLength? label (line ++ c :: x) = some n) (hle : n ≤ line.length) (y : Text) :
    closingLength? label (line ++ c :: y) = some n := by
  unfold closingLength? at h ⊢
  dsimp only at h ⊢
  split at h
  · rename_i rest hrest
    split at h
    · cases h
    · rename_i hname
      obtain rfl := Option.some.inj h
      have hblanks := takeWhile_shared (Nat.le_trans (Nat.le_add_right _ _) hle) y
      rw [hblanks]
      generalize ((line ++ c :: x).takeWhile isIndent).length = k at hrest hle ⊢
      have hdrop : ∀ v, (line ++ c :: v).drop k = line.drop k ++ c :: v :=
        fun v => List.drop_append_of_le_length (by omega)
      have hlabel : label.length ≤ (line.drop k).length := by
        rw [List.length_drop]
        omega
      rw [hdrop, after?_append_of_le hlabel] at hrest ⊢
      obtain ⟨r, hr, rfl⟩ := Option.map_eq_some_iff.mp hrest
      rw [head?_append_cons r c x y] at hname
      simp only [hr, Option.map_some, if_neg hname]
  · cases h

theorem heredocBodyLength_of_closing {label line : Text} {n : Nat} (h : closingLength? label line = some n)
    (rest : List Text) : heredocBodyLength label (line :: rest) = n := by
  cases rest <;> simp [heredocBodyLength, h]

theorem heredocBodyLength_cons_of_none {label line : Text} (h : closingLength? label line = none)
    {rest : List Text} (hne : rest ≠ []) :
    heredocBodyLength label (line :: rest) = line.length + 1 + heredocBodyLength label rest := by
  cases rest with
  | nil => exact absurd rfl hne
  | cons next rest => simp [heredocBodyLength, h]

theorem length_le_heredocBodyLength {label line : Text} (h : closingLength? label line = none)
    (rest : List Text) : line.length ≤ heredocBodyLength label (line :: rest) := by
  cases rest with
  | nil => simp [heredocBodyLength, h]
  | cons next rest =>
    rw [heredocBodyLength_cons_of_none h (List.cons_ne_nil _ _)]
    omega

/-- The lines of a heredoc that close it within a text close it whatever follows. -/
theorem heredocBodyLength_shared {c : Char} {label a x : Text}
    (hle : heredocBodyLength label (splitLines (a ++ c :: x)) ≤ a.length) (y : Text) :
    heredocBodyLength label (splitLines (a ++ c :: y)) = heredocBodyLength label (splitLines (a ++ c :: x)) := by
  -- line by line: the shared text ends on the line that is read, or on a later one
  induction hlen : a.length using Nat.strong_induction_on generalizing a with
  | _ k ih =>
    by_cases hn : '\n' ∈ a ++ [c]
    · obtain ⟨l, r, hlr, hl⟩ := List.eq_append_cons_of_mem hn
      have hne : ∀ d ∈ l, d ≠ '\n' := fun d hd he => hl (he ▸ hd)
      have hlines : ∀ v, splitLines (a ++ c :: v) = l :: splitLines (r ++ v) := by
        intro v
        have hassoc : a ++ c :: v = l ++ '\n' :: (r ++ v) := by
          rw [← List.cons_append, ← List.append_assoc, ← hlr]
          simp
        have hnext : splitLines ('\n' :: (r ++ v)) = [] :: splitLines (r ++ v) := rfl
        rw [hassoc, splitLines_append_of_ne hne _ hnext, List.append_nil]
      rw [hlines] at hle ⊢
      rw [hlines]
      cases hcl : closingLength? label l with
      | some n => rw [heredocBodyLength_of_closing hcl, heredocBodyLength_of_closing hcl]
      | none =>
        rw [heredocBodyLength_cons_of_none hcl (splitLines_ne_nil _)] at hle ⊢
        rw [heredocBodyLength_cons_of_none hcl (splitLines_ne_nil _)]
        rcases List.eq_nil_or_concat r with rfl | ⟨r, d, rfl⟩
        · -- the newline is the character behind the shared text, and the line is not closed
          have hl := congrArg List.length hlr
          simp only [List.length_append, List.length_cons, List.length_nil] at hl
          omega
        · rw [List.concat_eq_append, ← List.cons_append, ← List.append_assoc] at hlr
          obtain ⟨rfl, hc⟩ := List.append_inj' hlr rfl
          obtain ⟨rfl, -⟩ := List.cons.inj hc
          have hassoc : ∀ v, r.concat c ++ v = r ++ c :: v := fun v => by simp
          rw [hassoc] at hle ⊢
          rw [hassoc]
          simp only [List.length_append, List.length_cons] at hle hlen
          rw [ih r.length (by omega) (by omega) rfl]
    · have hne : ∀ d ∈ a ++ [c], d ≠ '\n' := fun d hd he => hn (he ▸ hd)
      have hlines : ∀ v, ∃ l ls, splitLines (a ++ c :: v) = (a ++ c :: l) :: ls := by
        intro v
        obtain ⟨l, ls, hv⟩ := List.exists_cons_of_ne_nil (splitLines_ne_nil v)
        have := splitLines_append_of_ne hne v hv
        rw [List.append_assoc, List.append_assoc] at this
        exact ⟨l, ls, this⟩
      obtain ⟨lx, lsx, hx⟩ := hlines x
      obtain ⟨ly, lsy, hy⟩ := hlines y
      rw [hx] at hle ⊢
      rw [hy]
      cases hcl : closingLength? label (a ++ c :: lx) with
      | some n =>
        rw [heredocBodyLength_of_closing hcl] at hle ⊢
        rw [heredocBodyLength_of_closing (closingLength?_shared hcl hle ly)]
      | none =>
        have hlong := length_le_heredocBodyLength hcl lsx
        simp only [List.length_append, List.length_cons] at hlong
        omega

/-- A heredoc that ends within a text ends there whatever follows. -/
theorem heredocLength?_shared {c : Char} {a x : Text} {n : Nat} (h3 : startsWith (a ++ c :: x) "<<<".toList = true)
    (h : heredocLength? (a ++ c :: x) = some n) (hle : n ≤ a.length) (y : Text) :
    heredocLength? (a ++ c :: y) = some n := by
  obtain ⟨o, ho, rfl⟩ := Option.map_eq_some_iff.mp h
  have hlen : o.length ≤ a.length := Nat.le_trans (Nat.le_add_right _ _) hle
  have hopener := (opener_of_heredocOpener? h3 ho).shared hlen (c :: y)
  rw [heredocLength?, heredocOpener?_of_opener hopener, Option.map_some]
  rw [List.drop_append_of_le_length hlen] at hle ⊢
  rw [List.drop_append_of_le_length hlen, heredocBodyLength_shared]
  rw [List.length_drop]
  omega

end ClassOutline.Token
