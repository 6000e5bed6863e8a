import ClassOutline.Text.Blank
import Mathlib.Data.List.Basic
/-
  ClassOutline.Proofs.Text — ends of texts and searches in them.

  What `startsWith`, `dropTail`, `beforeFirst?` and `splitLines` say in terms of appending,
  and `sameName` in terms of lower case.
-/

namespace ClassOutline.Text

/-! ## Case -/

theorem sameName_iff {a b : Text} : sameName a b = true ↔ lower a = lower b := beq_iff_eq

theorem sameName_comm (a b : Text) : sameName a b = sameName b a := by
  rw [Bool.eq_iff_iff, sameName_iff, sameName_iff, eq_comm]

/-- Names that are the same as one are the same as the same names. -/
theorem sameName_congr {a b : Text} (h : sameName a b = true) (c : Text) : sameName a c = sameName b c := by
  rw [sameName, sameName, sameName_iff.mp h]

theorem toLower_ne_separator {c : Char} (h : c ≠ '\\') : c.toLower ≠ '\\' := by
  unfold Char.toLower
  split
  · rename_i hu
    intro he
    have hval := congrArg (fun d => d.val.toNat) he
    have hge := UInt32.le_iff_toNat_le.mp hu.1
    have hle := UInt32.le_iff_toNat_le.mp hu.2
    simp only [Char.reduceVal, UInt32.reduceSub, UInt32.toNat_add, Char.toNat_val, UInt32.reduceToNat,
      Nat.reducePow] at hval hge hle
    omega
  · exact h

/-- No letter becomes a separator in lower case. -/
theorem separator_not_mem_lower {t : Text} (h : '\\' ∉ t) : '\\' ∉ lower t := by
  intro hmem
  obtain ⟨c, hc, he⟩ := List.mem_map.mp hmem
  refine toLower_ne_separator ?_ he
  intro heq
  exact h (heq ▸ hc)

/-! ## Classes of characters -/

theorem isBlank_of_isIndent {c : Char} (h : isIndent c = true) : isBlank c = true := by
  simp only [isIndent, Bool.or_eq_true, beq_iff_eq] at h
  rcases h with rfl | rfl <;> rfl

theorem isCodeBlank_of_isIndent {c : Char} (h : isIndent c = true) : isCodeBlank c = true := by
  simp only [isIndent, Bool.or_eq_true, beq_iff_eq] at h
  rcases h with rfl | rfl <;> rfl

/-! ## Ends -/

theorem startsWith_iff {t head : Text} : startsWith t head = true ↔ ∃ r, t = head ++ r := by
  simp only [startsWith, List.isPrefixOf_iff_prefix]
  exact ⟨fun ⟨r, h⟩ => ⟨r, h.symm⟩, fun ⟨r, h⟩ => ⟨r, h.symm⟩⟩

theorem startsWith_append {t p : Text} (h : startsWith t p = true) (x : Text) : startsWith (t ++ x) p = true := by
  obtain ⟨r, rfl⟩ := startsWith_iff.mp h
  exact startsWith_iff.mpr ⟨r ++ x, List.append_assoc ..⟩

theorem length_le_of_startsWith {t head : Text} (h : startsWith t head = true) : head.length ≤ t.length := by
  obtain ⟨r, rfl⟩ := startsWith_iff.mp h
  simp

theorem after?_eq_some_iff {head t r : Text} : after? head t = some r ↔ t = head ++ r := by
  simp only [after?, List.isPrefixOf?_eq_some_iff_append_eq]
  exact eq_comm

theorem before?_eq_some_iff {tail t r : Text} : before? tail t = some r ↔ t = r ++ tail := by
  simp only [before?, List.isSuffixOf?_eq_some_iff_append_eq]
  exact eq_comm

/-- Either the tail is there and goes, or the text stays. -/
theorem dropTail_cases (tail t : Text) :
    t = dropTail tail t ++ tail ∨ (dropTail tail t = t ∧ ∀ r, t ≠ r ++ tail) := by
  unfold dropTail
  cases h : before? tail t with
  | none =>
    refine Or.inr ⟨rfl, fun r hr => ?_⟩
    rw [before?_eq_some_iff.mpr hr] at h
    cases h
  | some r => exact Or.inl (before?_eq_some_iff.mp h)

theorem length_dropTail_le (tail t : Text) : (dropTail tail t).length ≤ t.length := by
  rcases dropTail_cases tail t with h | ⟨h, -⟩
  · have hl := congrArg List.length h
    rw [List.length_append] at hl
    omega
  · exact Nat.le_of_eq (congrArg List.length h)

theorem dropTail_sublist (tail t : Text) : (dropTail tail t).Sublist t := by
  rcases dropTail_cases tail t with h | ⟨h, -⟩
  · conv => rhs; rw [h]
    exact List.sublist_append_left _ _
  · rw [h]

theorem dropHead_sublist (head t : Text) : (dropHead head t).Sublist t := by
  rw [dropHead]
  cases h : after? head t with
  | none => exact List.Sublist.refl t
  | some r =>
    rw [after?_eq_some_iff.mp h]
    exact List.sublist_append_right _ _

theorem drop_takeWhile (p : Char → Bool) (t : Text) : t.drop (t.takeWhile p).length = t.dropWhile p := by
  induction t with
  | nil => rfl
  | cons c t ih =>
    by_cases hc : p c = true
    · rw [List.takeWhile_cons_of_pos hc, List.dropWhile_cons_of_pos hc, List.length_cons, List.drop_succ_cons, ih]
    · rw [List.takeWhile_cons_of_neg hc, List.dropWhile_cons_of_neg hc, List.length_nil, List.drop_zero]

/-! ## Search -/

theorem beforeFirst?_cons (part : Text) (c : Char) (r : Text) :
    beforeFirst? part (c :: r) =
      if startsWith (c :: r) part then some [] else (beforeFirst? part r).map (c :: ·) := rfl

/-- What is found stands before the part and something else. -/
theorem eq_append_of_beforeFirst? {part t b : Text} (h : beforeFirst? part t = some b) :
    ∃ r, t = b ++ (part ++ r) := by
  induction t generalizing b with
  | nil =>
    unfold beforeFirst? at h
    split at h
    · rename_i he
      cases h
      exact ⟨[], by simp [List.isEmpty_iff.mp he]⟩
    · cases h
  | cons c t ih =>
    rw [beforeFirst?_cons] at h
    split at h
    · rename_i hs
      cases h
      exact startsWith_iff.mp hs
    · obtain ⟨b', hb', rfl⟩ := Option.map_eq_some_iff.mp h
      obtain ⟨r, rfl⟩ := ih hb'
      exact ⟨r, rfl⟩

/-! ## Lines -/

@[simp] theorem joinLines_singleton (l : Text) : joinLines [l] = l := by simp [joinLines, join]

theorem joinLines_cons_cons (l m : Text) (ls : List Text) :
    joinLines (l :: m :: ls) = l ++ '\n' :: joinLines (m :: ls) := by
  simp [joinLines, join, List.intercalate]

theorem forall_mem_join {P : Char → Prop} {sep : Text} (hsep : ∀ c ∈ sep, P c) {ts : List Text}
    (hts : ∀ t ∈ ts, ∀ c ∈ t, P c) : ∀ c ∈ join sep ts, P c := by
  induction ts with
  | nil => simp [join]
  | cons t ts ih =>
    obtain ⟨ht, hts⟩ := List.forall_mem_cons.mp hts
    cases ts with
    | nil =>
      rw [join, List.intercalate_singleton]
      exact ht
    | cons u ts =>
      intro c hc
      rw [join, List.intercalate_cons_cons] at hc
      rcases List.mem_append.mp hc with hc | hc
      · rcases List.mem_append.mp hc with hc | hc
        · exact ht c hc
        · exact hsep c hc
      · exact ih hts c hc

theorem mem_joinLines {ls : List Text} {l : Text} (hl : l ∈ ls) {c : Char} (hc : c ∈ l) : c ∈ joinLines ls := by
  induction ls with
  | nil => cases hl
  | cons m ls ih =>
    cases ls with
    | nil =>
      rw [joinLines_singleton, ← List.mem_singleton.mp hl]
      exact hc
    | cons m' ls =>
      rw [joinLines_cons_cons]
      rcases List.mem_cons.mp hl with rfl | hl
      · exact List.mem_append_left _ hc
      · exact List.mem_append_right _ (List.mem_cons_of_mem _ (ih hl))

theorem splitLines_ne_nil (t : Text) : splitLines t ≠ [] := by
  fun_cases splitLines t <;> simp_all

theorem splitLines_cons_of_ne {c : Char} (h : c ≠ '\n') (r : Text) {l : Text} {ls : List Text}
    (hr : splitLines r = l :: ls) : splitLines (c :: r) = (c :: l) :: ls := by
  rw [splitLines]
  · rw [hr]
  · exact h

theorem splitLines_append_of_ne {w : Text} (h : ∀ c ∈ w, c ≠ '\n') (r : Text) {l : Text} {ls : List Text}
    (hr : splitLines r = l :: ls) : splitLines (w ++ r) = (w ++ l) :: ls := by
  induction w with
  | nil => exact hr
  | cons c w ih =>
    exact splitLines_cons_of_ne (h c (by simp)) _ (ih fun d hd => h d (by simp [hd]))

theorem joinLines_splitLines (t : Text) : joinLines (splitLines t) = t := by
  fun_induction splitLines t with
  | case1 => rfl
  | case2 r ih =>
    obtain ⟨l, ls, h⟩ := List.exists_cons_of_ne_nil (splitLines_ne_nil r)
    rw [h] at ih ⊢
    rw [joinLines_cons_cons, ih, List.nil_append]
  | case3 c r _ h => exact absurd h (splitLines_ne_nil r)
  | case4 c r _ l ls h ih =>
    rw [h] at ih
    cases ls with
    | nil => simpa using ih
    | cons m ls =>
      rw [joinLines_cons_cons] at ih ⊢
      rw [List.cons_append, ih]

end ClassOutline.Text
