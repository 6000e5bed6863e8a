import ClassOutline.Proofs.TypeHints
/-
  ClassOutline.Proofs.TypeTexts — the texts that are read as the types they are.

  A type settles if reading takes nothing from it. Step by step that says what its text must not
  have in it or at its ends (`isSettled_iff`). A printed parameter gives back such a type with
  any marks behind it, and with no marks it gives back no other (`ofSignature?_parameter`).
-/

namespace ClassOutline.TypeHint

open ClassOutline.Text ClassOutline.Token ClassOutline.Layout

/-- Nothing in the text stands for something else than a part of a type. -/
structure IsBare (t : Text) : Prop where
  nonempty : t ≠ []
  first : ∀ c ∈ t.head?, isBlank c = false
  last : ∀ c ∈ t.getLast?, isBlank c = false
  plain : '$' ∉ t
  attributes : ¬ ['#', '['] <:+: t
  promotion : lower (t.takeWhile fun c => !isBlank c) ∉ promotions
  variadic : ¬ ['.', '.', '.'] <:+ t
  reference : ¬ ['&'] <:+ t
  nullable : ¬ ['?'] <+: t
  array : ¬ ['[', ']'] <:+ t

/-! ## What each step leaves alone -/

theorem dropTail_eq_self_iff {tail : Text} (hne : tail ≠ []) (t : Text) : dropTail tail t = t ↔ ¬ tail <:+ t := by
  rcases dropTail_cases tail t with h | ⟨h, hno⟩
  · refine iff_of_false (fun he => hne ?_) fun hn => hn ⟨_, h.symm⟩
    rw [he] at h
    exact List.self_eq_append_right.mp h
  · exact iff_of_true h fun ⟨r, hr⟩ => hno r hr.symm

theorem dropHead_eq_self_iff {head : Text} (hne : head ≠ []) (t : Text) : dropHead head t = t ↔ ¬ head <+: t := by
  unfold dropHead
  cases h : after? head t with
  | none =>
    refine iff_of_true rfl fun ⟨r, hr⟩ => ?_
    rw [after?_eq_some_iff.mpr hr.symm] at h
    cases h
  | some r =>
    have ht := after?_eq_some_iff.mp h
    refine iff_of_false (fun he => hne ?_) fun hn => hn ⟨r, ht.symm⟩
    rw [show r = t from he] at ht
    exact List.self_eq_append_left.mp ht

theorem stays_of_isBare {t : Text} (h : IsBare t) : Stays t where
  nonempty := h.nonempty
  plain := h.plain
  attributes := (outsideAttributes_eq_self_iff t).mpr h.attributes
  trimmed := by
    obtain ⟨c, r, rfl⟩ := List.exists_cons_of_ne_nil h.nonempty
    have htrim := trimBlank_append (i := []) (z := []) (by simp) (h.first c rfl) h.last (by simp)
    rwa [List.append_nil, List.nil_append] at htrim
  promotions := by
    obtain ⟨c, r, rfl⟩ := List.exists_cons_of_ne_nil h.nonempty
    rw [List.length_cons, dropPromotions, if_neg (by simpa using h.promotion)]
  variadic := (dropTail_eq_self_iff (by decide) t).mpr h.variadic
  reference := (dropTail_eq_self_iff (by decide) t).mpr h.reference
  nullable := (dropHead_eq_self_iff (by decide) t).mpr h.nullable
  array := (dropTail_eq_self_iff (by decide) t).mpr h.array

theorem Stays.isBare {t : Text} (h : Stays t) : IsBare t where
  nonempty := h.nonempty
  first := by
    intro c hc
    have hfirst := List.head?_dropWhile_not isBlank t
    rw [← trimStart.eq_1, h.ends.1, Option.mem_def.mp hc] at hfirst
    simpa using hfirst
  last := h.ends.2
  plain := h.plain
  attributes := (outsideAttributes_eq_self_iff t).mp h.attributes
  promotion := by simpa using promotions_of_stays h
  variadic := (dropTail_eq_self_iff (by decide) t).mp h.variadic
  reference := (dropTail_eq_self_iff (by decide) t).mp h.reference
  nullable := (dropHead_eq_self_iff (by decide) t).mp h.nullable
  array := (dropTail_eq_self_iff (by decide) t).mp h.array

/-! ## Types that settle -/

theorem trimBlank_append_space (t : Text) : trimBlank (t ++ [' ']) = trimBlank t := by
  have hspace : ∀ c ∈ [' '], isBlank c = true := List.forall_mem_singleton.mpr rfl
  rw [trimBlank, trimBlank, trim, trim, trimStart, trimStart, List.dropWhile_append]
  split
  · rename_i hnone
    rw [List.isEmpty_iff.mp hnone, List.dropWhile_cons_of_pos rfl, List.dropWhile_nil]
  · exact trimEnd_append_blank hspace _

/-- A blank behind a text stays behind what is left of it, or goes with a group that is open. -/
theorem outsideAttributes_blank (depth : Nat) (t : Text) :
    outsideAttributes depth (t ++ [' ']) = outsideAttributes depth t ++ [' '] ∨
      outsideAttributes depth (t ++ [' ']) = outsideAttributes depth t := by
  fun_induction outsideAttributes depth t with
  | case1 r ih => exact ih
  | case2 c r hno ih =>
    have hno' : ∀ r', c = '#' → r ++ [' '] = '[' :: r' → False := by
      intro r' hc hr
      cases r with
      | nil => cases hr
      | cons d r => exact hno r hc (by rw [(List.cons.inj hr).1])
    rw [List.cons_append, outsideAttributes.eq_2 _ _ hno', List.cons_append, List.cons_inj_right, List.cons_inj_right]
    exact ih
  | case3 d c r ih => exact ih
  | case4 d =>
    cases d with
    | zero => exact Or.inl rfl
    | succ d => exact Or.inr rfl

/-- What is read in front of a variable does not depend on its name, nor on a blank before it. -/
theorem ofSignature?_blank (t name : Text) : ofSignature? (t ++ ' ' :: '$' :: name) = ofSignature? (t ++ ['$']) := by
  have htake : ∀ x y : Text, (x ++ '$' :: y).takeWhile (· != '$') = x.takeWhile (· != '$') := takeWhile_stop (by simp)
  have hsplit : t ++ ' ' :: '$' :: name = (t ++ [' ']) ++ '$' :: name := by simp
  have htrim : trimBlank (outsideAttributes 0 ((t ++ [' ']).takeWhile (· != '$'))) =
      trimBlank (outsideAttributes 0 (t.takeWhile (· != '$'))) := by
    rw [List.takeWhile_append]
    split
    · rename_i hall
      rw [(List.takeWhile_prefix _).eq_of_length hall]
      rcases outsideAttributes_blank 0 t with h | h
      · rw [show [' '].takeWhile (· != '$') = [' '] from rfl, h, trimBlank_append_space]
      · rw [show [' '].takeWhile (· != '$') = [' '] from rfl, h]
    · rfl
  rw [TypeHint.ofSignature?_eq _ rfl, TypeHint.ofSignature?_eq _ rfl, hsplit, htake, htake, htrim]

theorem isSettled_iff {t : Text} : IsSettled t ↔ IsBare t := by
  refine ⟨fun h => (stays_of_isSettled h).isBare, fun h => ?_⟩
  have hs := stays_of_isBare h
  have hunmarked : unmarked (trimEnd isBlank (t ++ [' '])) = t := by rw [hs.trimEnd_blank, hs.unmarked]
  have hread := hs.ofSignature?_eq (by simp) rfl (fun c hc => by cases hc) hunmarked []
  rw [List.append_assoc] at hread
  rw [IsSettled, ← ofSignature?_blank t []]
  exact hread

/-! ## Printed parameters -/

/-- A type is read back from a parameter without a default if nothing in it is taken for
    something else, whatever the name and the marks are. Where there are no marks, that is
    just when it is read back. -/
theorem ofSignature?_parameter (t name : Text) (isOptional : Bool) :
    (∀ reference variadic, ofSignature? (parameter ⟨name, reference, variadic, none, isOptional, none⟩) = none) ∧
      (IsBare t → ∀ reference variadic,
        ofSignature? (parameter ⟨name, reference, variadic, some t, isOptional, none⟩) = some t) ∧
      (ofSignature? (parameter ⟨name, false, false, some t, isOptional, none⟩) = some t → IsBare t) := by
  refine ⟨fun reference variadic => ?_, fun h reference variadic => ?_, fun h => ?_⟩
  · have hread := ofSignature?_untyped reference variadic name
    simpa [parameter] using hread
  · have hread := ofSignature?_signature (isSettled_iff.mpr h) reference variadic name
    simpa [parameter] using hread
  · rw [← isSettled_iff, IsSettled, ← ofSignature?_blank t name]
    simpa [parameter, textIf] using h

theorem isBare_union : IsBare "\\App\\Row|(Countable&ArrayAccess)|null".toList where
  nonempty := by decide
  first := by
    have hfirst : "\\App\\Row|(Countable&ArrayAccess)|null".toList.head? = some '\\' := by decide
    rw [hfirst]
    rintro c ⟨⟩
    rfl
  last := by
    have hlast : "\\App\\Row|(Countable&ArrayAccess)|null".toList.getLast? = some 'l' := by decide
    rw [hlast]
    rintro c ⟨⟩
    rfl
  plain := by decide
  attributes := by decide +kernel
  promotion := by decide
  variadic := by decide
  reference := by decide
  nullable := by decide
  array := by decide

/-- A union with an intersection in it is read back behind every combination of marks. -/
theorem ofSignature?_parameter_union :
    (∀ reference variadic, ofSignature? (parameter ⟨"rows".toList, reference, variadic,
        some "\\App\\Row|(Countable&ArrayAccess)|null".toList, false, none⟩) =
      some "\\App\\Row|(Countable&ArrayAccess)|null".toList) ∧
      IsBare "\\App\\Row|(Countable&ArrayAccess)|null".toList := by
  obtain ⟨-, hread, hbare⟩ := ofSignature?_parameter "\\App\\Row|(Countable&ArrayAccess)|null".toList "rows".toList false
  exact ⟨hread isBare_union, hbare (by decide)⟩

end ClassOutline.TypeHint
