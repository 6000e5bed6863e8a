import ClassOutline.TypeHint
import ClassOutline.Proofs.Blocks
/-
  ClassOutline.Proofs.TypeHints — types, read from the parameters they are printed in.

  Each step of `ofSignature?` takes characters away or none. So a type that is read as itself
  (`IsSettled`) is one that no step takes anything from, and marks behind it, which a step each
  takes off again, change nothing (`ofSignature?_signature`).
-/

namespace ClassOutline.TypeHint

open ClassOutline.Text ClassOutline.Token ClassOutline.Layout

/-! ## Steps that only take away -/

theorem outsideAttributes_sublist (depth : Nat) (t : Text) : (outsideAttributes depth t).Sublist t := by
  fun_induction outsideAttributes depth t with
  | case1 r ih => exact (ih.cons _).cons _
  | case2 c r _ ih => exact ih.cons_cons c
  | case3 d c r ih => exact ih.cons c
  | case4 => exact List.Sublist.refl _

/-- A text without the beginning of a group stays as it is. -/
theorem outsideAttributes_eq_self_iff (t : Text) : outsideAttributes 0 t = t ↔ ¬ ['#', '['] <:+: t := by
  induction t with
  | nil => simp [outsideAttributes]
  | cons c r ih =>
    rw [List.infix_cons_iff, not_or, ← ih]
    by_cases hopen : ['#', '['] <+: c :: r
    · -- a group goes, and with it at least the two characters it begins with
      obtain ⟨r', hr⟩ := hopen
      refine iff_of_false (fun he => ?_) fun h => h.1 ⟨r', hr⟩
      have hlen := (outsideAttributes_sublist 1 r').length_le
      rw [← hr, List.cons_append, List.singleton_append, outsideAttributes] at he
      rw [he] at hlen
      simp only [List.length_cons] at hlen
      omega
    · rw [outsideAttributes.eq_2 _ _ fun r' hc hr => hopen ⟨r', by rw [hc, hr]; rfl⟩, List.cons_inj_right]
      exact (and_iff_right hopen).symm

theorem dropPromotions_sublist (fuel : Nat) (t : Text) : (dropPromotions fuel t).Sublist t := by
  induction fuel generalizing t with
  | zero => exact List.Sublist.refl t
  | succ fuel ih =>
    rw [dropPromotions]
    split
    · exact (ih _).trans ((List.dropWhile_sublist _).trans (List.drop_sublist _ _))
    · exact List.Sublist.refl t

/-- A type that is read as itself. -/
def IsSettled (t : Text) : Prop := ofSignature? (t ++ ['$']) = some t

instance (t : Text) : Decidable (IsSettled t) := by unfold IsSettled; infer_instance

/-- Reading takes nothing from a settled type. -/
structure Stays (t : Text) : Prop where
  nonempty : t ≠ []
  plain : '$' ∉ t
  attributes : outsideAttributes 0 t = t
  trimmed : trimBlank t = t
  promotions : dropPromotions t.length t = t
  variadic : dropTail "...".toList t = t
  reference : dropTail ['&'] t = t
  nullable : dropHead ['?'] t = t
  array : dropTail "[]".toList t = t

theorem stays_of_isSettled {t : Text} (h : IsSettled t) : Stays t := by
  have htake : (t ++ ['$']).takeWhile (· != '$') = t.takeWhile (· != '$') := takeWhile_stop (by simp) t []
  simp only [IsSettled, ofSignature?, htake] at h
  generalize h₁ : t.takeWhile (· != '$') = s₁ at h
  generalize h₂ : outsideAttributes 0 s₁ = s₂ at h
  generalize h₃ : trimBlank s₂ = s₃ at h
  generalize h₄ : dropPromotions s₃.length s₃ = s₄ at h
  generalize h₅ : trimEnd isBlank s₄ = s₅ at h
  generalize h₆ : dropTail "...".toList s₅ = s₆ at h
  generalize h₇ : trimEnd isBlank s₆ = s₇ at h
  generalize h₈ : dropTail ['&'] s₇ = s₈ at h
  generalize h₉ : trimEnd isBlank s₈ = s₉ at h
  generalize h₁₀ : dropHead ['?'] s₉ = s₁₀ at h
  generalize h₁₁ : trimStart isBlank s₁₀ = s₁₁ at h
  generalize h₁₂ : dropTail "[]".toList s₁₁ = s₁₂ at h
  split at h
  · cases h
  rename_i hne
  obtain rfl := Option.some.inj h
  -- each step leaves a part of what it gets, and in the end there is all that there was
  have d₁₁ : s₁₂.Sublist s₁₁ := h₁₂ ▸ dropTail_sublist _ _
  have d₁₀ : s₁₂.Sublist s₁₀ := d₁₁.trans (h₁₁ ▸ List.dropWhile_sublist _)
  have d₉ : s₁₂.Sublist s₉ := d₁₀.trans (h₁₀ ▸ dropHead_sublist _ _)
  have d₈ : s₁₂.Sublist s₈ := d₉.trans (h₉ ▸ trimEnd_sublist _ _)
  have d₇ : s₁₂.Sublist s₇ := d₈.trans (h₈ ▸ dropTail_sublist _ _)
  have d₆ : s₁₂.Sublist s₆ := d₇.trans (h₇ ▸ trimEnd_sublist _ _)
  have d₅ : s₁₂.Sublist s₅ := d₆.trans (h₆ ▸ dropTail_sublist _ _)
  have d₄ : s₁₂.Sublist s₄ := d₅.trans (h₅ ▸ trimEnd_sublist _ _)
  have d₃ : s₁₂.Sublist s₃ := d₄.trans (h₄ ▸ dropPromotions_sublist _ _)
  have d₂ : s₁₂.Sublist s₂ := d₃.trans (h₃ ▸ trim_sublist _ _)
  have d₁ : s₁₂.Sublist s₁ := d₂.trans (h₂ ▸ outsideAttributes_sublist _ _)
  obtain rfl : s₁ = s₁₂ := List.Sublist.antisymm (h₁ ▸ List.takeWhile_sublist _) d₁
  obtain rfl : s₂ = s₁ := List.Sublist.antisymm (h₂ ▸ outsideAttributes_sublist _ _) d₂
  obtain rfl : s₃ = s₂ := List.Sublist.antisymm (h₃ ▸ trim_sublist _ _) d₃
  obtain rfl : s₄ = s₃ := List.Sublist.antisymm (h₄ ▸ dropPromotions_sublist _ _) d₄
  obtain rfl : s₅ = s₄ := List.Sublist.antisymm (h₅ ▸ trimEnd_sublist _ _) d₅
  obtain rfl : s₆ = s₅ := List.Sublist.antisymm (h₆ ▸ dropTail_sublist _ _) d₆
  obtain rfl : s₇ = s₆ := List.Sublist.antisymm (h₇ ▸ trimEnd_sublist _ _) d₇
  obtain rfl : s₈ = s₇ := List.Sublist.antisymm (h₈ ▸ dropTail_sublist _ _) d₈
  obtain rfl : s₉ = s₈ := List.Sublist.antisymm (h₉ ▸ trimEnd_sublist _ _) d₉
  obtain rfl : s₁₀ = s₉ := List.Sublist.antisymm (h₁₀ ▸ dropHead_sublist _ _) d₁₀
  obtain rfl : s₁₁ = s₁₀ := List.Sublist.antisymm (h₁₁ ▸ List.dropWhile_sublist _) d₁₁
  refine ⟨by simpa using hne, fun hmem => ?_, h₂, h₃, h₄, h₆, h₈, h₁₀, h₁₂⟩
  have := List.takeWhile_eq_self_iff.mp h₁ _ hmem
  simp at this

/-! ## Marks behind a type -/

/-- Attributes are looked for in the type alone. -/
theorem outsideAttributes_append {t : Text} (h : outsideAttributes 0 t = t) {z : Text} (hz : z.head? ≠ some '[') :
    outsideAttributes 0 (t ++ z) = t ++ outsideAttributes 0 z := by
  rw [outsideAttributes_eq_self_iff] at h
  induction t with
  | nil => rfl
  | cons c r ih =>
    obtain ⟨hopen, hr⟩ := not_or.mp (mt List.infix_cons_iff.mpr h)
    have hopen' : ∀ r', c = '#' → r ++ z = '[' :: r' → False := by
      intro r' hc hrest
      cases r with
      | nil => exact hz (by rw [List.nil_append] at hrest; rw [hrest]; rfl)
      | cons d r => exact hopen ⟨r, by rw [hc, (List.cons.inj hrest).1]; rfl⟩
    rw [List.cons_append, outsideAttributes.eq_2 _ _ hopen', ih hr, List.cons_append]

theorem promotions_of_stays {t : Text} (h : Stays t) : promotions.contains (lower (t.takeWhile fun c => !isBlank c)) = false := by
  obtain ⟨c, r, rfl⟩ := List.exists_cons_of_ne_nil h.nonempty
  have hstays := h.promotions
  rw [List.length_cons, dropPromotions] at hstays
  cases hword : promotions.contains (lower ((c :: r).takeWhile fun c => !isBlank c)) with
  | false => rfl
  | true =>
    -- a word would go, and with it a character
    rw [hword, if_pos rfl] at hstays
    have hne : 0 < ((c :: r).takeWhile fun c => !isBlank c).length := by
      refine List.length_pos_of_ne_nil fun he => ?_
      rw [he] at hword
      cases hword
    have hle := ((dropPromotions_sublist r.length _).trans (List.dropWhile_sublist isBlank
      (l := (c :: r).drop ((c :: r).takeWhile fun c => !isBlank c).length))).length_le
    rw [← trimStart.eq_1, hstays, List.length_drop] at hle
    simp only [List.length_cons] at hle
    omega

/-- What is read of a type whose promotions are off: the type without its marks. -/
def unmarked (typed : Text) : Text :=
  trimEnd isBlank (dropTail ['&'] (trimEnd isBlank (dropTail ['.', '.', '.'] typed)))

theorem ofSignature?_eq (signature : Text) {typed : Text}
    (h : trimBlank (outsideAttributes 0 (signature.takeWhile (· != '$'))) = typed) :
    ofSignature? signature =
      let element := dropTail ['[', ']']
        (trimStart isBlank (dropHead ['?'] (unmarked (trimEnd isBlank (dropPromotions typed.length typed)))))
      if element.isEmpty then none else some element := by
  subst h
  rfl

section

variable {t : Text} (h : Stays t)

include h

theorem Stays.ends : trimStart isBlank t = t ∧ EndsInk t := by
  rcases trimBlank_cases t with he | ⟨c, r, he, hc, hr⟩
  · exact absurd (h.trimmed.symm.trans he) h.nonempty
  · rw [h.trimmed] at he
    rw [he]
    exact ⟨List.dropWhile_cons_of_neg (by simp [hc]), hr⟩

theorem Stays.trimEnd_blank : trimEnd isBlank (t ++ [' ']) = t := by
  rw [trimEnd_append_blank (by simp; rfl), h.ends.2.trimEnd_eq]

theorem Stays.unmarked : unmarked t = t := by
  have hvariadic : dropTail ['.', '.', '.'] t = t := h.variadic
  rw [TypeHint.unmarked, hvariadic, h.ends.2.trimEnd_eq, h.reference, h.ends.2.trimEnd_eq]

theorem Stays.unmarked_reference : TypeHint.unmarked (t ++ [' ', '&']) = t := by
  have hassoc : t ++ [' ', '&'] = (t ++ [' ']) ++ ['&'] := by simp
  have hvariadic : dropTail ['.', '.', '.'] (t ++ [' ', '&']) = t ++ [' ', '&'] := by
    rcases dropTail_cases ['.', '.', '.'] (t ++ [' ', '&']) with he | ⟨he, -⟩
    · have := congrArg List.getLast? he
      simp at this
    · exact he
  rw [TypeHint.unmarked, hvariadic, hassoc, Body.trimEnd_concat rfl, dropTail, before?_eq_some_iff.mpr rfl,
    Option.getD_some, h.trimEnd_blank]

theorem Stays.unmarked_variadic : TypeHint.unmarked (t ++ [' ', '.', '.', '.']) = t := by
  have hassoc : t ++ [' ', '.', '.', '.'] = (t ++ [' ']) ++ ['.', '.', '.'] := by simp
  have hdots : dropTail ['.', '.', '.'] ((t ++ [' ']) ++ ['.', '.', '.']) = t ++ [' '] := by
    rw [dropTail, before?_eq_some_iff.mpr rfl, Option.getD_some]
  rw [TypeHint.unmarked, hassoc, hdots, h.trimEnd_blank, h.reference, h.ends.2.trimEnd_eq]

theorem Stays.unmarked_both : TypeHint.unmarked (t ++ [' ', '&', '.', '.', '.']) = t := by
  have hassoc : t ++ [' ', '&', '.', '.', '.'] = (t ++ [' ', '&']) ++ ['.', '.', '.'] := by simp
  have hassoc' : t ++ [' ', '&'] = (t ++ [' ']) ++ ['&'] := by simp
  have hdots : dropTail ['.', '.', '.'] ((t ++ [' ', '&']) ++ ['.', '.', '.']) = t ++ [' ', '&'] := by
    rw [dropTail, before?_eq_some_iff.mpr rfl, Option.getD_some]
  rw [TypeHint.unmarked, hassoc, hdots, hassoc', Body.trimEnd_concat rfl, dropTail, before?_eq_some_iff.mpr rfl,
    Option.getD_some, h.trimEnd_blank]

/-- The first word of a type does not go, so none behind it does. -/
theorem Stays.dropPromotions_eq (fuel : Nat) (z : Text) : dropPromotions fuel (t ++ ' ' :: z) = t ++ ' ' :: z := by
  cases fuel with
  | zero => rfl
  | succ fuel => rw [dropPromotions, takeWhile_stop (by rfl), promotions_of_stays h, if_neg Bool.false_ne_true]

/-- Marks behind a type change nothing if they are taken off again. -/
theorem Stays.ofSignature?_eq {marks : Text} (hplain : '$' ∉ marks) (hattributes : outsideAttributes 0 marks = marks)
    (hink : EndsInk marks) (hread : TypeHint.unmarked (trimEnd isBlank (t ++ ' ' :: marks)) = t) (name : Text) :
    ofSignature? ((t ++ ' ' :: marks) ++ '$' :: name) = some t := by
  have htake : ((t ++ ' ' :: marks) ++ '$' :: name).takeWhile (· != '$') = t ++ ' ' :: marks := by
    rw [takeWhile_stop (by simp), List.takeWhile_eq_self_iff]
    intro c hc
    have hc' : c ≠ '$' := by
      rintro rfl
      rcases List.mem_append.mp hc with hc | hc
      · exact h.plain hc
      · exact hplain (by simpa using hc)
    simpa using hc'
  have hwhole : outsideAttributes 0 (t ++ ' ' :: marks) = t ++ ' ' :: marks := by
    have hblank : outsideAttributes 0 (' ' :: marks) = ' ' :: outsideAttributes 0 marks :=
      outsideAttributes.eq_2 _ _ fun _ he _ => by cases he
    rw [outsideAttributes_append h.attributes (by simp), hblank, hattributes]
  have hstart : trimStart isBlank (t ++ ' ' :: marks) = t ++ ' ' :: marks := by
    obtain ⟨c, r, rfl⟩ := List.exists_cons_of_ne_nil h.nonempty
    have hfirst := List.head?_dropWhile_not isBlank (c :: r)
    rw [← trimStart.eq_1, h.ends.1, List.head?_cons] at hfirst
    exact List.dropWhile_cons_of_neg (by simpa using hfirst)
  have hpromotions : dropPromotions (trimEnd isBlank (t ++ ' ' :: marks)).length (trimEnd isBlank (t ++ ' ' :: marks)) =
      trimEnd isBlank (t ++ ' ' :: marks) := by
    by_cases hne : marks = []
    · rw [hne, h.trimEnd_blank, h.promotions]
    · obtain ⟨c, r, rfl⟩ := List.exists_cons_of_ne_nil hne
      have hends : EndsInk (t ++ ' ' :: c :: r) := by
        rw [EndsInk, getLast?_append_cons]
        exact hink
      rw [hends.trimEnd_eq, h.dropPromotions_eq]
  have hbefore : trimBlank (outsideAttributes 0 (((t ++ ' ' :: marks) ++ '$' :: name).takeWhile (· != '$'))) =
      trimEnd isBlank (t ++ ' ' :: marks) := by
    rw [htake, hwhole, trimBlank, trim, hstart]
  have hnullable := h.nullable
  have harray : dropTail ['[', ']'] t = t := h.array
  rw [TypeHint.ofSignature?_eq _ hbefore]
  dsimp only
  rw [hpromotions, (endsInk_trimEnd _).trimEnd_eq, hread, hnullable, h.ends.1, harray, if_neg (by simpa using h.nonempty)]

end

/-- A type is read from a signature it is printed in, whatever marks stand behind it. -/
theorem ofSignature?_signature {t : Text} (h : IsSettled t) (reference variadic : Bool) (name : Text) :
    ofSignature? (t ++ [' '] ++ textIf reference "&" ++ textIf variadic "..." ++ '$' :: name) = some t := by
  have hs := stays_of_isSettled h
  have hends : ∀ {y : Text} {c : Char}, isBlank c = false → trimEnd isBlank (t ++ ' ' :: (y ++ [c])) = t ++ ' ' :: (y ++ [c]) := by
    intro y c hc
    rw [← List.cons_append, ← List.append_assoc, Body.trimEnd_concat hc]
  have hsplit : t ++ [' '] ++ textIf reference "&" ++ textIf variadic "..." ++ '$' :: name =
      (t ++ ' ' :: (textIf reference "&" ++ textIf variadic "...")) ++ '$' :: name := by simp
  rw [hsplit]
  cases reference with
  | false =>
    cases variadic with
    | false =>
      refine hs.ofSignature?_eq (by decide) rfl (fun c hc => by cases hc) ?_ name
      exact hs.trimEnd_blank.symm ▸ hs.unmarked
    | true =>
      refine hs.ofSignature?_eq (by decide) rfl (fun c hc => by cases hc; rfl) ?_ name
      exact (hends (y := ['.', '.']) (c := '.') rfl).symm ▸ hs.unmarked_variadic
  | true =>
    cases variadic with
    | false =>
      refine hs.ofSignature?_eq (by decide) rfl (fun c hc => by cases hc; rfl) ?_ name
      exact (hends (y := []) (c := '&') rfl).symm ▸ hs.unmarked_reference
    | true =>
      refine hs.ofSignature?_eq (by decide) rfl (fun c hc => by cases hc; rfl) ?_ name
      exact (hends (y := ['&', '.', '.']) (c := '.') rfl).symm ▸ hs.unmarked_both

/-- Without a type none is read. -/
theorem ofSignature?_untyped (reference variadic : Bool) (name : Text) :
    ofSignature? (textIf reference "&" ++ textIf variadic "..." ++ '$' :: name) = none := by
  have htake : (textIf reference "&" ++ textIf variadic "..." ++ '$' :: name).takeWhile (· != '$') =
      textIf reference "&" ++ textIf variadic "..." := by
    rw [takeWhile_stop (by simp)]
    revert reference variadic
    decide +kernel
  unfold ofSignature?
  rw [htake]
  clear htake
  revert reference variadic
  decide +kernel

end ClassOutline.TypeHint
