import ClassOutline.Proofs.Text
import Mathlib.Data.List.TakeWhile
/-
  ClassOutline.Proofs.Returns — a carriage return before every newline.

  `withReturns` puts the returns in. A text that holds no line end (`IsInline`) stands in the new
  text wherever it stood in the old one and nowhere else, so what is looked for in both is found
  at places that correspond (`after?_withReturns`, `beforeFirst?_withReturns`); so does a run of
  a class that holds both characters of a line end or neither (`takeWhile_withReturns`). How far
  a number of characters reaches in the new text is `reach`.
-/

namespace ClassOutline.Text

/-! ## Carriage returns before newlines -/

/-- The text with a carriage return before every newline. -/
def withReturns (t : Text) : Text := t.flatMap fun c => if c = '\n' then ['\r', '\n'] else [c]

theorem withReturns_newline (r : Text) : withReturns ('\n' :: r) = '\r' :: '\n' :: withReturns r := rfl

theorem withReturns_cons {c : Char} (h : c ≠ '\n') (r : Text) : withReturns (c :: r) = c :: withReturns r := by
  rw [withReturns, List.flatMap_cons, if_neg h]
  rfl

theorem withReturns_append (a b : Text) : withReturns (a ++ b) = withReturns a ++ withReturns b :=
  List.flatMap_append

theorem withReturns_of_not_mem {t : Text} (h : '\n' ∉ t) : withReturns t = t := by
  induction t with
  | nil => rfl
  | cons c r ih =>
    obtain ⟨hc, hr⟩ := not_or.mp (mt List.mem_cons.mpr h)
    rw [withReturns_cons (Ne.symm hc), ih hr]

theorem withReturns_eq_nil_iff {t : Text} : withReturns t = [] ↔ t = [] := by
  cases t with
  | nil => exact iff_of_true rfl rfl
  | cons c r =>
    refine iff_of_false ?_ (List.cons_ne_nil c r)
    by_cases h : c = '\n'
    · subst h
      exact List.cons_ne_nil _ _
    · rw [withReturns_cons h]
      exact List.cons_ne_nil _ _

theorem count_newline_withReturns (t : Text) : (withReturns t).count '\n' = t.count '\n' := by
  induction t with
  | nil => rfl
  | cons c r ih =>
    by_cases h : c = '\n'
    · subst h
      rw [withReturns_newline, List.count_cons_of_ne (by decide), List.count_cons_self, List.count_cons_self, ih]
    · rw [withReturns_cons h, List.count_cons_of_ne h, List.count_cons_of_ne h, ih]

/-- A text in which no line ends. -/
def IsInline (t : Text) : Prop := '\n' ∉ t ∧ '\r' ∉ t

instance (t : Text) : Decidable (IsInline t) := by unfold IsInline; infer_instance

theorem IsInline.of_all {p : Char → Bool} (hn : p '\n' = false) (hr : p '\r' = false) {t : Text}
    (h : ∀ c ∈ t, p c = true) : IsInline t := by
  refine ⟨fun hmem => ?_, fun hmem => ?_⟩
  · rw [h '\n' hmem] at hn
    cases hn
  · rw [h '\r' hmem] at hr
    cases hr

/-- What begins in one text begins in the other. -/
theorem exists_of_withReturns_eq {a : Text} (ha : IsInline a) {t x : Text} (h : withReturns t = a ++ x) :
    ∃ r, t = a ++ r ∧ x = withReturns r := by
  induction a generalizing t with
  | nil => exact ⟨t, rfl, h.symm⟩
  | cons c a ih =>
    obtain ⟨hn, hr⟩ := ha
    obtain ⟨hcn, han⟩ := not_or.mp (mt List.mem_cons.mpr hn)
    obtain ⟨hcr, har⟩ := not_or.mp (mt List.mem_cons.mpr hr)
    cases t with
    | nil => cases h
    | cons d t =>
      by_cases hd : d = '\n'
      · subst hd
        rw [withReturns_newline] at h
        exact absurd (List.cons.inj h).1 hcr
      · rw [withReturns_cons hd] at h
        obtain ⟨rfl, hrest⟩ := List.cons.inj h
        obtain ⟨r, rfl, hx⟩ := ih ⟨han, har⟩ hrest
        exact ⟨r, rfl, hx⟩

theorem withReturns_eq_iff {a : Text} (ha : IsInline a) (t : Text) : withReturns t = a ↔ t = a := by
  constructor
  · intro h
    obtain ⟨r, rfl, hr⟩ := exists_of_withReturns_eq ha (x := []) (by rw [List.append_nil, h])
    rw [withReturns_eq_nil_iff.mp hr.symm, List.append_nil]
  · intro h
    subst h
    exact withReturns_of_not_mem ha.1

theorem after?_withReturns {head : Text} (h : IsInline head) (t : Text) :
    after? head (withReturns t) = (after? head t).map withReturns := by
  cases ha : after? head t with
  | some r =>
    rw [after?_eq_some_iff.mp ha, withReturns_append, withReturns_of_not_mem h.1]
    exact after?_eq_some_iff.mpr rfl
  | none =>
    refine Option.eq_none_iff_forall_ne_some.mpr fun x hx => ?_
    obtain ⟨r, hr, -⟩ := exists_of_withReturns_eq h (after?_eq_some_iff.mp hx)
    rw [after?_eq_some_iff.mpr hr] at ha
    cases ha

theorem startsWith_withReturns {head : Text} (h : IsInline head) (t : Text) :
    startsWith (withReturns t) head = startsWith t head := by
  rw [Bool.eq_iff_iff, startsWith_iff, startsWith_iff]
  constructor
  · rintro ⟨x, hx⟩
    obtain ⟨r, hr, -⟩ := exists_of_withReturns_eq h hx
    exact ⟨r, hr⟩
  · rintro ⟨r, rfl⟩
    exact ⟨withReturns r, by rw [withReturns_append, withReturns_of_not_mem h.1]⟩

theorem beforeFirst?_withReturns {part : Text} (hne : part ≠ []) (h : IsInline part) (t : Text) :
    beforeFirst? part (withReturns t) = (beforeFirst? part t).map withReturns := by
  obtain ⟨p, part, rfl⟩ := List.exists_cons_of_ne_nil hne
  obtain ⟨hpn, -⟩ := not_or.mp (mt List.mem_cons.mpr h.1)
  obtain ⟨hpr, -⟩ := not_or.mp (mt List.mem_cons.mpr h.2)
  have hstart : ∀ {c : Char} (x : Text), p ≠ c → startsWith (c :: x) (p :: part) = false := by
    intro c x hc
    simp [startsWith, List.isPrefixOf, hc]
  induction t with
  | nil => rfl
  | cons c r ih =>
    by_cases hc : c = '\n'
    · subst hc
      rw [withReturns_newline, beforeFirst?_cons, hstart _ (Ne.symm hpr), beforeFirst?_cons, hstart _ (Ne.symm hpn),
        beforeFirst?_cons, hstart _ (Ne.symm hpn), ih]
      cases beforeFirst? (p :: part) r <;> rfl
    · have hsame := startsWith_withReturns h (c :: r)
      rw [withReturns_cons hc] at hsame ⊢
      rw [beforeFirst?_cons, beforeFirst?_cons, hsame, ih]
      split
      · rfl
      · cases beforeFirst? (p :: part) r with
        | none => rfl
        | some b => exact congrArg some (withReturns_cons hc b).symm

/-- A class of characters that holds both characters of a line end or neither. -/
theorem takeWhile_withReturns {p : Char → Bool} (h : p '\r' = p '\n') (t : Text) :
    (withReturns t).takeWhile p = withReturns (t.takeWhile p) := by
  induction t with
  | nil => rfl
  | cons c r ih =>
    by_cases hc : c = '\n'
    · subst hc
      rw [withReturns_newline, List.takeWhile_cons, List.takeWhile_cons, List.takeWhile_cons, h]
      split
      · rw [ih]; rfl
      · rfl
    · rw [withReturns_cons hc, List.takeWhile_cons, List.takeWhile_cons]
      split
      · rw [ih, withReturns_cons hc]
      · rfl

theorem head?_any_withReturns {p : Char → Bool} (h : p '\r' = p '\n') (t : Text) :
    (withReturns t).head?.any p = t.head?.any p := by
  cases t with
  | nil => rfl
  | cons c r =>
    by_cases hc : c = '\n'
    · subst hc
      exact h
    · rw [withReturns_cons hc]
      rfl

/-! ## Lengths -/

/-- How far the first `n` characters of a text reach with its returns. -/
def reach (t : Text) (n : Nat) : Nat := (withReturns (t.take n)).length

theorem take_reach (t : Text) (n : Nat) : (withReturns t).take (reach t n) = withReturns (t.take n) := by
  conv => lhs; rw [← List.take_append_drop n t, withReturns_append]
  rw [reach, List.take_append_drop, List.take_left]

theorem drop_reach (t : Text) (n : Nat) : (withReturns t).drop (reach t n) = withReturns (t.drop n) := by
  conv => lhs; rw [← List.take_append_drop n t, withReturns_append]
  rw [reach, List.take_append_drop, List.drop_left]

theorem reach_length (t : Text) : reach t t.length = (withReturns t).length := by
  rw [reach, List.take_length]

theorem reach_append (a r : Text) : reach (a ++ r) a.length = (withReturns a).length := by
  rw [reach, List.take_left]

theorem reach_add (t : Text) (m n : Nat) : reach t (m + n) = reach t m + reach (t.drop m) n := by
  rw [reach, List.take_add, withReturns_append, List.length_append, reach, reach]

theorem reach_append_of_not_mem {a : Text} (h : '\n' ∉ a) {n : Nat} (hn : n ≤ a.length) (r : Text) : reach (a ++ r) n = n := by
  have htake : '\n' ∉ a.take n := fun hmem => h (List.mem_of_mem_take hmem)
  rw [reach, List.take_append_of_le_length hn, withReturns_of_not_mem htake, List.length_take, Nat.min_eq_left hn]

theorem reach_of_not_mem {a : Text} (h : '\n' ∉ a) {n : Nat} (hn : n ≤ a.length) : reach a n = n := by
  have hreach := reach_append_of_not_mem h hn []
  rwa [List.append_nil] at hreach

theorem reach_succ {c : Char} (h : c ≠ '\n') (r : Text) (n : Nat) : reach (c :: r) (1 + n) = 1 + reach r n := by
  rw [Nat.add_comm 1 n, reach, List.take_succ_cons, withReturns_cons h, List.length_cons, reach, Nat.add_comm]

theorem reach_newline (r : Text) (n : Nat) : reach ('\n' :: r) (1 + n) = 2 + reach r n := by
  rw [Nat.add_comm 1 n, reach, List.take_succ_cons, withReturns_newline, List.length_cons, List.length_cons, reach,
    Nat.add_comm 2]

theorem reach_takeWhile (p : Char → Bool) (t : Text) :
    reach t (t.takeWhile p).length = (withReturns (t.takeWhile p)).length := by
  rw [reach, ← List.prefix_iff_eq_take.mp (List.takeWhile_prefix p)]

end ClassOutline.Text
