import ClassOutline.Proofs.Text
import Mathlib.Data.List.TakeWhile
/-
  ClassOutline.Proofs.Utf8 — texts and their bytes.

  `bytes` writes a text in UTF-8 and takes every byte for a character of its own, so that
  whatever is defined on texts can be asked about bytes. ASCII characters are their own
  byte, and no byte of any other character is ASCII. So a search for ASCII text, a run of
  characters that does not tell one character outside ASCII from another, and the cut into
  lines come out the same on bytes (`beforeFirst?_bytes`, `takeWhile_bytes`,
  `splitLines_bytes`), and bytes that begin with the bytes of a text begin with that text
  (`eq_append_of_bytes_eq`).
-/

namespace ClassOutline.Text

/-! ## Bytes -/

def charBytes (c : Char) : Text := (String.utf8EncodeChar c).map Char.ofUInt8

/-- The UTF-8 bytes of a text, each as a character. -/
def bytes (t : Text) : Text := t.flatMap charBytes

@[simp] theorem bytes_nil : bytes [] = [] := rfl

theorem bytes_cons (c : Char) (r : Text) : bytes (c :: r) = charBytes c ++ bytes r := by
  simp [bytes]

@[simp] theorem bytes_append (a b : Text) : bytes (a ++ b) = bytes a ++ bytes b := by simp [bytes]

theorem length_charBytes (c : Char) : (charBytes c).length = c.utf8Size := by simp [charBytes]

theorem width_append (a b : Text) : width (a ++ b) = width a + width b := by
  induction a with
  | nil => simp [width]
  | cons c a ih => simp [width, ih, Nat.add_assoc]

theorem length_bytes (t : Text) : (bytes t).length = width t := by
  induction t with
  | nil => rfl
  | cons c r ih => rw [bytes_cons, List.length_append, length_charBytes, ih, width]

/-! ## ASCII -/

def IsAscii (c : Char) : Prop := c.toNat < 0x80

instance (c : Char) : Decidable (IsAscii c) := by unfold IsAscii; infer_instance

theorem isAscii_of_all {t : Text} (h : t.all (fun c => decide (IsAscii c)) = true) : ∀ c ∈ t, IsAscii c := by
  intro c hc
  exact of_decide_eq_true (List.all_eq_true.mp h c hc)

theorem isAscii_of_all_all {ps : List Text} (h : ps.all (fun p => p.all fun c => decide (IsAscii c)) = true) :
    ∀ p ∈ ps, ∀ c ∈ p, IsAscii c := by
  intro p hp
  exact isAscii_of_all (List.all_eq_true.mp h p hp)

theorem utf8Size_eq_one_iff_isAscii {c : Char} : c.utf8Size = 1 ↔ IsAscii c := by
  rw [Char.utf8Size_eq_one_iff, UInt32.le_iff_toNat_le]
  show c.toNat ≤ 127 ↔ c.toNat < 128
  omega

theorem charBytes_of_isAscii {c : Char} (h : IsAscii c) : charBytes c = [c] := by
  have hval : c.val.toNat < 128 := h
  rw [charBytes, String.utf8EncodeChar_eq_singleton (utf8Size_eq_one_iff_isAscii.mpr h)]
  simp only [List.map_cons, List.map_nil, List.cons.injEq, and_true]
  apply Char.ext
  apply UInt32.toNat_inj.mp
  show (c.val.toUInt8.toUInt32).toNat = c.val.toNat
  rw [UInt8.toNat_toUInt32, UInt32.toNat_toUInt8]
  omega

/-- A continuation byte or the first byte of several is not ASCII. -/
theorem not_isAscii_ofUInt8_or {b m : UInt8} (h : 0x80 ≤ m.toNat) : ¬ IsAscii (Char.ofUInt8 (b ||| m)) := by
  have hle : m.toNat ≤ (b ||| m).toNat := by
    rw [UInt8.toNat_or]
    exact Nat.right_le_or
  show ¬ (b ||| m).toUInt32.toNat < 0x80
  rw [UInt8.toNat_toUInt32]
  omega

theorem not_isAscii_of_mem_charBytes {c d : Char} (h : ¬ IsAscii c) (hd : d ∈ charBytes c) : ¬ IsAscii d := by
  have h1 : c.utf8Size ≠ 1 := fun h1 => h (utf8Size_eq_one_iff_isAscii.mp h1)
  rcases Char.utf8Size_eq c with h' | h' | h' | h'
  · exact absurd h' h1
  · rw [charBytes, String.utf8EncodeChar_eq_cons_cons h'] at hd
    simp only [List.map_cons, List.map_nil, List.mem_cons, List.not_mem_nil, or_false] at hd
    rcases hd with rfl | rfl <;> exact not_isAscii_ofUInt8_or (by decide)
  · rw [charBytes, String.utf8EncodeChar_eq_cons_cons_cons h'] at hd
    simp only [List.map_cons, List.map_nil, List.mem_cons, List.not_mem_nil, or_false] at hd
    rcases hd with rfl | rfl | rfl <;> exact not_isAscii_ofUInt8_or (by decide)
  · rw [charBytes, String.utf8EncodeChar_eq_cons_cons_cons_cons h'] at hd
    simp only [List.map_cons, List.map_nil, List.mem_cons, List.not_mem_nil, or_false] at hd
    rcases hd with rfl | rfl | rfl | rfl <;> exact not_isAscii_ofUInt8_or (by decide)

theorem charBytes_ne_nil (c : Char) : charBytes c ≠ [] := by
  intro h
  have hl := length_charBytes c
  have hp := Char.utf8Size_pos c
  rw [h, List.length_nil] at hl
  omega

theorem bytes_of_isAscii {t : Text} (h : ∀ c ∈ t, IsAscii c) : bytes t = t := by
  induction t with
  | nil => rfl
  | cons c r ih =>
    rw [bytes_cons, charBytes_of_isAscii (h c (by simp)), ih fun d hd => h d (by simp [hd])]
    rfl

theorem width_of_isAscii {t : Text} (h : ∀ c ∈ t, IsAscii c) : width t = t.length := by
  rw [← length_bytes, bytes_of_isAscii h]

/-- How the bytes of a text begin: with its first character if that is ASCII, and outside
    ASCII if not. -/
theorem bytes_cons_cases (c : Char) (r : Text) :
    (IsAscii c ∧ bytes (c :: r) = c :: bytes r) ∨
      (¬ IsAscii c ∧ ∃ d w, bytes (c :: r) = d :: w ++ bytes r ∧ charBytes c = d :: w ∧
        ¬ IsAscii d ∧ ∀ e ∈ w, ¬ IsAscii e) := by
  rw [bytes_cons]
  by_cases h : IsAscii c
  · exact Or.inl ⟨h, by rw [charBytes_of_isAscii h]; rfl⟩
  · obtain ⟨d, w, hw⟩ := List.exists_cons_of_ne_nil (charBytes_ne_nil c)
    have hmem : ∀ e ∈ d :: w, ¬ IsAscii e := fun e he => not_isAscii_of_mem_charBytes h (hw ▸ he)
    exact Or.inr ⟨h, d, w, by rw [hw], hw, hmem d (by simp), fun e he => hmem e (by simp [he])⟩

/-! ## Cutting bytes -/

theorem toUInt8_ofUInt8 (b : UInt8) : (Char.ofUInt8 b).toUInt8 = b := by
  apply UInt8.toNat_inj.mp
  show b.toUInt32.toUInt8.toNat = b.toNat
  simp

theorem map_toUInt8_bytes (t : Text) : (bytes t).map Char.toUInt8 = t.flatMap String.utf8EncodeChar := by
  simp only [bytes, List.map_flatMap, charBytes, List.map_map]
  congr 1
  funext c
  exact (List.map_congr_left fun b _ => toUInt8_ofUInt8 b).trans (List.map_id _)

/-- UTF-8 can be read from the front: bytes that begin as those of a text do, begin with
    that text. -/
theorem eq_append_of_bytes_eq {t a x : Text} (h : bytes t = bytes a ++ x) :
    ∃ u, t = a ++ u ∧ x = bytes u := by
  have hb := congrArg (fun l => (List.map Char.toUInt8 l).toByteArray) h
  simp only [List.map_append, map_toUInt8_bytes] at hb
  have hpre : a <+: t := by
    apply List.isPrefix_of_utf8Encode_append_eq_utf8Encode (x.map Char.toUInt8).toByteArray
    rw [List.utf8Encode, List.utf8Encode, hb]
    simp
  obtain ⟨u, rfl⟩ := hpre
  refine ⟨u, rfl, ?_⟩
  rw [bytes_append] at h
  exact (List.append_cancel_left h).symm

theorem bytes_injective {a b : Text} (h : bytes a = bytes b) : a = b := by
  obtain ⟨u, rfl, hu⟩ := eq_append_of_bytes_eq (t := a) (a := b) (x := []) (by simpa using h)
  cases u with
  | nil => simp
  | cons c r =>
    rw [bytes_cons] at hu
    exact absurd (List.append_eq_nil_iff.mp hu.symm).1 (charBytes_ne_nil c)

theorem startsWith_bytes (head t : Text) : startsWith (bytes t) (bytes head) = startsWith t head := by
  rw [Bool.eq_iff_iff, startsWith_iff, startsWith_iff]
  constructor
  · intro h
    obtain ⟨r, h⟩ := h
    obtain ⟨u, rfl, -⟩ := eq_append_of_bytes_eq h
    exact ⟨u, rfl⟩
  · intro h
    obtain ⟨r, rfl⟩ := h
    exact ⟨bytes r, bytes_append head r⟩

theorem startsWith_bytes_ascii {head : Text} (h : ∀ c ∈ head, IsAscii c) (t : Text) :
    startsWith (bytes t) head = startsWith t head := by
  rw [← startsWith_bytes head t, bytes_of_isAscii h]

theorem after?_bytes (head t : Text) : after? (bytes head) (bytes t) = (after? head t).map bytes := by
  cases h : after? head t with
  | some r => simp [after?_eq_some_iff.mp h, after?_eq_some_iff]
  | none =>
    rw [Option.map_none, Option.eq_none_iff_forall_not_mem]
    intro x hx
    obtain ⟨u, hu, -⟩ := eq_append_of_bytes_eq (after?_eq_some_iff.mp hx)
    rw [after?_eq_some_iff.mpr hu] at h
    cases h

theorem take_bytes (t : Text) (n : Nat) : (bytes t).take (width (t.take n)) = bytes (t.take n) := by
  conv => lhs; rw [← List.take_append_drop n t, bytes_append]
  rw [← length_bytes]
  simp

theorem drop_bytes (t : Text) (n : Nat) : (bytes t).drop (width (t.take n)) = bytes (t.drop n) := by
  conv => lhs; rw [← List.take_append_drop n t, bytes_append]
  rw [← length_bytes]
  simp

theorem count_newline_bytes (t : Text) : (bytes t).count '\n' = t.count '\n' := by
  induction t with
  | nil => rfl
  | cons c r ih =>
    rcases bytes_cons_cases c r with ⟨-, h⟩ | ⟨hc, d, w, h, -, hd, hw⟩
    · rw [h, List.count_cons, List.count_cons, ih]
    · have hne : ∀ e : Char, ¬ IsAscii e → e ≠ '\n' := by intro e he heq; subst heq; exact he (by decide)
      have hcount : (d :: w).count '\n' = 0 := by
        rw [List.count_eq_zero]
        intro hm
        rcases List.mem_cons.mp hm with he | he
        · exact hne d hd he.symm
        · exact hne _ (hw _ he) rfl
      rw [h, List.count_append, hcount, Nat.zero_add, ih, List.count_cons_of_ne (hne c hc)]

/-! ## Runs -/

/-- A test that does not tell one character outside ASCII from another. -/
def Uniform (p : Char → Bool) : Prop := ∀ c d, ¬ IsAscii c → ¬ IsAscii d → p c = p d

theorem takeWhile_bytes {p : Char → Bool} (hp : Uniform p) (t : Text) :
    (bytes t).takeWhile p = bytes (t.takeWhile p) := by
  induction t with
  | nil => rfl
  | cons c r ih =>
    rcases bytes_cons_cases c r with ⟨hc, h⟩ | ⟨hc, d, w, h, hcw, hd, hw⟩
    · rw [h, List.takeWhile_cons, List.takeWhile_cons, ih]
      split
      · rw [bytes_cons, charBytes_of_isAscii hc]; rfl
      · rfl
    · have hpd : ∀ e ∈ d :: w, p e = p c := by
        intro e he
        rcases List.mem_cons.mp he with rfl | he
        · exact hp _ _ hd hc
        · exact hp _ _ (hw e he) hc
      rw [h, List.takeWhile_cons]
      split
      · rename_i hpc
        rw [List.takeWhile_append_of_pos fun e he => (hpd e he).trans hpc, ih, bytes_cons, hcw]
      · rename_i hpc
        rw [List.cons_append, List.takeWhile_cons_of_neg (by rw [hpd d (by simp)]; exact hpc), bytes_nil]

theorem head?_any_bytes {p : Char → Bool} (hp : Uniform p) (t : Text) :
    (bytes t).head?.any p = t.head?.any p := by
  cases t with
  | nil => rfl
  | cons c r =>
    rcases bytes_cons_cases c r with ⟨-, h⟩ | ⟨hc, d, w, h, -, hd, -⟩
    · rw [h]; rfl
    · rw [h]; exact hp d c hd hc

/-! ## Searches -/

theorem startsWith_append_of_head {part w : Text} {p c : Char} {x : Text} (hp : part.head? = some p)
    (hc : c ≠ p) : startsWith (c :: w ++ x) part = false := by
  cases part with
  | nil => simp at hp
  | cons q part =>
    obtain rfl : q = p := by simpa using hp
    simp [startsWith, List.isPrefixOf, Ne.symm hc]

/-- Characters other than the first of the part are passed over. -/
theorem beforeFirst?_append {part w : Text} {p : Char} (hp : part.head? = some p)
    (hw : ∀ c ∈ w, c ≠ p) (x : Text) :
    beforeFirst? part (w ++ x) = (beforeFirst? part x).map (w ++ ·) := by
  induction w with
  | nil => simp
  | cons c w ih =>
    rw [List.cons_append, beforeFirst?_cons, ← List.cons_append,
      startsWith_append_of_head hp (hw c (by simp)), ih fun d hd => hw d (by simp [hd])]
    cases beforeFirst? part x <;> simp

theorem beforeFirst?_bytes {part : Text} (hne : part ≠ []) (ha : ∀ c ∈ part, IsAscii c) (t : Text) :
    beforeFirst? part (bytes t) = (beforeFirst? part t).map bytes := by
  obtain ⟨p, part', rfl⟩ := List.exists_cons_of_ne_nil hne
  have hp : IsAscii p := ha p (by simp)
  induction t with
  | nil => rfl
  | cons c r ih =>
    rcases bytes_cons_cases c r with ⟨hc, h⟩ | ⟨hc, d, w, h, hcw, hd, hw⟩
    · rw [h, beforeFirst?_cons, beforeFirst?_cons, ← h, startsWith_bytes_ascii ha, ih]
      split
      · rfl
      · cases beforeFirst? (p :: part') r with
        | none => rfl
        | some b => simp [bytes_cons, charBytes_of_isAscii hc]
    · have hdw : ∀ e ∈ d :: w, e ≠ p := by
        intro e he heq
        subst heq
        rcases List.mem_cons.mp he with rfl | he
        · exact hd hp
        · exact hw e he hp
      have hcp : startsWith (c :: r) (p :: part') = false :=
        startsWith_append_of_head (w := []) (p := p) rfl (by intro heq; subst heq; exact hc hp)
      rw [h, beforeFirst?_append rfl hdw, ih, beforeFirst?_cons, hcp]
      cases beforeFirst? (p :: part') r with
      | none => rfl
      | some b => simp [bytes_cons, hcw]

/-! ## Lines and case -/

theorem splitLines_bytes (t : Text) : splitLines (bytes t) = (splitLines t).map bytes := by
  induction t with
  | nil => rfl
  | cons c r ih =>
    obtain ⟨l, ls, hr⟩ := List.exists_cons_of_ne_nil (splitLines_ne_nil r)
    rw [hr, List.map_cons] at ih
    rw [bytes_cons]
    by_cases hc : c = '\n'
    · subst hc
      rw [charBytes_of_isAscii (by decide), List.singleton_append, splitLines, splitLines, ih, hr]
      rfl
    · have hne : ∀ d ∈ charBytes c, d ≠ '\n' := by
        intro d hd hn
        by_cases ha : IsAscii c
        · rw [charBytes_of_isAscii ha, List.mem_singleton] at hd
          exact hc (hd ▸ hn)
        · exact not_isAscii_of_mem_charBytes ha hd (hn ▸ by decide)
      rw [splitLines_append_of_ne hne _ ih, splitLines_cons_of_ne hc r hr, List.map_cons, bytes_cons]

theorem dropReturn_bytes (t : Text) : dropReturn (bytes t) = bytes (dropReturn t) := by
  have hr : bytes ['\r'] = ['\r'] := bytes_of_isAscii (isAscii_of_all rfl)
  unfold dropReturn
  rcases dropTail_cases ['\r'] t with h | ⟨h, hne⟩
  · have hb : bytes t = bytes (dropTail ['\r'] t) ++ ['\r'] := by
      conv => lhs; rw [h]
      rw [bytes_append, hr]
    have : before? ['\r'] (bytes t) = some (bytes (dropTail ['\r'] t)) := before?_eq_some_iff.mpr hb
    rw [dropTail, this, Option.getD_some]
  · rw [h]
    rcases dropTail_cases ['\r'] (bytes t) with hb | ⟨hb, -⟩
    · -- The last byte is a carriage return, so the last character is.
      exfalso
      rcases List.eq_nil_or_concat t with rfl | ⟨u, c, rfl⟩
      · simp at hb
      · rw [List.concat_eq_append, bytes_append, bytes_cons, bytes_nil, List.append_nil] at hb
        have hlast := congrArg List.getLast? hb
        rw [List.getLast?_append, List.getLast?_append] at hlast
        have hmem : '\r' ∈ charBytes c := by
          cases hg : (charBytes c).getLast? with
          | none => exact absurd (List.getLast?_eq_none_iff.mp hg) (charBytes_ne_nil c)
          | some d =>
            rw [hg] at hlast
            have hd : d = '\r' := by simpa using hlast
            exact hd ▸ List.mem_of_getLast? hg
        by_cases ha : IsAscii c
        · rw [charBytes_of_isAscii ha, List.mem_singleton] at hmem
          subst hmem
          exact hne u (by simp)
        · exact not_isAscii_of_mem_charBytes ha hmem (by decide)
    · exact hb

theorem toLower_of_not_isAscii {c : Char} (h : ¬ IsAscii c) : c.toLower = c := by
  have hc : ¬ c.toNat < 0x80 := h
  unfold Char.toLower
  split
  · rename_i hu
    have h1 := UInt32.le_iff_toNat_le.mp hu.2
    have h2 : c.val.toNat ≤ 90 := h1
    exact absurd (show c.toNat < 0x80 from by show c.val.toNat < 0x80; omega) hc
  · rfl

theorem isAscii_toLower {c : Char} (h : IsAscii c) : IsAscii c.toLower := by
  have hall : ∀ n < 0x80, IsAscii (Char.ofNat n).toLower := by decide
  have := hall c.toNat h
  rwa [Char.ofNat_toNat] at this

theorem lower_bytes (t : Text) : lower (bytes t) = bytes (lower t) := by
  induction t with
  | nil => rfl
  | cons c r ih =>
    rw [bytes_cons, lower, List.map_append]
    show (charBytes c).map Char.toLower ++ lower (bytes r) = bytes (c.toLower :: lower r)
    rw [ih, bytes_cons]
    by_cases h : IsAscii c
    · rw [charBytes_of_isAscii h, charBytes_of_isAscii (isAscii_toLower h)]
      rfl
    · rw [toLower_of_not_isAscii h]
      congr 1
      exact (List.map_congr_left fun d hd => toLower_of_not_isAscii (not_isAscii_of_mem_charBytes h hd)).trans
        (List.map_id _)

end ClassOutline.Text
