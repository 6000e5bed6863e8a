import ClassOutline.Body
import ClassOutline.Proofs.Layout
import ClassOutline.Proofs.Lexing.Lossless
/-
  ClassOutline.Proofs.Bodies — a body is the text between its braces.

  The reader of bodies never sees the text between two braces: it gets lines, cuts the first
  and the last at byte columns, and takes braces off what is left. It gives that text all the
  same. Line by line (`text_induction`), the lines up to a brace are the pieces of the text
  before it, cut where the brace stands (`modifyLast_take_lines`, `drop_pieces`), so the
  lines within the bounds are the pieces of the inside with a brace at either end (`slice_eq`),
  and just these two braces go (`ofLines_braced`). `extract_of_braces` says it for two braces
  at byte positions of a source; no other brace is lost, since only blank pieces are dropped.
-/

namespace ClassOutline.Text

/-! ## Texts, line by line -/

/-- Every text is a line, or a line and a text behind its newline. -/
theorem text_induction {P : Text → Prop} (line : ∀ l : Text, '\n' ∉ l → P l)
    (more : ∀ l r : Text, '\n' ∉ l → P r → P (l ++ '\n' :: r)) (t : Text) : P t := by
  induction hlen : t.length using Nat.strong_induction_on generalizing t with
  | _ n ih =>
    by_cases hn : '\n' ∈ t
    · obtain ⟨l, r, rfl, hl⟩ := List.eq_append_cons_of_mem hn
      refine more l r hl (ih r.length ?_ r rfl)
      rw [← hlen]
      simp only [List.length_append, List.length_cons]
      omega
    · exact line t hn

theorem splitLines_of_not_mem {l : Text} (h : '\n' ∉ l) : splitLines l = [l] := by
  have hnil : splitLines [] = [[]] := rfl
  have := splitLines_append_of_ne (fun c hc (he : c = '\n') => h (he ▸ hc)) [] hnil
  rwa [List.append_nil] at this

theorem splitLines_line_append {l : Text} (h : '\n' ∉ l) (r : Text) :
    splitLines (l ++ '\n' :: r) = l :: splitLines r := by
  rw [splitLines_append, splitLines_of_not_mem h, List.singleton_append]

theorem newline_not_mem_of_mem_splitLines {t l : Text} (hl : l ∈ splitLines t) : '\n' ∉ l := by
  induction t using text_induction with
  | line l' hl' =>
    rw [splitLines_of_not_mem hl'] at hl
    rwa [List.mem_singleton.mp hl]
  | more l' r hl' ih =>
    rw [splitLines_line_append hl'] at hl
    rcases List.mem_cons.mp hl with rfl | hl
    · exact hl'
    · exact ih hl

theorem lines_of_not_mem {l : Text} (h : '\n' ∉ l) (hne : l ≠ []) : lines l = [l] := by
  simp [lines, splitLines_of_not_mem h, hne]

theorem lines_line_append {l : Text} (h : '\n' ∉ l) (r : Text) :
    lines (l ++ '\n' :: r) = dropReturn l :: lines r := by
  obtain ⟨p, ps, hr⟩ := List.exists_cons_of_ne_nil (splitLines_ne_nil r)
  simp [lines, splitLines_line_append h, hr]

theorem trimEnd_eq_nil_iff {p : Char → Bool} {t : Text} : trimEnd p t = [] ↔ ∀ c ∈ t, p c = true := by
  simp [trimEnd]

theorem dropReturn_concat (l : Text) (c : Char) : dropReturn (l ++ [c]) = if c = '\r' then l else l ++ [c] := by
  rcases dropTail_cases ['\r'] (l ++ [c]) with h | ⟨h, hno⟩
  · obtain ⟨hl, hc⟩ := List.append_inj' h rfl
    rw [if_pos (List.cons.inj hc).1]
    exact hl.symm
  · have hc : c ≠ '\r' := fun he => hno l (by rw [he])
    rw [if_neg hc]
    exact h

/-- Before anything but a carriage return nothing goes. -/
theorem dropReturn_append {c : Char} (hc : c ≠ '\r') (a b : Text) :
    dropReturn (a ++ c :: b) = a ++ c :: dropReturn b := by
  rcases List.eq_nil_or_concat b with rfl | ⟨b, d, rfl⟩
  · rw [dropReturn_concat, if_neg hc]
    rfl
  · have hassoc : a ++ c :: (b ++ [d]) = a ++ c :: b ++ [d] := by simp
    rw [List.concat_eq_append, hassoc, dropReturn_concat, dropReturn_concat]
    split
    · rfl
    · exact hassoc.symm

/-! ## Line ends -/

/-- The text with every carriage return before a newline left out. -/
def plainLineEnds : Text → Text
  | '\r' :: '\n' :: r => '\n' :: plainLineEnds r
  | c :: r => c :: plainLineEnds r
  | [] => []

theorem plainLineEnds_cons_of_ne {c : Char} (hc : c ≠ '\r') (r : Text) :
    plainLineEnds (c :: r) = c :: plainLineEnds r :=
  plainLineEnds.eq_2 c r fun _ he _ => hc he

/-- A line keeps everything before a character that is no newline. -/
theorem plainLineEnds_append {l : Text} (h : '\n' ∉ l) {c : Char} (hc : c ≠ '\n') (r : Text) :
    plainLineEnds (l ++ c :: r) = l ++ plainLineEnds (c :: r) := by
  induction l with
  | nil => rfl
  | cons d l ih =>
    obtain ⟨hd, hl⟩ : '\n' ≠ d ∧ '\n' ∉ l := by simpa using h
    have hnext : ∀ r', d = '\r' → l ++ c :: r = '\n' :: r' → False := by
      intro r' _ he
      cases l with
      | nil => exact hc (List.cons.inj he).1
      | cons e l => exact hl (by simp [(List.cons.inj he).1])
    rw [List.cons_append, plainLineEnds.eq_2 _ _ hnext, ih hl, List.cons_append]

theorem plainLineEnds_of_not_mem {l : Text} (h : '\n' ∉ l) : plainLineEnds l = l := by
  rcases List.eq_nil_or_concat l with rfl | ⟨l, c, rfl⟩
  · rfl
  · rw [List.concat_eq_append] at h ⊢
    obtain ⟨hl, hc⟩ : '\n' ∉ l ∧ '\n' ≠ c := by simpa using h
    have hone : plainLineEnds [c] = [c] := plainLineEnds.eq_2 c [] fun _ _ he => by cases he
    rw [plainLineEnds_append hl (Ne.symm hc), hone]

theorem plainLineEnds_line_append {l : Text} (h : '\n' ∉ l) (r : Text) :
    plainLineEnds (l ++ '\n' :: r) = dropReturn l ++ '\n' :: plainLineEnds r := by
  have hnewline : plainLineEnds ('\n' :: r) = '\n' :: plainLineEnds r := plainLineEnds_cons_of_ne (by decide) r
  rcases List.eq_nil_or_concat l with rfl | ⟨l, c, rfl⟩
  · exact hnewline
  · rw [List.concat_eq_append] at h ⊢
    obtain ⟨hl, hc⟩ : '\n' ∉ l ∧ '\n' ≠ c := by simpa using h
    rw [List.append_assoc, List.singleton_append, plainLineEnds_append hl (Ne.symm hc), dropReturn_concat]
    split
    · rename_i hr
      rw [hr, plainLineEnds]
    · rename_i hr
      rw [plainLineEnds_cons_of_ne hr, hnewline, List.append_assoc, List.singleton_append]

/-- The pieces between newlines, a carriage return before a newline going with it. -/
def pieces (t : Text) : List Text := splitLines (plainLineEnds t)

theorem pieces_ne_nil (t : Text) : pieces t ≠ [] := splitLines_ne_nil _

theorem pieces_of_not_mem {l : Text} (h : '\n' ∉ l) : pieces l = [l] := by
  rw [pieces, plainLineEnds_of_not_mem h, splitLines_of_not_mem h]

theorem not_mem_dropReturn {l : Text} (h : '\n' ∉ l) : '\n' ∉ dropReturn l := by
  rcases List.eq_nil_or_concat l with rfl | ⟨l, c, rfl⟩
  · exact h
  · rw [List.concat_eq_append] at h ⊢
    rw [dropReturn_concat]
    split
    · exact fun hmem => h (List.mem_append_left _ hmem)
    · exact h

theorem pieces_line_append {l : Text} (h : '\n' ∉ l) (r : Text) :
    pieces (l ++ '\n' :: r) = dropReturn l :: pieces r := by
  rw [pieces, plainLineEnds_line_append h, splitLines_line_append (not_mem_dropReturn h), pieces]

end ClassOutline.Text

namespace ClassOutline.Body

open ClassOutline.Text ClassOutline.Token

/-! ## Positions -/

/-- The line behind a text, counted from 1. -/
def lineBehind (t : Text) : Nat := 1 + t.count '\n'

/-- The bytes behind the last newline of a text. -/
def columnBehind (t : Text) : Nat := width (t.reverse.takeWhile (· != '\n')).reverse

theorem columnBehind_of_not_mem {l : Text} (h : '\n' ∉ l) : columnBehind l = width l := by
  have hall : l.reverse.takeWhile (· != '\n') = l.reverse := by
    refine List.takeWhile_eq_self_iff.mpr fun c hc => ?_
    simpa using fun he : c = '\n' => h (he ▸ List.mem_reverse.mp hc)
  rw [columnBehind, hall, List.reverse_reverse]

theorem columnBehind_line_append (l r : Text) : columnBehind (l ++ '\n' :: r) = columnBehind r := by
  have hrev : (l ++ '\n' :: r).reverse = r.reverse ++ '\n' :: l.reverse := by simp
  rw [columnBehind, hrev, takeWhile_stop (by simp), columnBehind]

theorem lineBehind_of_not_mem {l : Text} (h : '\n' ∉ l) : lineBehind l = 1 := by
  rw [lineBehind, List.count_eq_zero_of_not_mem h]

theorem lineBehind_line_append {l : Text} (h : '\n' ∉ l) (r : Text) :
    lineBehind (l ++ '\n' :: r) = lineBehind r + 1 := by
  rw [lineBehind, lineBehind, List.count_append, List.count_eq_zero_of_not_mem h, List.count_cons_self]
  omega

/-- The bounds of an opening brace behind some text and a closing one behind some more. -/
def boundsOf (before inside : Text) : Bounds :=
  ⟨lineBehind before, columnBehind before, lineBehind (before ++ '{' :: inside), columnBehind (before ++ '{' :: inside)⟩

/-! ## Lines within bounds -/

theorem modifyLast_cons_cons (f : Text → Text) (l m : Text) (ls : List Text) :
    modifyLast f (l :: m :: ls) = l :: modifyLast f (m :: ls) := modifyLast.eq_3 f l (m :: ls) (by simp)

theorem drop_modifyLast (f : Text → Text) (ls : List Text) (n : Nat) :
    modifyLast f (ls.drop n) = (modifyLast f ls).drop n := by
  fun_induction modifyLast f ls generalizing n with
  | case1 => simp [modifyLast]
  | case2 l => cases n <;> simp [modifyLast]
  | case3 l ls hne ih =>
    cases n with
    | zero => rw [List.drop_zero, List.drop_zero, modifyLast.eq_3 _ _ _ hne]
    | succ n => simpa using ih n

/-- The line a brace stands on goes on behind it. -/
theorem lines_brace {l : Text} (h : '\n' ∉ l) (after : Text) :
    ∃ tail rest, lines (l ++ '}' :: after) = (l ++ '}' :: tail) :: rest := by
  induction after using text_induction with
  | line a ha =>
    refine ⟨a, [], lines_of_not_mem ?_ (by simp)⟩
    simp [h, ha]
  | more a r ha _ =>
    have hassoc : l ++ '}' :: (a ++ '\n' :: r) = l ++ '}' :: a ++ '\n' :: r := by simp
    refine ⟨dropReturn a, lines r, ?_⟩
    rw [hassoc, lines_line_append (by simp [h, ha]), dropReturn_append (by decide)]

theorem lineBehind_le_length (t after : Text) : lineBehind t ≤ (lines (t ++ '}' :: after)).length := by
  induction t using text_induction with
  | line l hl =>
    obtain ⟨tail, rest, hlines⟩ := lines_brace hl after
    rw [hlines, lineBehind_of_not_mem hl]
    simp
  | more l r hl ih =>
    rw [lineBehind_line_append hl, List.append_assoc, List.cons_append, lines_line_append hl, List.length_cons]
    omega

/-- The lines up to a closing brace, cut behind it, are the pieces of the text before it, and
    the brace. -/
theorem modifyLast_take_lines {t : Text} (hcolumn : columnBehind t < Bounds.maxColumn) (after : Text) :
    modifyLast (cutAfter (columnBehind t)) ((lines (t ++ '}' :: after)).take (lineBehind t)) =
      modifyLast (· ++ ['}']) (pieces t) := by
  induction t using text_induction with
  | line l hl =>
    obtain ⟨tail, rest, hlines⟩ := lines_brace hl after
    rw [columnBehind_of_not_mem hl] at hcolumn ⊢
    have hwidth : width l + 1 = width (l ++ ['}']) := by rw [width_append]; rfl
    have hsplit : l ++ '}' :: tail = (l ++ ['}']) ++ tail := by simp
    rw [hlines, lineBehind_of_not_mem hl, pieces_of_not_mem hl, List.take_succ_cons, List.take_zero, modifyLast,
      modifyLast, cutAfter, if_neg (Nat.ne_of_lt hcolumn), hwidth, hsplit, takeWidth?_append, Option.getD_some]
  | more l r hl ih =>
    rw [columnBehind_line_append] at hcolumn ⊢
    obtain ⟨p, ps, hp⟩ := List.exists_cons_of_ne_nil (pieces_ne_nil r)
    have hstep := ih hcolumn
    obtain ⟨n, hn⟩ : ∃ n, lineBehind r = n + 1 := ⟨r.count '\n', by rw [lineBehind, Nat.add_comm]⟩
    have hlen := lineBehind_le_length r after
    obtain ⟨q, qs, hq⟩ : ∃ q qs, lines (r ++ '}' :: after) = q :: qs := by
      refine List.exists_cons_of_ne_nil fun hnil => ?_
      rw [hnil, hn] at hlen
      simp at hlen
    rw [hq, hn, List.take_succ_cons, hp] at hstep
    rw [lineBehind_line_append hl, List.append_assoc, List.cons_append, lines_line_append hl, pieces_line_append hl,
      List.take_succ_cons, hq, hn, List.take_succ_cons, hp, modifyLast_cons_cons, modifyLast_cons_cons, hstep]

/-- The pieces from an opening brace on, cut before it. -/
theorem drop_pieces (before inside : Text) {p : Text} {ps : List Text} (h : pieces inside = p :: ps) :
    ∃ l, width l = columnBehind before ∧
      (pieces (before ++ '{' :: inside)).drop (lineBehind before - 1) = (l ++ '{' :: p) :: ps := by
  induction before using text_induction with
  | line l hl =>
    refine ⟨l, (columnBehind_of_not_mem hl).symm, ?_⟩
    rw [lineBehind_of_not_mem hl, Nat.sub_self, List.drop_zero, pieces, plainLineEnds_append hl (by decide),
      plainLineEnds_cons_of_ne (by decide)]
    have hw : ∀ c ∈ l ++ ['{'], c ≠ '\n' := by
      intro c hc he
      rcases List.mem_append.mp hc with hc | hc
      · exact hl (he ▸ hc)
      · rw [List.mem_singleton.mp hc] at he
        cases he
    have := splitLines_append_of_ne hw (plainLineEnds inside) h
    simpa using this
  | more l r hl ih =>
    obtain ⟨l', hwidth, hdrop⟩ := ih
    refine ⟨l', by rw [hwidth, columnBehind_line_append], ?_⟩
    obtain ⟨n, hn⟩ : ∃ n, lineBehind r = n + 1 := ⟨r.count '\n', by rw [lineBehind, Nat.add_comm]⟩
    rw [hn, Nat.add_sub_cancel] at hdrop
    rw [lineBehind_line_append hl, hn, Nat.add_sub_cancel, List.append_assoc, List.cons_append, pieces_line_append hl,
      List.drop_succ_cons, hdrop]

/-- The lines within the bounds of two braces are the pieces between them, in braces. -/
theorem slice_eq {before inside : Text} (hcolumn : columnBehind (before ++ '{' :: inside) < Bounds.maxColumn)
    (after : Text) :
    slice (lines (before ++ '{' :: inside ++ '}' :: after)) (boundsOf before inside) =
      modifyLast (· ++ ['}']) (modifyFirst ('{' :: ·) (pieces inside)) := by
  obtain ⟨p, ps, hp⟩ := List.exists_cons_of_ne_nil (pieces_ne_nil inside)
  obtain ⟨l, hwidth, hdrop⟩ := drop_pieces before inside hp
  rw [slice, boundsOf, drop_modifyLast, modifyLast_take_lines hcolumn, ← drop_modifyLast, hdrop, hp, ← hwidth]
  have hcut : ∀ x, cutBefore (width l) (l ++ '{' :: x) = '{' :: x := by
    intro x
    rw [cutBefore, dropWidth?_append, Option.getD_some]
  cases ps with
  | nil =>
    have hassoc : l ++ '{' :: p ++ ['}'] = l ++ '{' :: (p ++ ['}']) := by simp
    rw [modifyLast, modifyFirst, hassoc, hcut, modifyFirst, modifyLast, List.cons_append]
  | cons q ps =>
    rw [modifyLast_cons_cons, modifyFirst, hcut, modifyFirst, modifyLast_cons_cons]

/-! ## The two braces -/

/-- The pieces without a blank first and without a blank last one; a single piece stays. -/
def withoutBlankEnds (ps : List Text) : List Text :=
  if ps.length ≤ 1 then ps
  else
    let ps := if ps.head?.any isAllBlank then ps.drop 1 else ps
    if ps.getLast?.any isAllBlank then ps.dropLast else ps

theorem isLone_open (p : Text) : isLone '{' ('{' :: p) = isAllBlank p := by
  have hstart : trimStart isBlank ('{' :: p) = '{' :: p := List.dropWhile_cons_of_neg (by decide)
  have hend := trimEnd_append (p := isBlank) (u := ['{']) (c := '{') rfl rfl p
  rw [List.singleton_append] at hend
  rw [isLone, trimBlank, trim, hstart, hend, List.singleton_append, Bool.eq_iff_iff, beq_iff_eq, List.cons.injEq,
    trimEnd_eq_nil_iff, isAllBlank, List.all_eq_true]
  exact and_iff_right rfl

theorem trimEnd_concat {p : Char → Bool} {c : Char} (h : p c = false) (t : Text) : trimEnd p (t ++ [c]) = t ++ [c] := by
  simp [trimEnd, h]

theorem isLone_close (p : Text) : isLone '}' (p ++ ['}']) = isAllBlank p := by
  have hstart : trimStart isBlank (p ++ ['}']) = p.dropWhile isBlank ++ ['}'] := by
    rw [trimStart, List.dropWhile_append]
    split
    · rename_i he
      rw [List.isEmpty_iff.mp he]
      rfl
    · rfl
  rw [isLone, trimBlank, trim, hstart, trimEnd_concat rfl, Bool.eq_iff_iff, beq_iff_eq, isAllBlank, List.all_eq_true,
    ← List.dropWhile_eq_nil_iff]
  simp

theorem isAllBlank_of_mem {p : Text} {c : Char} (hc : isBlank c = false) (hmem : c ∈ p) : isAllBlank p = false := by
  rw [isAllBlank, List.all_eq_false]
  exact ⟨c, hmem, by simp [hc]⟩

theorem stripClose_concat (t : Text) : stripClose (t ++ ['}']) = t := by
  rw [stripClose, trimEnd_concat rfl, before?_eq_some_iff.mpr rfl, Option.getD_some]

theorem stripOpen_cons (t : Text) : stripOpen ('{' :: t) = t := by
  have hstart : trimStart isBlank ('{' :: t) = '{' :: t := List.dropWhile_cons_of_neg (by decide)
  rw [stripOpen, hstart, after?_eq_some_iff.mpr (List.singleton_append ..).symm, Option.getD_some]

theorem modifyLast_concat (f : Text → Text) (ls : List Text) (l : Text) : modifyLast f (ls ++ [l]) = ls ++ [f l] := by
  induction ls with
  | nil => rfl
  | cons m ls ih =>
    obtain ⟨k, ks, hk⟩ := List.exists_cons_of_ne_nil (List.append_ne_nil_of_right_ne_nil ls (List.cons_ne_nil l []))
    rw [hk] at ih
    rw [List.cons_append, hk, modifyLast_cons_cons, ih, List.cons_append]

theorem joinLines_cons_first (c : Char) (l : Text) (ls : List Text) :
    joinLines ((c :: l) :: ls) = c :: joinLines (l :: ls) := by
  cases ls with
  | nil => rfl
  | cons m ls => rw [joinLines_cons_cons, joinLines_cons_cons, List.cons_append]

theorem joinLines_concat_last (ls : List Text) (l : Text) (c : Char) :
    joinLines (ls ++ [l ++ [c]]) = joinLines (ls ++ [l]) ++ [c] := by
  cases ls with
  | nil => simp
  | cons m ls =>
    rw [joinLines_append (by simp) (by simp), joinLines_append (by simp) (by simp), joinLines_singleton,
      joinLines_singleton, List.append_assoc, List.cons_append]

theorem getLast?_cons_concat (p : Text) (qs : List Text) (z : Text) : (p :: (qs ++ [z])).getLast? = some z :=
  List.getLast?_concat (l := p :: qs)

theorem dropLast_cons_concat (p : Text) (qs : List Text) (z : Text) : (p :: (qs ++ [z])).dropLast = p :: qs := by
  rw [← List.cons_append, List.dropLast_concat]

theorem withoutBlankEnds_concat (p : Text) (qs : List Text) (z : Text) :
    withoutBlankEnds (p :: (qs ++ [z])) =
      (if isAllBlank p then [] else [p]) ++ (qs ++ if isAllBlank z then [] else [z]) := by
  cases hp : isAllBlank p <;> cases hz : isAllBlank z <;>
    simp [withoutBlankEnds, hp, hz, getLast?_cons_concat, dropLast_cons_concat]

/-- Of pieces in braces the braces go, and a first or last piece that is blank goes with its
    brace if it has a line of its own. -/
theorem ofLines_braced {ps : List Text} (hne : ps ≠ []) :
    ofLines (modifyLast (· ++ ['}']) (modifyFirst ('{' :: ·) ps)) = joinLines (withoutBlankEnds ps) := by
  obtain ⟨p, ps, rfl⟩ := List.exists_cons_of_ne_nil hne
  rcases List.eq_nil_or_concat ps with rfl | ⟨qs, z, rfl⟩
  · -- one line holds both braces, so neither is alone on it
    have hopen : isLone '{' ('{' :: (p ++ ['}'])) = false := by
      rw [isLone_open]
      exact isAllBlank_of_mem (c := '}') rfl (by simp)
    have hclose : isLone '}' ('{' :: p ++ ['}']) = false := by
      rw [isLone_close]
      exact isAllBlank_of_mem (c := '{') rfl (by simp)
    rw [modifyFirst, modifyLast]
    simp only [ofLines, List.head?_cons, Option.any_some, List.cons_append, hopen] at hclose ⊢
    simp only [Bool.false_eq_true, if_false, List.getLast?_singleton, Option.any_some, hclose, joinLines_singleton]
    rw [← List.cons_append, stripClose_concat, stripOpen_cons]
    simp [withoutBlankEnds]
  · rw [List.concat_eq_append, modifyFirst, ← List.cons_append, modifyLast_concat]
    have hjoin : ∀ x y c, joinLines (x :: (qs ++ [y ++ [c]])) = joinLines (x :: (qs ++ [y])) ++ [c] :=
      fun x y c => joinLines_concat_last (x :: qs) y c
    simp only [ofLines, withoutBlankEnds_concat, List.cons_append, List.head?_cons, Option.any_some, isLone_open]
    by_cases hp : isAllBlank p = true
    · simp only [if_pos hp, List.drop_succ_cons, List.drop_zero, List.getLast?_concat, Option.any_some, isLone_close,
        List.dropLast_concat, List.nil_append]
      by_cases hz : isAllBlank z = true
      · simp only [if_pos hz, List.append_nil]
      · simp only [if_neg hz, joinLines_concat_last, stripClose_concat]
    · simp only [if_neg hp, getLast?_cons_concat, dropLast_cons_concat, Option.any_some, isLone_close]
      by_cases hz : isAllBlank z = true
      · simp only [if_pos hz, joinLines_cons_first, stripOpen_cons, List.append_nil, List.singleton_append]
      · simp only [if_neg hz, hjoin, stripClose_concat, joinLines_cons_first, stripOpen_cons, List.singleton_append]

/-- The text between two braces, as a body: without the lines the braces have for themselves. -/
def between (inside : Text) : Text := joinLines (withoutBlankEnds (pieces inside))

/-- Two braces in a text, and the body within their bounds. -/
theorem extract_boundsOf {before inside : Text} (hcolumn : columnBehind (before ++ '{' :: inside) < Bounds.maxColumn)
    (after : Text) :
    extract (lines (before ++ '{' :: inside ++ '}' :: after)) (boundsOf before inside) = .ok (between inside) := by
  have hfits : (boundsOf before inside).Fits (lines (before ++ '{' :: inside ++ '}' :: after)).length := by
    refine ⟨?_, ?_, lineBehind_le_length _ after⟩
    · simp only [boundsOf, lineBehind]
      omega
    · simp only [boundsOf, lineBehind, List.count_append]
      omega
  rw [extract, if_pos hfits, slice_eq hcolumn, ofLines_braced (pieces_ne_nil inside), between]

/-! ## Nothing else goes -/

section Kept

variable {p : Char → Bool}

theorem filter_of_isAllBlank (hp : ∀ c, isBlank c = true → p c = false) {t : Text} (h : isAllBlank t = true) :
    t.filter p = [] := by
  rw [List.filter_eq_nil_iff]
  intro c hc
  simp [hp c (List.all_eq_true.mp h c hc)]

theorem filter_joinLines (hp : p '\n' = false) (ls : List Text) : (joinLines ls).filter p = ls.flatMap (·.filter p) := by
  induction ls with
  | nil => rfl
  | cons l ls ih =>
    cases ls with
    | nil => simp
    | cons m ls =>
      rw [joinLines_cons_cons, List.filter_append, List.filter_cons_of_neg (by simp [hp]), ih, List.flatMap_cons (x := l)]

theorem filter_plainLineEnds (hp : p '\r' = false) (t : Text) : (plainLineEnds t).filter p = t.filter p := by
  fun_induction plainLineEnds t with
  | case1 r ih => simp [hp, List.filter_cons, ih]
  | case2 c r _ ih => simp [List.filter_cons, ih]
  | case3 => rfl

theorem flatMap_withoutBlankEnds (hp : ∀ c, isBlank c = true → p c = false) (ps : List Text) :
    (withoutBlankEnds ps).flatMap (·.filter p) = ps.flatMap (·.filter p) := by
  have hpiece : ∀ q : Text, (if isAllBlank q then [] else [q]).flatMap (·.filter p) = q.filter p := by
    intro q
    split
    · rename_i hq
      rw [filter_of_isAllBlank hp hq]
      rfl
    · simp
  rcases ps with - | ⟨q, qs⟩
  · rfl
  · rcases List.eq_nil_or_concat qs with rfl | ⟨qs, z, rfl⟩
    · rfl
    · rw [List.concat_eq_append, withoutBlankEnds_concat, List.flatMap_append, List.flatMap_append, hpiece, hpiece,
        List.flatMap_cons, List.flatMap_append, List.flatMap_singleton]

/-- The characters of a body that are not blank are those between its braces. -/
theorem filter_between (hp : ∀ c, isBlank c = true → p c = false) (inside : Text) :
    (between inside).filter p = inside.filter p := by
  have hnewline := hp '\n' rfl
  rw [between, filter_joinLines hnewline, flatMap_withoutBlankEnds hp, ← filter_joinLines hnewline, pieces,
    joinLines_splitLines, filter_plainLineEnds (hp '\r' rfl)]

end Kept

/-! ## Braces at byte positions -/

/-- The line of a byte of a source, counted from 1. -/
def lineAt (source : Text) (i : Nat) : Nat := 1 + ((bytes source).take i).count '\n'

/-- The distance of a byte from the newline before it, or from the start. -/
def columnAt (source : Text) (i : Nat) : Nat := (((bytes source).take i).reverse.takeWhile (· != '\n')).length

/-- The bounds of braces at two bytes of a source. -/
def boundsAt (source : Text) (o c : Nat) : Bounds :=
  ⟨lineAt source o, columnAt source o, lineAt source c, columnAt source c⟩

/-- An ASCII byte is a character, and stands behind a text. -/
theorem exists_before_of_byte {source : Text} {i : Nat} {c : Char} (hc : IsAscii c)
    (h : (bytes source)[i]? = some c) : ∃ before after, source = before ++ c :: after ∧ width before = i := by
  induction source generalizing i with
  | nil => simp at h
  | cons d source ih =>
    by_cases hi : i < (charBytes d).length
    · rw [bytes_cons, List.getElem?_append_left hi] at h
      have hmem := List.mem_of_getElem? h
      have hd : IsAscii d := by
        by_contra hd
        exact not_isAscii_of_mem_charBytes hd hmem hc
      rw [charBytes_of_isAscii hd] at h hi
      obtain rfl : i = 0 := by simpa using hi
      exact ⟨[], source, by simpa using h, rfl⟩
    · rw [bytes_cons, List.getElem?_append_right (Nat.not_lt.mp hi)] at h
      obtain ⟨before, after, rfl, hwidth⟩ := ih h
      refine ⟨d :: before, after, rfl, ?_⟩
      rw [length_charBytes] at hi hwidth
      rw [width, hwidth]
      omega

theorem take_bytes_width (before after : Text) : (bytes (before ++ after)).take (width before) = bytes before := by
  rw [bytes_append, ← length_bytes, List.take_left]

theorem lineAt_width (before after : Text) : lineAt (before ++ after) (width before) = lineBehind before := by
  rw [lineAt, take_bytes_width, count_newline_bytes, lineBehind]

theorem columnAt_width (before after : Text) : columnAt (before ++ after) (width before) = columnBehind before := by
  rw [columnAt, take_bytes_width]
  induction before using text_induction with
  | line l hl =>
    have hall : (bytes l).reverse.takeWhile (· != '\n') = (bytes l).reverse := by
      refine List.takeWhile_eq_self_iff.mpr fun c hc => ?_
      have hcount : (bytes l).count '\n' = 0 := by rw [count_newline_bytes, List.count_eq_zero_of_not_mem hl]
      simpa using fun he : c = '\n' => List.count_eq_zero.mp hcount (he ▸ List.mem_reverse.mp hc)
    rw [hall, List.length_reverse, length_bytes, columnBehind_of_not_mem hl]
  | more l r _ ih =>
    have hnewline : bytes ('\n' :: r) = '\n' :: bytes r := by
      rw [bytes_cons, charBytes_of_isAscii (by decide), List.singleton_append]
    have hrev : (bytes (l ++ '\n' :: r)).reverse = (bytes r).reverse ++ '\n' :: (bytes l).reverse := by
      rw [bytes_append, hnewline]
      simp
    rw [hrev, takeWhile_stop (by simp), ih, columnBehind_line_append]

theorem width_takeWhile_reverse_le (p : Char → Bool) (t : Text) : width (t.reverse.takeWhile p).reverse ≤ width t := by
  have hsplit : t = (t.reverse.dropWhile p).reverse ++ (t.reverse.takeWhile p).reverse := by
    rw [← List.reverse_append, List.takeWhile_append_dropWhile, List.reverse_reverse]
  have hwidth := congrArg width hsplit
  rw [width_append] at hwidth
  omega

/-- In a source whose columns are words, a column before a brace is less than the largest. -/
theorem columnBehind_lt {t after : Text} (hsize : width (t ++ '}' :: after) ≤ Bounds.maxColumn) :
    columnBehind t < Bounds.maxColumn := by
  have hle := width_takeWhile_reverse_le (· != '\n') t
  have hbrace : 0 < width ('}' :: after) := Nat.lt_of_lt_of_le Nat.one_pos (Nat.le_add_right 1 (width after))
  rw [width_append] at hsize
  rw [columnBehind]
  omega

def isBrace (c : Char) : Bool := c == '{' || c == '}'

/-- For any opening and any closing brace behind it in a source whose columns are words, the
    body within their bounds exists. It is the text between them, line ends as newlines, and
    if that is more than one line, without its first line if that is blank and without its
    last if that is. All braces between the two are in it, and in their order. -/
theorem extract_of_braces {source : Text} {o c : Nat} (hsize : width source ≤ Bounds.maxColumn) (hoc : o < c)
    (hopen : (bytes source)[o]? = some '{') (hclose : (bytes source)[c]? = some '}') :
    ∃ inside, slice? source (o + 1) (c - (o + 1)) = some inside ∧
      extract (lines source) (boundsAt source o c) = .ok (between inside) ∧
      (between inside).filter isBrace = inside.filter isBrace := by
  obtain ⟨before, rest, rfl, rfl⟩ := exists_before_of_byte (by decide) hopen
  obtain ⟨inside, after, rfl, rfl⟩ : ∃ inside after, rest = inside ++ '}' :: after ∧
      c = width (before ++ '{' :: inside) := by
    obtain ⟨upTo, after, hsplit, rfl⟩ := exists_before_of_byte (by decide) hclose
    rcases List.append_eq_append_iff.mp hsplit with ⟨u, rfl, hu⟩ | ⟨u, rfl, -⟩
    · cases u with
      | nil => simp at hoc
      | cons d inside =>
        obtain ⟨rfl, hrest⟩ := List.cons.inj hu
        exact ⟨inside, after, hrest, rfl⟩
    · rw [width_append] at hoc
      omega
  have hassoc : before ++ '{' :: (inside ++ '}' :: after) = before ++ '{' :: inside ++ '}' :: after := by simp
  have hcolumn := columnBehind_lt (hassoc ▸ hsize)
  have hbounds : boundsAt (before ++ '{' :: (inside ++ '}' :: after)) (width before)
      (width (before ++ '{' :: inside)) = boundsOf before inside := by
    rw [boundsAt, lineAt_width, columnAt_width, hassoc, lineAt_width, columnAt_width, boundsOf]
  refine ⟨inside, ?_, ?_, ?_⟩
  · have hfront : before ++ '{' :: (inside ++ '}' :: after) = (before ++ ['{']) ++ (inside ++ '}' :: after) := by simp
    have hstart : width before + 1 = width (before ++ ['{']) := by rw [width_append]; rfl
    have hlength : width (before ++ '{' :: inside) - (width before + 1) = width inside := by
      rw [width_append, width]
      show width before + (1 + width inside) - (width before + 1) = width inside
      omega
    rw [hlength, hfront, hstart]
    exact slice?_append _ _ _
  · rw [hbounds, hassoc]
    exact extract_boundsOf hcolumn after
  · refine filter_between (fun d hd => ?_) inside
    cases hb : isBrace d with
    | false => rfl
    | true =>
      have hd' : d = '{' ∨ d = '}' := by simpa [isBrace] using hb
      rcases hd' with rfl | rfl <;> cases hd

/-- Braces that share their lines with other text, and a line that ends in a carriage return. -/
theorem extract_of_braces_sample :
    let source := "é \x7b if (a) \x7b\r\n b \x7d \x7d".toList
    (bytes source)[3]? = some '{' ∧ (bytes source)[20]? = some '}' ∧
      ∃ inside, slice? source 4 16 = some inside ∧
        extract (lines source) (boundsAt source 3 20) = .ok (between inside) ∧
        (between inside).filter isBrace = inside.filter isBrace := by
  have hopen : (bytes "é \x7b if (a) \x7b\r\n b \x7d \x7d".toList)[3]? = some '{' := by decide +kernel
  have hclose : (bytes "é \x7b if (a) \x7b\r\n b \x7d \x7d".toList)[20]? = some '}' := by decide +kernel
  exact ⟨hopen, hclose, extract_of_braces (by decide +kernel) (by decide) hopen hclose⟩

end ClassOutline.Body
