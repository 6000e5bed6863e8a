import ClassOutline.Proofs.Lexing.Heredocs
import ClassOutline.Proofs.Lexing.Relaid
/-
  ClassOutline.Proofs.Lexing.RelaidHeredocs — heredocs in text that is laid out anew.

  A heredoc ends on the first line that holds its label behind blanks, whatever its margin. So
  the same line ends it when lines move (`Relaid.heredocBody`). But its opener is the whole
  rest of a line, and a line that was no end of it can become one when the blanks at its end go:
  both are asked of the text, by what a heredoc spans before and after it is trimmed
  (`Relaid.heredocLength?`).
-/

namespace ClassOutline.Token

open ClassOutline.Text

section

variable {t t' : Text}

/-! ## Lines that close -/

/-- Whether a line ends a heredoc with this label. -/
def closes (label line : Text) : Bool := (closingLength? label line).isSome

/-- The label of a heredoc, and the number of the line that ends it. -/
def heredocSpan? (t : Text) : Option (Text × Option Nat) :=
  (heredocOpener? t).map fun o => (o.label, (splitLines (t.drop o.length)).findIdx? (closes o.label))

/-- Every line without the blanks at its end, and with a newline behind it. -/
def trimmedLines (t : Text) : Text := (splitLines t).flatMap fun l => trimEnd isBlank l ++ ['\n']

theorem closes_margin {margin : Text} (hm : ∀ c ∈ margin, isIndent c = true) (label line : Text) :
    closes label (margin ++ line) = closes label line := by
  rw [closes, closes, closingLength?_margin hm, Option.isSome_map]

section

variable {label : Text} (hne : label ≠ []) (hname : ∀ c ∈ label, isNameChar c = true)

include hne in
theorem closes_nil : closes label [] = false := by
  obtain ⟨c, l, rfl⟩ := List.exists_cons_of_ne_nil hne
  rfl

include hne in
theorem findIdx?_closes_of_blank {ls : List Text} (h : ∀ l ∈ ls, ∀ c ∈ l, isBlank c = true) :
    (ls.map (trimEnd isBlank)).findIdx? (closes label) = none := by
  rw [List.findIdx?_eq_none_iff]
  intro l hl
  obtain ⟨l', hl', rfl⟩ := List.mem_map.mp hl
  rw [trimEnd_eq_nil_iff.mpr (h l' hl')]
  exact closes_nil hne

end

theorem mem_of_mem_splitLines {l : Text} (hl : l ∈ splitLines t) {c : Char} (hc : c ∈ l) : c ∈ t := by
  induction t using text_induction with
  | line l' hl' =>
    rw [splitLines_of_not_mem hl'] at hl
    rwa [← List.mem_singleton.mp hl]
  | more l' r hl' ih =>
    rw [splitLines_line_append hl'] at hl
    rcases List.mem_cons.mp hl with rfl | hl
    · exact List.mem_append_left _ hc
    · exact List.mem_append_right _ (List.mem_cons_of_mem _ (ih hl))

/-- Without blanks at its end a line is the part of it that no blank ends. -/
theorem trimEnd_line {m z : Text} (hlast : ∀ c ∈ m.getLast?, isBlank c = false) (hz : ∀ c ∈ z, isBlank c = true) :
    trimEnd isBlank (m ++ z) = m := by
  cases hm : m.getLast? with
  | none =>
    rw [List.getLast?_eq_none_iff.mp hm, List.nil_append]
    exact trimEnd_eq_nil_iff.mpr hz
  | some c => rw [trimEnd_append hm (hlast c hm), trimEnd_eq_nil_iff.mpr hz, List.append_nil]

/-- A line that is trimmed closes what it closes without its margin. -/
theorem closes_trimEnd_line {margin m z : Text} (hm : ∀ c ∈ margin, isIndent c = true)
    (hlast : ∀ c ∈ m.getLast?, isBlank c = false) (hz : ∀ c ∈ z, isBlank c = true) (label : Text) :
    closes label (trimEnd isBlank (margin ++ (m ++ z))) = closes label m := by
  cases hl : m.getLast? with
  | none =>
    have hblank : ∀ c ∈ margin ++ z, isBlank c = true := fun c hc =>
      (List.mem_append.mp hc).elim (fun hc => isBlank_of_isIndent (hm c hc)) (hz c)
    rw [List.getLast?_eq_none_iff.mp hl, List.nil_append, trimEnd_eq_nil_iff.mpr hblank]
  | some d =>
    have hend : ∀ c ∈ (margin ++ m).getLast?, isBlank c = false := by
      intro c hc
      rw [List.getLast?_append, hl] at hc
      exact hlast c (hl ▸ hc)
    rw [← List.append_assoc, trimEnd_line hend hz, closes_margin hm]

/-- What stands behind the label of a line that closes does not matter. -/
theorem closingLength?_of_closes_append {label m z : Text} (hne : label ≠ []) (hname : ∀ c ∈ label, isNameChar c = true)
    {n : Nat} (hn : closingLength? label m = some n) (h : closes label (m ++ z) = true) :
    n ≤ m.length ∧ closingLength? label (m ++ z) = some n := by
  obtain ⟨j, x, rfl, hj, rfl⟩ := eq_append_of_closingLength? hn
  have hlength : j.length + label.length ≤ (j ++ (label ++ x)).length := by
    simp only [List.length_append]
    omega
  rw [closes, List.append_assoc, List.append_assoc, closingLength?_append hne hname hj] at h
  rw [List.append_assoc, List.append_assoc, closingLength?_append hne hname hj]
  split at h
  · cases h
  · rename_i hno
    exact ⟨hlength, if_neg hno⟩

theorem heredocBodyLength_margin_of_closing {margin : Text} (hm : ∀ c ∈ margin, isIndent c = true) {label line : Text} {n : Nat}
    (h : closingLength? label line = some n) (rest : List Text) :
    heredocBodyLength label ((margin ++ line) :: rest) = margin.length + n :=
  heredocBodyLength_of_closing (by rw [closingLength?_margin hm, h, Option.map_some]) rest

theorem heredocBodyLength_margin_of_open {margin : Text} (hm : ∀ c ∈ margin, isIndent c = true) {label line : Text}
    (h : closes label line = false) {rest : List Text} (hrest : rest ≠ []) :
    heredocBodyLength label ((margin ++ line) :: rest) =
      margin.length + (line.length + 1 + heredocBodyLength label rest) := by
  have hnone : closingLength? label (margin ++ line) = none := by
    rw [closingLength?_margin hm, Option.map_eq_none_iff]
    simpa [closes] using h
  rw [heredocBodyLength_cons_of_none hnone hrest, List.length_append]
  omega

/-- Two lists in which the first hit stands at the same place: at the head of both, or behind it. -/
theorem findIdx?_cons_alike {α : Type} {p : α → Bool} {a b : α} {as bs : List α} {k : Nat}
    (h : (a :: as).findIdx? p = some k) (h' : (b :: bs).findIdx? p = some k) :
    (p a = true ∧ p b = true) ∨
      (p a = false ∧ p b = false ∧ ∃ i, as.findIdx? p = some i ∧ bs.findIdx? p = some i) := by
  have hbehind : ∀ {c : α} {cs : List α}, p c = false → (c :: cs).findIdx? p = (cs.findIdx? p).map (· + 1) := by
    intro c cs hc
    rw [List.findIdx?_cons, if_neg (by simp [hc])]
  have hhead : ∀ {c : α} {cs : List α}, p c = true → (c :: cs).findIdx? p = some 0 := by
    intro c cs hc
    rw [List.findIdx?_cons, if_pos hc]
  cases ha : p a with
  | true =>
    obtain rfl : 0 = k := Option.some.inj ((hhead ha).symm.trans h)
    cases hb : p b with
    | true => exact Or.inl ⟨rfl, rfl⟩
    | false =>
      obtain ⟨i, -, hi⟩ := Option.map_eq_some_iff.mp ((hbehind hb).symm.trans h')
      cases hi
  | false =>
    obtain ⟨i, hi, rfl⟩ := Option.map_eq_some_iff.mp ((hbehind ha).symm.trans h)
    cases hb : p b with
    | true =>
      have hzero := Option.some.inj ((hhead hb).symm.trans h')
      cases hzero
    | false =>
      obtain ⟨j, hj, hij⟩ := Option.map_eq_some_iff.mp ((hbehind hb).symm.trans h')
      obtain rfl := Nat.succ.inj hij
      exact Or.inr ⟨rfl, rfl, j, hi, hj⟩

/-! ## In both texts -/

/-- The rest of a line whose end comes in the second text, and the lines behind it: blank ones, or
    lines laid out anew. -/
theorem Relaid.restOfLine {u' : Text} (h : Relaid t ('\n' :: u')) :
    ∃ z ls, splitLines t = z :: ls ∧ (∀ c ∈ z, isBlank c = true) ∧
      ((∀ l ∈ ls, ∀ c ∈ l, isBlank c = true) ∨
        ∃ margin margin' w w', t = z ++ '\n' :: (margin ++ w) ∧ u' = margin' ++ w' ∧ ls = splitLines (margin ++ w) ∧
          (∀ c ∈ z, isBlank c = true ∧ c ≠ '\n') ∧ (∀ c ∈ margin, isIndent c = true) ∧
          (∀ c ∈ margin', isIndent c = true) ∧ Relaid w w') := by
  rcases h.of_newline with ⟨hblank, -⟩ | ⟨z, margin, margin', w, w', rfl, rfl, hz, hm, hm', hw⟩
  · obtain ⟨z, ls, hlines⟩ := List.exists_cons_of_ne_nil (splitLines_ne_nil t)
    have hall : ∀ l ∈ z :: ls, ∀ c ∈ l, isBlank c = true :=
      fun l hl c hc => hblank c (mem_of_mem_splitLines (hlines ▸ hl) hc)
    exact ⟨z, ls, hlines, hall z (by simp), Or.inl fun l hl => hall l (List.mem_cons_of_mem z hl)⟩
  · refine ⟨z, splitLines (margin ++ w), ?_, fun c hc => (hz c hc).1, Or.inr ⟨margin, margin', w, w', rfl, rfl, rfl, hz, hm, hm', hw⟩⟩
    exact splitLines_line_append (fun hmem => (hz '\n' hmem).2 rfl) _

/-- The lines of a heredoc: on the line that ends it in one text it ends in the other. -/
theorem Relaid.heredocBody {label : Text} (hne : label ≠ []) (hname : ∀ c ∈ label, isNameChar c = true)
    (h : Relaid t t') {margin margin' : Text} (hm : ∀ c ∈ margin, isIndent c = true)
    (hm' : ∀ c ∈ margin', isIndent c = true) {k : Nat}
    (hk : (splitLines (margin ++ t)).findIdx? (closes label) = some k)
    (hk' : ((splitLines (margin ++ t)).map (trimEnd isBlank)).findIdx? (closes label) = some k) :
    ∃ n n', heredocBodyLength label (splitLines (margin ++ t)) = margin.length + n ∧
      heredocBodyLength label (splitLines (margin' ++ t')) = margin'.length + n' ∧ CutAt t t' n n' := by
  induction hlen : t.length using Nat.strong_induction_on generalizing t t' margin margin' k with
  | _ len ih =>
    obtain ⟨m, u, u', rfl, rfl, hline, hlast, hu⟩ := h.firstLine
    obtain ⟨z, ls, hlines, hz, hrest⟩ := hu.restOfLine
    have hnot : ∀ {i : Text}, (∀ c ∈ i, isIndent c = true) → ∀ c ∈ i ++ m, c ≠ '\n' := by
      intro i hi c hc
      rcases List.mem_append.mp hc with hc | hc
      · rintro rfl
        cases hi '\n' hc
      · exact (hline c hc).1
    have hfirst : splitLines (margin ++ (m ++ u)) = (margin ++ (m ++ z)) :: ls := by
      rw [← List.append_assoc, splitLines_append_of_ne (hnot hm) u hlines, List.append_assoc]
    have hfirst' : splitLines (margin' ++ (m ++ '\n' :: u')) = (margin' ++ m) :: splitLines u' := by
      rw [← List.append_assoc]
      exact splitLines_line_append (fun hmem => hnot hm' '\n' hmem rfl) u'
    have htrim := closes_trimEnd_line hm hlast hz label
    rw [hfirst] at hk hk' ⊢
    rw [hfirst']
    rw [List.map_cons] at hk'
    rcases findIdx?_cons_alike hk hk' with ⟨hmz, hclose⟩ | ⟨hmz, hopen, i, hi, hi'⟩
    · rw [closes_margin hm] at hmz
      rw [htrim] at hclose
      obtain ⟨q, hq⟩ := Option.isSome_iff_exists.mp hclose
      obtain ⟨hle, hqz⟩ := closingLength?_of_closes_append hne hname hq hmz
      exact ⟨q, q, heredocBodyLength_margin_of_closing hm hqz ls, heredocBodyLength_margin_of_closing hm' hq _,
        cutAt_shared hline hlast hu hle⟩
    · rw [closes_margin hm] at hmz
      rw [htrim] at hopen
      rcases hrest with hblank | ⟨margin₂, margin₂', w, w', rfl, rfl, rfl, hzline, hm₂, hm₂', hw⟩
      · rw [findIdx?_closes_of_blank hne hblank] at hi'
        cases hi'
      · have hshort : w.length < len := by
          rw [← hlen]
          simp only [List.length_append, List.length_cons]
          omega
        obtain ⟨n, n', hn, hn', hcut⟩ := ih w.length hshort hw hm₂ hm₂' hi hi' rfl
        refine ⟨_, _, ?_, ?_, (hcut.line hzline hm₂ hm₂').append hline hlast⟩
        · rw [heredocBodyLength_margin_of_open hm hmz (splitLines_ne_nil _), hn]
          simp only [List.length_append, List.length_cons]
          omega
        · rw [heredocBodyLength_margin_of_open hm' hopen (splitLines_ne_nil _), hn']
          simp only [List.length_cons]
          omega

theorem heredocOpener?_line {m : Text} (hm : '\n' ∉ m) (h3 : startsWith m "<<<".toList = true) (x y : Text) :
    heredocOpener? (m ++ '\n' :: y) = heredocOpener? (m ++ '\n' :: x) := by
  have hsame : ∀ {v w : Text} {o}, heredocOpener? (m ++ '\n' :: v) = some o → heredocOpener? (m ++ '\n' :: w) = some o := by
    intro v w o ho
    have hopener := opener_of_heredocOpener? (startsWith_append h3 _) ho
    have hassoc : ∀ v, m ++ '\n' :: v = (m ++ ['\n']) ++ v := fun v => by simp
    have hlen : o.length ≤ (m ++ ['\n']).length := by
      rw [(hopener.length_eq hm).1]
      simp
    rw [hassoc] at hopener ⊢
    exact heredocOpener?_of_opener (hopener.shared hlen w)
  exact Option.ext fun o => ⟨hsame, hsame⟩

/-- Behind the line of an opener are the lines of the heredoc. -/
theorem drop_opener {m x : Text} {o : HeredocOpener} (hm : '\n' ∉ m) (h3 : startsWith m "<<<".toList = true)
    (ho : heredocOpener? (m ++ '\n' :: x) = some o) :
    (m ++ '\n' :: x).drop o.length = x ∧ o.length = m.length + 1 ∧ o.label ≠ [] ∧ ∀ c ∈ o.label, isNameChar c = true := by
  have heq := (opener_of_heredocOpener? (startsWith_append h3 _) ho).length_eq hm
  refine ⟨?_, heq⟩
  rw [heq.1, List.drop_length_add_append]
  rfl

/-- Trimmed lines, and the empty one behind the last newline. -/
theorem splitLines_trimmed (ls : List Text) (hls : ∀ l ∈ ls, '\n' ∉ l) :
    splitLines (ls.flatMap fun l => trimEnd isBlank l ++ ['\n']) = ls.map (trimEnd isBlank) ++ [[]] := by
  induction ls with
  | nil => rfl
  | cons l ls ih =>
    obtain ⟨hl, hls⟩ := List.forall_mem_cons.mp hls
    have hl' : '\n' ∉ trimEnd isBlank l := fun hmem => hl ((trimEnd_sublist isBlank l).mem hmem)
    rw [List.flatMap_cons, List.append_assoc, List.singleton_append, splitLines_line_append hl', ih hls, List.map_cons,
      List.cons_append]

theorem trimmedLines_line {m z : Text} {ls : List Text} (hlast : ∀ c ∈ m.getLast?, isBlank c = false)
    (hz : ∀ c ∈ z, isBlank c = true) (hlines : splitLines t = (m ++ z) :: ls) :
    trimmedLines t = m ++ '\n' :: ls.flatMap fun l => trimEnd isBlank l ++ ['\n'] := by
  rw [trimmedLines, hlines, List.flatMap_cons, trimEnd_line hlast hz, List.append_assoc, List.singleton_append]

/-- The line behind the last newline ends no heredoc. -/
theorem findIdx?_closes_trimmed {label : Text} (hne : label ≠ []) {ls : List Text} (hls : ∀ l ∈ ls, '\n' ∉ l) :
    (splitLines (ls.flatMap fun l => trimEnd isBlank l ++ ['\n'])).findIdx? (closes label) =
      (ls.map (trimEnd isBlank)).findIdx? (closes label) := by
  rw [splitLines_trimmed ls hls, List.findIdx?_append, List.findIdx?_singleton, closes_nil hne]
  simp

/-- Where trimming changes neither label nor last line of a heredoc, it is there in the other
    text, too, and ends on the line that ends it in the one. -/
theorem Relaid.heredocLength? (h : Relaid t t') (h3 : startsWith t "<<<".toList = true)
    (hspan : heredocSpan? (trimmedLines t) = heredocSpan? t) :
    (heredocLength? t = none → heredocLength? t' = none) ∧
      ∀ n, heredocLength? t = some n → (∀ label, heredocSpan? t ≠ some (label, none)) →
        ∃ n', heredocLength? t' = some n' ∧ CutAt t t' n n' := by
  have h3' : startsWith t' "<<<".toList = true := by rw [h.startsWith_eq (by decide), h3]
  obtain ⟨m, u, u', rfl, rfl, hline, hlast, hu⟩ := h.firstLine
  obtain ⟨z, ls, hlines, hz, hrest⟩ := hu.restOfLine
  have hm : '\n' ∉ m := fun hmem => (hline _ hmem).1 rfl
  have hm3 : startsWith m "<<<".toList = true := by
    rwa [startsWith_stop (by decide)] at h3'
  have hfirst : splitLines (m ++ u) = (m ++ z) :: ls :=
    splitLines_append_of_ne (fun c hc => (hline c hc).1) u hlines
  -- the trimmed text has the opener's line of the other text
  have htrimmed := trimmedLines_line hlast hz hfirst
  have hopener : heredocOpener? (trimmedLines (m ++ u)) = heredocOpener? (m ++ '\n' :: u') := by
    rw [htrimmed]
    exact heredocOpener?_line hm hm3 _ _
  constructor
  · intro hnone
    have ho : heredocOpener? (m ++ u) = none := Option.map_eq_none_iff.mp hnone
    rw [heredocSpan?, heredocSpan?, ho, Option.map_none, hopener, Option.map_eq_none_iff] at hspan
    rw [heredocLength?, hspan, Option.map_none]
  · intro n hn hclosed
    obtain ⟨o, ho, rfl⟩ := Option.map_eq_some_iff.mp hn
    rw [heredocSpan?, heredocSpan?, ho, hopener] at hspan
    obtain ⟨o', ho', hpair⟩ := Option.map_eq_some_iff.mp hspan
    obtain ⟨hlabel, hline'⟩ := Prod.mk.inj hpair
    obtain ⟨k, hk⟩ : ∃ k, (splitLines ((m ++ u).drop o.length)).findIdx? (closes o.label) = some k := by
      refine Option.ne_none_iff_exists'.mp fun hnone => hclosed o.label ?_
      rw [heredocSpan?, ho, Option.map_some, hnone]
    obtain ⟨hdrop', hlength', hne, hname⟩ := drop_opener hm hm3 ho'
    obtain ⟨hdropped, -⟩ := drop_opener hm hm3 ((heredocOpener?_line hm hm3 u' _).trans ho')
    rw [hlabel] at hne hname
    have hk' : (ls.map (trimEnd isBlank)).findIdx? (closes o.label) = some k := by
      have hls : ∀ l ∈ ls, '\n' ∉ l := fun l hl =>
        newline_not_mem_of_mem_splitLines (hfirst ▸ List.mem_cons_of_mem (m ++ z) hl)
      rw [← findIdx?_closes_trimmed hne hls, ← hk, ← hline', hlabel, htrimmed, hdropped]
    rcases hrest with hblank | ⟨margin, margin', w, w', rfl, rfl, rfl, hzline, hmargin, hmargin', hw⟩
    · rw [findIdx?_closes_of_blank hne hblank] at hk'
      cases hk'
    · have hz' : '\n' ∉ m ++ z := by
        simp only [List.mem_append, not_or]
        exact ⟨hm, fun hmem => (hzline _ hmem).2 rfl⟩
      rw [← List.append_assoc] at ho hk ⊢
      obtain ⟨hdrop, hlength, -⟩ := drop_opener hz' (startsWith_append hm3 z) ho
      rw [hdrop] at hk ⊢
      obtain ⟨n, n', hn, hn', hcut⟩ := hw.heredocBody hne hname hmargin hmargin' hk hk'
      refine ⟨_, by rw [Token.heredocLength?, ho', Option.map_some, hdrop', hlabel, hn'], ?_⟩
      have hcut := (hcut.line hzline hmargin hmargin').append hline hlast
      rw [hn, hlength, hlength', List.append_assoc]
      convert hcut using 1 <;> simp only [List.length_append, List.length_cons] <;> omega

theorem heredocBodyLength_of_open {label : Text} {ls : List Text} (hls : ls ≠ []) (h : ls.findIdx? (closes label) = none) :
    heredocBodyLength label ls = (joinLines ls).length := by
  have hnone : ∀ l ∈ ls, closingLength? label l = none := by
    intro l hl
    have := List.findIdx?_eq_none_iff.mp h l hl
    simpa [closes] using this
  induction ls with
  | nil => exact absurd rfl hls
  | cons l ls ih =>
    obtain ⟨hl, hnone⟩ := List.forall_mem_cons.mp hnone
    cases ls with
    | nil => simp [heredocBodyLength, hl]
    | cons l' ls =>
      have h' : (l' :: ls).findIdx? (closes label) = none := List.findIdx?_eq_none_iff.mpr fun x hx => by
        simp [closes, hnone x hx]
      rw [heredocBodyLength_cons_of_none hl (List.cons_ne_nil _ _), ih (List.cons_ne_nil _ _) h' hnone,
        joinLines_cons_cons]
      simp only [List.length_append, List.length_cons]
      omega

/-- A heredoc that no line ends takes all that follows it. -/
theorem heredocLength?_of_open {label : Text} (h3 : startsWith t "<<<".toList = true)
    (h : heredocSpan? t = some (label, none)) :
    heredocLength? t = some t.length ∧ heredocLength? (t ++ ['\n']) = some (t.length + 1) := by
  obtain ⟨o, ho, hpair⟩ := Option.map_eq_some_iff.mp h
  obtain ⟨rfl, hopen⟩ := Prod.mk.inj hpair
  have hopener := opener_of_heredocOpener? h3 ho
  have hle : o.length ≤ t.length := hopener.cuts.2
  have hlabel : o.label ≠ [] := by
    cases hopener
    assumption
  have hopener' : heredocOpener? (t ++ ['\n']) = some o := by
    refine heredocOpener?_of_opener (Opener.shared (x := []) ?_ hle ['\n'])
    rwa [List.append_nil]
  constructor
  · rw [heredocLength?, ho, Option.map_some, heredocBodyLength_of_open (splitLines_ne_nil _) hopen, joinLines_splitLines,
      List.length_drop, Nat.add_sub_cancel' hle]
  · have hlines : splitLines (t.drop o.length ++ ['\n']) = splitLines (t.drop o.length) ++ [[]] :=
      splitLines_append (t.drop o.length) []
    have hopen' : (splitLines (t.drop o.length) ++ [[]]).findIdx? (closes o.label) = none := by
      rw [List.findIdx?_append, hopen, List.findIdx?_singleton, closes_nil hlabel]
      rfl
    rw [heredocLength?, hopener', Option.map_some, List.drop_append_of_le_length hle, hlines,
      heredocBodyLength_of_open (by simp) hopen', ← hlines, joinLines_splitLines, List.length_append, List.length_drop,
      List.length_singleton]
    congr 1
    omega

end

end ClassOutline.Token
