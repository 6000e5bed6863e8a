import ClassOutline.Layout.File
import ClassOutline.Proofs.Pieces
/-
  ClassOutline.Proofs.Layout — a printed file is the pieces it is printed from.

  White space is made canonical a group at a time, over everything the group holds. Lines
  are treated one by one, though, so what is done to a text that ends with its line does not
  depend on what follows (`tidy_append`), and only newlines go from the ends. So a printed
  file is, newlines aside, its namespace lines and its classes, each as it is printed alone
  (`spaced_file`).
-/

namespace ClassOutline.Text

/-! ## Lines of two texts -/

theorem splitLines_append (a b : Text) : splitLines (a ++ '\n' :: b) = splitLines a ++ splitLines b := by
  induction a with
  | nil => rfl
  | cons c a ih =>
    obtain ⟨l, ls, ha⟩ := List.exists_cons_of_ne_nil (splitLines_ne_nil a)
    by_cases hc : c = '\n'
    · subst hc
      rw [List.cons_append, splitLines, ih, splitLines, List.cons_append]
    · rw [ha, List.cons_append] at ih
      rw [List.cons_append, splitLines_cons_of_ne hc _ ih, splitLines_cons_of_ne hc _ ha, List.cons_append]

theorem joinLines_append {ls ms : List Text} (hl : ls ≠ []) (hm : ms ≠ []) :
    joinLines (ls ++ ms) = joinLines ls ++ '\n' :: joinLines ms := by
  induction ls with
  | nil => exact absurd rfl hl
  | cons l ls ih =>
    cases ls with
    | nil =>
      obtain ⟨m, ms, rfl⟩ := List.exists_cons_of_ne_nil hm
      rw [List.singleton_append, joinLines_cons_cons, joinLines_singleton]
    | cons l' ls =>
      rw [List.cons_append, List.cons_append, joinLines_cons_cons, joinLines_cons_cons, ← List.cons_append,
        ih (List.cons_ne_nil _ _), List.append_assoc, List.cons_append]

/-! ## Ends that are trimmed -/

theorem trimEnd_append {p : Char → Bool} {u : Text} {c : Char} (hu : u.getLast? = some c) (hc : p c = false)
    (t : Text) : trimEnd p (u ++ t) = u ++ trimEnd p t := by
  obtain ⟨v, rfl⟩ := List.getLast?_eq_some_iff.mp hu
  have hstay : (v ++ [c]).reverse.dropWhile p = (v ++ [c]).reverse := by simp [hc]
  unfold trimEnd
  rw [List.reverse_append, List.dropWhile_append, hstay]
  split
  · rename_i he
    rw [List.isEmpty_iff.mp he]
    simp
  · simp

theorem eq_append_trimStart (p : Char → Bool) (t : Text) :
    ∃ a, (∀ c ∈ a, p c = true) ∧ t = a ++ trimStart p t :=
  ⟨t.takeWhile p, fun _ hc => List.mem_takeWhile_imp hc, List.takeWhile_append_dropWhile.symm⟩

theorem eq_trimEnd_append (p : Char → Bool) (t : Text) :
    ∃ b, (∀ c ∈ b, p c = true) ∧ t = trimEnd p t ++ b := by
  obtain ⟨a, ha, h⟩ := eq_append_trimStart p t.reverse
  refine ⟨a.reverse, fun c hc => ha c (List.mem_reverse.mp hc), ?_⟩
  have := congrArg List.reverse h
  rwa [List.reverse_reverse, List.reverse_append] at this

theorem trimEnd_sublist (p : Char → Bool) (t : Text) : (trimEnd p t).Sublist t := by
  obtain ⟨b, -, hb⟩ := eq_trimEnd_append p t
  conv => rhs; rw [hb]
  exact List.sublist_append_left _ _

theorem trim_sublist (p : Char → Bool) (t : Text) : (trim p t).Sublist t :=
  (trimEnd_sublist p _).trans (List.dropWhile_sublist p)

end ClassOutline.Text

namespace ClassOutline.Layout

open ClassOutline.Text ClassOutline.Token ClassOutline.Discovery

/-! ## Canonical white space, line by line -/

/-- Canonical white space, but for newlines at the ends. -/
def tidy (t : Text) : Text := joinLines ((splitLines ((unifyLineEnds t).filter isKept)).map (trimEnd isIndent))

theorem canonical_eq (t : Text) : canonical t = trim (· == '\n') (tidy t) := rfl

theorem unifyLineEnds_append {a : Text} (h : a.getLast? ≠ some '\r') (b : Text) :
    unifyLineEnds (a ++ '\n' :: b) = unifyLineEnds a ++ '\n' :: unifyLineEnds b := by
  fun_induction unifyLineEnds a with
  | case1 r ih =>
    have hr : r.getLast? ≠ some '\r' := by
      cases r with
      | nil => simp
      | cons d r => simpa using h
    simp only [List.cons_append, unifyLineEnds, ih hr]
  | case2 r hr ih =>
    cases r with
    | nil => simp at h
    | cons d r =>
      have hd : d ≠ '\n' := fun he => hr r (by rw [he])
      have hd' : ∀ r', d :: (r ++ '\n' :: b) = '\n' :: r' → False := fun r' he => hd (List.cons.inj he).1
      rw [List.cons_append, List.cons_append, unifyLineEnds.eq_2 _ hd', ← List.cons_append, ih (by simpa using h),
        List.cons_append]
  | case3 c r h1 h2 ih =>
    have hr : r.getLast? ≠ some '\r' := by
      cases r with
      | nil => simp
      | cons d r => simpa using h
    rw [List.cons_append, unifyLineEnds.eq_3 _ _ (fun _ hc _ => h2 hc) h2, ih hr, List.cons_append]
  | case4 => rfl

theorem tidy_append {a : Text} (h : a.getLast? ≠ some '\r') (b : Text) :
    tidy (a ++ '\n' :: b) = tidy a ++ '\n' :: tidy b := by
  have hkept : isKept '\n' = true := rfl
  unfold tidy
  rw [unifyLineEnds_append h, List.filter_append, List.filter_cons_of_pos hkept, splitLines_append, List.map_append,
    joinLines_append (by simpa using splitLines_ne_nil _) (by simpa using splitLines_ne_nil _)]

@[simp] theorem tidy_nil : tidy [] = [] := rfl

theorem tidy_newline (b : Text) : tidy ('\n' :: b) = '\n' :: tidy b := tidy_append (a := []) (by simp) b

theorem isKept_of_not_isControl {c : Char} (h : isControl c = false) : c ≠ '\n' ∧ c ≠ '\r' ∧ isKept c = true := by
  refine ⟨?_, ?_, ?_⟩
  · intro he
    rw [he] at h
    cases h
  · intro he
    rw [he] at h
    cases h
  · rw [isKept, h]
    rfl

theorem unifyLineEnds_eq_self {t : Text} (h : ∀ c ∈ t, c ≠ '\r') : unifyLineEnds t = t := by
  induction t with
  | nil => rfl
  | cons c t ih =>
    obtain ⟨hc, ht⟩ := List.forall_mem_cons.mp h
    rw [unifyLineEnds.eq_3 c t (fun _ he _ => hc he) hc, ih ht]

/-- Of a line of characters that are kept only blanks at its end go. -/
theorem tidy_of_line {t : Text} (h : ∀ c ∈ t, c ≠ '\n' ∧ c ≠ '\r' ∧ isKept c = true) :
    tidy t = trimEnd isIndent t := by
  have hlines : splitLines t = [t] := by
    have hnil : splitLines [] = [[]] := rfl
    have := splitLines_append_of_ne (fun c hc => (h c hc).1) [] hnil
    rwa [List.append_nil] at this
  rw [tidy, unifyLineEnds_eq_self fun c hc => (h c hc).2.1, List.filter_eq_self.mpr fun c hc => (h c hc).2.2, hlines,
    List.map_singleton, joinLines_singleton]

/-- A line of characters that are kept is canonical if it does not end in a blank. -/
theorem canonical_eq_self {t : Text} (h : ∀ c ∈ t, c ≠ '\n' ∧ c ≠ '\r' ∧ isKept c = true) {d : Char}
    (hlast : t.getLast? = some d) (hd : isIndent d = false) : canonical t = t := by
  have hne : ∀ c ∈ t, c ≠ '\n' := fun c hc => (h c hc).1
  have hstay : ∀ {p : Char → Bool}, p d = false → trimEnd p t = t := by
    intro p hp
    have := trimEnd_append hlast hp []
    rwa [List.append_nil, show trimEnd p [] = [] from rfl, List.append_nil] at this
  have hnewline : (d == '\n') = false := beq_false_of_ne (hne d (List.mem_of_getLast? hlast))
  have hstart : trimStart (· == '\n') t = t := by
    cases t with
    | nil => rfl
    | cons c t =>
      rw [trimStart, List.dropWhile_cons_of_neg]
      simpa using hne c (by simp)
  rw [canonical_eq, tidy_of_line h, hstay hd, trim, hstart, hstay hnewline]

/-! ## Pieces of a file -/

/-- A class as it is printed alone. -/
def classPiece (o : Options) (c : ClassModel) : Text := canonical (classText o.unit c)

def namespaceLine (scope : Text) : Text := "namespace ".toList ++ scope ++ [';']

/-- What stands before the classes of a group. -/
def headPieces (alone : Bool) (scope : Text) : List Text :=
  if !scope.isEmpty then [canonical (namespaceLine scope)]
  else if alone then []
  else ["namespace \x7b".toList]

/-- What stands behind them. -/
def tailPieces (alone : Bool) (scope : Text) : List Text :=
  if !scope.isEmpty then [] else if alone then [] else [['}']]

def groupPieces (o : Options) (alone : Bool) (scope : Text) (classes : List ClassModel) : List Text :=
  headPieces alone scope ++ classes.map (classPiece o) ++ tailPieces alone scope

def pieces (o : Options) (f : FileModel) : List Text :=
  f.groups.entries.flatMap fun g => groupPieces o (f.namespaceCount ≤ 1) g.1 g.2

theorem spaced_tidy (t : Text) : Spaced [canonical t] (tidy t) := by
  obtain ⟨a, ha, hstart⟩ := eq_append_trimStart (· == '\n') (tidy t)
  obtain ⟨b, hb, hend⟩ := eq_trimEnd_append (· == '\n') (trimStart (· == '\n') (tidy t))
  have h := Spaced.piece a (canonical t) [] b (by simpa using ha) (Spaced.done b (by simpa using hb))
  rw [canonical_eq, trim, ← hend, ← hstart] at h
  exact h

theorem spaced_tidy_append {ps qs : List Text} {a b : Text} (ha : Spaced ps (tidy a)) (hr : a.getLast? ≠ some '\r')
    (hb : Spaced qs (tidy b)) : Spaced (ps ++ qs) (tidy (a ++ '\n' :: b)) := by
  rw [tidy_append hr]
  exact ha.append (hb.gap_append ['\n'] (by simp))

theorem spaced_tidy_newline {ps : List Text} {b : Text} (hb : Spaced ps (tidy b)) : Spaced ps (tidy ('\n' :: b)) := by
  rw [tidy_newline]
  exact hb.gap_append ['\n'] (by simp)

/-- Texts that are joined by newlines. -/
theorem spaced_tidy_join {ts : List Text} (h : ∀ t ∈ ts, t.getLast? ≠ some '\r') :
    Spaced (ts.map canonical) (tidy (join "\n\n\n".toList ts)) := by
  induction ts with
  | nil => exact Spaced.done [] (by simp)
  | cons t ts ih =>
    obtain ⟨ht, hts⟩ := List.forall_mem_cons.mp h
    cases ts with
    | nil =>
      rw [join, List.intercalate_singleton]
      exact spaced_tidy t
    | cons t' ts =>
      have hjoin : join "\n\n\n".toList (t :: t' :: ts) =
          t ++ '\n' :: '\n' :: '\n' :: join "\n\n\n".toList (t' :: ts) := by
        simp [join, List.intercalate]
      rw [hjoin]
      exact spaced_tidy_append (spaced_tidy t) ht (spaced_tidy_newline (spaced_tidy_newline (ih hts)))

theorem getLast?_classText (u : IndentUnit) (c : ClassModel) : (classText u c).getLast? = some '}' := by
  unfold classText
  exact List.getLast?_concat

theorem getLast?_namespaceLine (scope : Text) : (namespaceLine scope).getLast? = some ';' := by
  unfold namespaceLine
  exact List.getLast?_concat

/-- Joined texts end as the last of them does. -/
theorem getLast?_join {c : Char} (sep : Text) {ts : List Text} (hne : ts ≠ []) (h : ∀ t ∈ ts, t.getLast? = some c) :
    (join sep ts).getLast? = some c := by
  induction ts with
  | nil => exact absurd rfl hne
  | cons t ts ih =>
    obtain ⟨ht, hts⟩ := List.forall_mem_cons.mp h
    cases ts with
    | nil => rwa [join, List.intercalate_singleton]
    | cons t' ts =>
      have hjoin : join sep (t :: t' :: ts) = t ++ sep ++ join sep (t' :: ts) := by
        simp [join, List.intercalate]
      rw [hjoin, List.getLast?_append, ih (List.cons_ne_nil _ _) hts]
      rfl

/-- A named group: its namespace line, then its classes. -/
theorem spaced_tidy_named (scope : Text) {ps : List Text} {rendered : Text} (h : Spaced ps (tidy rendered)) :
    Spaced (canonical (namespaceLine scope) :: ps) (tidy ("namespace ".toList ++ scope ++ ";\n\n".toList ++ rendered)) := by
  have hline : ∀ word : Text, word ++ scope ++ [';'] ++ '\n' :: '\n' :: rendered =
      word ++ scope ++ [';', '\n', '\n'] ++ rendered := by simp
  refine (congrArg (fun t => Spaced _ (tidy t)) (hline "namespace ".toList)).mp ?_
  refine spaced_tidy_append (spaced_tidy (namespaceLine scope)) ?_ (spaced_tidy_newline h)
  rw [getLast?_namespaceLine]
  decide

/-- The global group in a block of its own. -/
theorem spaced_tidy_block {ps : List Text} {rendered : Text} (hr : rendered.getLast? ≠ some '\r')
    (h : Spaced ps (tidy rendered)) :
    Spaced ("namespace \x7b".toList :: (ps ++ [['}']]))
      (tidy ("namespace \x7b\n\n".toList ++ rendered ++ "\n\n\n\x7d".toList)) := by
  have hword : "namespace \x7b".toList ++ ['\n', '\n'] = "namespace \x7b\n\n".toList := by decide +kernel
  have hcanonical : canonical "namespace \x7b".toList = "namespace \x7b".toList ∧ canonical ['}'] = ['}'] := by
    decide +kernel
  have hlines : ∀ word : Text, word ++ '\n' :: '\n' :: (rendered ++ '\n' :: '\n' :: '\n' :: ['}']) =
      word ++ ['\n', '\n'] ++ rendered ++ ['\n', '\n', '\n', '}'] := by simp
  have hblock := (hlines "namespace \x7b".toList).trans
    (congrArg (fun t => t ++ rendered ++ ['\n', '\n', '\n', '}']) hword)
  refine (congrArg (fun t => Spaced _ (tidy t)) hblock).mp ?_
  have hhead := spaced_tidy "namespace \x7b".toList
  have htail := spaced_tidy ['}']
  rw [hcanonical.1] at hhead
  rw [hcanonical.2] at htail
  exact spaced_tidy_append hhead (by decide) (spaced_tidy_newline
    (spaced_tidy_append h hr (spaced_tidy_newline (spaced_tidy_newline htail))))

theorem spaced_tidy_group (o : Options) (alone : Bool) (scope : Text) (classes : List ClassModel) :
    Spaced (groupPieces o alone scope classes) (tidy (group o alone scope classes)) := by
  have hlast : ∀ t ∈ classes.map (classText o.unit), t.getLast? = some '}' := by
    intro t ht
    obtain ⟨c, -, rfl⟩ := List.mem_map.mp ht
    exact getLast?_classText o.unit c
  have hbrace : ∀ {t : Text}, t.getLast? = some '}' → t.getLast? ≠ some '\r' := by
    intro t ht
    rw [ht]
    decide
  have hclasses : Spaced (classes.map (classPiece o)) (tidy (join "\n\n\n".toList (classes.map (classText o.unit)))) := by
    have hmap : classes.map (classPiece o) = (classes.map (classText o.unit)).map canonical := by
      rw [List.map_map]
      exact List.map_congr_left fun c _ => by rw [Function.comp_apply, classPiece]
    rw [hmap]
    exact spaced_tidy_join fun t ht => hbrace (hlast t ht)
  have hrendered : (join "\n\n\n".toList (classes.map (classText o.unit))).getLast? ≠ some '\r' := by
    cases classes with
    | nil => simp [join]
    | cons c cs => exact hbrace (getLast?_join _ (by simp) hlast)
  unfold groupPieces headPieces tailPieces group
  by_cases hs : (!scope.isEmpty) = true
  · simp only [if_pos hs, List.append_nil]
    exact spaced_tidy_named scope hclasses
  · simp only [if_neg hs]
    by_cases ha : alone = true
    · simpa only [if_pos ha, List.nil_append, List.append_nil] using hclasses
    · simp only [if_neg ha]
      exact spaced_tidy_block hrendered hclasses

/-! ## Closed pieces keep their place -/

theorem edges_of_isClosed {p : Text} (h : isClosed p = true) :
    (∃ c r, p = c :: r ∧ (c == '\n') = false) ∧ ∃ d, p.getLast? = some d ∧ (d == '\n') = false := by
  obtain ⟨us, tok, hts, -, d, hd, htext⟩ := endsAtStop_of_isClosed h
  have hp : p = textOf us ++ [d] := by
    rw [← (lexes_codeTokens p).textOf_eq, hts]
    simp [textOf, htext]
  refine ⟨?_, d, by rw [hp, List.getLast?_concat], eq_false_of_stop (· == '\n') hd rfl⟩
  cases p with
  | nil => simp at hp
  | cons c r =>
    refine ⟨c, r, rfl, ?_⟩
    cases hc : c == '\n' with
    | false => rfl
    | true =>
      rw [beq_iff_eq.mp hc] at h
      cases h

theorem trim_of_isClosed {p : Text} (h : isClosed p = true) : trim (· == '\n') p = p := by
  obtain ⟨⟨c, r, rfl, hc⟩, d, hd, hne⟩ := edges_of_isClosed h
  have hstart : trimStart (· == '\n') (c :: r) = c :: r := List.dropWhile_cons_of_neg (by simp [hc])
  have hend := trimEnd_append (p := (· == '\n')) hd hne []
  rw [trim, hstart]
  rwa [List.append_nil, show trimEnd _ [] = [] from rfl, List.append_nil] at hend

theorem spaced_trimEnd {ps : List Text} {t : Text} (h : Spaced ps t) (hps : ∀ p ∈ ps, isClosed p = true) :
    Spaced ps (trimEnd (· == '\n') t) := by
  induction h with
  | done gap hgap =>
    obtain ⟨b, -, hb⟩ := eq_trimEnd_append (· == '\n') gap
    exact Spaced.done _ fun c hc => hgap c (hb ▸ List.mem_append_left b hc)
  | piece gap p ps t hgap _ ih =>
    obtain ⟨hp, hps⟩ := List.forall_mem_cons.mp hps
    obtain ⟨-, d, hd, hne⟩ := edges_of_isClosed hp
    have hlast : (gap ++ p).getLast? = some d := by
      rw [List.getLast?_append, hd]
      rfl
    rw [← List.append_assoc, trimEnd_append hlast hne, List.append_assoc]
    exact Spaced.piece gap p ps _ hgap (ih hps)

theorem spaced_trim {ps : List Text} {t : Text} (h : Spaced ps t) (hps : ∀ p ∈ ps, isClosed p = true) :
    Spaced ps (trim (· == '\n') t) := by
  refine spaced_trimEnd ?_ hps
  cases h with
  | done gap hgap =>
    obtain ⟨a, -, ha⟩ := eq_append_trimStart (· == '\n') t
    exact Spaced.done _ fun c hc => hgap c (ha ▸ List.mem_append_right a hc)
  | piece gap p ps t hgap rest =>
    obtain ⟨⟨c, r, rfl, hc⟩, -⟩ := edges_of_isClosed (hps p (by simp))
    have hstart : trimStart (· == '\n') (gap ++ (c :: r ++ t)) = [] ++ (c :: r ++ t) := by
      rw [trimStart, List.dropWhile_append_of_pos (by simpa using hgap), List.cons_append,
        List.dropWhile_cons_of_neg (by simp [hc]), List.nil_append]
    rw [hstart]
    exact Spaced.piece [] (c :: r) ps t (by simp) rest

theorem spaced_groups (o : Options) (alone : Bool) {gs : List (Text × List ClassModel)}
    (hps : ∀ p ∈ gs.flatMap (fun g => groupPieces o alone g.1 g.2), isClosed p = true) :
    Spaced (gs.flatMap fun g => groupPieces o alone g.1 g.2)
      (gs.map fun g => canonical (group o alone g.1 g.2) ++ "\n\n\n".toList).flatten := by
  induction gs with
  | nil => exact Spaced.done [] (by simp)
  | cons g gs ih =>
    rw [List.flatMap_cons] at hps ⊢
    have hgroup := spaced_trim (spaced_tidy_group o alone g.1 g.2) fun p hp => hps p (List.mem_append_left _ hp)
    have hrest := ih fun p hp => hps p (List.mem_append_right _ hp)
    rw [List.map_cons, List.flatten_cons, List.append_assoc]
    exact hgroup.append (hrest.gap_append _ (by simp))

/-- A file whose pieces are closed is these pieces behind its tag, newlines aside. -/
theorem spaced_file {o : Options} {f : FileModel} (ho : o.openTag = true)
    (hps : ∀ p ∈ pieces o f, isClosed p = true) :
    ∃ t, file o f = "<?php".toList ++ t ∧ Spaced (pieces o f) t := by
  have htag : textIf o.openTag "<?php\n\n" = "<?php".toList ++ ['\n', '\n'] := by
    rw [ho]
    decide +kernel
  refine ⟨_, ?_, (spaced_groups o (f.namespaceCount ≤ 1) hps).gap_append ['\n', '\n'] (by simp)⟩
  rw [file, htag, List.append_assoc]

end ClassOutline.Layout
