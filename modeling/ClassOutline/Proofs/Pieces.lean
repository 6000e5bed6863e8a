import ClassOutline.Proofs.Anchors
import ClassOutline.Proofs.Lexing.Stops
/-
  ClassOutline.Proofs.Pieces — discovery in a text made of closed pieces.

  A closed piece begins and ends outside of comments, literals and anchors. So where a text
  is closed pieces with newlines between them, each piece is lexed as it would be alone, the
  automaton is seeking again behind it, and all it takes on to the next piece is the
  namespace: the names found in the text are those of the pieces, one after the other
  (`entries_of_spaced`).
-/

namespace ClassOutline.Token

open ClassOutline.Text

/-- Inside code, behind nothing that matters. -/
def LexState.code : LexState := ⟨true, 1, none⟩

/-- The tokens of a text that is code from its first character on. -/
def codeTokens (t : Text) : List Token := lexFrom t.length .code t

theorem lexes_codeTokens (t : Text) : Lexes .code t (codeTokens t) := lexes_lexFrom (Nat.le_refl _) _

/-- Whether a text begins with a token that counts and lexes to its last character, a stop. -/
def isClosed (t : Text) : Bool :=
  !t.head?.any isCodeBlank &&
    (codeTokens t).getLast?.any fun tok => tok.kind == .punct && stops.any (tok.text == [·])

theorem isClosed_of_endsAtStop {t : Text} (hhead : t.head?.any isCodeBlank = false)
    (hends : EndsAtStop (codeTokens t)) : isClosed t = true := by
  obtain ⟨us, tok, hts, hkind, c, hc, htext⟩ := hends
  have hstop : stops.any (tok.text == [·]) = true := List.any_eq_true.mpr ⟨c, hc, beq_iff_eq.mpr htext⟩
  rw [isClosed, hhead, hts, List.getLast?_concat, Option.any_some, hkind, hstop]
  rfl

theorem endsAtStop_of_isClosed {t : Text} (h : isClosed t = true) : EndsAtStop (codeTokens t) := by
  obtain ⟨tok, hlast, htok⟩ := (Option.any_eq_true _ _).mp (Bool.and_eq_true_iff.mp h).2
  obtain ⟨hkind, htext⟩ := Bool.and_eq_true_iff.mp htok
  obtain ⟨c, hc, hc'⟩ := List.any_eq_true.mp htext
  obtain ⟨us, hus⟩ := List.getLast?_eq_some_iff.mp hlast
  exact ⟨us, tok, hus, beq_iff_eq.mp hkind, c, hc, beq_iff_eq.mp hc'⟩

/-- Behind a stop the lexer is in code, and behind no operator. -/
theorem Lexes.afterAll_alike {s : LexState} {t : Text} {ts : List Token} (h : Lexes s t ts)
    (hends : EndsAtStop ts) : (s.afterAll ts).Alike .code := by
  induction h with
  | done s =>
    obtain ⟨us, tok, hnil, -⟩ := hends
    simp at hnil
  | step s d r ts rest ih =>
    obtain ⟨before, tok, hts, hpunct, c, hc, htext⟩ := hends
    cases before with
    | nil =>
      obtain ⟨rfl, rfl⟩ := List.cons.inj hts
      have hcode : s.inCode = true := inCode_of_punct hpunct
      have hop : nameOperators.contains [c] = false := eq_false_of_stop (fun d => nameOperators.contains [d]) hc rfl
      simp only [LexState.afterAll, List.foldl_cons, List.foldl_nil, LexState.next, hpunct, htext]
      refine ⟨hcode, ?_⟩
      simpa [Kind.isTrivia, LexState.code] using hop
    | cons first before =>
      obtain ⟨-, rfl⟩ := List.cons.inj hts
      exact ih ⟨before, tok, rfl, hpunct, c, hc, htext⟩

end ClassOutline.Token

namespace ClassOutline.Discovery

open ClassOutline.Text ClassOutline.Token

/-! ## Runs and what is behind them -/

/-- The state behind some tokens. -/
def finish (s : State) (ts : List Token) : State := ts.foldl (fun s tok => (step s tok).1) s

theorem run_append (s : State) (a b : List Token) : run s (a ++ b) = run s a ++ run (finish s a) b := by
  induction a generalizing s with
  | nil => rfl
  | cons tok a ih =>
    rw [List.cons_append, run_cons, run_cons, ih, List.append_assoc]
    rfl

/-- A mark breaks every anchor or completes it. -/
theorem progress_step_of_punct (s : State) {tok : Token} (h : tok.kind = .punct) :
    (step s tok).1.progress = .seeking := by
  have hseek : ∀ scope, (seek scope tok).progress = .seeking := by
    intro scope
    simp [seek, h]
  unfold step
  split <;> simp only [h, Kind.isTrivia, reduceCtorEq, beq_iff_eq, Bool.false_eq_true, if_false, hseek]
  split
  · rfl
  · exact hseek _

theorem State.eq_seeking {s : State} (h : s.progress = .seeking) : s = ⟨.seeking, s.scope⟩ := by
  rw [← h]

theorem progress_finish {ts : List Token} (hends : EndsAtStop ts) (s : State) :
    (finish s ts).progress = .seeking := by
  obtain ⟨us, tok, rfl, hpunct, -⟩ := hends
  rw [finish, List.foldl_append]
  exact progress_step_of_punct _ hpunct

/-- The name of a found class, under its namespace. -/
def entry (c : FoundClass) : Text × Text := (c.scope, c.name)

theorem step_bare (s : State) {tok tok' : Token} (h : tok.bare = tok'.bare) :
    (step s tok).1 = (step s tok').1 ∧ (step s tok).2.map entry = (step s tok').2.map entry := by
  obtain ⟨hk, ht⟩ := Prod.mk.inj h
  have hseek : ∀ scope, seek scope tok = seek scope tok' := by
    intro scope
    simp only [seek, hk]
  have hbrace : isOpenBrace tok = isOpenBrace tok' := by simp only [isOpenBrace, hk, ht]
  simp only [step, hk, ht, hseek, hbrace]
  split
  case h_6 => exact ⟨rfl, rfl⟩
  all_goals split <;> simp [entry]

/-- Lines aside, what is found depends on the kinds and texts of the tokens. -/
theorem entries_bare (s : State) {ts us : List Token} (h : ts.map bare = us.map bare) :
    (run s ts).map entry = (run s us).map entry := by
  induction ts generalizing s us with
  | nil =>
    rw [List.map_eq_nil_iff.mp h.symm]
  | cons tok ts ih =>
    cases us with
    | nil => simp at h
    | cons tok' us =>
      rw [List.map_cons, List.map_cons] at h
      obtain ⟨htok, hrest⟩ := List.cons.inj h
      obtain ⟨hstate, hfound⟩ := step_bare s htok
      rw [run_cons, run_cons, List.map_append, List.map_append, hstate, ih _ hrest,
        ← Option.toList_map, ← Option.toList_map, hfound]

/-! ## Pieces -/

/-- What is found in a piece alone that stands in some namespace. -/
def entriesIn (scope piece : Text) : List (Text × Text) := (run ⟨.seeking, scope⟩ (codeTokens piece)).map entry

/-- The namespace behind a piece. -/
def scopeBehind (scope piece : Text) : Text := (finish ⟨.seeking, scope⟩ (codeTokens piece)).scope

/-- What is found in pieces that are read one after the other. -/
def entriesThrough : Text → List Text → List (Text × Text)
  | _, [] => []
  | scope, p :: ps => entriesIn scope p ++ entriesThrough (scopeBehind scope p) ps

/-- A text that is some pieces with newlines, if anything, before and behind them. -/
inductive Spaced : List Text → Text → Prop
  | done (gap : Text) (h : ∀ c ∈ gap, c = '\n') : Spaced [] gap
  | piece (gap p : Text) (ps : List Text) (t : Text) (h : ∀ c ∈ gap, c = '\n') (rest : Spaced ps t) :
      Spaced (p :: ps) (gap ++ (p ++ t))

theorem Spaced.gap_append {ps : List Text} {t : Text} (ht : Spaced ps t) (gap : Text) (h : ∀ c ∈ gap, c = '\n') :
    Spaced ps (gap ++ t) := by
  cases ht with
  | done gap' h' =>
    refine Spaced.done _ fun c hc => ?_
    exact (List.mem_append.mp hc).elim (h c) (h' c)
  | piece gap' p ps t h' rest =>
    rw [← List.append_assoc]
    refine Spaced.piece _ p ps t (fun c hc => ?_) rest
    exact (List.mem_append.mp hc).elim (h c) (h' c)

theorem Spaced.append {ps qs : List Text} {t u : Text} (ht : Spaced ps t) (hu : Spaced qs u) :
    Spaced (ps ++ qs) (t ++ u) := by
  induction ht with
  | done gap h => exact hu.gap_append gap h
  | piece gap p ps t h _ ih =>
    rw [List.append_assoc, List.append_assoc]
    exact Spaced.piece gap p (ps ++ qs) (t ++ u) h ih

/-- Newlines before a piece are one token at most, which begins no anchor. -/
theorem entries_gap {s : LexState} (hs : s.Alike .code) {gap t : Text} (hgap : ∀ c ∈ gap, c = '\n')
    (ht : t.head?.any isCodeBlank = false) {ts us : List Token} (h : Lexes s (gap ++ t) ts)
    (hu : Lexes .code t us) (scope : Text) :
    (run ⟨.seeking, scope⟩ ts).map entry = (run ⟨.seeking, scope⟩ us).map entry := by
  cases gap with
  | nil => exact entries_bare _ (h.alike hu hs)
  | cons c gap =>
    have hblank : ∀ d ∈ c :: gap, isCodeBlank d = true := by
      intro d hd
      rw [hgap d hd]
      rfl
    have hrun : (c :: gap ++ t).takeWhile isCodeBlank = c :: gap := by
      refine takeWhile_append_eq hblank fun d hd => ?_
      rw [hd] at ht
      exact ht
    have hcode : s.inCode = true := hs.1
    have hlex : lexeme s c (gap ++ t) = ⟨.whitespace, (c :: gap).length⟩ := by
      rw [lexeme, if_pos hcode, codeLexeme_of_isCodeBlank (hblank c (by simp)), ← List.cons_append, hrun]
    rw [List.cons_append] at h
    cases h with
    | step _ _ _ ts rest =>
      have htok : nextToken s c (gap ++ t) = ⟨.whitespace, c :: gap, s.line⟩ := by
        rw [nextToken, hlex]
        exact congrArg (fun text => Token.mk _ text _) (List.take_left' rfl)
      rw [htok, hlex] at rest
      rw [htok, run_seeking_neutral scope (by simp) (by simp)]
      have hdrop : (c :: (gap ++ t)).drop (c :: gap).length = t := List.drop_left' rfl
      simp only [hdrop] at rest
      exact entries_bare _ (rest.alike hu hs)

/-- In a text of closed pieces is found what is found in the pieces, each in the namespace
    that those before it leave. -/
theorem entries_of_spaced {ps : List Text} {t : Text} (h : Spaced ps t) (hps : ∀ p ∈ ps, isClosed p = true)
    {s : LexState} (hs : s.Alike .code) {ts : List Token} (hts : Lexes s t ts) (scope : Text) :
    (run ⟨.seeking, scope⟩ ts).map entry = entriesThrough scope ps := by
  induction h generalizing s ts scope with
  | done gap hgap =>
    rw [← List.append_nil gap] at hts
    exact entries_gap hs hgap rfl hts (Lexes.done _) scope
  | piece gap p ps t hgap rest ih =>
    obtain ⟨hp, hps⟩ := List.forall_mem_cons.mp hps
    have hends := endsAtStop_of_isClosed hp
    have hpiece := lexes_codeTokens p
    have hrest := lexes_lexFrom (Nat.le_refl t.length) (LexState.code.afterAll (codeTokens p))
    have hhead : (p ++ t).head?.any isCodeBlank = false := by
      cases p with
      | nil => cases hp
      | cons c p => simpa using (Bool.and_eq_true_iff.mp hp).1
    rw [entries_gap hs hgap hhead hts (hpiece.append hends hrest), run_append, List.map_append, entriesThrough]
    refine congrArg _ ?_
    rw [State.eq_seeking (progress_finish hends _)]
    exact ih hps (hpiece.afterAll_alike hends) hrest _

/-- The same behind an open tag. -/
theorem entries_of_tagged {ps : List Text} {t : Text} (h : Spaced ps t) (hps : ∀ p ∈ ps, isClosed p = true) :
    (classes (tokenize ("<?php".toList ++ t))).map entry = entriesThrough [] ps := by
  have hrun := lexes_tokenize ("<?php".toList ++ t)
  have hlex : lexeme .start '<' (['?', 'p', 'h', 'p'] ++ t) = ⟨.openTag, 5⟩ := rfl
  have htok : nextToken .start '<' (['?', 'p', 'h', 'p'] ++ t) = ⟨.openTag, "<?php".toList, 1⟩ := rfl
  generalize tokenize ("<?php".toList ++ t) = ts at hrun
  change Lexes .start ('<' :: (['?', 'p', 'h', 'p'] ++ t)) ts at hrun
  cases hrun with
  | step _ _ _ ts rest =>
    rw [htok, hlex] at rest
    rw [htok, classes, State.start, run_seeking_neutral [] (by simp) (by simp)]
    have hbehind : (LexState.start.next ⟨.openTag, "<?php".toList, 1⟩).Alike .code := ⟨rfl, rfl⟩
    exact entries_of_spaced h hps hbehind rest []

end ClassOutline.Discovery
