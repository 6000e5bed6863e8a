import ClassOutline.Proofs.Layout
/-
  ClassOutline.Proofs.Paths — namespaces, found and printed.

  Every namespace that is found in a source is a path: names with separators between them,
  of which the first is not reserved (`isPath_of_mem_classes`). A path that is printed on a
  namespace line is read there as itself (`reads_namespaceLine`). The name of a class that
  is found is a name (`isName_of_mem_classes`).
-/

namespace ClassOutline.Token

open ClassOutline.Text

/-! ## Names -/

/-- A character that begins a name, and name characters. -/
def IsName (w : Text) : Prop := ∃ c r, w = c :: r ∧ isNameStart c = true ∧ ∀ d ∈ r, isNameChar d = true

theorem IsName.all {w : Text} (h : IsName w) : ∀ d ∈ w, isNameChar d = true := by
  obtain ⟨c, r, rfl, hc, hr⟩ := h
  intro d hd
  rcases List.mem_cons.mp hd with rfl | hd
  · exact isNameChar_of_isNameStart hc
  · exact hr d hd

/-- Behind anything but an operator words are sorted alike. -/
theorem ofWord_eq_of_any {previous : Option Text} (h : previous.any nameOperators.contains = false) (w : Text) :
    Kind.ofWord previous w = Kind.ofWord none w := by
  unfold Kind.ofWord
  rw [h]
  rfl

/-- Names with separators between them; the first is not reserved. -/
def IsPath (scope : Text) : Prop :=
  ∃ (w : Text) (ws : List Text), IsName w ∧ Kind.ofWord none w = .identifier ∧ (∀ v ∈ ws, IsName v) ∧
    scope = w ++ ws.flatMap ('\\' :: ·)

theorem IsPath.mem {scope : Text} (h : IsPath scope) {c : Char} (hc : c ∈ scope) : isNameChar c = true ∨ c = '\\' := by
  obtain ⟨w, ws, hw, -, hws, rfl⟩ := h
  rcases List.mem_append.mp hc with hc | hc
  · exact Or.inl (hw.all c hc)
  · obtain ⟨v, hv, hc⟩ := List.mem_flatMap.mp hc
    rcases List.mem_cons.mp hc with rfl | hc
    · exact Or.inr rfl
    · exact Or.inl ((hws v hv).all c hc)

/-- Name characters are neither blanks nor controls. -/
theorem bounds_of_isNameChar {c : Char} (h : isNameChar c = true) : 0x30 ≤ c.toNat ∧ c.toNat ≠ 0x7f := by
  have hval : c.toNat = c.val.toNat := rfl
  have hbound : ∀ {a b : Char}, a.val ≤ c.val ∧ c.val ≤ b.val → a.toNat ≤ c.toNat ∧ c.toNat ≤ b.toNat := by
    intro a b hab
    exact ⟨UInt32.le_iff_toNat_le.mp hab.1, UInt32.le_iff_toNat_le.mp hab.2⟩
  have hA : 'A'.toNat = 0x41 ∧ 'Z'.toNat = 0x5a ∧ 'a'.toNat = 0x61 ∧ 'z'.toNat = 0x7a ∧ '0'.toNat = 0x30 ∧
      '9'.toNat = 0x39 := by decide
  simp only [isNameChar, isNameStart, Bool.or_eq_true, beq_iff_eq, decide_eq_true_eq] at h
  rcases h with ((h | rfl) | h) | h
  · rcases Bool.or_eq_true_iff.mp h with hu | hl
    · have := hbound (of_decide_eq_true hu)
      omega
    · obtain ⟨h1, h2⟩ := Bool.and_eq_true_iff.mp hl
      have := hbound ⟨of_decide_eq_true h1, of_decide_eq_true h2⟩
      omega
  · decide
  · omega
  · obtain ⟨h1, h2⟩ := Bool.and_eq_true_iff.mp h
    have := hbound ⟨of_decide_eq_true h1, of_decide_eq_true h2⟩
    omega

/-! ## Single tokens -/

/-- A run that begins with a token whose lexeme is known. -/
theorem Lexes.cons {s : LexState} {c : Char} {t r : Text} {kind : Kind} {ts : List Token}
    (h : lexeme s c (t ++ r) = ⟨kind, (c :: t).length⟩)
    (rest : Lexes (s.next ⟨kind, c :: t, s.line⟩) r ts) : Lexes s (c :: t ++ r) (⟨kind, c :: t, s.line⟩ :: ts) := by
  have htok : nextToken s c (t ++ r) = ⟨kind, c :: t, s.line⟩ := by
    rw [nextToken, h]
    exact congrArg (fun text => Token.mk _ text _) (List.take_left' rfl)
  rw [← htok]
  refine Lexes.step s c (t ++ r) ts ?_
  rw [htok, h]
  have hdrop : (c :: (t ++ r)).drop (c :: t).length = r := List.drop_left' rfl
  simpa only [hdrop] using rest

theorem lexes_word {s : LexState} (hs : s.inCode = true) {w r : Text} (hw : IsName w) {kind : Kind}
    (hkind : Kind.ofWord s.previous w = kind) (hr : r.head?.any isNameChar = false) {ts : List Token}
    (rest : Lexes (s.next ⟨kind, w, s.line⟩) r ts) : Lexes s (w ++ r) (⟨kind, w, s.line⟩ :: ts) := by
  have hrun : (w ++ r).takeWhile isNameChar = w := by
    refine takeWhile_append_eq hw.all fun d hd => ?_
    rw [hd] at hr
    exact hr
  obtain ⟨c, t, rfl, hc, -⟩ := hw
  refine Lexes.cons ?_ rest
  rw [lexeme, if_pos hs, codeLexeme_of_isNameStart hc, plainLexeme, if_pos hc, nameLength, ← List.cons_append, hrun,
    hkind]

theorem lexes_separator {s : LexState} (hs : s.inCode = true) {r : Text} {ts : List Token}
    (rest : Lexes (s.next ⟨.nsSeparator, ['\\'], s.line⟩) r ts) :
    Lexes s ('\\' :: r) (⟨.nsSeparator, ['\\'], s.line⟩ :: ts) := by
  refine Lexes.cons (t := []) ?_ rest
  rw [lexeme, if_pos hs]
  rfl

theorem lexes_stop {s : LexState} (hs : s.inCode = true) {c : Char} (hc : c ∈ stops) {r : Text} {ts : List Token}
    (rest : Lexes (s.next ⟨.punct, [c], s.line⟩) r ts) : Lexes s (c :: r) (⟨.punct, [c], s.line⟩ :: ts) := by
  refine Lexes.cons (t := []) ?_ rest
  rw [lexeme, if_pos hs, codeLexeme_of_stop hc]
  rfl

theorem lexes_blank {s : LexState} (hs : s.inCode = true) {c : Char} (hc : isCodeBlank c = true) {r : Text}
    (hr : r.head?.any isCodeBlank = false) {ts : List Token} (rest : Lexes (s.next ⟨.whitespace, [c], s.line⟩) r ts) :
    Lexes s (c :: r) (⟨.whitespace, [c], s.line⟩ :: ts) := by
  have hrun : (c :: r).takeWhile isCodeBlank = [c] := by
    refine takeWhile_append_eq (a := [c]) (by simpa using hc) fun d hd => ?_
    rw [hd] at hr
    exact hr
  refine Lexes.cons (t := []) ?_ rest
  rw [List.nil_append, lexeme, if_pos hs, codeLexeme_of_isCodeBlank hc, hrun]

end ClassOutline.Token

namespace ClassOutline.Discovery

open ClassOutline.Text ClassOutline.Token ClassOutline.Layout

/-! ## Paths that are read -/

/-- Segments behind a path are read to its end, where a semicolon stands. -/
theorem lexes_segments {ws : List Text} (hws : ∀ v ∈ ws, IsName v) {s : LexState} (hs : s.inCode = true) (path : Text) :
    ∃ ts, Lexes s (ws.flatMap ('\\' :: ·) ++ [';']) ts ∧ EndsAtStop ts ∧
      finish ⟨.inPath, path⟩ ts = ⟨.seeking, path ++ ws.flatMap ('\\' :: ·)⟩ ∧ run ⟨.inPath, path⟩ ts = [] := by
  induction ws generalizing s path with
  | nil =>
    refine ⟨[⟨.punct, [';'], s.line⟩], lexes_stop hs (by decide) (Lexes.done _), ?_, ?_, rfl⟩
    · exact ⟨[], _, rfl, rfl, ';', by decide, rfl⟩
    · rw [List.flatMap_nil, List.append_nil]
      rfl
  | cons v ws ih =>
    obtain ⟨hv, hws⟩ := List.forall_mem_cons.mp hws
    let s₁ := s.next ⟨.nsSeparator, ['\\'], s.line⟩
    obtain ⟨ts, hts, hends, hfinish, hrun⟩ := ih hws (s := s₁.next ⟨.identifier, v, s₁.line⟩) hs (path ++ '\\' :: v)
    have hhead : (ws.flatMap ('\\' :: ·) ++ [';']).head?.any isNameChar = false := by
      cases ws <;> rfl
    -- behind a separator every word is a name
    have hword := lexes_word (s := s₁) hs hv rfl hhead hts
    have hall := lexes_separator hs hword
    rw [← List.append_assoc, ← List.cons_append] at hall
    refine ⟨_, hall, (hends.cons _).cons _, ?_, hrun⟩
    rw [List.flatMap_cons, ← List.append_assoc]
    exact hfinish

/-- A keyword, a blank and a path open the namespace of the path, and nothing is found. -/
theorem lexes_opening {word : Text} (hword : IsName word) (hkeyword : Kind.ofWord none word = .namespaceKeyword)
    (hoperator : nameOperators.contains word = false) {scope : Text} (h : IsPath scope) :
    ∃ ts, Lexes .code (word ++ ' ' :: (scope ++ [';'])) ts ∧ EndsAtStop ts ∧
      ∀ outer, finish ⟨.seeking, outer⟩ ts = ⟨.seeking, scope⟩ ∧ run ⟨.seeking, outer⟩ ts = [] := by
  obtain ⟨w, ws, hw, hkind, hws, rfl⟩ := h
  let s₁ := LexState.code.next ⟨.namespaceKeyword, word, 1⟩
  let s₂ := s₁.next ⟨.whitespace, [' '], s₁.line⟩
  have hsome : (some word).any nameOperators.contains = false := hoperator
  have hprevious : Kind.ofWord s₂.previous w = .identifier := (ofWord_eq_of_any hsome w).trans hkind
  obtain ⟨ts, hts, hends, hfinish, hrun⟩ := lexes_segments hws (s := s₂.next ⟨.identifier, w, s₂.line⟩) rfl w
  have hhead : (ws.flatMap ('\\' :: ·) ++ [';']).head?.any isNameChar = false := by
    cases ws <;> rfl
  have hpath := lexes_word (s := s₂) rfl hw hprevious hhead hts
  have hblank : (w ++ (ws.flatMap ('\\' :: ·) ++ [';'])).head?.any isCodeBlank = false := by
    obtain ⟨c, r, rfl, hc, -⟩ := hw
    exact not_isCodeBlank_of_isNameStart hc
  have hspace := lexes_blank (s := s₁) rfl rfl hblank hpath
  have hall := lexes_word (s := .code) rfl hword hkeyword rfl hspace
  rw [← List.append_assoc] at hall
  exact ⟨_, hall, ((hends.cons _).cons _).cons _, fun outer => ⟨hfinish, hrun⟩⟩

theorem isControl_of_isNameChar {c : Char} (h : isNameChar c = true) : isControl c = false := by
  obtain ⟨hle, hne⟩ := bounds_of_isNameChar h
  have hlow : decide (c.toNat < 0x20) = false := decide_eq_false (by omega)
  rw [isControl, hlow, beq_false_of_ne hne]
  rfl

theorem isKept_of_isNameChar {c : Char} (h : isNameChar c = true) : c ≠ '\n' ∧ c ≠ '\r' ∧ isKept c = true :=
  isKept_of_not_isControl (isControl_of_isNameChar h)

theorem canonical_namespaceLine {scope : Text} (h : IsPath scope) :
    canonical (namespaceLine scope) = namespaceLine scope := by
  have hword : ("namespace ".toList.all fun c => c != '\n' && c != '\r' && isKept c) = true := by decide +kernel
  refine canonical_eq_self (fun c hc => ?_) (getLast?_namespaceLine scope) rfl
  rcases List.mem_append.mp hc with hc | hc
  · rcases List.mem_append.mp hc with hc | hc
    · simpa [and_assoc] using List.all_eq_true.mp hword c hc
    · rcases IsPath.mem h hc with hc | rfl
      · exact isKept_of_isNameChar hc
      · decide
  · rw [List.mem_singleton.mp hc]
    decide

/-- A namespace line is closed, and a path on it is read as itself. -/
theorem reads_namespaceLine {scope : Text} (h : IsPath scope) :
    isClosed (canonical (namespaceLine scope)) = true ∧
      ∀ outer, scopeBehind outer (canonical (namespaceLine scope)) = scope ∧
        entriesIn outer (canonical (namespaceLine scope)) = [] := by
  have hname : IsName "namespace".toList := by
    have hall : "amespace".toList.all isNameChar = true := by decide +kernel
    exact ⟨'n', "amespace".toList, by decide +kernel, rfl, List.all_eq_true.mp hall⟩
  have hkeyword : Kind.ofWord none "namespace".toList = .namespaceKeyword := by decide +kernel
  have hoperator : nameOperators.contains "namespace".toList = false := by decide +kernel
  have hspace : "namespace ".toList = "namespace".toList ++ [' '] := by decide +kernel
  have hassoc : ∀ word : Text, word ++ [' '] ++ scope ++ [';'] = word ++ ' ' :: (scope ++ [';']) := by simp
  have hline : namespaceLine scope = "namespace".toList ++ ' ' :: (scope ++ [';']) :=
    (congrArg (fun t => t ++ scope ++ [';']) hspace).trans (hassoc _)
  obtain ⟨ts, hts, hends, hread⟩ := lexes_opening hname hkeyword hoperator h
  rw [← hline] at hts
  rw [canonical_namespaceLine h]
  have htokens : codeTokens (namespaceLine scope) = ts := (lexes_codeTokens _).unique hts
  refine ⟨?_, fun outer => ⟨?_, ?_⟩⟩
  · refine isClosed_of_endsAtStop ?_ (htokens ▸ hends)
    have hhead : "namespace".toList.head? = some 'n' := by decide +kernel
    rw [hline, List.head?_append, hhead]
    rfl
  · rw [scopeBehind, htokens, (hread outer).1]
  · rw [entriesIn, htokens, (hread outer).2]
    rfl

/-! ## Paths that are found -/

/-- The kinds of words that can stand in an anchor of a namespace. -/
def isAnchorWord (kind : Kind) : Bool := kind == .identifier || kind == .namespaceKeyword

theorem isAnchorWord_plainLexeme {c : Char} (hc : isNameStart c = false) (previous : Option Text) (t : Text) :
    isAnchorWord (plainLexeme previous c t).kind = false := by
  rw [plainLexeme, hc, if_neg Bool.false_ne_true]
  split
  · rfl
  · show isAnchorWord (if isPunctChar c then .punct else .unknown) = false
    split <;> rfl

theorem isAnchorWord_codeLexeme {c : Char} (hc : isNameStart c = false) (previous : Option Text) (r : Text) :
    isAnchorWord (codeLexeme previous c r).kind = false := by
  obtain ⟨form, -, hlex⟩ := exists_form previous c r
  rw [hlex]
  cases form with
  | blockComment =>
    show isAnchorWord (if isDocComment (c :: r) then .docComment else .comment) = false
    split <;> rfl
  | angles =>
    rw [Form.lexeme, angleLexeme]
    split
    · rfl
    · exact isAnchorWord_plainLexeme hc previous (c :: r)
  | plain => exact isAnchorWord_plainLexeme hc previous (c :: r)
  | blanks | closeTag | attributeMark | lineComment | quoted | var | number | separator => rfl

/-- A token that is a name or the keyword of a namespace is a word, sorted by what is before it. -/
theorem isName_of_kind {s : LexState} {c : Char} {r : Text} {kind : Kind} (hkind : isAnchorWord kind = true)
    (h : (nextToken s c r).kind = kind) :
    IsName (nextToken s c r).text ∧ Kind.ofWord s.previous (nextToken s c r).text = kind := by
  have hlex : (lexeme s c r).kind = kind := h
  have hplain : s.inCode = true ∧ isNameStart c = true := by
    rw [← hlex, lexeme] at hkind
    split at hkind
    · rename_i hs
      refine ⟨hs, ?_⟩
      by_contra hc
      rw [isAnchorWord_codeLexeme (by simpa using hc)] at hkind
      cases hkind
    · rw [htmlLexeme] at hkind
      split at hkind <;> cases hkind
  obtain ⟨hs, hc⟩ := hplain
  have hword : lexeme s c r = ⟨.ofWord s.previous ((c :: r).takeWhile isNameChar), nameLength (c :: r)⟩ := by
    rw [lexeme, if_pos hs, codeLexeme_of_isNameStart hc, plainLexeme, if_pos hc]
  have htext : (nextToken s c r).text = (c :: r).takeWhile isNameChar := by
    rw [nextToken, hword]
    exact (List.prefix_iff_eq_take.mp (List.takeWhile_prefix _)).symm
  rw [hword] at hlex
  rw [htext]
  refine ⟨⟨c, r.takeWhile isNameChar, ?_, hc, fun d hd => List.mem_takeWhile_imp hd⟩, hlex⟩
  rw [List.takeWhile_cons, if_pos (isNameChar_of_isNameStart hc)]

/-- What discovery knows of the namespace it is in, while a source is lexed: it is a path or
    the global one, and behind the keyword a word is sorted as anywhere. -/
structure Knows (s : LexState) (st : State) : Prop where
  scope : st.scope = [] ∨ IsPath st.scope
  keyword : st.progress = .afterNamespace → s.previous.any nameOperators.contains = false
  path : st.progress = .inPath ∨ st.progress = .afterSeparator → IsPath st.scope

theorem not_operator_of_isName {w : Text} (h : IsName w) : nameOperators.contains w = false := by
  have hall : nameOperators.all (fun op => !op.head?.any isNameStart) = true := rfl
  obtain ⟨c, r, rfl, hc, -⟩ := h
  by_contra hmem
  have := List.all_eq_true.mp hall (c :: r) (by simpa using hmem)
  simp [hc] at this

theorem knows_seek {s : LexState} {c : Char} {r scope : Text} (h : scope = [] ∨ IsPath scope) :
    Knows (s.next (nextToken s c r)) (seek scope (nextToken s c r)) := by
  unfold seek
  split
  · rename_i hk
    refine ⟨h, fun _ => ?_, by simp⟩
    have hname := (isName_of_kind rfl hk).1
    simp only [LexState.next, hk, Kind.isTrivia, Bool.false_eq_true, if_false, Option.any_some]
    exact not_operator_of_isName hname
  · exact ⟨h, by simp, by simp⟩
  · exact ⟨h, by simp, by simp⟩

/-- A token keeps what is known, and a class it completes is in a namespace that is known. -/
theorem knows_step {s : LexState} {st : State} (h : Knows s st) (c : Char) (r : Text) :
    Knows (s.next (nextToken s c r)) (step st (nextToken s c r)).1 ∧
      ∀ found ∈ (step st (nextToken s c r)).2, found.scope = [] ∨ IsPath found.scope := by
  obtain ⟨progress, scope⟩ := st
  have hseek := knows_seek (s := s) (c := c) (r := r) h.scope
  cases progress with
  | seeking => exact ⟨hseek, by simp [step]⟩
  | afterNamespace =>
    simp only [step]
    split
    · rename_i ht
      refine ⟨⟨h.scope, fun hp => ?_, by simp⟩, by simp⟩
      simp only [LexState.next, ht, if_true]
      exact h.keyword hp
    · split
      · rename_i hk
        obtain ⟨hname, hkind⟩ := isName_of_kind rfl (beq_iff_eq.mp hk)
        rw [ofWord_eq_of_any (h.keyword rfl)] at hkind
        have hpath : IsPath (nextToken s c r).text := ⟨_, [], hname, hkind, by simp, by simp⟩
        exact ⟨⟨Or.inr hpath, by simp, fun _ => hpath⟩, by simp⟩
      · split
        · exact ⟨⟨Or.inl rfl, by simp, by simp⟩, by simp⟩
        · exact ⟨hseek, by simp⟩
  | inPath =>
    simp only [step]
    split
    · exact ⟨⟨h.scope, by simp, fun _ => h.path (Or.inl rfl)⟩, by simp⟩
    · exact ⟨hseek, by simp⟩
  | afterSeparator =>
    simp only [step]
    split
    · rename_i hk
      obtain ⟨hname, -⟩ := isName_of_kind rfl (beq_iff_eq.mp hk)
      have hpath : IsPath (scope ++ '\\' :: (nextToken s c r).text) := by
        obtain ⟨w, ws, hw, hkind, hws, hscope⟩ := h.path (Or.inr rfl)
        refine ⟨w, ws ++ [(nextToken s c r).text], hw, hkind, ?_, ?_⟩
        · intro v hv
          rcases List.mem_append.mp hv with hv | hv
          · exact hws v hv
          · rw [List.mem_singleton.mp hv]
            exact hname
        · have hscope' : scope = w ++ ws.flatMap ('\\' :: ·) := hscope
          rw [hscope']
          simp
      exact ⟨⟨Or.inr hpath, by simp, fun _ => hpath⟩, by simp⟩
    · exact ⟨hseek, by simp⟩
  | afterClass =>
    simp only [step]
    split
    · exact ⟨⟨h.scope, by simp, by simp⟩, by simp⟩
    · exact ⟨hseek, by simp⟩
  | afterClassBlank =>
    simp only [step]
    split
    · refine ⟨⟨h.scope, by simp, by simp⟩, fun found hfound => ?_⟩
      rw [← Option.some.inj hfound]
      exact h.scope
    · exact ⟨hseek, by simp⟩

theorem isPath_of_mem_run {s : LexState} {t : Text} {ts : List Token} (h : Lexes s t ts) {st : State} (hst : Knows s st) :
    ∀ found ∈ run st ts, found.scope = [] ∨ IsPath found.scope := by
  induction h generalizing st with
  | done s => simp [run]
  | step s c r ts _ ih =>
    obtain ⟨hnext, hfound⟩ := knows_step hst c r
    intro found hmem
    rw [run_cons] at hmem
    rcases List.mem_append.mp hmem with hmem | hmem
    · exact hfound found (Option.mem_toList.mp hmem)
    · exact ih hnext found hmem

/-- A class that is found in a source is in the global namespace or in one that is a path. -/
theorem isPath_of_mem_classes {source : Text} {c : FoundClass} (h : c ∈ classes (tokenize source)) :
    c.scope = [] ∨ IsPath c.scope := by
  refine isPath_of_mem_run (lexes_tokenize source) ⟨Or.inl rfl, ?_, ?_⟩ c h
  · intro hp
    cases hp
  · intro hp
    rcases hp with hp | hp <;> cases hp

/-! ## Names that are found -/

/-- A class is found on a token that is a name. -/
theorem identifier_of_step {st : State} {tok : Token} {found : FoundClass} (h : (step st tok).2 = some found) :
    tok.kind = .identifier ∧ found.name = tok.text := by
  obtain ⟨progress, scope⟩ := st
  cases progress <;> simp only [step] at h
  case seeking => cases h
  case afterClassBlank =>
    split at h
    · rename_i hk
      cases h
      exact ⟨beq_iff_eq.mp hk, rfl⟩
    · cases h
  all_goals (repeat' split at h) <;> cases h

theorem isName_of_mem_run {s : LexState} {t : Text} {ts : List Token} (h : Lexes s t ts) (st : State) :
    ∀ found ∈ run st ts, IsName found.name := by
  induction h generalizing st with
  | done s => simp [run]
  | step s c r ts _ ih =>
    intro found hmem
    rw [run_cons] at hmem
    rcases List.mem_append.mp hmem with hmem | hmem
    · obtain ⟨hkind, hname⟩ := identifier_of_step (Option.mem_toList.mp hmem)
      rw [hname]
      exact (isName_of_kind rfl hkind).1
    · exact ih _ found hmem

/-- A class that is found in a source has a name. -/
theorem isName_of_mem_classes {source : Text} {c : FoundClass} (h : c ∈ classes (tokenize source)) :
    IsName c.name :=
  isName_of_mem_run (lexes_tokenize source) .start c h

end ClassOutline.Discovery
