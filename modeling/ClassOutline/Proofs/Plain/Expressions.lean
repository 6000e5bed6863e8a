import ClassOutline.Proofs.Plain.Members
/-
  ClassOutline.Proofs.Plain.Expressions — expressions are sound.

  What has been read of a chain is a reading that the rest is appended to. The word `class`
  comes up twice: behind a double colon, where it is a name, and in a class without a name,
  where it is quiet because what follows it is no name.
-/

namespace ClassOutline.Plain

open ClassOutline.Text ClassOutline.Tree ClassOutline.Discovery Reader

variable {source : Text} {n : Nested} {b b' : Bool} {ts mid rest : List Token} {t : Token} {ns ms : List Node}
  {r : Reader}

/-! ## Operators -/

theorem operatorLevel?_word {w : Word} (hl : t.lexeme = .word w) (h : (operatorLevel? t).isSome = true) :
    (w != .class_ && w != .namespace_) = true := by
  unfold operatorLevel? at h
  rw [hl] at h
  cases w <;> first | rfl | cases h

theorem isHarmless_of_operatorLevel? (h : (operatorLevel? t).isSome = true) : t.isHarmless = true := by
  unfold Token.isHarmless
  split
  · rename_i hl
    rw [operatorLevel?, hl] at h
    cases h
  · rename_i w hl
    exact operatorLevel?_word hl h
  · rename_i hl
    cases hc : Token.nameOperators.contains t.text with
    | false => rfl
    | true =>
      unfold operatorLevel? at h
      rw [hl] at h
      have hmem := List.contains_iff_mem.mp hc
      simp only [Token.nameOperators, List.mem_cons, List.not_mem_nil, or_false] at hmem
      rcases hmem with he | he | he | he <;> · rw [he] at h; cases h
  · rfl

theorem operator_kind_ne (t : Token) :
    (match t.lexeme with | .mark => Kind.token t.text | _ => wordKind t) ≠ .classDeclaration := by
  split
  · exact fun h => by cases h
  · exact wordKind_ne t

theorem sound_operator : Sound source operator := .leaf operator_kind_ne fun _ _ => isHarmless_of_operatorLevel?

/-- A mark that is no operator for names. -/
theorem soundAt_anyMark (h : ∀ t ∈ ts.head?, Token.nameOperators.contains t.text = false) :
    SoundAt source b false anyMark ts := by
  refine .leaf (fun _ h => by cases h) fun t ht _ hmark => ?_
  exact isHarmless_of_isMark (h t ht) hmark

theorem text_of_next (ms : List Text) (hms : ms.all (!Token.nameOperators.contains ·) = true)
    (h : next (fun t => ms.any t.isMark) ts = true) : ∀ t ∈ ts.head?, Token.nameOperators.contains t.text = false := by
  intro t ht
  cases ts with
  | nil => cases ht
  | cons u ts =>
    cases ht
    obtain ⟨m, hm, hmark⟩ := List.any_eq_true.mp h
    rw [(isMark_iff.mp hmark).2]
    exact (Bool.not_eq_true' _).mp (List.all_eq_true.mp hms m hm)

theorem text_of_nextUpdate (h : nextUpdate ts = true) : ∀ t ∈ ts.head?, Token.nameOperators.contains t.text = false := by
  refine text_of_next [['+', '+'], ['-', '-']] rfl ?_
  simpa [nextUpdate, next, List.any] using h

/-! ## Chains -/

/-- What goes on behind a reading is put into a phrase with it. -/
theorem reads_attach {left : List Node} (hl : ReadsFrom source b b' ts left mid) (hr : SoundAt source b' false r mid)
    (h : attach left r mid = some (ns, rest)) : ReadsFrom source b false ts ns rest := by
  obtain ⟨ms, hms, rfl⟩ := map_eq_some (f := fun ns => group .phrase none (left ++ ns)) h
  exact (hl.append (hr _ _ hms)).group rfl

def ReadsChain (source : Text) (ts : List Token) (c : Chain) : Prop := Reads source ts c.nodes c.rest

theorem reads_alone {c : Chain} (hr : SoundAt source false false r ts) (h : alone r ts = some c) : ReadsChain source ts c := by
  obtain ⟨⟨ns, rest⟩, hns, rfl⟩ := Option.map_eq_some_iff.mp h
  exact hr _ _ hns

section

variable (hn : n.IsSound source)

include hn

theorem sound_memberName : SoundFrom source true false (memberName n) :=
  .either .simpleVariable (.either (.seq_cons (.mark rfl) (.seq ⟨hn.expression 0, .mark rfl⟩))
    (.either (sound_relative rfl) .name))

theorem sound_access {operator : Text} (ho : Token.nameOperators.contains operator = true) {member : Reader}
    (hm : SoundFrom source true false member) : Sound source (access n operator member) :=
  .seq_cons (.operator ho) (.seq_cons hm (.seq (.opt (sound_arguments hn))))

theorem sound_subscript :
    Sound source (seq [mark ['['], opt (fun ts => !nextMark [']'] ts) (n.expression 0), mark [']']]) :=
  .seq ⟨.mark rfl, .opt (hn.expression 0), .mark rfl⟩

theorem reads_chainFrom {fuel : Nat} {c c' : Chain} (hc : ReadsChain source ts c) (h : chainFrom n fuel c = some c') :
    ReadsChain source ts c' := by
  induction fuel generalizing c with
  | zero => cases h
  | succ fuel ih =>
    have go : ∀ {isPlace : Bool} {r : Reader} {ns : List Node} {mid : List Token}, Sound source r →
        attach c.nodes r c.rest = some (ns, mid) → chainFrom n fuel ⟨ns, isPlace, mid⟩ = some c' →
          ReadsChain source ts c' := fun hr hattach hrest => ih (reads_attach hc (hr _) hattach) hrest
    rw [chainFrom] at h
    dsimp only at h
    split at h
    · split at h
      · rename_i hattach
        exact go (sound_access hn rfl (sound_memberName hn)) hattach h
      · cases h
    · split at h
      · split at h
        · rename_i hattach
          exact go (sound_access hn rfl (sound_memberName hn)) hattach h
        · cases h
      · split at h
        · split at h
          · rename_i hattach
            exact go (sound_subscript hn) hattach h
          · cases h
        · split at h
          · split at h
            · rename_i hattach
              exact go (sound_arguments hn) hattach h
            · cases h
          · split at h
            · split at h
              · rename_i hattach
                exact go (sound_access hn rfl (.except (sound_memberName hn))) hattach h
              · cases h
            · cases h
              exact hc

theorem reads_chain {isPlace : Bool} {first : Reader} {c : Chain} (hf : SoundAt source false false first ts)
    (h : chain n isPlace first ts = some c) : ReadsChain source ts c := by
  rw [chain] at h
  split at h
  · rename_i ns rest hfirst
    exact reads_chainFrom hn (hf _ _ hfirst) h
  · cases h

/-! ## Operands -/

theorem sound_parenthesized : Sound source (parenthesized n) := .except (.phrase ⟨.mark rfl, hn.expression 0, .mark rfl⟩)

theorem sound_byReference : Sound source (byReference n) := by
  intro ts ns rest hr
  rw [byReference] at hr
  split at hr
  · rename_i ms mid hmark
    split at hr
    · rename_i c hchain
      split at hr
      · cases hr
        have hc := reads_chain hn (SoundFrom.simpleVariable _) hchain
        exact ((SoundFrom.mark rfl _ _ _ hmark).append hc).group rfl
      · cases hr
    · cases hr
  · cases hr

theorem sound_elementValue : Sound source (elementValue n) := .either (sound_byReference hn) (hn.expression 0)

theorem sound_element : Sound source (element n) :=
  .phrase (.either (.phrase ⟨.mark rfl, hn.expression 0⟩)
    (.seq ⟨sound_elementValue hn, .opt (.seq ⟨.mark rfl, sound_elementValue hn⟩)⟩))

theorem sound_array : Sound source (array_ n) :=
  .either (.phrase ⟨.mark rfl, .listed (sound_element hn), .mark rfl⟩)
    (.phrase ⟨.word rfl, .mark rfl, .listed (sound_element hn), .mark rfl⟩)

omit hn in
theorem sound_captures : Sound source captures :=
  .opt (.phrase ⟨.word rfl, .mark rfl,
    .except (.listed (.either (.phrase ⟨.mark rfl, .simpleVariable⟩) .simpleVariable)), .mark rfl⟩)

theorem sound_closure : Sound source (closure n) :=
  .phrase ⟨.opt (.node rfl (.word rfl)),
    .either (.seq ⟨.word rfl, sound_reference, sound_parameters hn, sound_returnType, .mark rfl, hn.expression 0⟩)
      (.seq ⟨.word rfl, sound_reference, sound_parameters hn, sound_captures, sound_returnType, sound_compound hn⟩)⟩

omit hn in
theorem sound_classReference : Sound source classReference := .either (.except .simpleVariable) sound_className

end

/-! ## Classes without a name -/

/-- What goes on behind the keyword of a class without a name. -/
def Clause (ts : List Token) : Prop :=
  ∃ t r, ts = t :: r ∧ (t.lexeme = .mark ∨ t.lexeme = .word .extends_ ∨ t.lexeme = .word .implements_)

theorem starts_mark_clause {m : Text} : Starts Clause (mark m) := by
  intro ts ns rest hr
  obtain ⟨t, rfl, ht, -⟩ := leaf_eq_some hr
  exact ⟨t, rest, rfl, Or.inl (isMark_iff.mp ht).1⟩

theorem starts_word_clause {w : Word} (hw : w = .extends_ ∨ w = .implements_) : Starts Clause (word w) := by
  intro ts ns rest hr
  obtain ⟨t, rfl, ht, -⟩ := leaf_eq_some hr
  refine ⟨t, rest, rfl, Or.inr ?_⟩
  rw [isWord_iff.mp ht]
  rcases hw with rfl | rfl
  · exact Or.inl rfl
  · exact Or.inr rfl

theorem starts_clauses :
    Starts Clause (seq [opt (nextMark ['(']) (arguments n), extending, implementing, classBody n]) :=
  .opt (.node (.seq starts_mark_clause)) (.opt (.node (.seq (starts_word_clause (Or.inl rfl))))
    (.opt (.node (.seq (starts_word_clause (Or.inr rfl)))) (.seq (.node (.seq starts_mark_clause)))))

/-- A clause shuts a keyword off, which therefore finds no class. -/
theorem begins_of_clause {previous : Option Text} {stop : Nat} {p : Placed} {ps : List Placed}
    (h : Under source previous stop rest ps) (hprevious : behindOperator previous = false) (hclause : Clause rest)
    (hp : p.token.kind = .classKeyword) : begins (tokensOf (p :: ps)) = false := by
  obtain ⟨t, r, rfl, hl⟩ := hclause
  have hne : t.lexeme ≠ .finish := by rcases hl with hl | hl | hl <;> simp [hl]
  obtain ⟨gap, q, qs, rfl, hgap, hfit, hq⟩ := h.first hne
  have hkind : q.token.kind = .nsSeparator ∨ q.token.kind = .punct ∨ q.token.kind = .keyword := by
    rw [hq.kind, Token.shownAs]
    rcases hl with hl | hl | hl
    · rw [hl]
      dsimp only
      split
      · exact Or.inl rfl
      · exact Or.inr (Or.inl rfl)
    · rw [hl]
      exact Or.inr (Or.inr (ofWord_clause hprevious (hfit.folds_of_word hl) (Or.inl rfl) (hfit.isWord _ hl)))
    · rw [hl]
      exact Or.inr (Or.inr (ofWord_clause hprevious (hfit.folds_of_word hl) (Or.inr rfl) (hfit.isWord _ hl)))
  have hnamed : namedBy? [] (tokensOf (gap ++ q :: qs)) = none := by
    refine namedBy?_eq_none hgap ?_ _ _
    rcases hkind with h | h | h <;> simp [h]
  rw [tokensOf_cons, begins, classHere?, opening?, hnamed]
  simp [hp]

/-- The keyword of a class without a name. -/
theorem reads_keyword (hl : t.lexeme = .word .class_) (hclause : Clause rest) {kind : Kind}
    (hkind : kind ≠ .classDeclaration) : Reads source (t :: rest) (t.nodes kind) rest := by
  have hm : t.lexeme ≠ .mark := by simp [hl]
  refine reads_nodes hkind (by simp [hl]) (fun hfit => hfit.calm hm) fun previous p ps hb hfit hp hu => ?_
  refine begins_of_clause hu (hfit.calm hm) hclause ?_
  rw [hp.kind, Token.shownAs, hl]
  exact ofWord_class hb (hfit.folds_of_word hl) (hfit.isWord _ hl)

section

variable (hn : n.IsSound source)

include hn

theorem sound_anonymousClass : Sound source (anonymousClass n) := by
  refine .node rfl fun ts ns rest hr => ?_
  obtain ⟨ns₁, mid, ns₂, hword, hbehind, rfl⟩ := seq_cons_eq_some hr
  obtain ⟨t, rfl, ht, rfl⟩ := leaf_eq_some hword
  have hsound : Sound source (seq [opt (nextMark ['(']) (arguments n), extending, implementing, classBody n]) :=
    .seq ⟨.opt (sound_arguments hn), sound_extending, sound_implementing, sound_classBody hn⟩
  exact (reads_keyword (isWord_iff.mp ht) (starts_clauses _ _ _ hbehind) (wordKind_ne t)).append (hsound _ _ _ hbehind)

theorem sound_creation : Sound source (creation n) :=
  .phrase ⟨.word rfl, .either (sound_anonymousClass hn) (.seq ⟨sound_classReference, .opt (sound_arguments hn)⟩)⟩

/-! ## What operators stand between -/

omit hn in
/-- A word that is not `class` or `namespace`, taken for a name. -/
theorem soundAt_wordName {w : Word} (hw : (w != .class_ && w != .namespace_) = true)
    (h : ∀ t ∈ ts.head?, t.lexeme = .word w) {kind : Kind} (hkind : kind ≠ .classDeclaration) :
    SoundAt source b false (leaf Token.isNameLike fun _ => kind) ts :=
  .leaf (fun _ => hkind) fun t ht _ _ => isHarmless_of_isWord hw (isWord_iff.mpr (h t ht))

theorem reads_wordOperand {w : Word} (hw : ∀ t ∈ ts.head?, t.lexeme = .word w) {c : Chain}
    (h : wordOperand n w ts = some c) : ReadsChain source ts c := by
  unfold wordOperand at h
  split at h
  · exact reads_alone (soundAt_wordName rfl hw (by decide)) h
  · exact reads_alone (soundAt_wordName rfl hw (by decide)) h
  · exact reads_alone (soundAt_wordName rfl hw (by decide)) h
  · exact reads_alone (SoundFrom.given (sound_array hn) _) h
  · exact reads_alone (sound_creation hn _) h
  · exact reads_alone (sound_closure hn _) h
  · exact reads_alone (sound_closure hn _) h
  · split at h
    · exact reads_alone (sound_closure hn _) h
    · split at h
      · exact reads_chain hn (sound_relative rfl _) h
      · cases h
  · split at h
    · exact reads_chain hn (sound_relative rfl _) h
    · cases h
  · split at h
    · exact reads_chain hn (sound_relative rfl _) h
    · cases h
  · cases h

end

theorem soundAt_stringReader (h : ∀ t ∈ ts.head?, t.lexeme = .string) : SoundAt source b false stringReader ts := by
  intro ns rest hr
  cases ts with
  | nil => cases hr
  | cons t ts =>
    cases hr
    exact reads_pieces (Or.inr (h t rfl)) rfl

/-- A number, whatever kind it shows as. -/
theorem soundAt_number (h : ∀ t ∈ ts.head?, t.lexeme = .integer ∨ t.lexeme = .float) {kind : Kind}
    (hkind : kind ≠ .classDeclaration) : SoundAt source b false (leaf (fun _ => true) fun _ => kind) ts := by
  refine .leaf (fun _ => hkind) fun t ht _ _ => ?_
  rw [Token.isHarmless]
  rcases h t ht with hl | hl <;> rw [hl]

section

variable (hn : n.IsSound source)

include hn

theorem reads_primary {c : Chain} (h : primary n ts = some c) : ReadsChain source ts c := by
  unfold primary at h
  split at h
  · rename_i t r
    split at h
    · exact reads_chain hn (SoundFrom.simpleVariable _) h
    · rename_i hl
      refine reads_chain hn (soundAt_path ?_) h
      rw [nextPath, next, isProperName, hl, Bool.true_or]
    · rename_i hl
      exact reads_alone (soundAt_number (fun u hu => by cases hu; exact Or.inl hl) (by decide)) h
    · rename_i hl
      exact reads_alone (soundAt_number (fun u hu => by cases hu; exact Or.inr hl) (by decide)) h
    · rename_i hl
      exact reads_alone (soundAt_stringReader fun u hu => by cases hu; exact hl) h
    · rename_i w hl
      exact reads_wordOperand hn (fun u hu => by cases hu; exact hl) h
    · split at h
      · exact reads_chain hn (sound_parenthesized hn _) h
      · split at h
        · exact reads_alone (sound_array hn _) h
        · split at h
          · rename_i hseparator
            refine reads_chain hn (soundAt_path ?_) h
            rw [nextPath, nextSeparator, nextMark, next, next, hseparator, Bool.or_true]
          · cases h
    · cases h
  · cases h

omit hn in
theorem reads_instanceTest {c : Chain} (hc : ReadsChain source ts c) (h : instanceTest c = some (ns, rest)) :
    Reads source ts ns rest := by
  unfold instanceTest at h
  split at h
  · have hsound : Sound source (seq [word .instanceof_, classReference]) := .seq ⟨.word rfl, sound_classReference⟩
    exact reads_attach hc (hsound _) h
  · cases h
    exact hc

omit hn in
theorem text_of_nextAugmentation (h : nextAugmentation ts = true) :
    ∀ t ∈ ts.head?, Token.nameOperators.contains t.text = false := text_of_next augmentations (by decide) h

theorem reads_settle {c : Chain} (hc : ReadsChain source ts c) (h : settle n c = some (ns, rest)) :
    Reads source ts ns rest := by
  unfold settle at h
  split at h
  · rename_i hupdate
    split at h
    · rename_i ms mid hattach
      have hmark : SoundAt source false false anyMark c.rest :=
        soundAt_anyMark (text_of_nextUpdate (Bool.and_eq_true_iff.mp hupdate).2)
      exact reads_instanceTest (c := ⟨ms, false, mid⟩) (reads_attach hc hmark hattach) h
    · cases h
  · split at h
    · have hsound : Sound source (seq [mark ['='], opt (nextMark ['&']) (mark ['&']), n.expression 5]) :=
        .seq ⟨.mark rfl, .opt (.mark rfl), hn.expression 5⟩
      exact reads_attach hc (hsound _) h
    · split at h
      · rename_i haugmentation
        have hmark : SoundAt source false false anyMark c.rest := soundAt_anyMark
          (text_of_nextAugmentation (Bool.and_eq_true_iff.mp haugmentation).2)
        exact reads_attach hc (hmark.seq_cons (.seq_cons (hn.expression 5) .seq_nil)) h
      · exact reads_instanceTest hc h

theorem soundAt_updateBefore (hupdate : nextUpdate ts = true) : SoundAt source false false (updateBefore n) ts := by
  intro ns rest hr
  rw [updateBefore] at hr
  split at hr
  · rename_i ms mid hmark
    split at hr
    · rename_i c hchain
      split at hr
      · cases hr
        have hc := reads_chain hn (SoundFrom.simpleVariable _) hchain
        exact ((soundAt_anyMark (text_of_nextUpdate hupdate) _ _ hmark).append hc).group rfl
      · cases hr
    · cases hr
  · cases hr

theorem sound_clone : Sound source (clone n) := by
  intro ts ns rest hr
  rw [clone] at hr
  split at hr
  · rename_i ms mid hword
    obtain ⟨c, hc, he⟩ := Option.map_eq_some_iff.mp hr
    cases he
    exact ((SoundFrom.word rfl _ _ _ hword).append (reads_primary hn hc)).group rfl
  · cases hr

omit hn in
/-- What is read and then tested for its class. -/
theorem reads_tested {r : Reader} (hr : SoundAt source false false r ts)
    (h : ((r ts).bind fun (ns, ts) => instanceTest ⟨ns, false, ts⟩) = some (ns, rest)) : Reads source ts ns rest := by
  obtain ⟨⟨ms, mid⟩, hms, htest⟩ := Option.bind_eq_some_iff.mp h
  exact reads_instanceTest (c := ⟨ms, false, mid⟩) (hr _ _ hms) htest

omit hn in
/-- A word that takes a whole expression. -/
theorem soundAt_leadingWord (h : nextWordIn leadingWords ts = true) :
    SoundAt source false false (leaf (fun _ => true) wordKind) ts := by
  refine .leaf wordKind_ne fun t ht _ _ => ?_
  cases ts with
  | nil => cases ht
  | cons u ts =>
    cases ht
    exact isHarmless_of_words rfl h

theorem sound_operand : Sound source (operand n) := by
  intro ts ns rest hr
  rw [operand] at hr
  split at hr
  · rename_i hsign
    have htext := text_of_next [['!'], ['-'], ['+'], ['~']] rfl (by
      simpa [next, List.any, Bool.or_assoc] using hsign)
    exact (SoundAt.node rfl ((soundAt_anyMark htext).seq_cons (.seq_cons (hn.expression 20) .seq_nil))) _ _ hr
  · split at hr
    · rename_i hat
      have htext := text_of_next [['@']] rfl (by simpa [nextMark, next, List.any] using hat)
      exact (SoundAt.node rfl ((soundAt_anyMark htext).seq_cons (.seq_cons (hn.expression 22) .seq_nil))) _ _ hr
    · split at hr
      · rename_i hupdate
        exact reads_tested (soundAt_updateBefore hn hupdate) hr
      · split at hr
        · exact reads_tested (sound_clone hn _) hr
        · split at hr
          · rename_i hword
            exact (SoundAt.node rfl ((soundAt_leadingWord hword).seq_cons (.seq_cons (hn.expression 0) .seq_nil))) _ _ hr
          · obtain ⟨c, hc, hsettle⟩ := Option.bind_eq_some_iff.mp hr
            exact reads_settle hn (reads_primary hn hc) hsettle

/-! ## Operators between operands -/

theorem sound_conditionRest : Sound source (conditionRest n) :=
  .seq ⟨.mark rfl, .opt (hn.expression 0), .mark rfl, hn.expression 6⟩

theorem reads_operatorsFrom {level fuel : Nat} {left : List Node} (hl : Reads source ts left mid)
    (h : operatorsFrom n level fuel left mid = some (ns, rest)) : Reads source ts ns rest := by
  induction fuel generalizing left mid with
  | zero => cases h
  | succ fuel ih =>
    rw [operatorsFrom] at h
    split at h
    · rename_i l _
      split at h
      · split at h
        · rename_i ms mid' hattach
          have hsound : Sound source (seq [operator, n.expression (rightLevel l)]) :=
            .seq ⟨sound_operator, hn.expression _⟩
          exact ih (reads_attach hl (hsound _) hattach) h
        · cases h
      · cases h
        exact hl
    · split at h
      · split at h
        · rename_i ms mid' hattach
          exact ih (reads_attach hl (sound_conditionRest hn _) hattach) h
        · cases h
      · cases h
        exact hl

theorem sound_expressionAt (level : Nat) : Sound source (expressionAt n level) := by
  intro ts ns rest hr
  rw [expressionAt] at hr
  split at hr
  · rename_i ms mid hoperand
    exact reads_operatorsFrom hn (sound_operand hn _ _ _ hoperand) hr
  · cases hr

end

end ClassOutline.Plain
