import ClassOutline.Proofs.Plain.Expressions
import ClassOutline.Proofs.Plain.Imports
/-
  ClassOutline.Proofs.Plain.Statements — statements are sound, however deep they nest.

  Definitions of namespaces are statements too, but no lawful node: those that stand under
  the root are laid over their tokens apart from everything else.
-/

namespace ClassOutline.Plain

open ClassOutline.Text ClassOutline.Tree ClassOutline.Discovery Reader

variable {source : Text} {n : Nested} {b b' : Bool} {ts mid rest : List Token} {t : Token} {ns ms : List Node}
  {r : Reader} {rs : List Reader} {kind : Kind}

section

variable (hn : n.IsSound source)

include hn

/-! ## Control flow -/

theorem sound_sequence : Sound source (sequence n) := by
  have hupTo : ∀ fuel, Sound source (sequenceUpTo n fuel) := by
    intro fuel
    induction fuel with
    | zero => exact fun _ _ _ hr => by cases hr
    | succ fuel ih =>
      intro ts ns rest hr
      rw [sequenceUpTo] at hr
      split at hr
      · rename_i ms mid hfirst
        have hcomma : Sound source (seq [comma, sequenceUpTo n fuel]) := .seq ⟨.mark rfl, ih⟩
        split at hr
        · exact reads_attach (hn.expression 0 _ _ _ hfirst) (hcomma _) hr
        · cases hr
          exact hn.expression 0 _ _ _ hfirst
      · cases hr
  exact fun ts => hupTo _ ts

theorem sound_loopBody : Sound source (loopBody n) := .except hn.statement

theorem sound_ifBody : Sound source (ifBody n) := .given hn.statement

theorem sound_ifStatement : Sound source (ifStatement n) :=
  .phrase ⟨.word rfl, sound_parenthesized hn, sound_ifBody hn,
    .many (.phrase ⟨.word rfl, sound_parenthesized hn, sound_ifBody hn⟩),
    .opt (.phrase ⟨.word rfl, sound_loopBody hn⟩)⟩

theorem sound_caseStatements : Sound source (caseStatements n) := .many hn.statement

theorem sound_switchCase : Sound source (switchCase n) :=
  .either (.phrase ⟨.word rfl, hn.expression 0, .mark rfl, sound_caseStatements hn⟩)
    (.phrase ⟨.word rfl, .mark rfl, sound_caseStatements hn⟩)

theorem sound_switchStatement : Sound source (switchStatement n) :=
  .phrase ⟨.word rfl, sound_parenthesized hn, .phrase ⟨.mark rfl, .many (sound_switchCase hn), .mark rfl⟩⟩

theorem sound_forStatement : Sound source (forStatement n) :=
  .phrase ⟨.word rfl, .mark rfl, .opt (sound_sequence hn), .mark rfl, .opt (sound_sequence hn), .mark rfl,
    .opt (sound_sequence hn), .mark rfl, sound_loopBody hn⟩

theorem sound_loopVariable : Sound source (loopVariable n) := .either (sound_byReference hn) (.except (hn.expression 0))

theorem sound_loopTarget : Sound source (loopTarget n) := by
  intro ts ns rest hr
  rw [loopTarget] at hr
  split at hr
  · rename_i ms mid hfirst
    have harrow : Sound source (seq [mark ['=', '>'], loopVariable n]) := .seq ⟨.mark rfl, sound_loopVariable hn⟩
    split at hr
    · split at hr
      · cases hr
      · exact reads_attach (sound_loopVariable hn _ _ _ hfirst) (harrow _) hr
    · cases hr
      exact sound_loopVariable hn _ _ _ hfirst
  · cases hr

theorem sound_foreachStatement : Sound source (foreachStatement n) :=
  .phrase ⟨.word rfl, .mark rfl, hn.expression 0, .word rfl, sound_loopTarget hn, .mark rfl, sound_loopBody hn⟩

theorem sound_whileStatement : Sound source (whileStatement n) :=
  .phrase ⟨.word rfl, sound_parenthesized hn, sound_loopBody hn⟩

theorem sound_doStatement : Sound source (doStatement n) :=
  .phrase ⟨.word rfl, sound_loopBody hn, .word rfl, sound_parenthesized hn, .mark rfl⟩

theorem sound_catchClause : Sound source (catchClause n) := by
  have hpath : Sound source (given nextPath (phrase [path])) := fun ts =>
    .either (fun h => .node rfl ((soundAt_path h).seq_cons .seq_nil)) fun _ => SoundFrom.refuse ts
  exact .phrase ⟨.word rfl, .mark rfl, .node rfl (.separated rfl hpath), .opt .simpleVariable, .mark rfl,
    sound_compound hn⟩

theorem sound_handler : Sound source (handler n) :=
  .either (sound_catchClause hn) (.phrase ⟨.word rfl, sound_compound hn⟩)

theorem sound_tryStatement : Sound source (tryStatement n) :=
  .phrase ⟨.word rfl, sound_compound hn, sound_handler hn, .many (sound_handler hn)⟩

/-! ## Simple statements -/

omit hn in
theorem sound_declareStatement : Sound source declareStatement := by
  have hdirective : Sound source (leaf (fun t => directives.contains t.text) fun t => .token t.text) :=
    .leaf (fun _ h => by cases h) fun t hreal h => isHarmless_of_mem directives (by decide) hreal (List.contains_iff_mem.mp h)
  have hinteger : Sound source (leaf (fun t => t.lexeme == .integer) fun _ => integerKind) :=
    .leaf (fun _ h => by cases h) fun t _ h => by rw [Token.isHarmless, beq_iff_eq.mp h]
  exact .phrase ⟨.word rfl, .mark rfl, .phrase ⟨hdirective, .mark rfl, hinteger⟩, .mark rfl, .mark rfl⟩

theorem sound_jump {w : Word} (hw : (w != .class_ && w != .namespace_) = true) : Sound source (jump n w) :=
  .phrase ⟨.word hw, .opt (hn.expression 0), .mark rfl⟩

theorem sound_place : Sound source (place n) := by
  intro ts ns rest hr
  rw [place] at hr
  split at hr
  · rename_i c hchain
    split at hr
    · cases hr
      exact reads_chain hn (SoundFrom.simpleVariable _) hchain
    · cases hr
  · cases hr

theorem sound_unsetStatement : Sound source (unsetStatement n) := by
  have hword : Sound source (leaf isUnset wordKind) :=
    .leaf wordKind_ne fun t hreal h =>
      isHarmless_of_mem [['u', 'n', 's', 'e', 't']] (by decide) hreal (by simpa [isUnset] using h)
  exact .phrase ⟨hword, .mark rfl, .except (.listed (sound_place hn)), .mark rfl, .mark rfl⟩

theorem sound_staticDeclaration : Sound source (staticDeclaration n) :=
  .phrase ⟨.word rfl, .separated rfl (.phrase ⟨.simpleVariable, .opt (.seq ⟨.mark rfl, hn.expression 0⟩)⟩), .mark rfl⟩

omit hn in
theorem sound_globalDeclaration : Sound source globalDeclaration :=
  .phrase ⟨.word rfl, .separated rfl .simpleVariable, .mark rfl⟩

theorem sound_constStatement : Sound source (constStatement n) := .node rfl (sound_constRest hn)

theorem sound_expressionStatement : Sound source (expressionStatement n) :=
  .phrase ⟨sound_expressionAt hn 0, .mark rfl⟩

/-! ## Choosing -/

omit hn in
/-- The definition of a namespace is no lawful node. -/
theorem sound_namespaceDefinition : Sound source (namespaceDefinition n) := by
  intro ts ns rest hr hlawful
  obtain ⟨ms, hms, rfl⟩ := map_eq_some hr
  obtain ⟨keyword, mid, behind, hkeyword, -, rfl⟩ := seq_cons_eq_some hms
  obtain ⟨k, rfl, hk, rfl⟩ := leaf_eq_some hkeyword
  have hextra : (Node.leaf (wordKind k) none k.span).isExtra = false := by
    rw [Node.leaf, Node.isExtra, wordKind, isWord_iff.mp hk]
    rfl
  rcases group_eq .namespaceDefinition none (k.nodes (wordKind k) ++ behind) with ⟨hnil, -⟩ | ⟨first, last, -, -, -, he⟩
  · rw [Token.nodes, List.append_assoc, List.singleton_append, (extras_append_cons hextra _ _).2] at hnil
    simp at hnil
  · rw [he, areLawful_append, areLawful_cons, isLawful] at hlawful
    simp at hlawful

theorem sound_wordStatement (w : Word) : Sound source (wordStatement n w) := by
  intro ts ns rest hr
  unfold wordStatement at hr
  split at hr
  · exact SoundFrom.given sound_namespaceDefinition _ _ _ hr
  · exact sound_useDeclaration _ _ _ hr
  · exact sound_ifStatement hn _ _ _ hr
  · exact sound_switchStatement hn _ _ _ hr
  · exact sound_forStatement hn _ _ _ hr
  · exact sound_foreachStatement hn _ _ _ hr
  · exact sound_whileStatement hn _ _ _ hr
  · exact sound_doStatement hn _ _ _ hr
  · exact sound_tryStatement hn _ _ _ hr
  · exact sound_declareStatement _ _ _ hr
  · exact sound_jump hn rfl _ _ _ hr
  · exact sound_jump hn rfl _ _ _ hr
  · exact sound_jump hn rfl _ _ _ hr
  · have hecho : Sound source (phrase [word .echo_, sequence n, semicolon]) :=
      .phrase ⟨.word rfl, sound_sequence hn, .mark rfl⟩
    exact hecho _ _ _ hr
  · exact sound_unsetStatement hn _ _ _ hr
  · exact sound_globalDeclaration _ _ _ hr
  · exact sound_constStatement hn _ _ _ hr
  · exact sound_declaration hn _ _ _ hr
  · exact sound_declaration hn _ _ _ hr
  · exact sound_declaration hn _ _ _ hr
  · exact sound_declaration hn _ _ _ hr
  · exact sound_declaration hn _ _ _ hr
  · exact sound_declaration hn _ _ _ hr
  · exact sound_declaration hn _ _ _ hr
  · split at hr
    · exact sound_declaration hn _ _ _ hr
    · exact sound_expressionStatement hn _ _ _ hr
  · split at hr
    · exact sound_staticDeclaration hn _ _ _ hr
    · exact sound_expressionStatement hn _ _ _ hr
  · exact sound_expressionStatement hn _ _ _ hr

theorem sound_statementOf : Sound source (statementOf n) := by
  intro ts ns rest hr
  unfold statementOf at hr
  split at hr
  · split at hr
    · exact sound_wordStatement hn _ _ _ _ hr
    · have hempty : Sound source (phrase [semicolon]) := .phrase (.mark rfl)
      split at hr
      · exact hempty _ _ _ hr
      · split at hr
        · exact sound_compound hn _ _ _ hr
        · split at hr
          · exact sound_declaration hn _ _ _ hr
          · exact sound_expressionStatement hn _ _ _ hr
    · exact sound_expressionStatement hn _ _ _ hr
  · cases hr

end

theorem isSound_nested (depth : Nat) : (nested depth).IsSound source := by
  induction depth with
  | zero => exact ⟨fun _ => .refuse, .refuse⟩
  | succ depth ih => exact ⟨sound_expressionAt ih, sound_statementOf ih⟩

end ClassOutline.Plain
