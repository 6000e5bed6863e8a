import ClassOutline.Proofs.Lexing.Boundaries
import ClassOutline.Proofs.Paths
import Mathlib.Data.List.Infix
/-
  ClassOutline.Proofs.Hidden — what literals and comments hold is hidden from discovery.

  Two sources that differ in nothing but what a quoted literal or a block comment holds have
  the same classes in the same namespaces (`entries_of_contents`). If the lexer comes to the
  literal in both, the tokens before it are the same in both (`Lexes.shared`). The automaton
  takes no notice of the texts of literals and comments (`step_of_holds`). Behind them the
  lexer goes on alike: no literal is an operator, and comments are trivia.
-/

namespace ClassOutline.Token

open ClassOutline.Text

/-! ## Tokens that hold text -/

/-- Two literals, or two comments. -/
inductive Holds : Kind → Kind → Prop
  | literal : Holds .stringLiteral .stringLiteral
  | comment (k k' : Kind) (hk : k = .comment ∨ k = .docComment) (hk' : k' = .comment ∨ k' = .docComment) : Holds k k'

def quoted (s : Text) : Text := '\'' :: (s ++ ['\''])

def commented (s : Text) : Text := '/' :: '*' :: (s ++ ['*', '/'])

theorem lexeme_quoted {s : LexState} (hs : s.inCode = true) {w : Text} (hw : '\'' ∉ w ∧ '\\' ∉ w) (r : Text) :
    lexeme s '\'' (w ++ ['\''] ++ r) = ⟨.stringLiteral, (quoted w).length⟩ := by
  have hne : ∀ c ∈ w, c ≠ '\\' ∧ c ≠ '\'' := fun c hc => ⟨fun he => hw.2 (he ▸ hc), fun he => hw.1 (he ▸ hc)⟩
  have hclose : quotedTailLength '\\' '\'' ('\'' :: r) = 1 := by
    cases r <;> rfl
  have hlength : quotedLength '\\' ('\'' :: (w ++ '\'' :: r)) = (quoted w).length := by
    rw [quotedLength, quotedTailLength_append_of_ne hne, hclose, quoted, List.length_cons, List.length_append]
    exact Nat.add_comm 1 _
  rw [List.append_assoc, List.singleton_append, ← hlength, lexeme, if_pos hs]
  rfl

/-- A text without the mark that ends a comment is all that stands before the mark. -/
theorem beforeFirst?_commentEnd {w : Text} (hw : contains "*/".toList w = false) (r : Text) :
    beforeFirst? "*/".toList (w ++ '*' :: '/' :: r) = some w := by
  induction w with
  | nil => rfl
  | cons c w ih =>
    have hcons : beforeFirst? "*/".toList (c :: w) = none := by simpa [contains] using hw
    rw [beforeFirst?_cons] at hcons
    split at hcons
    · cases hcons
    · rename_i hstart
      have hrest : contains "*/".toList w = false := by
        rw [contains, Option.map_eq_none_iff.mp hcons]
        rfl
      -- the star that follows the text is not the slash behind one of its own
      have hstart' : ¬ startsWith (c :: (w ++ '*' :: '/' :: r)) "*/".toList = true := by
        intro h
        obtain ⟨u, hu⟩ := startsWith_iff.mp h
        obtain ⟨rfl, hw'⟩ := List.cons.inj hu
        cases w with
        | nil => cases hw'
        | cons d w =>
          obtain ⟨rfl, -⟩ := List.cons.inj hw'
          exact hstart rfl
      rw [List.cons_append, beforeFirst?_cons, if_neg hstart', ih hrest, Option.map_some]

theorem lexeme_commented {s : LexState} (hs : s.inCode = true) {w : Text} (hw : contains "*/".toList w = false) (r : Text) :
    ∃ kind, (kind = .comment ∨ kind = .docComment) ∧
      lexeme s '/' ('*' :: (w ++ ['*', '/']) ++ r) = ⟨kind, (commented w).length⟩ := by
  have hlength : blockCommentLength ('/' :: '*' :: (w ++ '*' :: '/' :: r)) = (commented w).length := by
    have hfirst : beforeFirst? "*/".toList (('/' :: '*' :: (w ++ '*' :: '/' :: r)).drop 2) = some w :=
      beforeFirst?_commentEnd hw r
    rw [blockCommentLength, hfirst, commented]
    simp
  refine ⟨if isDocComment ('/' :: '*' :: (w ++ '*' :: '/' :: r)) then .docComment else .comment, ?_, ?_⟩
  · split
    · exact Or.inr rfl
    · exact Or.inl rfl
  · rw [List.cons_append, List.append_assoc, List.cons_append, List.singleton_append, ← hlength, lexeme, if_pos hs]
    rfl

/-- Whatever two such tokens hold, if it is no operator, words behind them are sorted alike. -/
theorem Holds.alike_next {k k' : Kind} (h : Holds k k') (s : LexState) {t t' : Text}
    (ht : nameOperators.contains t = false) (ht' : nameOperators.contains t' = false) :
    (s.next ⟨k, t, s.line⟩).Alike (s.next ⟨k', t', s.line⟩) := by
  cases h with
  | literal =>
    refine ⟨rfl, ?_⟩
    show (some t).any nameOperators.contains = (some t').any nameOperators.contains
    rw [Option.any_some, Option.any_some, ht, ht']
  | comment k k' hk hk' =>
    rcases hk with rfl | rfl <;> rcases hk' with rfl | rfl <;> exact ⟨rfl, rfl⟩

end ClassOutline.Token

namespace ClassOutline.Discovery

open ClassOutline.Text ClassOutline.Token

/-- A token of the text ends with `before`, and it is code that follows. -/
def ComesTo (before rest : Text) : Prop :=
  ∃ ts ∈ (tokenize (before ++ rest)).inits, textOf ts = before ∧ (LexState.start.afterAll ts).inCode = true

instance (before rest : Text) : Decidable (ComesTo before rest) :=
  inferInstanceAs (Decidable (∃ ts ∈ (tokenize (before ++ rest)).inits, _ ∧ _))

/-! ## The automaton -/

theorem step_of_holds (s : State) {tok tok' : Token} (h : Holds tok.kind tok'.kind) :
    step s tok = step s tok' := by
  obtain ⟨k, t, l⟩ := tok
  obtain ⟨k', t', l'⟩ := tok'
  obtain ⟨progress, scope⟩ := s
  cases h with
  | literal => cases progress <;> rfl
  | comment k k' hk hk' =>
    rcases hk with rfl | rfl <;> rcases hk' with rfl | rfl <;> cases progress <;> rfl

theorem entries_of_holds (s : State) {tok tok' : Token} (h : Holds tok.kind tok'.kind) {us us' : List Token}
    (hus : us.map bare = us'.map bare) : (run s (tok :: us)).map entry = (run s (tok' :: us')).map entry := by
  rw [run_cons, run_cons, step_of_holds s h, List.map_append, List.map_append, entries_bare _ hus]

/-! ## Two sources -/

/-- Two texts between the same two texts, each read as one token that holds text. -/
theorem entries_of_framed {before behind t t' : Text} {c : Char} (hx : ComesTo before (c :: (t ++ behind)))
    (hy : ComesTo before (c :: (t' ++ behind))) (hop : ∀ u, nameOperators.contains (c :: u) = false)
    (hlex : ∀ s : LexState, s.inCode = true → ∃ k k', Holds k k' ∧
      lexeme s c (t ++ behind) = ⟨k, (c :: t).length⟩ ∧ lexeme s c (t' ++ behind) = ⟨k', (c :: t').length⟩) :
    (classes (tokenize (before ++ c :: (t ++ behind)))).map entry =
      (classes (tokenize (before ++ c :: (t' ++ behind)))).map entry := by
  obtain ⟨ts, hts, htext, hcode⟩ := hx
  obtain ⟨ts', hts', htext', -⟩ := hy
  obtain ⟨us, hus⟩ := (List.mem_inits ts _).mp hts
  obtain ⟨us', hus'⟩ := (List.mem_inits ts' _).mp hts'
  have hrun := lexes_tokenize (before ++ c :: (t ++ behind))
  have hrun' := lexes_tokenize (before ++ c :: (t' ++ behind))
  rw [← hus] at hrun ⊢
  rw [← hus'] at hrun' ⊢
  rw [← htext] at hrun
  rw [← htext'] at hrun'
  obtain ⟨rfl, hat, hat'⟩ := hrun.shared hrun' (htext'.trans htext.symm)
  -- both runs are at the token now, in the same state
  generalize LexState.start.afterAll ts' = s at hcode hat hat'
  obtain ⟨k, k', hholds, hk, hk'⟩ := hlex s hcode
  have hbehind := lexes_lexFrom (Nat.le_refl behind.length) (s.next ⟨k, c :: t, s.line⟩)
  have hbehind' := lexes_lexFrom (Nat.le_refl behind.length) (s.next ⟨k', c :: t', s.line⟩)
  have htokens := hat.unique (Lexes.cons hk hbehind)
  have htokens' := hat'.unique (Lexes.cons hk' hbehind')
  have hsame := hbehind.alike hbehind' (hholds.alike_next s (hop t) (hop t'))
  rw [classes, classes, run_append, run_append, List.map_append, List.map_append, htokens, htokens']
  exact congrArg _ (entries_of_holds _ hholds hsame)

/-- What a quoted literal or a block comment holds never changes what is found: neither before
    it nor behind it. -/
theorem entries_of_contents (before behind : Text) :
    (∀ s s' : Text, ('\'' ∉ s ∧ '\\' ∉ s) → ('\'' ∉ s' ∧ '\\' ∉ s') →
      ComesTo before (quoted s ++ behind) → ComesTo before (quoted s' ++ behind) →
      (classes (tokenize (before ++ (quoted s ++ behind)))).map entry =
        (classes (tokenize (before ++ (quoted s' ++ behind)))).map entry) ∧
    (∀ s s' : Text, contains "*/".toList s = false → contains "*/".toList s' = false →
      ComesTo before (commented s ++ behind) → ComesTo before (commented s' ++ behind) →
      (classes (tokenize (before ++ (commented s ++ behind)))).map entry =
        (classes (tokenize (before ++ (commented s' ++ behind)))).map entry) := by
  constructor
  · intro s s' hs hs' hx hy
    refine entries_of_framed hx hy (fun _ => rfl) fun st hst => ?_
    exact ⟨_, _, Holds.literal, lexeme_quoted hst hs behind, lexeme_quoted hst hs' behind⟩
  · intro s s' hs hs' hx hy
    refine entries_of_framed hx hy (fun _ => rfl) fun st hst => ?_
    obtain ⟨k, hk, hlex⟩ := lexeme_commented hst hs behind
    obtain ⟨k', hk', hlex'⟩ := lexeme_commented hst hs' behind
    exact ⟨k, k', Holds.comment k k' hk hk', hlex, hlex'⟩

/-- Behind a nowdoc and an operator, with a class in the literal, and in the comment behind a
    namespace that has no name yet. -/
theorem entries_of_contents_sample :
    (classes (tokenize ("<?php $a = <<<'b'\nclass C\nb . ".toList ++ (quoted "class D {}".toList ++ "; class E {}".toList)))).map entry =
      (classes (tokenize ("<?php $a = <<<'b'\nclass C\nb . ".toList ++ (quoted [] ++ "; class E {}".toList)))).map entry ∧
    (classes (tokenize ("<?php namespace ".toList ++ (commented "* class D".toList ++ "A; class B {}".toList)))).map entry =
      (classes (tokenize ("<?php namespace ".toList ++ (commented "/".toList ++ "A; class B {}".toList)))).map entry :=
  ⟨(entries_of_contents _ _).1 _ _ (by decide) (by decide) (by decide +kernel) (by decide +kernel),
    (entries_of_contents _ _).2 _ _ (by decide) (by decide) (by decide +kernel) (by decide +kernel)⟩

end ClassOutline.Discovery
