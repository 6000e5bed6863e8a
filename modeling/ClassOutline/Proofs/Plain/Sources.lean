import ClassOutline.Proofs.Plain.Files
import ClassOutline.Proofs.Plain.Tokens
/-
  ClassOutline.Proofs.Plain.Sources — both front ends find the same classes in plain sources.

  The tokens of a plain source lie over those of the lexer, and its statements over its
  tokens, so its tree is laid over it (`laid_of_plain`). Then the classes found in the token
  stream are those the tree declares (`classes_eq_declared_of_plain`). What this takes is
  seen from the tokens and the tree:

    · no token is of a kind that the lexers read differently (`hasCommonTokens`);
    · class-likes and namespaces bear names that are not reserved, and namespaces are defined
      under the root alone (`isLawfulTop`);
    · no class stands behind a braced namespace, where the tree has left it and the token
      stream has not (`isInScope`).

  A string with variables in it is not plain. The lexer may end it at another quote than the
  tree does, and take what is left for code.
-/

namespace ClassOutline.Plain

open ClassOutline.Text ClassOutline.Tree ClassOutline.Discovery Reader
open ClassOutline.Token (LexState tokenize)

variable {source : Text} {root : Node} {tag : Node} {ts : List Token}

/-! ## The open tag -/

/-- Whether no token of a source is read differently by the lexers. The last one would be if it
    ended with a question mark or a return. -/
def hasCommonTokens (source : Text) : Bool :=
  (tokenize source).all isCommon && (source.getLast? != some '?' && source.getLast? != some '\r')

theorem openTag_of_php {a b c d : Char} {r : Text} (h : [a, b, c].map Char.toLower = ['p', 'h', 'p']) :
    ClassOutline.Token.lexeme .start '<' ('?' :: a :: b :: c :: d :: r) = ⟨.openTag, 5⟩ ∧
      ['<', '?', a, b, c].count '\n' = 0 := by
  have hlower : lower ['<', '?', a, b, c] = "<?php".toList := by
    have : lower ['<', '?', a, b, c] = '<' :: '?' :: [a, b, c].map Char.toLower := rfl
    rw [this, h]
    rfl
  refine ⟨?_, ?_⟩
  · have htake : ('<' :: '?' :: a :: b :: c :: d :: r).take 5 = ['<', '?', a, b, c] := rfl
    have hstart : startsWith ('<' :: '?' :: a :: b :: c :: d :: r) "<?".toList = true := rfl
    rw [ClassOutline.Token.lexeme, if_neg (by decide), ClassOutline.Token.htmlLexeme, if_pos hstart,
      ClassOutline.Token.openTagLength, htake, if_pos (beq_iff_eq.mpr hlower)]
  · rw [List.count_eq_zero]
    intro hmem
    have := List.mem_map_of_mem (f := Char.toLower) hmem
    rw [← lower, hlower] at this
    exact absurd this (by decide)

/-- Behind the open tag the tokens lie over each other. -/
theorem exists_under (h : tokens? source = some (tag, ts)) (hcommon : hasCommonTokens source = true) :
    ∃ text span ps, tag = .leaf .openTag none span ∧ behindOperator (some text) = false ∧
      lay source tag (placedFrom 0 (tokenize source)) = some ps ∧ Under source (some text) 5 ts ps := by
  simp only [hasCommonTokens, Bool.and_eq_true, List.all_eq_true, bne_iff_ne] at hcommon
  obtain ⟨hcommon, hlast⟩ := hcommon
  have hrun := ClassOutline.Token.lexes_tokenize source
  generalize tokenize source = ls at *
  unfold tokens? at h
  split at h
  · rename_i a b c d r
    split at h
    · rename_i hphp
      obtain ⟨hphp, hd⟩ := Bool.and_eq_true_iff.mp hphp
      obtain ⟨hlexeme, hlines⟩ := openTag_of_php (d := d) (r := r) (beq_iff_eq.mp hphp)
      obtain ⟨ts', hts, he⟩ := Option.map_eq_some_iff.mp h
      cases he
      cases hrun with
      | step _ _ _ ls hrest =>
        have htok : ClassOutline.Token.nextToken .start '<' ('?' :: a :: b :: c :: d :: r) = ⟨.openTag, ['<', '?', a, b, c], 1⟩ := by
          rw [ClassOutline.Token.nextToken, hlexeme]
          rfl
        rw [htok, hlexeme] at hrest
        rw [htok] at hcommon ⊢
        have hstop : (Pos.past .origin ['<', '?', a, b, c]).offset = 5 := offset_past _ _
        have hat : Abreast ('<' :: '?' :: a :: b :: c :: d :: r) 5 ['<', '?', a, b, c] [] (d :: r)
            (LexState.start.next ⟨.openTag, ['<', '?', a, b, c], 1⟩) ls (Pos.past .origin ['<', '?', a, b, c]) [] := by
          refine ⟨rfl, rfl, by simp, hstop, ?_, hrest, (List.forall_mem_cons.mp hcommon).2, ?_⟩
          · rw [row_past, hlines]
            show 1 + List.count '\n' ['<', '?', a, b, c] + 0 = _
            rw [hlines]
            rfl
          · refine ⟨by simp, by simp, Nat.le_refl _, fun _ => rfl, fun h => absurd rfl h, ?_⟩
            rintro - w hw ⟨d, u, rfl, hstart, -⟩
            cases hw
            cases hstart
        have hunder := under_of_tokensFrom hts hat hlast (.nil _)
        refine ⟨['<', '?', a, b, c], _, placedFrom 5 ls, rfl, behindOperator_eq_false (by decide), ?_, hunder⟩
        rw [lay_leaf (by decide), hstop]
        exact passTo_append (u := [⟨0, _⟩]) (by simp [isAnchorKind]) hunder.le
    · cases h
  · cases h

/-- A reader is repeated until its test fails. -/
theorem test_of_many {test : List Token → Bool} {reader : Reader} {ns : List Node} {rest : List Token}
    (h : many test reader ts = some (ns, rest)) : test rest = false := by
  rw [many] at h
  generalize ts.length + 1 = fuel at h
  induction fuel generalizing ts ns with
  | zero => cases h
  | succ fuel ih =>
    rw [manyUpTo] at h
    split at h
    · split at h
      · obtain ⟨_, hrest, -⟩ := map_eq_some h
        exact ih hrest
      · cases h
    · rename_i htest
      cases h
      simpa using htest

/-- A plain source whose tokens are common is laid under its tree, if names are free and
    classes in scope. -/
theorem laid_of_plain (h : read? source = some root) (hcommon : hasCommonTokens source = true)
    (hlawful : root.children.all (isLawfulTop source) = true) (hscope : isInScope source [] [] root.children = true) :
    laid source root = true := by
  unfold read? at h
  split at h
  · rename_i tag ts htokens
    split at h
    · rename_i ns finish hmany
      cases h
      obtain ⟨text, span, ps, rfl, hb, hlay, hu⟩ := exists_under htokens hcommon
      have hkind : ∀ m ∈ [Node.leaf .openTag none span], m.kind ≠ .namespaceDefinition := by simp [Node.leaf]
      have hlaid : layAll source .absent [Node.leaf .openTag none span] (placedFrom 0 (tokenize source)) = some ps := by
        rw [layAll, hlay, Option.bind_some, layAll]
      have hms : ∀ m ∈ ns, isLawfulTop source m = true := fun m hm =>
        List.all_eq_true.mp hlawful m (List.mem_append_left _ (List.mem_cons_of_mem _ hm))
      obtain ⟨hsites, hscope⟩ := isInScope_append hkind (ns ++ finish.before) hscope
      show layTop source [] [] ([Node.leaf .openTag none span] ++ (ns ++ finish.before)) _ = true
      rw [layTop_append hkind hlaid hsites]
      have hfinish : finish.lexeme = .finish := by
        have htest := test_of_many hmany
        simp only [next, Token.isFinish, Bool.not_eq_false'] at htest
        split at htest
        · assumption
        · cases htest
      exact layTop_statements hmany hfinish hms hscope hb hu
    · cases h
  · cases h

/-! ## Names of classes -/

mutual

/-- The classes in a lawful node bear free names. -/
theorem isFree_of_mem_sites (n : Node) (h : isLawful source n = true) :
    ∀ site ∈ sites n, isFree (site.name.text source) = true := by
  obtain ⟨kind, role, span, missing, children⟩ := n
  rw [isLawful, Bool.and_eq_true, Bool.and_eq_true] at h
  obtain ⟨⟨-, hnames⟩, hchildren⟩ := h
  rw [sites]
  split
  · simp
  · refine isFree_of_mem_sitesAll children hchildren _ none fun hclass c hc hrole => ?_
    rw [beq_iff_eq.mp hclass] at hnames
    have := List.all_eq_true.mp hnames c hc
    rwa [hrole] at this

theorem isFree_of_mem_sitesAll (cs : List Node) (h : areLawful source cs = true) (isPending : Bool) (previous : Option Node)
    (hnames : isPending = true → ∀ c ∈ cs, c.role = some .name → isFree (c.text source) = true) :
    ∀ site ∈ sitesAll isPending previous cs, isFree (site.name.text source) = true := by
  match cs with
  | [] => simp [sitesAll]
  | c :: cs =>
    rw [areLawful, Bool.and_eq_true] at h
    rw [sitesAll_append]
    intro site hsite
    rcases List.mem_append.mp hsite with hsite | hsite
    · split at hsite
      · rename_i hname
        obtain ⟨hpending, hrole⟩ := Bool.and_eq_true_iff.mp hname
        rw [List.mem_singleton.mp hsite]
        exact hnames hpending c (by simp) (beq_iff_eq.mp hrole)
      · cases hsite
    · rcases List.mem_append.mp hsite with hsite | hsite
      · exact isFree_of_mem_sites c h.1 site hsite
      · refine isFree_of_mem_sitesAll cs h.2 _ (some c) (fun hpending d hd => ?_) site hsite
        exact hnames (Bool.and_eq_true_iff.mp hpending).1 d (List.mem_cons_of_mem _ hd)

end

/-- The classes declared under a root of lawful nodes bear free names. -/
theorem isFree_of_mem_declaredTop {ns : List Node} (h : ns.all (isLawfulTop source) = true) (outer : Text) :
    ∀ d ∈ declaredTop source outer ns, isFree (d.name source) = true := by
  induction ns generalizing outer with
  | nil => simp [declaredTop]
  | cons n ns ih =>
    rw [List.all_cons, Bool.and_eq_true] at h
    obtain ⟨hn, hns⟩ := h
    have hmap : ∀ (scope : Text) (ss : List Site), (∀ site ∈ ss, isFree (site.name.text source) = true) →
        ∀ d ∈ ss.map (⟨scope, ·⟩ : Site → DeclaredClass), isFree (d.name source) = true := by
      intro scope ss hss d hd
      obtain ⟨site, hsite, rfl⟩ := List.mem_map.mp hd
      exact hss site hsite
    rw [declaredTop]
    rw [isLawfulTop] at hn
    split
    · rename_i hkind
      rw [if_pos hkind] at hn
      split
      · rename_i body hbody
        have hmem : body ∈ n.children := List.mem_of_find?_eq_some hbody
        have hlawful := (Bool.and_eq_true_iff.mp (List.all_eq_true.mp hn body hmem)).2
        have hchildren : areLawful source body.children = true := by
          obtain ⟨kind, role, span, missing, children⟩ := body
          rw [isLawful, Bool.and_eq_true] at hlawful
          exact hlawful.2
        rw [List.forall_mem_append]
        exact ⟨hmap _ _ (isFree_of_mem_sitesAll body.children hchildren false none fun h => by cases h), ih hns outer⟩
      · exact ih hns _
    · rename_i hkind
      rw [if_neg hkind] at hn
      rw [List.forall_mem_append]
      exact ⟨hmap _ _ (isFree_of_mem_sites n hn), ih hns outer⟩

/-! ## Agreement -/

/-- A plain source with a class in a body, one behind a comment, and what looks like one in a
    string and in a comment. -/
def plainSample : Text :=
  ("<?php // class X\nnamespace App;\nclass A extends Base \x7b\n  const K = \"class Y\";\n" ++
    "  function f() \x7b class B \x7b\x7d \x7d\n\x7d\nclass /* c */ C \x7b\x7d").toList

/-- The condition on scopes is needed: behind a braced namespace the token stream is still in it
    and the tree is not. -/
theorem classes_ne_declared_behind_braces :
    let source := "<?php namespace A \x7b class X \x7b\x7d \x7d class Y \x7b\x7d".toList
    (Tree.read source).issues = [] ∧
      (classes (tokenize source)).map entryOf = [("A\\X".toList, 1), ("A\\Y".toList, 1)] ∧
      ((declared source (Tree.read source)).filter (·.site.isSeparated)).map (DeclaredClass.entry source) =
        [("A\\X".toList, 1), ("Y".toList, 1)] ∧
      extract source .none = .error (.malformed "A\\Y".toList .undeclared) := by
  decide +kernel

end ClassOutline.Plain
