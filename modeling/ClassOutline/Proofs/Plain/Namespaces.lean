import ClassOutline.Proofs.Plain.Statements
/-
  ClassOutline.Proofs.Plain.Namespaces — definitions of namespaces over the token stream.

  A namespace is opened by its path if the path is written without blanks and comments and
  its first name is free: then its tokens follow each other at once (`Under.segments`), and
  the text they make is the text of the node (`Under.namespacePath`).
-/

namespace ClassOutline.Plain

open ClassOutline.Text ClassOutline.Tree ClassOutline.Discovery Reader

variable {source : Text} {n : Nested} {ts mid rest : List Token} {t : Token} {ns ms : List Node}
  {previous : Option Text} {pos stop : Nat} {ps ps' gap : List Placed}

/-! ## Stretches of a source -/

/-- The text between two places. -/
def between (source : Text) (pos stop : Nat) : Text := (source.drop pos).take (stop - pos)

theorem between_append {a b c : Nat} (hab : a ≤ b) (hbc : b ≤ c) :
    between source a c = between source a b ++ between source b c := by
  obtain ⟨i, rfl⟩ := Nat.exists_eq_add_of_le hab
  obtain ⟨j, rfl⟩ := Nat.exists_eq_add_of_le hbc
  rw [between, between, between, Nat.add_sub_cancel_left, Nat.add_sub_cancel_left, Nat.add_assoc, Nat.add_sub_cancel_left,
    List.take_add, List.drop_drop]

theorem Fit.between_eq (h : Fit source t) : between source t.span.first.offset t.span.stop.offset = t.text := h.text

/-- Whether nothing but a path is written between two places. -/
def IsTight (source : Text) (pos stop : Nat) : Prop := ∀ c ∈ between source pos stop, isPathChar c = true

theorem IsTight.of_le {pos' : Nat} (h : IsTight source pos stop) (hle : pos ≤ pos') : IsTight source pos' stop := by
  intro c hc
  by_cases hstop : pos' ≤ stop
  · exact h c (by rw [between_append hle hstop]; exact List.mem_append_right _ hc)
  · rw [between, Nat.sub_eq_zero_of_le (by omega), List.take_zero] at hc
    cases hc

/-- There is no gap before a token of a path. -/
theorem Gap.eq_nil (h : Gap source pos t gap) (htight : IsTight source pos stop) (hlt : t.span.first.offset < stop) : gap = [] := by
  by_contra hne
  obtain ⟨q, hq⟩ := List.exists_mem_of_ne_nil gap hne
  have hbounds := h.bounds q hq
  obtain ⟨c, r, hdrop, hc⟩ := h.loose hne
  obtain ⟨k, hk⟩ := Nat.exists_eq_add_of_lt (show pos < stop by omega)
  have := htight c (by rw [between, hdrop, show stop - pos = k + 1 by omega]; exact List.mem_cons_self)
  rw [hc] at this
  cases this

/-! ## Paths -/

/-- Whether a mark comes next that goes on with no path. -/
def EndsPath (ts : List Token) : Prop := ∃ t r, ts = t :: r ∧ t.lexeme = .mark ∧ t.text ≠ ['\\']

theorem pathText_eq_nil (h : Under source previous pos ts ps) (hends : EndsPath ts) : pathText (tokensOf ps) = [] := by
  obtain ⟨t, r, rfl, hl, htext⟩ := hends
  obtain ⟨gap, q, qs, rfl, hgap, -, hq⟩ := h.first (by simp [hl])
  have hkind : q.token.kind = .punct := by
    rw [hq.kind, Token.shownAs, hl]
    exact if_neg (by simpa using htext)
  have hhead : Discovery.segments (tokensOf (gap ++ q :: qs)) = [] := by
    cases gap with
    | nil =>
      cases qs with
      | nil => rfl
      | cons q' qs => simp [Discovery.segments, hkind]
    | cons g gap =>
      have hg : g.token.kind ≠ .nsSeparator := by
        intro he
        have := hgap g (by simp)
        rw [he] at this
        cases this
      cases gap <;> simp [Discovery.segments, hg]
  rw [pathText, hhead]
  rfl

theorem stopOf_nodes (pos : Nat) (t : Token) (kind : Kind) : stopOf pos (t.nodes kind) = t.span.stop.offset := by
  rw [Token.nodes, stopOf_append]
  rfl

/-- A segment is a separator and a name. -/
theorem segment_eq_some (h : segment ts = some (ns, mid)) :
    ∃ m t, ts = m :: t :: mid ∧ m.lexeme = .mark ∧ m.text = ['\\'] ∧ t.isNameLike = true ∧
      ∃ kind kind', ns = m.nodes kind ++ t.nodes kind' := by
  obtain ⟨sign, mid₁, named, hsign, hnamed, rfl⟩ := seq_cons_eq_some h
  obtain ⟨m, rfl, hm, rfl⟩ := leaf_eq_some hsign
  obtain ⟨named', mid₂, none₁, hname, hnil, rfl⟩ := seq_cons_eq_some hnamed
  obtain ⟨t, rfl, ht, rfl⟩ := leaf_eq_some hname
  cases hnil
  obtain ⟨hl, htext⟩ := isMark_iff.mp hm
  exact ⟨m, t, rfl, hl, htext, ht, _, _, by rw [List.append_nil]⟩

/-- Segments that follow each other at once are read as a path. -/
theorem Under.segments {k : Nat} (h : Under source previous pos ts ps) (hb : behindOperator previous = false)
    (hr : Plain.segments k ts = some (ns, mid)) (htight : IsTight source pos (stopOf pos ns)) (hmid : EndsPath mid) :
    pos ≤ stopOf pos ns ∧ pathText (tokensOf ps) = between source pos (stopOf pos ns) ∧
      ∃ used ps' previous', ps = used ++ ps' ∧ Passed (stopOf pos ns) used ∧ behindOperator previous' = false ∧
        Under source previous' (stopOf pos ns) mid ps' := by
  induction k generalizing previous pos ts ps ns with
  | zero =>
    cases hr
    refine ⟨Nat.le_refl _, ?_, [], ps, previous, rfl, .nil, hb, h⟩
    rw [pathText_eq_nil h hmid, stopOf_nil, between, Nat.sub_self, List.take_zero]
  | succ k ih =>
    obtain ⟨ms, mid₁, ms', hsegment, hrest, rfl⟩ := seq_cons_eq_some hr
    obtain ⟨ns', mid₂, none₁, hsegments, hnil, rfl⟩ := seq_cons_eq_some hrest
    cases hnil
    obtain ⟨m, t, rfl, hml, hmtext, ht, kind, kind', rfl⟩ := segment_eq_some hsegment
    obtain ⟨htm, htf⟩ := ne_mark_of_isNameLike ht
    simp only [List.append_nil, stopOf_append, stopOf_nodes] at htight ⊢
    cases h with
    | @cons _ _ _ _ gap p ps₁ _ hfit hle hgap _ hp hunder =>
    cases hunder with
    | finish h => exact absurd h htf
    | @cons _ _ _ _ gap' p' ps₂ _ hfit' hle' hgap' _ hp' hunder' =>
    have hlength := hfit.length
    have hlength' := hfit'.length
    have hbehind : behindOperator (some t.text) = false := hfit'.calm htm
    obtain ⟨hstop, hpath, used, ps', previous', rfl, hpassed, hb', hunder⟩ :=
      ih hunder' hbehind hsegments (htight.of_le (by omega))
    -- a gap would hold a character that no path is written with
    obtain rfl : gap = [] := hgap.eq_nil htight (by omega)
    have hfirst : m.span.first.offset = pos := hgap.tight rfl
    obtain rfl : gap' = [] := hgap'.eq_nil (htight.of_le (by omega)) (by omega)
    have hfirst' : t.span.first.offset = m.span.stop.offset := hgap'.tight rfl
    have hkind : p.token.kind = .nsSeparator := by
      rw [hp.kind, Token.shownAs, hml, hmtext]
      rfl
    have hkind' : p'.token.kind = .identifier := by
      rw [hp'.kind, shownAs_of_isNameLike ht, hmtext]
      exact ofWord_of_behind rfl _
    refine ⟨by omega, ?_, p :: p' :: used, ps', previous', rfl, ?_, hb', hunder⟩
    · have htexts : between source pos (stopOf t.span.stop.offset ns') =
          m.text ++ (t.text ++ between source t.span.stop.offset (stopOf t.span.stop.offset ns')) := by
        rw [between_append (b := m.span.stop.offset) (by omega) (by omega), ← hfirst, hfit.between_eq,
          between_append (b := t.span.stop.offset) (by omega) hstop, ← hfirst', hfit'.between_eq]
      rw [htexts, ← hpath, hmtext, ← hp'.text]
      simp [pathText, Discovery.segments, hkind, hkind']
    · have hsign : Passed m.span.stop.offset [p] := hfit.passed hp.offset (by rw [hkind]; rfl)
      have hname : Passed t.span.stop.offset [p'] := hfit'.passed hp'.offset (by rw [hkind']; rfl)
      exact (hsign.mono (by omega)).append ((hname.mono hstop).append hpassed)

/-! ## Groups behind comments -/

/-- A group of comments and more: the comments stay outside. -/
theorem group_of_comments {place : Nat} (hns : CommentsBefore place ns) {k : Node} (hk : k.isExtra = false) (kind : Kind)
    (ms : List Node) :
    ∃ span : Span, span.first = k.span.first ∧ span.stop.offset = stopOf k.span.stop.offset ms ∧
      group kind none (ns ++ k :: ms) = ns ++ [⟨kind, none, span, false, k :: ms⟩] := by
  have hextra : ∀ n ∈ ns, n.isExtra = true := by
    intro n hn
    obtain ⟨span, rfl, -⟩ := hns n hn
    rfl
  obtain ⟨htake, hdrop⟩ := extras_append_cons hk ns ms
  rw [List.takeWhile_eq_self_iff.mpr hextra] at htake
  rw [List.dropWhile_eq_nil_iff.mpr hextra, List.nil_append] at hdrop
  rcases group_eq kind none (ns ++ k :: ms) with ⟨hnil, -⟩ | ⟨first, last, hfirst, -, hlast, he⟩
  · rw [hdrop] at hnil
    cases hnil
  · rw [hdrop] at hfirst hlast
    cases hfirst
    refine ⟨.ofNodes k last, rfl, ?_, by rw [he, htake, hdrop]⟩
    rw [List.getLast?_cons] at hlast
    rw [stopOf, Span.ofNodes, ← Option.some.inj hlast]
    cases ms.getLast? <;> rfl

/-! ## Paths of namespaces -/

/-- Whether a text is a path whose first name is free. -/
def isPlainPath (t : Text) : Bool := t.all isPathChar && isFree (t.takeWhile Token.isNameChar)

theorem takeWhile_isNameChar {w : Text} (hw : Token.IsName w) (ss : List Text) :
    (w ++ ss.flatMap ('\\' :: ·)).takeWhile Token.isNameChar = w :=
  ClassOutline.Token.takeWhile_append_eq hw.all fun d hd => by
    cases ss with
    | nil => cases hd
    | cons s ss =>
      cases hd
      rfl

theorem dropSeparators_of_isName {w : Text} (hw : Token.IsName w) (r : Text) : dropSeparators (w ++ r) = w ++ r := by
  obtain ⟨c, v, rfl, hc, -⟩ := hw
  have hne : (c == '\\') = false := by
    refine beq_false_of_ne fun he => ?_
    rw [he] at hc
    cases hc
  rw [List.cons_append, dropSeparators, trimStart, List.dropWhile_cons_of_neg (by simpa using hne)]

theorem openedBy?_eq_some (hgap : ∀ g ∈ gap, g.token.kind.isTrivia = true) {q : Placed} (hq : q.token.kind = .identifier)
    (r : List Placed) : openedBy? (tokensOf (gap ++ q :: r)) = some (q.token.text ++ pathText (tokensOf r)) := by
  rw [openedBy?, dropWhile_trivia hgap (by rw [hq]; rfl)]
  exact if_pos hq

/-- The name of a namespace is what the token stream reads behind the keyword. -/
theorem Under.namespacePath (h : Under source previous pos ts ps) (hb : behindOperator previous = false)
    (hr : Plain.namespacePath ts = some (ns, mid))
    (hplain : ∀ c ∈ ns.map (withRole .name), c.role = some .name → isPlainPath (c.text source) = true) (hmid : EndsPath mid) :
    ∃ place before name used ps' previous', ns = before ++ [name] ∧ CommentsBefore place before ∧
      name.kind = .namespaceName ∧ name.role = none ∧
      openedBy? (tokensOf ps) = some (dropSeparators (name.text source)) ∧ ps = used ++ ps' ∧
      Passed name.span.stop.offset used ∧ behindOperator previous' = false ∧
      Under source previous' name.span.stop.offset mid ps' := by
  obtain ⟨ms, hms, rfl⟩ := map_eq_some hr
  obtain ⟨first, mid₁, behind, hfirst, hbehind, rfl⟩ := seq_cons_eq_some hms
  obtain ⟨t, rfl, ht, rfl⟩ := leaf_eq_some hfirst
  obtain ⟨ns', mid₂, none₁, hsegments, hnil, rfl⟩ := seq_cons_eq_some hbehind
  cases hnil
  obtain ⟨htm, htf⟩ := ne_mark_of_isNameLike ht
  cases h with
  | finish h => exact absurd h htf
  | @cons _ _ _ _ gap q ps₁ _ hfit hle hgap _ hq hunder =>
  obtain ⟨span, hspan, hstop, he⟩ := group_of_comments hfit.before (k := .leaf .name none t.span) rfl .namespaceName ns'
  have hstop : span.stop.offset = stopOf t.span.stop.offset ns' := hstop
  have hnodes : t.nodes .name ++ (ns' ++ []) = t.before ++ .leaf .name none t.span :: ns' := by simp [Token.nodes]
  rw [hnodes, he] at hplain ⊢
  have hpath := hplain ⟨.namespaceName, some .name, span, false, .leaf .name none t.span :: ns'⟩
    (List.mem_map.mpr ⟨_, List.mem_append_right _ (List.mem_singleton_self _), rfl⟩) rfl
  have htext : ∀ role, Node.text ⟨.namespaceName, role, span, false, .leaf .name none t.span :: ns'⟩ source =
      between source t.span.first.offset (stopOf t.span.stop.offset ns') := by
    intro role
    show between source span.first.offset span.stop.offset = _
    rw [hspan, hstop]
    rfl
  rw [htext] at hpath
  obtain ⟨hchars, hfree⟩ := Bool.and_eq_true_iff.mp hpath
  have htight : IsTight source t.span.first.offset (stopOf t.span.stop.offset ns') := List.all_eq_true.mp hchars
  have hlength := hfit.length
  obtain ⟨hstop', hbetween, used, ps', previous', rfl, hpassed, hb', hunder'⟩ :=
    hunder.segments (hfit.calm htm) hsegments (htight.of_le (by omega)) hmid
  have hwhole : between source t.span.first.offset (stopOf t.span.stop.offset ns') =
      t.text ++ pathText (tokensOf (used ++ ps')) := by
    rw [between_append (b := t.span.stop.offset) (by omega) hstop', hfit.between_eq, hbetween]
  have hname : Token.IsName t.text := hfit.isName ht
  rw [hwhole, pathText, takeWhile_isNameChar hname] at hfree
  have hkind : q.token.kind = .identifier := by rw [hq.kind, shownAs_of_isFree ht hfree hb]
  refine ⟨_, t.before, _, gap ++ q :: used, ps', previous', rfl, hfit.before, rfl, rfl, ?_, by simp, ?_, hb', ?_⟩
  · rw [openedBy?_eq_some hgap.trivia hkind, htext, hwhole, dropSeparators_of_isName hname, hq.text]
  · show Passed span.stop.offset _
    rw [hstop]
    rw [List.append_cons]
    exact ((hgap.passed_token hfit hq.offset (by rw [hkind]; rfl)).mono hstop').append hpassed
  · show Under source previous' span.stop.offset _ _
    rw [hstop]
    exact hunder'

/-! ## Bodies -/

/-- A token that begins no anchor is passed with all that can be passed before it. -/
theorem passTo_token {used : List Placed} {q : Placed} (hused : Passed pos used) (hle : pos ≤ t.span.first.offset)
    (hgap : Gap source pos t gap) (hfit : Fit source t) (hq : q.offset = t.span.first.offset)
    (hkind : isAnchorKind q.token.kind = false) (hunder : Under source previous t.span.stop.offset ts ps) :
    passTo t.span.stop.offset (used ++ (gap ++ q :: ps)) = some ps := by
  have hlength := hfit.length
  have hpassed := (hused.mono (show pos ≤ t.span.stop.offset by omega)).append (hgap.passed_token hfit hq hkind)
  have hsplit : used ++ (gap ++ q :: ps) = used ++ (gap ++ [q]) ++ ps := by simp
  rw [hsplit, passTo_skip hpassed]
  exact passTo_of_le hunder.le

/-- The body of a namespace is laid behind whatever can be passed before it. -/
theorem Under.compound {n : Nested} (hn : n.IsSound source) (h : Under source previous pos ts ps)
    (hr : Plain.compound n ts = some (ns, rest)) :
    ∃ place before body, ns = before ++ [body] ∧ CommentsBefore place before ∧ body.kind = .compound ∧ body.role = none ∧
      (areLawful source body.children = true → ∃ ps' previous', behindOperator previous' = false ∧
        Under source previous' body.span.stop.offset rest ps' ∧ pos ≤ body.span.stop.offset ∧
        ∀ used, Passed pos used → layAll source .absent body.children (used ++ ps) = some ps') := by
  obtain ⟨ms, hms, rfl⟩ := map_eq_some hr
  obtain ⟨brace, mid, inside, hbrace, hinside, rfl⟩ := seq_cons_eq_some hms
  obtain ⟨t, rfl, ht, rfl⟩ := leaf_eq_some hbrace
  obtain ⟨hl, htext⟩ := isMark_iff.mp ht
  cases h with
  | finish h => rw [hl] at h; cases h
  | @cons _ _ _ _ gap q ps₁ _ hfit hle hgap _ hq hunder =>
  obtain ⟨span, hspan, hstop, he⟩ := group_of_comments hfit.before (k := .leaf (.token ['\x7b']) none t.span) rfl .compound inside
  have hstop : span.stop.offset = stopOf t.span.stop.offset inside := hstop
  have hnodes : t.nodes (.token ['\x7b']) ++ inside = t.before ++ .leaf (.token ['\x7b']) none t.span :: inside := by
    simp [Token.nodes]
  rw [hnodes, he]
  refine ⟨_, t.before, _, rfl, hfit.before, rfl, rfl, fun hlawful => ?_⟩
  have hsound : Sound source (seq [many (fun ts => !nextMark ['\x7d'] ts) n.statement, mark ['\x7d']]) :=
    .seq ⟨.many hn.statement, .mark rfl⟩
  rw [areLawful_cons] at hlawful
  obtain ⟨previous', stop, ps', hb', hstep⟩ := hsound _ _ _ hinside (Bool.and_eq_true_iff.mp hlawful).2 (some t.text) _ ps₁
    (by rw [htext]; rfl) hunder
  have hlength := hfit.length
  have hstep_le := hstep.le
  rw [hstep.stopOf] at hstop
  refine ⟨ps', previous', hb', by rw [hstop]; exact hstep.under, by rw [hstop]; omega, fun used hused => ?_⟩
  have hkind : q.token.kind = .punct := by
    rw [hq.kind, Token.shownAs, hl, htext]
    rfl
  have hpass := passTo_token hused hle hgap hfit hq.offset (by rw [hkind]; rfl) hunder
  show layAll source .absent (.leaf (.token ['\x7b']) none t.span :: inside) _ = _
  rw [layAll, lay_leaf (by decide), hpass, Option.bind_some, hstep.laid]

/-! ## Definitions -/

/-- Whether a node may stand under the root: the name of a namespace is a plain path, and all
    else is lawful. -/
def isLawfulTop (source : Text) (n : Node) : Bool :=
  if n.kind == .namespaceDefinition then
    n.children.all fun c => (c.role != some .name || isPlainPath (c.text source)) && isLawful source c
  else isLawful source n

theorem find?_role_of_comments {place : Nat} (h : CommentsBefore place ns) (role : Role) :
    ns.find? (·.role == some role) = none := by
  refine List.find?_eq_none.mpr fun n hn => ?_
  obtain ⟨span, rfl, -⟩ := h n hn
  simp [Node.leaf]

theorem openedBy?_brace (hgap : ∀ g ∈ gap, g.token.kind.isTrivia = true) {q : Placed} (hq : q.token.kind = .punct)
    (htext : q.token.text = ['\x7b']) (r : List Placed) : openedBy? (tokensOf (gap ++ q :: r)) = some [] := by
  rw [openedBy?, dropWhile_trivia hgap (by rw [hq]; rfl)]
  simp [hq, isOpenBrace, htext]

/-- What stands behind the keyword of a definition lies over the tokens behind it. -/
structure Behind (source : Text) (r : List Placed) (xs : List Node) (stop : Nat) (ps' : List Placed) : Prop where
  opened : openedBy? (tokensOf r) =
    some (((xs.find? (·.role == some .name)).map fun c => dropSeparators (c.text source)).getD [])
  passed : xs.find? (·.role == some .body) = none → passTo stop r = some ps'
  body : ∀ b, xs.find? (·.role == some .body) = some b → layAll source .absent b.children r = some ps'

/-- Nodes other than definitions are laid one after the other. -/
theorem layTop_append (hms : ∀ m ∈ ms, m.kind ≠ .namespaceDefinition) {outer current : Text}
    (hlaid : layAll source .absent ms ps = some ps') (hscope : ms.flatMap sites = [] ∨ outer = current) (tail : List Node) :
    layTop source outer current (ms ++ tail) ps = layTop source outer current tail ps' := by
  induction ms generalizing ps with
  | nil =>
    rw [layAll] at hlaid
    cases hlaid
    rfl
  | cons m ms ih =>
    obtain ⟨hm, hms⟩ := List.forall_mem_cons.mp hms
    rw [layAll] at hlaid
    obtain ⟨q, hq, hlaid⟩ := Option.bind_eq_some_iff.mp hlaid
    rw [List.flatMap_cons, List.append_eq_nil_iff] at hscope
    have hok : ((sites m).isEmpty || outer == current) = true := by
      rcases hscope with hscope | hscope
      · rw [hscope.1]
        rfl
      · rw [beq_iff_eq.mpr hscope, Bool.or_true]
    rw [List.cons_append, layTop, beq_false_of_ne hm]
    simp only [Bool.false_eq_true, if_false, hq, hok, Bool.true_and]
    exact ih hms hlaid (hscope.imp_left And.right)

/-- A definition of a namespace: the keyword, and what stands behind it. -/
theorem layTop_definition {k : Node} {xs : List Node} {span : Span} {p : Placed} {r : List Placed}
    (hk : k.role = none) (hp : p.token.kind = .namespaceKeyword) (hpass : passTo span.first.offset ps = some (p :: r))
    (hbehind : Behind source r xs span.stop.offset ps') (hle : ∀ q ∈ ps', span.stop.offset ≤ q.offset)
    (outer current : Text) (tail : List Node) :
    let m : Node := ⟨.namespaceDefinition, none, span, false, k :: xs⟩
    layTop source outer current (m :: tail) ps =
      layTop source (if (m.childWith? .body).isSome then outer else scopeName source m) (scopeName source m) tail ps' := by
  intro m
  have hfind : ∀ role, m.childWith? role = xs.find? (·.role == some role) := by
    intro role
    rw [Node.childWith?, List.find?_cons, hk]
    rfl
  have hopened : opening? (tokensOf (p :: r)) = some (scopeName source m) := by
    rw [tokensOf_cons, opening?, if_pos hp, hbehind.opened, scopeName, hfind]
  rw [layTop, show (m.kind == Kind.namespaceDefinition) = true from rfl, if_pos rfl, show m.span = span from rfl, hpass]
  dsimp only
  rw [hopened, beq_self_eq_true, Bool.true_and]
  cases hbody : m.childWith? .body with
  | none =>
    rw [hfind] at hbody
    simp [hbehind.passed hbody]
  | some b =>
    rw [hfind] at hbody
    simp [hbehind.body b hbody, passTo_of_le hle]

/-! ## What stands behind the keyword -/

theorem withRole_eq {m : Node} (hextra : m.isExtra = false) (hrole : m.role = none) (role : Role) :
    withRole role m = { m with role := some role } := by
  rw [withRole, hextra, hrole]
  rfl

theorem find?_role_append {place : Nat} (h : CommentsBefore place ns) (role : Role) (m : Node) (ms : List Node) :
    (ns ++ m :: ms).find? (·.role == some role) =
      if m.role == some role then some m else ms.find? (·.role == some role) := by
  rw [List.find?_append, find?_role_of_comments h, Option.none_or, List.find?_cons]
  cases m.role == some role <;> rfl

theorem starts_ending {r : Reader} : Starts EndsPath (either (nextMark ['\x7b']) r semicolon) := by
  intro ts ns rest hr
  rw [Reader.either] at hr
  split at hr
  · rename_i hnext
    cases ts with
    | nil => cases hnext
    | cons t ts =>
      obtain ⟨hl, htext⟩ := isMark_iff.mp (show t.isMark ['\x7b'] = true from hnext)
      exact ⟨t, ts, rfl, hl, by rw [htext]; decide⟩
  · obtain ⟨t, rfl, ht, rfl⟩ := leaf_eq_some hr
    obtain ⟨hl, htext⟩ := isMark_iff.mp ht
    exact ⟨t, rest, rfl, hl, by rw [htext]; decide⟩

/-- The end of a definition, which is a body or a semicolon, behind what can be passed. -/
theorem Under.ending {n : Nested} (hn : n.IsSound source) (h : Under source previous pos ts ps)
    (hr : either (nextMark ['\x7b']) (role .body (Plain.compound n)) semicolon ts = some (ns, rest))
    (hlawful : ∀ c ∈ ns, isLawful source c = true) :
    ns.find? (·.role == some .name) = none ∧ ∃ ps' previous', behindOperator previous' = false ∧
      Under source previous' (stopOf pos ns) rest ps' ∧ ∀ used, Passed pos used →
        (ns.find? (·.role == some .body) = none → passTo (stopOf pos ns) (used ++ ps) = some ps') ∧
        ∀ b, ns.find? (·.role == some .body) = some b → layAll source .absent b.children (used ++ ps) = some ps' := by
  rw [Reader.either] at hr
  split at hr
  · obtain ⟨ms, hms, rfl⟩ := map_eq_some hr
    obtain ⟨place, before, body, rfl, hbefore, hkind, hrole, hlay⟩ := h.compound hn hms
    have hextra : body.isExtra = false := by
      rw [Node.isExtra, hkind]
      rfl
    rw [List.map_append, map_withRole_before hbefore, List.map_singleton, withRole_eq hextra hrole] at hlawful ⊢
    have hchildren : areLawful source body.children = true := by
      have := hlawful _ (List.mem_append_right _ (List.mem_singleton_self _))
      rw [isLawful] at this
      exact (Bool.and_eq_true_iff.mp this).2
    obtain ⟨ps', previous', hb', hunder, -, hlaid⟩ := hlay hchildren
    refine ⟨by rw [find?_role_append hbefore]; rfl, ps', previous', hb', ?_, fun used hused => ⟨fun hnone => ?_, ?_⟩⟩
    · rw [stopOf_append]
      exact hunder
    · rw [find?_role_append hbefore] at hnone
      cases hnone
    · intro b hb
      rw [find?_role_append hbefore] at hb
      cases hb
      exact hlaid used hused
  · obtain ⟨t, rfl, ht, rfl⟩ := leaf_eq_some hr
    obtain ⟨hl, htext⟩ := isMark_iff.mp ht
    cases h with
    | finish h => rw [hl] at h; cases h
    | @cons _ _ _ _ gap q ps₁ _ hfit hle hgap _ hq hunder =>
    refine ⟨by rw [Token.nodes, find?_role_append hfit.before]; rfl, ps₁,
      some t.text, by rw [htext]; rfl, by rw [stopOf_nodes]; exact hunder, fun used hused => ⟨fun _ => ?_, fun b hb => ?_⟩⟩
    · have hkind : q.token.kind = .punct := by
        rw [hq.kind, Token.shownAs, hl, htext]
        rfl
      rw [stopOf_nodes]
      exact passTo_token hused hle hgap hfit hq.offset (by rw [hkind]; rfl) hunder
    · rw [Token.nodes, find?_role_append hfit.before] at hb
      cases hb

/-- What stands behind the keyword: a path and an ending, or a body alone. -/
theorem Under.behind {n : Nested} (hn : n.IsSound source) (h : Under source previous pos ts ps)
    (hb : behindOperator previous = false)
    (hr : either (nextMark ['\x7b']) (role .body (Plain.compound n))
      (seq [role .name Plain.namespacePath, either (nextMark ['\x7b']) (role .body (Plain.compound n)) semicolon]) ts =
        some (ns, rest))
    (hlawful : ∀ c ∈ ns, (c.role = some .name → isPlainPath (c.text source) = true) ∧ isLawful source c = true) :
    ∃ ps' previous', behindOperator previous' = false ∧ Under source previous' (stopOf pos ns) rest ps' ∧
      Behind source ps ns (stopOf pos ns) ps' := by
  by_cases hnext : nextMark ['\x7b'] ts = true
  · rw [Reader.either, if_pos hnext] at hr
    obtain ⟨hname, ps', previous', hb', hunder, hending⟩ := h.ending hn (by rw [Reader.either, if_pos hnext]; exact hr)
      fun c hc => (hlawful c hc).2
    obtain ⟨hpassed, hbody⟩ := hending [] .nil
    refine ⟨ps', previous', hb', hunder, ?_, hpassed, hbody⟩
    rw [hname]
    cases ts with
    | nil => cases hnext
    | cons t ts =>
      obtain ⟨hl, htext⟩ := isMark_iff.mp (show t.isMark ['\x7b'] = true from hnext)
      obtain ⟨gap, q, qs, rfl, hgap, -, hq⟩ := h.first (by simp [hl])
      refine openedBy?_brace hgap ?_ (by rw [hq.text, htext]) qs
      rw [hq.kind, Token.shownAs, hl, htext]
      rfl
  · rw [Reader.either, if_neg hnext] at hr
    obtain ⟨names, mid, behind, hnames, hbehind, rfl⟩ := seq_cons_eq_some hr
    obtain ⟨ms, mid', none', hend, hnil, rfl⟩ := seq_cons_eq_some hbehind
    cases hnil
    obtain ⟨path, hpath, rfl⟩ := map_eq_some hnames
    rw [List.append_nil] at hlawful ⊢
    have hends : EndsPath mid := starts_ending _ _ _ hend
    obtain ⟨place, before, name, used, ps₁, previous₁, rfl, hbefore, hkind, hrole, hopened, rfl, hpassed, hb₁, hunder₁⟩ :=
      h.namespacePath hb hpath (fun c hc => (hlawful c (List.mem_append_left _ hc)).1) hends
    obtain ⟨hname, ps', previous', hb', hunder, hending⟩ :=
      hunder₁.ending hn hend fun c hc => (hlawful c (List.mem_append_right _ hc)).2
    obtain ⟨hpass, hbody⟩ := hending used hpassed
    have hextra : name.isExtra = false := by
      rw [Node.isExtra, hkind]
      rfl
    have hnodes : (before ++ [name]).map (withRole .name) ++ ms = before ++ { name with role := some .name } :: ms := by
      rw [List.map_append, map_withRole_before hbefore, List.map_singleton, withRole_eq hextra hrole]
      simp
    have hstop : stopOf pos ((before ++ [name]).map (withRole .name) ++ ms) = stopOf name.span.stop.offset ms := by
      rw [stopOf_append, List.map_append, stopOf_append]
      simp [stopOf]
    rw [hstop, hnodes]
    refine ⟨ps', previous', hb', hunder, ?_, ?_, ?_⟩
    · rw [hopened, find?_role_append hbefore]
      rfl
    · rw [find?_role_append hbefore]
      exact hpass
    · rw [find?_role_append hbefore]
      exact hbody

/-- A definition is laid from its keyword to what stands behind it. -/
theorem Under.definition {n : Nested} (hn : n.IsSound source) (h : Under source previous pos ts ps)
    (hb : behindOperator previous = false) (hr : namespaceDefinition n ts = some (ns, rest))
    (hlawful : ∀ m ∈ ns, isLawfulTop source m = true) :
    ∃ place before m stop ps' previous', ns = before ++ [m] ∧ CommentsBefore place before ∧ m.kind = .namespaceDefinition ∧
      behindOperator previous' = false ∧ Under source previous' stop rest ps' ∧
      ∀ outer current tail, layTop source outer current (ns ++ tail) ps =
        layTop source (if (m.childWith? .body).isSome then outer else scopeName source m) (scopeName source m) tail ps' := by
  obtain ⟨ms, hms, rfl⟩ := map_eq_some hr
  obtain ⟨keyword, mid, behind, hkeyword, hbehind, rfl⟩ := seq_cons_eq_some hms
  obtain ⟨k, rfl, hk, rfl⟩ := leaf_eq_some hkeyword
  obtain ⟨xs, mid', none', hxs, hnil, rfl⟩ := seq_cons_eq_some hbehind
  cases hnil
  have hl : k.lexeme = .word .namespace_ := isWord_iff.mp hk
  cases h with
  | finish h => rw [hl] at h; cases h
  | @cons _ _ _ _ gap p ps₁ _ hfit hle hgap _ hp hunder =>
  have hextra : (keywordLeaf k).isExtra = false := by
    rw [keywordLeaf, Node.leaf, Node.isExtra, wordKind, hl]
    rfl
  obtain ⟨span, hspan, hstop, he⟩ := group_of_comments hfit.before hextra .namespaceDefinition xs
  have hnodes : k.nodes (wordKind k) ++ (xs ++ []) = k.before ++ keywordLeaf k :: xs := by simp [Token.nodes, keywordLeaf]
  rw [hnodes, he] at hlawful ⊢
  have htop := hlawful _ (List.mem_append_right _ (List.mem_singleton_self _))
  rw [isLawfulTop, if_pos (by rfl), List.all_cons] at htop
  have hchildren : ∀ c ∈ xs, (c.role = some .name → isPlainPath (c.text source) = true) ∧ isLawful source c = true := by
    intro c hc
    obtain ⟨hname, hc⟩ := Bool.and_eq_true_iff.mp (List.all_eq_true.mp (Bool.and_eq_true_iff.mp htop).2 c hc)
    exact ⟨fun hrole => by simpa [hrole] using hname, hc⟩
  obtain ⟨ps', previous', hb', hunder', hbehind⟩ := hunder.behind hn (hfit.calm (by simp [hl])) hxs hchildren
  have hstop : span.stop.offset = stopOf k.span.stop.offset xs := hstop
  have hspan : span.first.offset = k.span.first.offset := by rw [hspan]; rfl
  have hoffset := hp.offset
  have hlength := hfit.length
  have hkind : p.token.kind = .namespaceKeyword := by
    rw [hp.kind, Token.shownAs, hl]
    exact ofWord_namespace hb (hfit.folds_of_word hl) (hfit.isWord _ hl)
  obtain ⟨gap', hsuffix, hbefore⟩ := layAll_before hgap hfit.before (fun q (hq : q ∈ p :: ps₁) => by
    rcases List.mem_cons.mp hq with rfl | hq
    · omega
    · have := hunder.le q hq
      omega)
  refine ⟨_, k.before, _, _, ps', previous', rfl, hfit.before, rfl, hb', hunder', fun outer current tail => ?_⟩
  have hcomments : ∀ m ∈ k.before, m.kind ≠ .namespaceDefinition := by
    intro m hm
    obtain ⟨span, rfl, -⟩ := hfit.before m hm
    exact fun h => by cases h
  rw [List.append_assoc, layTop_append hcomments hbefore (Or.inl (flatMap_sites_before hfit.before)), List.singleton_append]
  refine layTop_definition rfl hkind (show passTo span.first.offset _ = some (p :: ps₁) from ?_) ?_ ?_ outer current tail
  · rw [hspan, passTo_skip fun q hq => ⟨hgap.isAnchorKind q (hsuffix.mem hq), (hgap.bounds q (hsuffix.mem hq)).2⟩, passTo,
      if_pos (by omega)]
  · rw [hstop]
    exact hbehind
  · rw [hstop]
    exact hunder'.le

end ClassOutline.Plain
