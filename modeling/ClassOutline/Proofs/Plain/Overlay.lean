import ClassOutline.Plain.Statement
import ClassOutline.Proofs.Agreement
import ClassOutline.Proofs.Plain.Words
/-
  ClassOutline.Proofs.Plain.Overlay — plain tokens over the tokens of the lexer.

  The reader of plain sources has a lexer of its own, which keeps comments with the token
  behind them and leaves blanks out. `Under` says that a list of its tokens and a stretch of
  the token stream show the same text: behind a gap of trivia each plain token is one token
  of the stream, in the same place, of the same text and of the kind that the lexer gives
  it there. A node that stands for a token is laid over it (`Under.leaf`, `Under.pieces`)
  unless an anchor begins at it, which only the words `class` and `namespace` can do.
-/

namespace ClassOutline.Plain

open ClassOutline.Text ClassOutline.Tree ClassOutline.Discovery

/-! ## The same tokens -/

/-- The kind that the lexer gives a plain token behind some text. -/
def Token.shownAs (previous : Option Text) (t : Token) : Token.Kind :=
  match t.lexeme with
  | .name | .word _ => .ofWord previous t.text
  | .variable => .var
  | .integer | .float => .numberLiteral
  | .string => .stringLiteral
  | .mark => if t.text == ['\\'] then .nsSeparator else .punct
  | .finish => .unknown

/-- Comments that end before a place. -/
def CommentsBefore (place : Nat) (ns : List Node) : Prop :=
  ∀ n ∈ ns, ∃ span : Span, n = .leaf .comment none span ∧ span.stop.offset ≤ place

/-- What holds of every token of a plain source but its end. -/
structure Fit (source : Text) (t : Token) : Prop where
  before : CommentsBefore t.span.first.offset t.before
  pieces : ∀ n ∈ t.pieces, ∃ kind span, n = .leaf kind none span ∧ kind ≠ .classDeclaration ∧ n.isExtra = false ∧
    span.stop.offset ≤ t.span.stop.offset
  closes : t.lexeme = .variable ∨ t.lexeme = .string →
    ∃ l, t.pieces.getLast? = some l ∧ l.span.stop.offset = t.span.stop.offset
  text : t.span.text source = t.text
  length : t.span.first.offset < t.span.stop.offset
  folds : t.isNameLike = true → Folds t.text
  isName : t.isNameLike = true → Token.IsName t.text
  word : ∀ w, word? t.text = some w → t.lexeme = .name → False
  isWord : ∀ w, t.lexeme = .word w → word? t.text = some w
  calm : t.lexeme ≠ .mark → behindOperator (some t.text) = false

theorem Fit.folds_of_word {source : Text} {t : Token} (h : Fit source t) {w : Word} (hl : t.lexeme = .word w) : Folds t.text :=
  h.folds (by rw [Token.isNameLike, hl])

/-- What the names of namespaces are written with. -/
def isPathChar (c : Char) : Bool := Token.isNameChar c || c == '\\'

/-- Trivia between a place and a token. -/
structure Gap (source : Text) (pos : Nat) (t : Token) (gap : List Placed) : Prop where
  trivia : ∀ q ∈ gap, q.token.kind.isTrivia = true
  bounds : ∀ q ∈ gap, pos ≤ q.offset ∧ q.offset < t.span.first.offset
  /-- A gap without comments is a single blank at most. -/
  blank : t.before = [] → gap = [] ∨ (tokensOf gap).map Token.kind = [.whitespace]
  comment : t.before ≠ [] → (tokensOf gap).map Token.kind ≠ [.whitespace]
  tight : gap = [] → t.span.first.offset = pos
  loose : gap ≠ [] → ∃ c r, source.drop pos = c :: r ∧ isPathChar c = false

/-- A token of the stream shows a plain token. -/
structure Shows (previous : Option Text) (t : Token) (p : Placed) : Prop where
  offset : p.offset = t.span.first.offset
  kind : p.token.kind = t.shownAs previous
  text : p.token.text = t.text
  line : p.token.line = t.span.first.row + 1

/-- Plain tokens and a stretch of the stream from a place on, behind some text. -/
inductive Under (source : Text) : Option Text → Nat → List Token → List Placed → Prop
  | finish {previous pos t ps} (hlexeme : t.lexeme = .finish) (htext : t.text = []) (hplace : t.span.first.offset = source.length)
      (hbefore : CommentsBefore source.length t.before)
      (hgap : Gap source pos t ps) : Under source previous pos [t] ps
  | cons {previous pos t ts gap p ps} (hlexeme : t.lexeme ≠ .finish) (hfit : Fit source t)
      (hle : pos ≤ t.span.first.offset) (hgap : Gap source pos t gap)
      (hjoin : gap = [] → t.isNameLike = true → ∀ w ∈ previous, ¬ Token.IsName w)
      (hp : Shows previous t p) (rest : Under source (some t.text) t.span.stop.offset ts ps) :
      Under source previous pos (t :: ts) (gap ++ p :: ps)

variable {source : Text} {previous : Option Text} {pos : Nat} {t : Token} {ts : List Token} {ps : List Placed}

theorem Under.le (h : Under source previous pos ts ps) : ∀ q ∈ ps, pos ≤ q.offset := by
  induction h with
  | finish _ _ _ _ hgap => exact fun q hq => (hgap.bounds q hq).1
  | cons _ hfit hle hgap _ hp _ ih =>
    intro q hq
    rcases List.mem_append.mp hq with hq | hq
    · exact (hgap.bounds q hq).1
    · rcases List.mem_cons.mp hq with rfl | hq
      · rw [hp.offset]
        exact hle
      · have := ih q hq
        have := hfit.length
        omega

/-! ## Tokens that begin no anchor -/

/-- The kinds that begin an anchor. -/
def isAnchorKind (kind : Token.Kind) : Bool := kind == .classKeyword || kind == .namespaceKeyword

theorem begins_of_kind {tok : ClassOutline.Token} (h : isAnchorKind tok.kind = false) (r : List ClassOutline.Token) :
    begins (tok :: r) = false := by
  obtain ⟨hc, hn⟩ := Bool.or_eq_false_iff.mp h
  rw [begins, classHere?, if_neg (beq_eq_false_iff_ne.mp hc), opening?, if_neg (beq_eq_false_iff_ne.mp hn)]
  rfl

theorem isAnchorKind_of_isTrivia {kind : Token.Kind} (h : kind.isTrivia = true) : isAnchorKind kind = false := by
  cases kind <;> first | rfl | cases h

/-- Tokens that begin no anchor are passed up to a place. -/
theorem passTo_append {u r : List Placed} {stop : Nat} (hu : ∀ q ∈ u, isAnchorKind q.token.kind = false)
    (hr : ∀ q ∈ r, stop ≤ q.offset) : passTo stop (u ++ r) = some (u.dropWhile (·.offset < stop) ++ r) := by
  induction u with
  | nil =>
    cases r with
    | nil => rfl
    | cons q r => rw [List.nil_append, passTo, if_pos (hr q (by simp)), List.dropWhile_nil, List.nil_append]
  | cons p u ih =>
    obtain ⟨hp, hu⟩ := List.forall_mem_cons.mp hu
    rw [List.cons_append, passTo]
    by_cases hs : stop ≤ p.offset
    · rw [if_pos hs, List.dropWhile_cons_of_neg (by simpa using hs), List.cons_append]
    · rw [if_neg hs, tokensOf_cons, begins_of_kind hp, List.dropWhile_cons_of_pos (by simpa using hs)]
      exact ih hu

theorem passTo_skip {u r : List Placed} {stop : Nat}
    (hu : ∀ q ∈ u, isAnchorKind q.token.kind = false ∧ q.offset < stop) : passTo stop (u ++ r) = passTo stop r := by
  induction u with
  | nil => rfl
  | cons p u ih =>
    obtain ⟨⟨hp, hlt⟩, hu⟩ := List.forall_mem_cons.mp hu
    rw [List.cons_append, passTo, if_neg (by omega), tokensOf_cons, begins_of_kind hp]
    exact ih hu

theorem passTo_of_le {stop : Nat} (h : ∀ q ∈ ps, stop ≤ q.offset) : passTo stop ps = some ps :=
  passTo_append (u := []) (by simp) h

theorem Gap.isAnchorKind {gap : List Placed} (h : Gap source pos t gap) : ∀ q ∈ gap, isAnchorKind q.token.kind = false :=
  fun q hq => isAnchorKind_of_isTrivia (h.trivia q hq)

/-! ## Leaves -/

theorem lay_leaf {kind : Kind} (hkind : kind ≠ .classDeclaration) (role : Option Role) (span : Span) :
    lay source (.leaf kind role span) ps = passTo span.stop.offset ps := by
  rw [Node.leaf, lay, beq_false_of_ne hkind]
  split
  · rfl
  · simp only [Bool.false_eq_true, if_false, layAll, Option.bind_some]

theorem layAll_append (ns ms : List Node) (ps : List Placed) :
    layAll source .absent (ns ++ ms) ps = (layAll source .absent ns ps).bind (layAll source .absent ms) := by
  induction ns generalizing ps with
  | nil => rw [List.nil_append, layAll, Option.bind_some]
  | cons n ns ih =>
    rw [List.cons_append, layAll, layAll, Option.bind_assoc]
    exact congrArg _ (funext fun q => ih q)

/-- Leaves that end before the tokens they are followed by take none of them. -/
theorem layAll_leaves {ns : List Node} {u r : List Placed}
    (hns : ∀ n ∈ ns, ∃ kind span, n = .leaf kind none span ∧ kind ≠ .classDeclaration ∧
      ∀ q ∈ r, span.stop.offset ≤ q.offset)
    (hu : ∀ q ∈ u, isAnchorKind q.token.kind = false) :
    ∃ u', u' <:+ u ∧ layAll source .absent ns (u ++ r) = some (u' ++ r) := by
  induction ns generalizing u with
  | nil => exact ⟨u, List.suffix_rfl, by rw [layAll]⟩
  | cons n ns ih =>
    obtain ⟨⟨kind, span, rfl, hkind, hstop⟩, hrest⟩ := List.forall_mem_cons.mp hns
    have hsuffix : u.dropWhile (·.offset < span.stop.offset) <:+ u := List.dropWhile_suffix _
    obtain ⟨u', hu', hlaid⟩ := ih hrest fun q hq => hu q (hsuffix.mem hq)
    refine ⟨u', hu'.trans hsuffix, ?_⟩
    rw [layAll, lay_leaf hkind, passTo_append hu hstop, Option.bind_some, hlaid]

/-- The comments before a token are laid over its gap. -/
theorem layAll_before {gap : List Placed} (hgap : Gap source pos t gap) (hbefore : CommentsBefore t.span.first.offset t.before)
    (hp : ∀ q ∈ ps, t.span.first.offset ≤ q.offset) :
    ∃ gap', gap' <:+ gap ∧ layAll source .absent t.before (gap ++ ps) = some (gap' ++ ps) := by
  refine layAll_leaves (fun n hn => ?_) hgap.isAnchorKind
  obtain ⟨span, rfl, hstop⟩ := hbefore n hn
  exact ⟨.comment, span, rfl, by decide, fun q hq => Nat.le_trans hstop (hp q hq)⟩

end ClassOutline.Plain
