import ClassOutline.Proofs.Reprint
/-
  ClassOutline.Proofs.Rediscovery — classes without members are found again when printed.

  The printed text of such a class is its documentation, a header line and two braces. It is
  read from left to right, token by token: `Reads` says that a text ends at a stop, that the
  namespace is the same behind it, and which names are found in it. White space, words,
  separated names, marks and comments keep what is found behind them (`Reads.cons`); a
  `class` keyword and a name add that name (`Reads.className`).

  The documentation is one comment whatever its lines hold: canonical white space takes only
  blanks from their ends, and no line ends the comment (`reads_doc`). So each class stands
  alone, however it is indented, and `entries_of_bare` follows for whole files.
-/

namespace ClassOutline.Discovery

open ClassOutline.Text ClassOutline.Token

/-! ## Reading from left to right -/

/-- A text that ends at a stop. Wherever it stands in code, behind no operator, these names are
    found in it and the namespace stays. -/
def Reads (names : List Text) (r : Text) : Prop :=
  ∀ s : LexState, s.Alike .code → ∃ ts, Lexes s r ts ∧ EndsAtStop ts ∧ ∀ scope,
    (run ⟨.seeking, scope⟩ ts).map entry = names.map (scope, ·) ∧ finish ⟨.seeking, scope⟩ ts = ⟨.seeking, scope⟩

/-- A token that begins no anchor. -/
def IsNeutral (tok : Token) : Prop := tok.kind ≠ .namespaceKeyword ∧ tok.kind ≠ .classKeyword

theorem finish_neutral (scope : Text) {tok : Token} (h : IsNeutral tok) (ts : List Token) :
    finish ⟨.seeking, scope⟩ (tok :: ts) = finish ⟨.seeking, scope⟩ ts := by
  have hseek : seek scope tok = ⟨.seeking, scope⟩ := by
    obtain ⟨hn, hc⟩ := h
    unfold seek
    split
    · exact absurd ‹_› hn
    · exact absurd ‹_› hc
    · rfl
  show finish (seek scope tok) ts = _
  rw [hseek]

theorem inCode_of_alike {s : LexState} (h : s.Alike .code) : s.inCode = true := h.1

theorem ofWord_of_alike {s : LexState} (h : s.Alike .code) (w : Text) : Kind.ofWord s.previous w = Kind.ofWord none w :=
  ofWord_eq_of_any h.2 w

/-- Behind white space or a comment nothing has changed that matters. -/
theorem alike_next_trivia {s : LexState} (h : s.Alike .code) {tok : Token} (ht : tok.kind.isTrivia = true) :
    (s.next tok).Alike .code := by
  have hcode : tok.kind.inCodeAfter s.inCode = s.inCode := by
    cases hk : tok.kind <;> simp_all [Kind.isTrivia, Kind.inCodeAfter]
  refine ⟨hcode.trans h.1, ?_⟩
  show (if tok.kind.isTrivia then s.previous else some tok.text).any _ = _
  rw [if_pos ht]
  exact h.2

/-- Behind a word or a mark that is no operator it is the same. -/
theorem alike_next_plain {s : LexState} (h : s.inCode = true) {tok : Token} (hk : tok.kind.inCodeAfter true = true)
    (ht : tok.kind.isTrivia = false) (ho : nameOperators.contains tok.text = false) : (s.next tok).Alike .code := by
  refine ⟨?_, ?_⟩
  · show tok.kind.inCodeAfter s.inCode = true
    rw [h, hk]
  · show (if tok.kind.isTrivia then s.previous else some tok.text).any _ = _
    rw [ht, if_neg Bool.false_ne_true, Option.any_some, ho]
    rfl

section

variable {names : List Text} {r : Text}

/-- A neutral token before a text. -/
theorem Reads.cons (h : Reads names r) {t : Text}
    (hfirst : ∀ s : LexState, s.Alike .code → ∃ tok, IsNeutral tok ∧ (s.next tok).Alike .code ∧
      ∀ ts, Lexes (s.next tok) r ts → Lexes s t (tok :: ts)) : Reads names t := by
  intro s hs
  obtain ⟨tok, hneutral, hnext, hlex⟩ := hfirst s hs
  obtain ⟨ts, hts, hends, hread⟩ := h _ hnext
  refine ⟨tok :: ts, hlex ts hts, hends.cons tok, ?_⟩
  intro scope
  rw [run_seeking_neutral scope hneutral.1 hneutral.2, finish_neutral scope hneutral]
  exact hread scope

theorem Reads.blank (h : Reads names r) {c : Char} (hc : isCodeBlank c = true) (hr : r.head?.any isCodeBlank = false) :
    Reads names (c :: r) := by
  refine h.cons fun s hs => ⟨⟨.whitespace, [c], s.line⟩, ⟨nofun, nofun⟩, alike_next_trivia hs rfl, ?_⟩
  intro ts hts
  exact lexes_blank (inCode_of_alike hs) hc hr hts

theorem Reads.keyword (h : Reads names r) {w : Text} (hw : IsName w) (hkind : Kind.ofWord none w = .keyword)
    (hr : r.head?.any isNameChar = false) : Reads names (w ++ r) := by
  refine h.cons fun s hs => ⟨⟨.keyword, w, s.line⟩, ⟨nofun, nofun⟩, ?_, ?_⟩
  · exact alike_next_plain (inCode_of_alike hs) rfl rfl (not_operator_of_isName hw)
  · intro ts hts
    exact lexes_word (inCode_of_alike hs) hw ((ofWord_of_alike hs w).trans hkind) hr hts

theorem Reads.stop (h : Reads names r) {c : Char} (hc : c ∈ stops) : Reads names (c :: r) := by
  refine h.cons fun s hs => ⟨⟨.punct, [c], s.line⟩, ⟨nofun, nofun⟩, ?_, ?_⟩
  · exact alike_next_plain (inCode_of_alike hs) rfl rfl (eq_false_of_stop (fun d => nameOperators.contains [d]) hc rfl)
  · intro ts hts
    exact lexes_stop (inCode_of_alike hs) hc hts

theorem Reads.comma (h : Reads names r) : Reads names (',' :: r) := by
  refine h.cons fun s hs => ⟨⟨.punct, [','], s.line⟩, ⟨nofun, nofun⟩, ?_, ?_⟩
  · exact alike_next_plain (inCode_of_alike hs) rfl rfl rfl
  · intro ts hts
    refine Lexes.cons (t := []) ?_ hts
    rw [lexeme, if_pos (inCode_of_alike hs)]
    rfl

theorem reads_lastStop {c : Char} (hc : c ∈ stops) : Reads [] [c] := by
  intro s hs
  refine ⟨[⟨.punct, [c], s.line⟩], lexes_stop (inCode_of_alike hs) hc (Lexes.done _), ?_, ?_⟩
  · exact ⟨[], _, rfl, rfl, c, hc, rfl⟩
  · intro scope
    exact ⟨rfl, rfl⟩

/-- Behind a separator every word is a name, reserved or not. -/
theorem Reads.segments (h : Reads names r) (hr : r.head?.any isNameChar = false) {ws : List Text}
    (hws : ∀ w ∈ ws, IsName w) : Reads names (ws.flatMap ('\\' :: ·) ++ r) := by
  induction ws with
  | nil => exact h
  | cons w ws ih =>
    obtain ⟨hw, hws⟩ := List.forall_mem_cons.mp hws
    have hhead : (ws.flatMap ('\\' :: ·) ++ r).head?.any isNameChar = false := by
      cases ws with
      | nil => exact hr
      | cons v ws => rfl
    intro s hs
    have hcode := inCode_of_alike hs
    let s₁ := s.next ⟨.nsSeparator, ['\\'], s.line⟩
    let word : Token := ⟨.identifier, w, s₁.line⟩
    have hnext : (s₁.next word).Alike .code := alike_next_plain hcode rfl rfl (not_operator_of_isName hw)
    obtain ⟨ts, hts, hends, hread⟩ := ih hws _ hnext
    have hlex := lexes_separator hcode (lexes_word (s := s₁) hcode hw rfl hhead hts)
    rw [List.flatMap_cons, List.append_assoc]
    exact ⟨_, hlex, (hends.cons _).cons _, hread⟩

/-- The keyword, a blank and a name. -/
theorem Reads.className (h : Reads names r) (hr : r.head?.any isNameChar = false) {keyword : Text}
    (hk : IsName keyword) (hclass : Kind.ofWord none keyword = .classKeyword) {w : Text} (hw : IsName w)
    (hkind : Kind.ofWord none w = .identifier) : Reads (w :: names) (keyword ++ ' ' :: (w ++ r)) := by
  intro s hs
  have hcode := inCode_of_alike hs
  let s₁ := s.next ⟨.classKeyword, keyword, s.line⟩
  let s₂ := s₁.next ⟨.whitespace, [' '], s₁.line⟩
  have hs₁ : s₁.Alike .code := alike_next_plain hcode rfl rfl (not_operator_of_isName hk)
  have hs₂ : s₂.Alike .code := alike_next_trivia hs₁ rfl
  have hnext : (s₂.next ⟨.identifier, w, s₂.line⟩).Alike .code :=
    alike_next_plain hcode rfl rfl (not_operator_of_isName hw)
  obtain ⟨ts, hts, hends, hread⟩ := h _ hnext
  have hblank : (w ++ r).head?.any isCodeBlank = false := by
    obtain ⟨c, t, rfl, hc, -⟩ := hw
    exact not_isCodeBlank_of_isNameStart hc
  have hname := lexes_word (s := s₂) hcode hw ((ofWord_of_alike hs₂ w).trans hkind) hr hts
  have hspace := lexes_blank (s := s₁) hcode rfl hblank hname
  have hlex := lexes_word hcode hk ((ofWord_of_alike hs keyword).trans hclass) rfl hspace
  refine ⟨_, hlex, ((hends.cons _).cons _).cons _, ?_⟩
  intro scope
  obtain ⟨hrun, hfinish⟩ := hread scope
  refine ⟨?_, hfinish⟩
  show entry ⟨scope, w, s₂.line⟩ :: (run ⟨.seeking, scope⟩ ts).map entry = (scope, w) :: _
  rw [hrun]
  rfl

/-- A comment reaches to the first mark that ends one. -/
theorem Reads.comment (h : Reads names r) {body : Text}
    (hbody : beforeFirst? ['*', '/'] (body ++ '*' :: '/' :: r) = some body) :
    Reads names ('/' :: '*' :: (body ++ '*' :: '/' :: r)) := by
  let kind := if isDocComment ('/' :: '*' :: (body ++ '*' :: '/' :: r)) then Kind.docComment else .comment
  have htrivia : kind.isTrivia = true := by
    show (if _ then Kind.docComment else .comment).isTrivia = true
    split <;> rfl
  have hneutral : kind ≠ .namespaceKeyword ∧ kind ≠ .classKeyword := by
    constructor <;> intro he <;> rw [he] at htrivia <;> cases htrivia
  refine h.cons fun s hs => ⟨⟨kind, '/' :: '*' :: (body ++ ['*', '/']), s.line⟩, hneutral,
    alike_next_trivia hs htrivia, ?_⟩
  intro ts hts
  have hassoc : '*' :: (body ++ '*' :: '/' :: r) = '*' :: (body ++ ['*', '/']) ++ r := by simp
  have hlength : blockCommentLength ('/' :: '*' :: (body ++ '*' :: '/' :: r)) =
      ('/' :: '*' :: (body ++ ['*', '/'])).length := by
    have hfirst : beforeFirst? "*/".toList (('/' :: '*' :: (body ++ '*' :: '/' :: r)).drop 2) = some body := hbody
    rw [blockCommentLength, hfirst]
    simp
  rw [hassoc]
  refine Lexes.cons (t := '*' :: (body ++ ['*', '/'])) ?_ hts
  rw [← hassoc, ← hlength, lexeme, if_pos (inCode_of_alike hs)]
  rfl

end

end ClassOutline.Discovery

namespace ClassOutline.Text

/-! ## Lines without a part -/

theorem eq_false_of_any {p : Char → Bool} {t : Text} (h : t.any p = false) : ∀ c ∈ t, p c = false := by
  intro c hc
  exact Bool.eq_false_iff.mpr (List.any_eq_false.mp h c hc)

/-- A part that lacks some character is on one side of it. -/
theorem contains_stop {part : Text} {c : Char} (hne : part ≠ []) (h : c ∉ part) (a x : Text) :
    contains part (a ++ c :: x) = (contains part a || contains part x) := by
  have hstart : startsWith (c :: x) part = false := by
    rw [← List.nil_append (c :: x), Token.startsWith_stop h]
    cases part with
    | nil => exact absurd rfl hne
    | cons d part => rfl
  rw [contains, contains, contains, Token.beforeFirst?_stop hne h, beforeFirst?_cons, hstart]
  cases beforeFirst? part a <;> cases beforeFirst? part x <;> rfl

theorem contains_trimEnd {part : Text} (hne : part ≠ []) {p : Char → Bool} (hp : ∀ c ∈ part, p c = false) {t : Text}
    (h : contains part t = false) : contains part (trimEnd p t) = false := by
  obtain ⟨b, hb, ht⟩ := eq_trimEnd_append p t
  cases b with
  | nil =>
    rw [List.append_nil] at ht
    exact ht ▸ h
  | cons d b =>
    have hd : d ∉ part := by
      intro hmem
      have := hb d (by simp)
      rw [hp d hmem] at this
      cases this
    rw [ht, contains_stop hne hd, Bool.or_eq_false_iff] at h
    exact h.1

/-- A line without the part does not keep it from being found behind. -/
theorem beforeFirst?_line {part a x b : Text} (hne : part ≠ []) (hn : '\n' ∉ part) (ha : contains part a = false)
    (hx : beforeFirst? part x = some b) : beforeFirst? part (a ++ '\n' :: x) = some (a ++ '\n' :: b) := by
  have hnone : beforeFirst? part a = none := Option.isNone_iff_eq_none.mp (by simpa [contains] using ha)
  have hstart : startsWith ('\n' :: x) part = false := by
    rw [← List.nil_append ('\n' :: x), Token.startsWith_stop hn]
    cases part with
    | nil => exact absurd rfl hne
    | cons d part => rfl
  rw [Token.beforeFirst?_stop hne hn, hnone, Option.none_or, beforeFirst?_cons, hstart, hx]
  rfl

end ClassOutline.Text

namespace ClassOutline

open ClassOutline.Text ClassOutline.Token ClassOutline.Discovery ClassOutline.Layout

/-! ## Classes without members -/

/-- Names with separators between them, reserved or not. -/
def IsReference (p : Text) : Prop :=
  ∃ (w : Text) (ws : List Text), IsName w ∧ (∀ v ∈ ws, IsName v) ∧ p = w ++ ws.flatMap ('\\' :: ·)

/-- A class of no members whose header is made of names, and whose documentation neither ends
    its comment nor breaks its lines. -/
structure IsBare (c : ClassModel) : Prop where
  constants : c.constants.entries = []
  properties : c.properties = []
  methods : c.methods = []
  name : IsName c.name
  notReserved : Kind.ofWord none c.name = .identifier
  parent : ∀ p ∈ c.parent, IsReference p
  interfaces : ∀ p ∈ c.interfaces.items, IsReference p
  doc : ∀ l ∈ c.doc, contains "*/".toList l = false ∧ ∀ d ∈ l, isControl d = false

def extendsClause (c : ClassModel) : Text := match c.parent with | some p => " extends \\".toList ++ p | none => []

def implementsClause (c : ClassModel) : Text :=
  if c.interfaces.items.isEmpty then []
  else " implements ".toList ++ join ", ".toList (c.interfaces.items.map ('\\' :: ·))

/-- The line of a class header behind the documentation. -/
def headLine (c : ClassModel) : Text :=
  textIf c.isAbstract "abstract " ++ (textIf c.isFinal "final " ++
    ("class ".toList ++ (c.name ++ (extendsClause c ++ implementsClause c))))

/-- An empty body. -/
def braces : Text := "\n\x7b\n\x7d".toList

theorem classText_of_isBare {c : ClassModel} (h : IsBare c) (u : IndentUnit) :
    classText u c = DocComment.block c.doc ++ (headLine c ++ braces) := by
  have hsections : sections u c = [] := by
    simp [sections, NameMap.isEmpty, h.constants, h.properties, h.methods]
  have hbraces : "\n\x7b\n".toList ++ ['}'] = braces := by decide
  have hheader : classHeader c = DocComment.block c.doc ++ headLine c := by
    cases hp : c.parent <;>
      simp only [classHeader, headLine, extendsClause, implementsClause, hp, List.append_assoc]
  simp only [classText, hsections, hheader, List.isEmpty_nil, if_true, List.append_nil, List.append_assoc, hbraces]

/-! ## Headers -/

theorem isName_iff {w : Text} : IsName w ↔ w.head?.any isNameStart = true ∧ w.all isNameChar = true := by
  constructor
  · intro h
    refine ⟨?_, List.all_eq_true.mpr h.all⟩
    obtain ⟨c, r, rfl, hc, -⟩ := h
    exact hc
  · intro h
    obtain ⟨hhead, hall⟩ := h
    cases w with
    | nil => cases hhead
    | cons c r => exact ⟨c, r, rfl, hhead, fun d hd => List.all_eq_true.mp hall d (List.mem_cons_of_mem c hd)⟩

instance (w : Text) : Decidable (IsName w) := decidable_of_iff _ isName_iff.symm

theorem IsName.head_not_blank {w : Text} (hw : IsName w) (r : Text) : (w ++ r).head?.any isCodeBlank = false := by
  obtain ⟨c, t, rfl, hc, -⟩ := hw
  exact not_isCodeBlank_of_isNameStart hc

section

variable {names : List Text} {r : Text}

/-- A reserved word and a blank. -/
theorem reads_modifier (h : Reads names r) (hr : r.head?.any isCodeBlank = false) {word : Text} (hw : IsName word)
    (hkind : Kind.ofWord none word = .keyword) : Reads names (word ++ ' ' :: r) :=
  (h.blank rfl hr).keyword hw hkind rfl

theorem reads_clause (h : Reads names r) (hr : r.head?.any isCodeBlank = false) {word : Text} (hw : IsName word)
    (hkind : Kind.ofWord none word = .keyword) : Reads names (' ' :: (word ++ ' ' :: r)) :=
  (reads_modifier h hr hw hkind).blank rfl (IsName.head_not_blank hw _)

theorem reads_reference (h : Reads names r) (hr : r.head?.any isNameChar = false) {p : Text} (hp : IsReference p) :
    Reads names ('\\' :: p ++ r) := by
  obtain ⟨w, ws, hw, hws, rfl⟩ := hp
  have hall : ∀ v ∈ w :: ws, IsName v := List.forall_mem_cons.mpr ⟨hw, hws⟩
  exact h.segments hr hall

theorem reads_references (h : Reads names r) (hr : r.head?.any isNameChar = false) {ps : List Text}
    (hps : ∀ p ∈ ps, IsReference p) (hne : ps ≠ []) :
    Reads names (join [',', ' '] (ps.map ('\\' :: ·)) ++ r) := by
  induction ps with
  | nil => exact absurd rfl hne
  | cons p ps ih =>
    obtain ⟨hp, hps⟩ := List.forall_mem_cons.mp hps
    cases ps with
    | nil =>
      rw [List.map_singleton, join, List.intercalate_singleton]
      exact reads_reference h hr hp
    | cons q ps =>
      have hrest := ih hps (List.cons_ne_nil q ps)
      have hhead : (join [',', ' '] ((q :: ps).map ('\\' :: ·)) ++ r).head?.any isCodeBlank = false := by
        cases ps <;> rfl
      have hjoin : join [',', ' '] ((p :: q :: ps).map ('\\' :: ·)) ++ r =
          '\\' :: p ++ ',' :: ' ' :: (join [',', ' '] ((q :: ps).map ('\\' :: ·)) ++ r) := by
        simp [join, List.intercalate_cons_cons]
      rw [hjoin]
      exact reads_reference (hrest.blank rfl hhead).comma rfl hp

end

theorem reads_braces : Reads [] braces := by
  have hbraces : braces = ['\n', '{', '\n', '}'] := by decide
  rw [hbraces]
  have hlast : Reads [] ['\n', '}'] := (reads_lastStop (by decide)).blank rfl rfl
  exact (hlast.stop (by decide)).blank rfl rfl

/-- The words of a header are reserved and no keyword of an anchor, but for `class`. -/
theorem isName_of_header :
    (∀ word ∈ ["abstract".toList, "final".toList, "extends".toList, "implements".toList],
      IsName word ∧ Kind.ofWord none word = .keyword) ∧
    IsName "class".toList ∧ Kind.ofWord none "class".toList = .classKeyword := by
  decide

/-- A header goes on, or ends, with a blank. -/
def IsTail (r : Text) : Prop := Reads [] r ∧ r.head?.any isNameChar = false

theorem isTail_braces : IsTail braces := ⟨reads_braces, by decide⟩

theorem isTail_clause (word : Text) {r : Text} (hw : word ∈ ["abstract".toList, "final".toList, "extends".toList, "implements".toList])
    (h : Reads [] r) (hr : r.head?.any isCodeBlank = false) : IsTail (' ' :: (word ++ ' ' :: r)) := by
  obtain ⟨hname, hkind⟩ := isName_of_header.1 word hw
  exact ⟨reads_clause h hr hname hkind, rfl⟩

theorem isTail_implementsClause {c : ClassModel} (h : IsBare c) : IsTail (implementsClause c ++ braces) := by
  unfold implementsClause
  split
  · exact isTail_braces
  · rename_i hne
    have hword : " implements ".toList = ' ' :: ("implements".toList ++ [' ']) ∧ ", ".toList = [',', ' '] := by
      decide
    obtain ⟨q, qs, hq⟩ := List.exists_cons_of_ne_nil (fun he => hne (List.isEmpty_iff.mpr he))
    have hnames := reads_references isTail_braces.1 isTail_braces.2 h.interfaces (hq ▸ List.cons_ne_nil q qs)
    have hblank : (join [',', ' '] (c.interfaces.items.map ('\\' :: ·)) ++ braces).head?.any isCodeBlank = false := by
      rw [hq]
      cases qs <;> rfl
    have htail := isTail_clause "implements".toList (by simp) hnames hblank
    rw [hword.1, hword.2]
    simpa only [List.cons_append, List.append_assoc, List.nil_append] using htail

theorem isTail_extendsClause {c : ClassModel} (h : IsBare c) :
    IsTail (extendsClause c ++ (implementsClause c ++ braces)) := by
  have htail := isTail_implementsClause h
  unfold extendsClause
  split
  · rename_i p hp
    have hword : " extends \\".toList = ' ' :: ("extends".toList ++ [' ', '\\']) := by decide
    have hparent := reads_reference htail.1 htail.2 (h.parent p hp)
    have hclause := isTail_clause "extends".toList (by simp) hparent rfl
    rw [hword]
    simpa only [List.cons_append, List.append_assoc, List.nil_append] using hclause
  · exact htail

/-- A header line ends before its braces, and in it the name of the class is found. -/
theorem reads_headLine {c : ClassModel} (h : IsBare c) :
    Reads [c.name] (headLine c ++ braces) ∧ (headLine c ++ braces).head?.any isCodeBlank = false := by
  obtain ⟨htail, hhead⟩ := isTail_extendsClause h
  obtain ⟨hkeywords, hclass, hkind⟩ := isName_of_header
  have hwords : "class ".toList = "class".toList ++ [' '] ∧ "final ".toList = "final".toList ++ [' '] ∧
      "abstract ".toList = "abstract".toList ++ [' '] := by
    decide
  have hmodifier : ∀ (flag : Bool) (word : Text) {r : Text},
      word ∈ ["abstract".toList, "final".toList, "extends".toList, "implements".toList] →
      Reads [c.name] r ∧ r.head?.any isCodeBlank = false →
      Reads [c.name] ((if flag then word ++ [' '] else []) ++ r) ∧
        ((if flag then word ++ [' '] else []) ++ r).head?.any isCodeBlank = false := by
    intro flag word r hw hr
    obtain ⟨hname, hkeyword⟩ := hkeywords word hw
    cases flag with
    | false => exact hr
    | true =>
      rw [if_pos rfl, List.append_assoc]
      exact ⟨reads_modifier hr.1 hr.2 hname hkeyword, IsName.head_not_blank hname _⟩
  have hnamed := htail.className hhead hclass hkind h.name h.notReserved
  have hfinal := hmodifier c.isFinal "final".toList (by simp) ⟨hnamed, IsName.head_not_blank hclass _⟩
  have habstract := hmodifier c.isAbstract "abstract".toList (by simp) hfinal
  rw [headLine, textIf, textIf, hwords.1, hwords.2.1, hwords.2.2]
  simpa only [List.cons_append, List.append_assoc, List.nil_append] using habstract

/-! ## Canonical white space of a header -/

theorem tidy_line {l : Text} (hl : ∀ c ∈ l, isControl c = false) (b : Text) :
    tidy (l ++ '\n' :: b) = trimEnd isIndent l ++ '\n' :: tidy b := by
  have hkept := fun c hc => isKept_of_not_isControl (hl c hc)
  have hlast : l.getLast? ≠ some '\r' := fun he => (hkept '\r' (List.mem_of_getLast? he)).2.1 rfl
  rw [tidy_append hlast, tidy_of_line hkept]

theorem IsReference.isControl_of_mem {p : Text} (h : IsReference p) : ∀ c ∈ p, isControl c = false := by
  obtain ⟨w, ws, hw, hws, rfl⟩ := h
  intro c hc
  rcases List.mem_append.mp hc with hc | hc
  · exact isControl_of_isNameChar (hw.all c hc)
  · obtain ⟨v, hv, hc⟩ := List.mem_flatMap.mp hc
    rcases List.mem_cons.mp hc with rfl | hc
    · rfl
    · exact isControl_of_isNameChar ((hws v hv).all c hc)

theorem isControl_of_mem_headLine {c : ClassModel} (h : IsBare c) : ∀ d ∈ headLine c, isControl d = false := by
  have hif : ∀ (flag : Bool) {t : String}, t.toList.any isControl = false →
      ∀ d ∈ textIf flag t, isControl d = false := by
    intro flag t ht
    cases flag with
    | false => simp [textIf]
    | true => exact eq_false_of_any ht
  have hparent : ∀ d ∈ extendsClause c, isControl d = false := by
    unfold extendsClause
    split
    · rename_i p hp
      exact List.forall_mem_append.mpr ⟨eq_false_of_any rfl, (h.parent p hp).isControl_of_mem⟩
    · simp
  have hinterfaces : ∀ d ∈ implementsClause c, isControl d = false := by
    unfold implementsClause
    split
    · simp
    · refine List.forall_mem_append.mpr ⟨eq_false_of_any rfl, forall_mem_join (eq_false_of_any rfl) ?_⟩
      intro t ht
      obtain ⟨p, hp, rfl⟩ := List.mem_map.mp ht
      exact List.forall_mem_cons.mpr ⟨rfl, (h.interfaces p hp).isControl_of_mem⟩
  have hname : ∀ d ∈ c.name, isControl d = false := fun d hd => isControl_of_isNameChar (h.name.all d hd)
  simp only [headLine, List.forall_mem_append]
  exact ⟨hif _ rfl, hif _ rfl, eq_false_of_any rfl, hname, hparent, hinterfaces⟩

/-- A text whose last character may stand in a name. -/
def EndsInName (t : Text) : Prop := t.getLast?.any isNameChar = true

theorem EndsInName.append {t : Text} (h : EndsInName t) (a : Text) : EndsInName (a ++ t) := by
  unfold EndsInName at h ⊢
  rw [List.getLast?_append]
  cases ht : t.getLast? with
  | none =>
    rw [ht] at h
    cases h
  | some d =>
    rw [ht] at h
    exact h

theorem endsInName_of_isName {w : Text} (h : IsName w) : EndsInName w := by
  have hne : w ≠ [] := by
    obtain ⟨c, r, rfl, -⟩ := h
    exact List.cons_ne_nil c r
  rw [EndsInName, List.getLast?_eq_some_getLast hne, Option.any_some]
  exact h.all _ (List.getLast_mem hne)

theorem IsReference.endsInName {p : Text} (h : IsReference p) : EndsInName p := by
  obtain ⟨w, ws, hw, hws, rfl⟩ := h
  induction ws using List.reverseRecOn with
  | nil => simpa using endsInName_of_isName hw
  | append_singleton ws v _ =>
    have hv := endsInName_of_isName (hws v (by simp))
    rw [List.flatMap_append, List.flatMap_singleton]
    exact ((hv.append ['\\']).append _).append _

theorem endsInName_join {ps : List Text} (hps : ∀ p ∈ ps, IsReference p) (hne : ps ≠ []) (sep : Text) :
    EndsInName (join sep (ps.map ('\\' :: ·))) := by
  induction ps with
  | nil => exact absurd rfl hne
  | cons p ps ih =>
    obtain ⟨hp, hps⟩ := List.forall_mem_cons.mp hps
    cases ps with
    | nil =>
      rw [List.map_singleton, join, List.intercalate_singleton]
      exact hp.endsInName.append ['\\']
    | cons q ps =>
      rw [List.map_cons, List.map_cons, join, List.intercalate_cons_cons]
      exact (ih hps (List.cons_ne_nil q ps)).append _

theorem endsInName_headLine {c : ClassModel} (h : IsBare c) : EndsInName (headLine c) := by
  have hclauses : EndsInName (c.name ++ (extendsClause c ++ implementsClause c)) := by
    unfold implementsClause
    split
    · rw [List.append_nil]
      unfold extendsClause
      split
      · rename_i p hp
        exact ((h.parent p hp).endsInName.append _).append _
      · rw [List.append_nil]
        exact endsInName_of_isName h.name
    · rename_i hne
      have hjoin := endsInName_join h.interfaces (fun he => hne (List.isEmpty_iff.mpr he)) ", ".toList
      exact ((hjoin.append _).append _).append _
  exact ((hclauses.append _).append _).append _

theorem tidy_headLine {c : ClassModel} (h : IsBare c) : tidy (headLine c ++ braces) = headLine c ++ braces := by
  have hbraces : braces = '\n' :: "\x7b\n\x7d".toList ∧ tidy "\x7b\n\x7d".toList = "\x7b\n\x7d".toList := by
    decide
  obtain ⟨d, hlast, hd⟩ := (Option.any_eq_true _ _).mp (endsInName_headLine h)
  have hend := trimEnd_append hlast (not_isIndent_of_isNameChar hd) []
  rw [List.append_nil, show trimEnd isIndent [] = [] from rfl, List.append_nil] at hend
  rw [hbraces.1, tidy_line (isControl_of_mem_headLine h), hbraces.2, hend]

/-! ## Documentation -/

/-- A documented line in canonical white space. -/
def docLine (l : Text) : Text := trimEnd isIndent (" * ".toList ++ l) ++ ['\n']

/-- A documentation block in canonical white space. -/
def docText (ls : List Text) : Text :=
  if ls.isEmpty then [] else "/**\n".toList ++ (ls.map docLine).flatten ++ " */\n".toList

theorem tidy_blockLine {l : Text} (hl : ∀ c ∈ l, isControl c = false) (b : Text) :
    tidy (DocComment.blockLine l ++ b) = docLine l ++ tidy b := by
  have hblank : " *\n".toList = " *".toList ++ ['\n'] := rfl
  have htrim : trimEnd isIndent (" * ".toList ++ []) = trimEnd isIndent " *".toList := rfl
  unfold DocComment.blockLine docLine
  split
  · rename_i he
    rw [List.isEmpty_iff.mp he, htrim, hblank, List.append_assoc, List.append_assoc]
    exact tidy_line (eq_false_of_any rfl) b
  · rw [List.append_assoc _ ['\n'], List.append_assoc _ ['\n']]
    exact tidy_line (List.forall_mem_append.mpr ⟨eq_false_of_any rfl, hl⟩) b

theorem tidy_block {ls : List Text} (hls : ∀ l ∈ ls, ∀ c ∈ l, isControl c = false) (b : Text) :
    tidy (DocComment.block ls ++ b) = docText ls ++ tidy b := by
  have hlines : ∀ r, tidy ((ls.map DocComment.blockLine).flatten ++ r) = (ls.map docLine).flatten ++ tidy r := by
    intro r
    induction ls with
    | nil => rfl
    | cons l ls ih =>
      obtain ⟨hl, hls⟩ := List.forall_mem_cons.mp hls
      rw [List.map_cons, List.flatten_cons, List.append_assoc, tidy_blockLine hl, ih hls, List.map_cons,
        List.flatten_cons, List.append_assoc]
  obtain ⟨hopen, hclose, hopening, hclosing⟩ : "/**\n".toList = "/**".toList ++ ['\n'] ∧
      " */\n".toList = " */".toList ++ ['\n'] ∧ trimEnd isIndent "/**".toList = "/**".toList ∧
      trimEnd isIndent " */".toList = " */".toList := by
    decide
  unfold DocComment.block docText
  split
  · rfl
  · rw [hopen, hclose]
    simp only [List.append_assoc, List.cons_append, List.nil_append]
    rw [tidy_line (eq_false_of_any rfl), hlines, tidy_line (eq_false_of_any rfl), hopening, hclosing]

/-- No documented line ends the comment it stands in. -/
theorem contains_docLine {l : Text} (h : contains "*/".toList l = false) :
    contains "*/".toList (trimEnd isIndent (" * ".toList ++ l)) = false := by
  have hword : " * ".toList = " *".toList ++ [' '] ∧ contains "*/".toList " *".toList = false ∧
      ' ' ∉ "*/".toList ∧ "*/".toList ≠ [] := by
    decide
  obtain ⟨hstar, hnone, hmem, hne⟩ := hword
  refine contains_trimEnd hne (eq_false_of_any rfl) ?_
  rw [hstar, List.append_assoc, List.singleton_append, contains_stop hne hmem, hnone, h]
  rfl

/-- The comment ends behind the last documented line. -/
theorem beforeFirst?_docLines {ls : List Text} (hls : ∀ l ∈ ls, contains "*/".toList l = false) (r : Text) :
    beforeFirst? "*/".toList ((ls.map docLine).flatten ++ ' ' :: '*' :: '/' :: r) =
      some ((ls.map docLine).flatten ++ [' ']) := by
  induction ls with
  | nil => rfl
  | cons l ls ih =>
    obtain ⟨hl, hls⟩ := List.forall_mem_cons.mp hls
    rw [List.map_cons, List.flatten_cons, docLine]
    simp only [List.append_assoc, List.singleton_append]
    exact beforeFirst?_line (by decide) (by decide) (contains_docLine hl) (ih hls)

/-- Documentation is one comment, and nothing is found in it. -/
theorem reads_doc {names : List Text} {r : Text} (h : Reads names r) (hr : r.head?.any isCodeBlank = false)
    {ls : List Text} (hls : ∀ l ∈ ls, contains "*/".toList l = false) :
    Reads names (docText ls ++ r) ∧ (docText ls ++ r).head?.any isCodeBlank = false := by
  have hwords : "/**\n".toList = ['/', '*', '*', '\n'] ∧ " */\n".toList = [' ', '*', '/', '\n'] ∧
      "*/".toList = ['*', '/'] := by
    decide
  obtain ⟨hopening, hclosing, hend⟩ := hwords
  unfold docText
  split
  · exact ⟨h, hr⟩
  · have hlines := beforeFirst?_docLines hls ('\n' :: r)
    have hbody : beforeFirst? ['*', '/']
        ('*' :: '\n' :: ((ls.map docLine).flatten ++ [' ']) ++ '*' :: '/' :: '\n' :: r) =
        some ('*' :: '\n' :: ((ls.map docLine).flatten ++ [' '])) := by
      rw [hend] at hlines
      have hfirst := beforeFirst?_line (a := ['*']) (by decide) (by decide) (by decide) hlines
      simpa using hfirst
    have hcomment := (h.blank (c := '\n') rfl hr).comment hbody
    rw [hopening, hclosing]
    refine ⟨?_, rfl⟩
    simpa using hcomment

/-! ## Files -/

/-- A class without members is printed alike with every indentation, and stands alone. -/
theorem classPiece_of_isBare {c : ClassModel} (h : IsBare c) (o : Options) :
    classPiece o c = docText c.doc ++ (headLine c ++ braces) ∧
      Reads [c.name] (docText c.doc ++ (headLine c ++ braces)) ∧
      isClosed (docText c.doc ++ (headLine c ++ braces)) = true := by
  obtain ⟨hline, hhead⟩ := reads_headLine h
  obtain ⟨hread, hhead⟩ := reads_doc hline hhead fun l hl => (h.doc l hl).1
  obtain ⟨ts, hts, hends, -⟩ := hread .code ⟨rfl, rfl⟩
  have hclosed : isClosed (docText c.doc ++ (headLine c ++ braces)) = true := by
    refine isClosed_of_endsAtStop hhead ?_
    rw [(lexes_codeTokens _).unique hts]
    exact hends
  refine ⟨?_, hread, hclosed⟩
  rw [classPiece, classText_of_isBare h, canonical_eq, tidy_block fun l hl => (h.doc l hl).2, tidy_headLine h,
    trim_of_isClosed hclosed]

theorem standsAlone_of_isBare {c : ClassModel} (h : IsBare c) (scope : Text) : StandsAlone scope c := by
  obtain ⟨hpiece, hread, hclosed⟩ := classPiece_of_isBare h {}
  obtain ⟨ts, hts, -, hscope⟩ := hread .code ⟨rfl, rfl⟩
  obtain ⟨hrun, hfinish⟩ := hscope scope
  rw [← (lexes_codeTokens _).unique hts] at hrun hfinish
  rw [StandsAlone, hpiece]
  refine ⟨hclosed, hrun, ?_⟩
  rw [scopeBehind, hfinish]

/-- In the printed file of classes without members just these classes are found, group by
    group and in order, each under its namespace, with every indentation. -/
theorem entries_of_bare {f : FileModel} (hscope : ∀ g ∈ f.groups.entries, g.1 = [] ∨ IsPath g.1)
    (hbare : ∀ g ∈ f.groups.entries, ∀ c ∈ g.2, IsBare c) {o : Options} (ho : o.openTag = true) :
    (classes (tokenize (file o f))).map entry = ungrouped f.classNames := by
  refine entries_file ho hscope ?_ ?_
  · intro g hg c hc
    rw [(classPiece_of_isBare (hbare g hg c hc) o).1, (classPiece_of_isBare (hbare g hg c hc) {}).1]
  · intro g hg c hc
    exact standsAlone_of_isBare (hbare g hg c hc) g.1

/-- A documented class whose header has reserved words for segments. -/
def bareClass : ClassModel :=
  { ClassModel.named "C".toList with
    isAbstract := true
    parent := some "P\\class".toList
    interfaces := .ofList ["I".toList, "namespace\\J".toList]
    doc := ["a * / class Z".toList, [], "b *".toList] }

def bareFile : FileModel :=
  ⟨⟨[("A\\B".toList, [bareClass]), ([], [.named "D".toList, .named "E".toList])], by decide⟩⟩

theorem entries_bareFile :
    (∀ g ∈ bareFile.groups.entries, g.1 = [] ∨ IsPath g.1) ∧
      (∀ g ∈ bareFile.groups.entries, ∀ c ∈ g.2, IsBare c) ∧
      ∀ n, (classes (tokenize (file ⟨.spaces n, true⟩ bareFile))).map entry =
        [("A\\B".toList, "C".toList), ([], "D".toList), ([], "E".toList)] := by
  have hpath : IsPath "A\\B".toList := ⟨"A".toList, ["B".toList], by decide⟩
  have hscope : ∀ g ∈ bareFile.groups.entries, g.1 = [] ∨ IsPath g.1 := by
    intro g hg
    rcases List.mem_pair.mp hg with rfl | rfl
    · exact Or.inr hpath
    · exact Or.inl rfl
  have hnamed : ∀ w : Text, IsName w → Kind.ofWord none w = .identifier → IsBare (.named w) := by
    intro w hw hkind
    exact ⟨rfl, rfl, rfl, hw, hkind, nofun, nofun, nofun⟩
  have hparent : IsReference "P\\class".toList := ⟨"P".toList, ["class".toList], by decide⟩
  have hinterface : IsReference "I".toList := ⟨"I".toList, [], by decide⟩
  have hreserved : IsReference "namespace\\J".toList := ⟨"namespace".toList, ["J".toList], by decide⟩
  have hclass : IsBare bareClass := by
    have hitems : bareClass.interfaces.items = ["I".toList, "namespace\\J".toList] := by decide
    refine ⟨rfl, rfl, rfl, by decide, by decide, ?_, ?_, ?_⟩
    · intro p hp
      obtain rfl := Option.some.inj hp
      exact hparent
    · rw [hitems]
      intro p hp
      rcases List.mem_pair.mp hp with rfl | rfl
      · exact hinterface
      · exact hreserved
    · have hdoc : ∀ l ∈ bareClass.doc, contains "*/".toList l = false ∧ l.any isControl = false := by decide
      intro l hl
      exact ⟨(hdoc l hl).1, eq_false_of_any (hdoc l hl).2⟩
  have hbare : ∀ g ∈ bareFile.groups.entries, ∀ c ∈ g.2, IsBare c := by
    intro g hg c hc
    rcases List.mem_pair.mp hg with rfl | rfl
    · rw [List.mem_singleton.mp hc]
      exact hclass
    · rcases List.mem_pair.mp hc with rfl | rfl
      · exact hnamed _ (by decide) (by decide)
      · exact hnamed _ (by decide) (by decide)
  refine ⟨hscope, hbare, ?_⟩
  intro n
  have hnames : ungrouped bareFile.classNames = [("A\\B".toList, "C".toList), ([], "D".toList), ([], "E".toList)] := by
    decide
  rw [← hnames]
  exact entries_of_bare hscope hbare rfl

end ClassOutline
