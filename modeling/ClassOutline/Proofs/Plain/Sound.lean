import ClassOutline.Proofs.Plain.Reading
import Mathlib.Data.List.Basic
/-
  ClassOutline.Proofs.Plain.Sound — sound readers and how they combine.

  A reader is sound if the nodes it gives lie over the tokens it takes, wherever these stand
  in the stream. Combinations of sound readers are sound, so that the proof for a reader is
  built the way the reader is.

  Two things depend on what stands around. Behind an operator the lexer takes every word for
  a name, so `SoundFrom` says on which side of an operator a reader begins and ends. And a
  name may be the word `class` or `namespace`, which is quiet only if no name and no brace
  follows: `SoundBefore` asks for a mark behind (`Shut`), and the reader that goes on
  starts with one (`Starts`).
-/

namespace ClassOutline.Plain

open ClassOutline.Text ClassOutline.Tree ClassOutline.Discovery Reader

/-! ## What a reader is held to -/

/-- Nodes that lie over the tokens from `ts` to `rest`, from `b` on and up to `b'`, which say
    whether an operator stands before. -/
def ReadsFrom (source : Text) (b b' : Bool) (ts : List Token) (ns : List Node) (rest : List Token) : Prop :=
  areLawful source ns = true → ∀ previous pos ps, behindOperator previous = b → Under source previous pos ts ps →
    ∃ previous' stop ps', behindOperator previous' = b' ∧ Step source pos ps ns previous' stop rest ps'

abbrev Reads (source : Text) : List Token → List Node → List Token → Prop := ReadsFrom source false false

def SoundAt (source : Text) (b b' : Bool) (r : Reader) (ts : List Token) : Prop :=
  ∀ ns rest, r ts = some (ns, rest) → ReadsFrom source b b' ts ns rest

def SoundFrom (source : Text) (b b' : Bool) (r : Reader) : Prop := ∀ ts, SoundAt source b b' r ts

abbrev Sound (source : Text) : Reader → Prop := SoundFrom source false false

/-- What is shut off from a name before it by a mark, which is no brace. -/
def Shut (ts : List Token) : Prop := ∃ t r, ts = t :: r ∧ t.lexeme = .mark ∧ t.text ≠ ['{']

def SoundBefore (source : Text) (r : Reader) : Prop :=
  ∀ ts ns rest, r ts = some (ns, rest) → Shut rest → Reads source ts ns rest

/-- What holds of the tokens that a reader does not refuse. -/
def Starts (P : List Token → Prop) (r : Reader) : Prop := ∀ ts ns rest, r ts = some (ns, rest) → P ts

variable {source : Text} {P : List Token → Prop} {b b' b'' : Bool} {ts mid rest : List Token} {ns ms : List Node}
  {r : Reader} {rs : List Reader}

/-! ## Readings -/

theorem ReadsFrom.nil : ReadsFrom source b b ts [] ts :=
  fun _ previous pos ps hb h => ⟨previous, pos, ps, hb, .nil h⟩

theorem ReadsFrom.append (h : ReadsFrom source b b' ts ns mid) (h' : ReadsFrom source b' b'' mid ms rest) :
    ReadsFrom source b b'' ts (ns ++ ms) rest := by
  intro hlawful previous pos ps hb hu
  obtain ⟨hns, hms⟩ := Bool.and_eq_true_iff.mp ((areLawful_append ns ms).symm.trans hlawful)
  obtain ⟨previous', stop, ps', hb', hstep⟩ := h hns previous pos ps hb hu
  obtain ⟨previous'', stop', ps'', hb'', hstep'⟩ := h' hms previous' stop ps' hb' hstep.under
  exact ⟨previous'', stop', ps'', hb'', hstep.append hstep'⟩

/-- The kinds whose nodes are laid as their children are. -/
def isOrdinary (kind : Kind) : Bool := kind != .classDeclaration && kind != .useDeclaration

theorem ReadsFrom.group {kind : Kind} (hkind : isOrdinary kind = true) (h : ReadsFrom source b b' ts ns rest) :
    ReadsFrom source b b' ts (Tree.group kind none ns) rest := by
  intro hlawful previous pos ps hb hu
  obtain ⟨hclass, huse⟩ := Bool.and_eq_true_iff.mp hkind
  obtain ⟨previous', stop, ps', hb', hstep⟩ := h (areLawful_of_group hlawful) previous pos ps hb hu
  exact ⟨previous', stop, ps', hb', hstep.group (bne_iff_ne.mp hclass) (bne_iff_ne.mp huse)⟩

theorem ReadsFrom.role (role : Role) (h : ReadsFrom source b b' ts ns rest) :
    ReadsFrom source b b' ts (ns.map (withRole role)) rest := by
  intro hlawful previous pos ps hb hu
  rw [areLawful_map_withRole] at hlawful
  obtain ⟨previous', stop, ps', hb', hstep⟩ := h hlawful previous pos ps hb hu
  exact ⟨previous', stop, ps', hb', hstep.role role⟩

/-! ## Tokens -/

/-- Whether a token is no end, no operator and no word that an anchor begins with. -/
def Token.isHarmless (t : Token) : Bool :=
  match t.lexeme with
  | .finish => false
  | .word w => w != .class_ && w != .namespace_
  | .mark => !Token.nameOperators.contains t.text
  | _ => true

variable {t : Token} {previous : Option Text} {kind : Kind} {p : Placed} {ps : List Placed} {pos : Nat}

theorem ne_finish_of_isHarmless (h : t.isHarmless = true) : t.lexeme ≠ .finish := by
  intro he
  rw [Token.isHarmless, he] at h
  cases h

theorem ne_words_of_isHarmless (h : t.isHarmless = true) :
    t.lexeme ≠ .word .class_ ∧ t.lexeme ≠ .word .namespace_ := by
  constructor <;>
  · intro he
    rw [Token.isHarmless, he] at h
    cases h

theorem Fit.behindOperator (hfit : Fit source t) (h : t.isHarmless = true) : behindOperator (some t.text) = false := by
  by_cases hm : t.lexeme = .mark
  · rw [Token.isHarmless, hm] at h
    exact (Bool.not_eq_true' _).mp h
  · exact hfit.calm hm

/-- Words but `class` and `namespace` begin no anchor, and nothing does that is no word. -/
theorem Shows.not_isAnchorKind (hp : Shows previous t p) (hfit : Fit source t)
    (h : t.lexeme ≠ .word .class_ ∧ t.lexeme ≠ .word .namespace_) : isAnchorKind p.token.kind = false := by
  rw [hp.kind, Token.shownAs]
  have hword : ∀ w, word? t.text = some w → t.lexeme ≠ .word w → t.isNameLike = false := by
    intro w hw hne
    cases hl : t.lexeme with
    | name => exact absurd hl (hfit.word w hw)
    | word v => exact absurd ((hfit.isWord v hl).symm.trans hw) (fun he => hne (by rw [hl, Option.some.inj he]))
    | «variable» | integer | float | string | mark | finish => rw [Token.isNameLike, hl]
  have hanchor : t.isNameLike = true → isAnchorKind (Token.Kind.ofWord previous t.text) = false := by
    intro hname
    have hne : ∀ w, t.lexeme ≠ .word w → word? t.text ≠ some w := by
      intro w hw he
      rw [hword w he hw] at hname
      cases hname
    obtain ⟨hc, hn⟩ := ofWord_ne_anchor (hfit.folds hname) (hne _ h.1) (hne _ h.2) previous
    rw [isAnchorKind, beq_false_of_ne hc, beq_false_of_ne hn]
    rfl
  cases hl : t.lexeme with
  | name | word w => exact hanchor (by rw [Token.isNameLike, hl])
  | mark =>
    show isAnchorKind (if t.text == ['\\'] then Token.Kind.nsSeparator else Token.Kind.punct) = false
    split <;> rfl
  | «variable» | integer | float | string | finish => rfl

/-- A token as a leaf. -/
theorem reads_nodes (hkind : kind ≠ .classDeclaration) (hlexeme : t.lexeme ≠ .finish)
    (hb' : Fit source t → behindOperator (some t.text) = b')
    (hquiet : ∀ previous p ps, behindOperator previous = b → Fit source t → Shows previous t p →
      Under source (some t.text) t.span.stop.offset rest ps → begins (tokensOf (p :: ps)) = false) :
    ReadsFrom source b b' (t :: rest) (t.nodes kind) rest := by
  intro _ previous pos ps hb hu
  have hfit : Fit source t := by
    cases hu with
    | finish h => exact absurd h hlexeme
    | cons _ hfit => exact hfit
  obtain ⟨ps', hstep⟩ := hu.leaf hlexeme hkind fun p ps' hfit hp hrest => hquiet previous p ps' hb hfit hp hrest
  exact ⟨some t.text, _, ps', hb' hfit, hstep⟩

/-- The end has no text, and a word is spelled as such. -/
structure Real (t : Token) : Prop where
  finish : t.lexeme = .finish → t.text = []
  isWord : ∀ w, t.lexeme = .word w → word? t.text = some w

theorem Under.real (h : Under source previous pos (t :: ts) ps) : Real t := by
  cases h with
  | finish hl htext => exact ⟨fun _ => htext, fun w hw => by rw [hl] at hw; cases hw⟩
  | cons hl hfit => exact ⟨fun he => absurd he hl, hfit.isWord⟩

theorem reads_harmless (h : Real t → t.isHarmless = true) (hkind : kind ≠ .classDeclaration) :
    ReadsFrom source b false (t :: rest) (t.nodes kind) rest := by
  intro hlawful previous pos ps hb hu
  have ht := h hu.real
  exact reads_nodes hkind (ne_finish_of_isHarmless ht) (fun hfit => hfit.behindOperator ht)
    (fun _ _ _ _ hfit hp _ => begins_of_kind (hp.not_isAnchorKind hfit (ne_words_of_isHarmless ht)) _)
    hlawful previous pos ps hb hu

/-- A text that is no operator and none of the two words is harmless. -/
theorem isHarmless_of_text (h : Real t) (htext : t.text ≠ []) (hm : Token.nameOperators.contains t.text = false)
    (hw : word? t.text ≠ some .class_ ∧ word? t.text ≠ some .namespace_) : t.isHarmless = true := by
  unfold Token.isHarmless
  split
  · rename_i he
    exact absurd (h.finish he) htext
  · rename_i w he
    have hword := h.isWord w he
    rw [bne_iff_ne.mpr fun hc => hw.1 (by rw [hword, hc]), bne_iff_ne.mpr fun hc => hw.2 (by rw [hword, hc])]
    rfl
  · exact (Bool.not_eq_true' _).mpr hm
  · rfl

theorem isHarmless_of_mem (texts : List Text) (h : texts.all (fun w => w != [] && !Token.nameOperators.contains w &&
    word? w != some .class_ && word? w != some .namespace_) = true) (hreal : Real t) (ht : t.text ∈ texts) :
    t.isHarmless = true := by
  have hall := List.all_eq_true.mp h t.text ht
  simp only [Bool.and_eq_true, bne_iff_ne, Bool.not_eq_true'] at hall
  obtain ⟨⟨⟨hne, hm⟩, hc⟩, hn⟩ := hall
  exact isHarmless_of_text hreal hne hm ⟨hc, hn⟩

theorem leaf_eq_some {test : Token → Bool} {kind : Token → Kind} (h : leaf test kind ts = some (ns, rest)) :
    ∃ t, ts = t :: rest ∧ test t = true ∧ ns = t.nodes (kind t) := by
  cases ts with
  | nil => cases h
  | cons t ts =>
    rw [leaf] at h
    split at h
    · rename_i ht
      cases h
      exact ⟨t, rfl, ht, rfl⟩
    · cases h

theorem SoundAt.leaf {test : Token → Bool} {kind : Token → Kind} (hkind : ∀ t, kind t ≠ .classDeclaration)
    (h : ∀ t ∈ ts.head?, Real t → test t = true → t.isHarmless = true) : SoundAt source b false (leaf test kind) ts := by
  intro ns rest hr
  obtain ⟨t, rfl, ht, rfl⟩ := leaf_eq_some hr
  exact reads_harmless (fun hreal => h t rfl hreal ht) (hkind t)

theorem SoundFrom.leaf {test : Token → Bool} {kind : Token → Kind} (hkind : ∀ t, kind t ≠ .classDeclaration)
    (h : ∀ t, Real t → test t = true → t.isHarmless = true) : SoundFrom source b false (leaf test kind) :=
  fun _ => .leaf hkind fun t _ => h t

theorem isMark_iff {m : Text} : t.isMark m = true ↔ t.lexeme = .mark ∧ t.text = m := by
  unfold Token.isMark
  split
  · rename_i h
    simp [h]
  · rename_i h
    exact iff_of_false (by simp) fun he => h he.1

theorem isWord_iff {w : Word} : t.isWord w = true ↔ t.lexeme = .word w := by
  unfold Token.isWord
  split
  · rename_i h
    simp [h]
  · rename_i h
    simp only [Bool.false_eq_true, false_iff]
    exact h w

theorem isHarmless_of_isMark {m : Text} (hm : Token.nameOperators.contains m = false) (h : t.isMark m = true) :
    t.isHarmless = true := by
  obtain ⟨hl, rfl⟩ := isMark_iff.mp h
  rw [Token.isHarmless, hl]
  exact (Bool.not_eq_true' _).mpr hm

theorem isHarmless_of_isWord {w : Word} (hw : (w != .class_ && w != .namespace_) = true) (h : t.isWord w = true) :
    t.isHarmless = true := by
  rw [Token.isHarmless, isWord_iff.mp h]
  exact hw

theorem wordKind_ne (t : Token) : wordKind t ≠ .classDeclaration := by
  unfold wordKind
  split <;> intro h <;> cases h

theorem SoundFrom.mark {m : Text} (hm : Token.nameOperators.contains m = false) : SoundFrom source b false (mark m) :=
  .leaf (fun _ h => by cases h) fun _ _ => isHarmless_of_isMark hm

/-- An operator, behind which a name stands. -/
theorem SoundFrom.operator {m : Text} (hm : Token.nameOperators.contains m = true) : SoundFrom source b true (Reader.mark m) := by
  intro ts ns rest hr
  obtain ⟨t, rfl, ht, rfl⟩ := leaf_eq_some hr
  obtain ⟨hl, rfl⟩ := isMark_iff.mp ht
  refine reads_nodes (fun h => by cases h) (by simp [hl]) (fun _ => hm) fun _ _ _ _ hfit hp _ => ?_
  exact begins_of_kind (hp.not_isAnchorKind hfit ⟨by simp [hl], by simp [hl]⟩) _

theorem SoundFrom.word {w : Word} (hw : (w != .class_ && w != .namespace_) = true) : SoundFrom source b false (word w) :=
  .leaf wordKind_ne fun _ _ => isHarmless_of_isWord hw

/-! ## Names -/

theorem ne_mark_of_isNameLike (h : t.isNameLike = true) : t.lexeme ≠ .mark ∧ t.lexeme ≠ .finish := by
  unfold Token.isNameLike at h
  constructor <;>
  · intro he
    rw [he] at h
    cases h

/-- Behind an operator any word is a name and no more. -/
theorem SoundFrom.name : SoundFrom source true false name := by
  intro ts ns rest hr
  obtain ⟨t, rfl, ht, rfl⟩ := leaf_eq_some hr
  obtain ⟨hm, hf⟩ := ne_mark_of_isNameLike ht
  refine reads_nodes (fun h => by cases h) hf (fun hfit => hfit.calm hm) fun previous p ps hb _ hp _ => ?_
  refine begins_of_kind ?_ _
  rw [hp.kind, Token.shownAs]
  unfold Token.isNameLike at ht
  split at ht
  · rename_i h
    rw [h, ofWord_of_behind hb]
    rfl
  · rename_i w h
    rw [h, ofWord_of_behind hb]
    rfl
  · cases ht

theorem SoundAt.properName (h : next isProperName ts = true) : SoundAt source b false name ts := by
  refine .leaf (fun _ h => by cases h) fun t ht _ _ => ?_
  cases ts with
  | nil => cases ht
  | cons u ts =>
    cases ht
    rw [next, isProperName] at h
    split at h
    · rename_i hl
      rw [Token.isHarmless, hl]
    · cases h

/-! ## Names before a mark -/

/-- A token of the stream behind a gap shows the first plain token. -/
theorem Under.first {t : Token} (h : Under source previous pos (t :: ts) ps) (hlexeme : t.lexeme ≠ .finish) :
    ∃ gap q r, ps = gap ++ q :: r ∧ (∀ g ∈ gap, g.token.kind.isTrivia = true) ∧ Fit source t ∧ Shows previous t q := by
  cases h with
  | finish h => exact absurd h hlexeme
  | cons _ hfit _ hgap _ hp _ => exact ⟨_, _, _, rfl, hgap.trivia, hfit, hp⟩

theorem namedBy?_eq_none {gap : List Placed} (hgap : ∀ g ∈ gap, g.token.kind.isTrivia = true) {q : Placed}
    (hq : q.token.kind ≠ .identifier ∧ q.token.kind ≠ .whitespace) (scope : Text) (r : List Placed) :
    namedBy? scope (tokensOf (gap ++ q :: r)) = none := by
  match gap with
  | [] =>
    cases r with
    | nil => simp [namedBy?]
    | cons s r => simp [namedBy?, hq.2]
  | [g] => simp [namedBy?, hq.1]
  | g :: g' :: gap =>
    have hne : g'.token.kind ≠ .identifier := by
      intro he
      have := hgap g' (by simp)
      rw [he] at this
      cases this
    simp [namedBy?, hne]

theorem dropWhile_trivia {gap : List Placed} (hgap : ∀ g ∈ gap, g.token.kind.isTrivia = true) {q : Placed}
    (hq : q.token.kind.isTrivia = false)
    (r : List Placed) : (tokensOf (gap ++ q :: r)).dropWhile (·.kind.isTrivia) = q.token :: tokensOf r := by
  rw [tokensOf, List.map_append, List.dropWhile_append_of_pos fun tok htok => ?_]
  · rw [List.map_cons, List.dropWhile_cons_of_neg (by simp [hq])]
    rfl
  · obtain ⟨g, hg, rfl⟩ := List.mem_map.mp htok
    exact hgap g hg

theorem openedBy?_eq_none {gap : List Placed} (hgap : ∀ g ∈ gap, g.token.kind.isTrivia = true) {q : Placed}
    (htrivia : q.token.kind.isTrivia = false) (hq : q.token.kind ≠ .identifier) (hbrace : isOpenBrace q.token = false)
    (r : List Placed) : openedBy? (tokensOf (gap ++ q :: r)) = none := by
  rw [openedBy?, dropWhile_trivia hgap htrivia]
  simp [hq, hbrace]

/-- What a mark shuts off begins no anchor. -/
theorem begins_of_shut (h : Under source previous pos rest ps) (hshut : Shut rest) (p : Placed) :
    begins (tokensOf (p :: ps)) = false := by
  obtain ⟨t, r, rfl, hl, htext⟩ := hshut
  obtain ⟨gap, q, qs, rfl, hgap, -, hq⟩ := h.first (by simp [hl])
  have hkind : q.token.kind = if t.text == ['\\'] then Token.Kind.nsSeparator else Token.Kind.punct := by
    rw [hq.kind, Token.shownAs, hl]
  have hnamed : namedBy? [] (tokensOf (gap ++ q :: qs)) = none := by
    refine namedBy?_eq_none hgap ?_ _ _
    rw [hkind]
    split <;> simp
  have hopened : openedBy? (tokensOf (gap ++ q :: qs)) = none := by
    refine openedBy?_eq_none hgap ?_ ?_ ?_ _
    · rw [hkind]
      split <;> rfl
    · rw [hkind]
      split <;> simp
    · rw [isOpenBrace, hq.text, beq_false_of_ne htext, Bool.and_false]
  rw [tokensOf_cons, begins, classHere?, opening?, hnamed, hopened]
  simp

theorem SoundBefore.name : SoundBefore source name := by
  intro ts ns rest hr hshut
  obtain ⟨t, rfl, ht, rfl⟩ := leaf_eq_some hr
  obtain ⟨hm, hf⟩ := ne_mark_of_isNameLike ht
  exact reads_nodes (fun h => by cases h) hf (fun hfit => hfit.calm hm) fun _ p _ _ _ _ hu => begins_of_shut hu hshut p

theorem starts_mark {m : Text} (hm : m ≠ ['{']) : Starts Shut (mark m) := by
  intro ts ns rest hr
  obtain ⟨t, rfl, ht, -⟩ := leaf_eq_some hr
  obtain ⟨hl, htext⟩ := isMark_iff.mp ht
  exact ⟨t, rest, rfl, hl, by rwa [htext]⟩

/-! ## Combinations -/

theorem seq_cons_eq_some (h : seq (r :: rs) ts = some (ns, rest)) :
    ∃ ns₁ mid ns₂, r ts = some (ns₁, mid) ∧ seq rs mid = some (ns₂, rest) ∧ ns = ns₁ ++ ns₂ := by
  rw [seq] at h
  split at h
  · rename_i ns₁ mid hr
    obtain ⟨⟨ns₂, rest'⟩, hrs, he⟩ := Option.map_eq_some_iff.mp h
    cases he
    exact ⟨ns₁, mid, ns₂, hr, hrs, rfl⟩
  · cases h

theorem map_eq_some {f : List Node → List Node} {o : Option (List Node × List Token)}
    (h : o.map (fun (ns, ts) => (f ns, ts)) = some (ns, rest)) : ∃ ms, o = some (ms, rest) ∧ ns = f ms := by
  obtain ⟨⟨ms, rest'⟩, ho, he⟩ := Option.map_eq_some_iff.mp h
  cases he
  exact ⟨ms, ho, rfl⟩

theorem SoundAt.seq_cons (h : SoundAt source b b' r ts) (hs : SoundFrom source b' b'' (seq rs)) :
    SoundAt source b b'' (seq (r :: rs)) ts := by
  intro ns rest hr
  obtain ⟨ns₁, mid, ns₂, hfirst, hsecond, rfl⟩ := seq_cons_eq_some hr
  exact (h _ _ hfirst).append (hs _ _ _ hsecond)

theorem SoundFrom.seq_cons (h : SoundFrom source b b' r) (hs : SoundFrom source b' b'' (seq rs)) :
    SoundFrom source b b'' (seq (r :: rs)) := fun ts => (h ts).seq_cons hs

theorem SoundFrom.seq_nil : SoundFrom source b b (seq []) := by
  intro ts ns rest hr
  cases hr
  exact .nil

theorem SoundFrom.seq (h : List.Forall (Sound source) rs) : Sound source (seq rs) := by
  rw [List.forall_iff_forall_mem] at h
  induction rs with
  | nil => exact .seq_nil
  | cons r rs ih =>
    obtain ⟨hr, hrs⟩ := List.forall_mem_cons.mp h
    exact SoundFrom.seq_cons hr (ih hrs)

/-- A name is read before a reader that shuts it off. -/
theorem SoundFrom.seq_before (h : SoundBefore source r) (hshuts : Starts Shut (Reader.seq rs)) (hs : Sound source (Reader.seq rs)) :
    Sound source (Reader.seq (r :: rs)) := by
  intro ts ns rest hr
  obtain ⟨ns₁, mid, ns₂, hfirst, hsecond, rfl⟩ := seq_cons_eq_some hr
  exact (h _ _ _ hfirst (hshuts _ _ _ hsecond)).append (hs _ _ _ hsecond)

theorem SoundAt.either {test : List Token → Bool} {a c : Reader} (ha : test ts = true → SoundAt source b b' a ts)
    (hc : test ts = false → SoundAt source b b' c ts) : SoundAt source b b' (either test a c) ts := by
  intro ns rest hr
  rw [Reader.either] at hr
  split at hr
  · rename_i ht
    exact ha ht _ _ hr
  · rename_i ht
    exact hc (by simpa using ht) _ _ hr

theorem SoundFrom.either {test : List Token → Bool} {a c : Reader} (ha : SoundFrom source b b' a)
    (hc : SoundFrom source b b' c) : SoundFrom source b b' (either test a c) :=
  fun ts => .either (fun _ => ha ts) fun _ => hc ts

theorem SoundFrom.nothing : SoundFrom source b b nothing := by
  intro ts ns rest hr
  cases hr
  exact .nil

theorem SoundFrom.refuse : SoundFrom source b b' refuse := fun _ _ _ hr => by cases hr

theorem SoundFrom.opt {test : List Token → Bool} (h : SoundFrom source b b r) : SoundFrom source b b (opt test r) :=
  .either h .nothing

theorem SoundFrom.given {test : List Token → Bool} (h : SoundFrom source b b' r) : SoundFrom source b b' (given test r) :=
  .either h .refuse

theorem SoundFrom.except {test : List Token → Bool} (h : SoundFrom source b b' r) :
    SoundFrom source b b' (except test r) := .either .refuse h

theorem SoundFrom.many {test : List Token → Bool} (h : SoundFrom source b b r) : SoundFrom source b b (many test r) := by
  have hupTo : ∀ fuel, SoundFrom source b b (manyUpTo test r fuel) := by
    intro fuel
    induction fuel with
    | zero => exact fun _ _ _ hr => by cases hr
    | succ fuel ih =>
      intro ts ns rest hr
      rw [manyUpTo] at hr
      split at hr
      · split at hr
        · rename_i ns₁ mid hfirst
          obtain ⟨ns₂, hrest, rfl⟩ := map_eq_some hr
          exact (h _ _ _ hfirst).append (ih _ _ _ hrest)
        · cases hr
      · cases hr
        exact .nil
  exact fun ts => hupTo (ts.length + 1) ts

theorem SoundAt.node {kind : Kind} (hkind : isOrdinary kind = true) (h : SoundAt source b b' r ts) :
    SoundAt source b b' (node kind r) ts := by
  intro ns rest hr
  obtain ⟨ms, hms, rfl⟩ := map_eq_some hr
  exact (h _ _ hms).group hkind

theorem SoundFrom.node {kind : Kind} (hkind : isOrdinary kind = true) (h : SoundFrom source b b' r) :
    SoundFrom source b b' (node kind r) := fun ts => .node hkind (h ts)

theorem SoundFrom.phrase (h : List.Forall (Sound source) rs) : Sound source (phrase rs) := .node rfl (.seq h)

theorem SoundFrom.role {role : Role} (h : SoundFrom source b b' r) : SoundFrom source b b' (Reader.role role r) := by
  intro ts ns rest hr
  obtain ⟨ms, hms, rfl⟩ := map_eq_some hr
  exact (h _ _ _ hms).role role

theorem SoundFrom.separated {separator : Text} (hs : Token.nameOperators.contains separator = false) (h : Sound source r) :
    Sound source (separated separator r) := .seq ⟨h, .many (.seq ⟨.mark hs, h⟩)⟩

theorem SoundFrom.listed {close : Text} (h : Sound source r) : Sound source (listed close r) :=
  .opt (.seq ⟨h, .many (.seq ⟨.mark rfl, .opt h⟩)⟩)

/-! ## Readers before a mark -/

theorem SoundBefore.of_sound (h : Sound source r) : SoundBefore source r := fun ts ns rest hr _ => h ts ns rest hr

theorem SoundBefore.either {test : List Token → Bool} {a c : Reader} (ha : SoundBefore source a)
    (hc : SoundBefore source c) : SoundBefore source (Reader.either test a c) := by
  intro ts ns rest hr
  rw [Reader.either] at hr
  split at hr
  · exact ha _ _ _ hr
  · exact hc _ _ _ hr

theorem SoundBefore.role {role : Role} (h : SoundBefore source r) : SoundBefore source (Reader.role role r) := by
  intro ts ns rest hr hshut
  obtain ⟨ms, hms, rfl⟩ := map_eq_some hr
  exact (h _ _ _ hms hshut).role role

theorem SoundBefore.node {kind : Kind} (hkind : isOrdinary kind = true) (h : SoundBefore source r) :
    SoundBefore source (Reader.node kind r) := by
  intro ts ns rest hr hshut
  obtain ⟨ms, hms, rfl⟩ := map_eq_some hr
  exact (h _ _ _ hms hshut).group hkind

theorem SoundBefore.seq_cons (h : Sound source r) (hs : SoundBefore source (Reader.seq rs)) :
    SoundBefore source (Reader.seq (r :: rs)) := by
  intro ts ns rest hr hshut
  obtain ⟨ns₁, mid, ns₂, hfirst, hsecond, rfl⟩ := seq_cons_eq_some hr
  exact (h _ _ _ hfirst).append (hs _ _ _ hsecond hshut)

theorem SoundBefore.seq_last (h : SoundBefore source r) : SoundBefore source (Reader.seq [r]) := by
  intro ts ns rest hr hshut
  obtain ⟨ns₁, mid, ns₂, hfirst, hsecond, rfl⟩ := seq_cons_eq_some hr
  cases hsecond
  exact (h _ _ _ hfirst hshut).append .nil

theorem Starts.seq (h : Starts P r) : Starts P (Reader.seq (r :: rs)) := by
  intro ts ns rest hr
  obtain ⟨ns₁, mid, ns₂, hfirst, -, -⟩ := seq_cons_eq_some hr
  exact h _ _ _ hfirst

theorem Starts.opt {test : List Token → Bool} (h : Starts P r) (hs : Starts P (Reader.seq rs)) :
    Starts P (Reader.seq (Reader.opt test r :: rs)) := by
  intro ts ns rest hr
  obtain ⟨ns₁, mid, ns₂, hfirst, hsecond, -⟩ := seq_cons_eq_some hr
  rw [Reader.opt, Reader.either] at hfirst
  split at hfirst
  · exact h _ _ _ hfirst
  · cases hfirst
    exact hs _ _ _ hsecond

theorem Starts.node {kind : Kind} (h : Starts P r) : Starts P (Reader.node kind r) := by
  intro ts ns rest hr
  obtain ⟨ms, hms, -⟩ := map_eq_some hr
  exact h _ _ _ hms

theorem Starts.role {role : Role} (h : Starts P r) : Starts P (Reader.role role r) := by
  intro ts ns rest hr
  obtain ⟨ms, hms, -⟩ := map_eq_some hr
  exact h _ _ _ hms

/-! ## Groups of pieces -/

/-- Strings and variables as groups of their pieces. -/
theorem reads_pieces (hlexeme : t.lexeme = .variable ∨ t.lexeme = .string) (hkind : isOrdinary kind = true) :
    ReadsFrom source b false (t :: rest) (t.before ++ Tree.group kind none t.pieces) rest := by
  intro _ previous pos ps _ hu
  obtain ⟨hclass, huse⟩ := Bool.and_eq_true_iff.mp hkind
  obtain ⟨ps', hstep⟩ := hu.pieces hlexeme (bne_iff_ne.mp hclass) (bne_iff_ne.mp huse)
  have hne : t.lexeme ≠ .finish := by rcases hlexeme with h | h <;> simp [h]
  have hm : t.lexeme ≠ .mark := by rcases hlexeme with h | h <;> simp [h]
  obtain ⟨-, -, -, -, -, hfit, -⟩ := hu.first hne
  exact ⟨_, _, ps', hfit.calm hm, hstep⟩

theorem lexeme_of_isVariable (h : t.isVariable = true) : t.lexeme = .variable := by
  unfold Token.isVariable at h
  split at h
  · rename_i he
    exact he
  · cases h

theorem SoundFrom.simpleVariable : SoundFrom source b false simpleVariable := by
  intro ts ns rest hr
  cases ts with
  | nil => cases hr
  | cons t ts =>
    rw [Reader.simpleVariable] at hr
    split at hr
    · rename_i ht
      cases hr
      exact reads_pieces (Or.inl (lexeme_of_isVariable ht)) rfl
    · cases hr

end ClassOutline.Plain
