import ClassOutline.Proofs.Plain.Members
/-
  ClassOutline.Proofs.Plain.ClassLikes — declarations of class-likes and functions are sound.

  The name of a class-like is free in a lawful tree, so that no anchor begins at it. A class
  declaration is laid in another way than everything else: its keyword and its name take an
  anchor of the stream, if only a blank stands between, and what stands before the keyword
  neither names the class nor looks like the keyword (`reads_class`).
-/

namespace ClassOutline.Plain

open ClassOutline.Text ClassOutline.Tree ClassOutline.Discovery Reader

variable {source : Text} {n : Nested} {b b' : Bool} {ts mid rest : List Token} {t : Token} {ns ms : List Node}
  {r : Reader} {rs : List Reader} {kind : Kind} {previous : Option Text} {pos stop : Nat} {ps ps' : List Placed} {p : Placed}

/-! ## Free names -/

theorem mem_dropWhile {c : Node} (hc : c ∈ ns) (hextra : c.isExtra = false) : c ∈ ns.dropWhile Node.isExtra := by
  rw [← List.takeWhile_append_dropWhile (p := Node.isExtra) (l := ns)] at hc
  refine (List.mem_append.mp hc).resolve_left fun h => ?_
  rw [List.mem_takeWhile_imp h] at hextra
  cases hextra

/-- The names of a lawful class-like are free. -/
theorem isFree_of_group (hkind : isClassLike kind = true) (h : areLawful source (group kind none ns) = true) {c : Node}
    (hc : c ∈ ns) (hextra : c.isExtra = false) (hrole : c.role = some .name) : isFree (c.text source) = true := by
  have hmem := mem_dropWhile hc hextra
  rcases group_eq kind none ns with ⟨hnil, -⟩ | ⟨first, last, -, -, -, he⟩
  · rw [hnil] at hmem
    cases hmem
  · rw [he, areLawful_append, areLawful_cons, areLawful_nil, Bool.and_true, isLawful, hkind] at h
    simp only [Bool.and_eq_true, Bool.not_true, Bool.false_or] at h
    have hall := List.all_eq_true.mp h.2.1.2 c hmem
    rw [hrole] at hall
    simpa using hall

/-- A name leaf with its role. -/
def nameLeaf (t : Token) : Node := .leaf .name (some .name) t.span

theorem role_name_eq_some (h : role .name name ts = some (ns, rest)) :
    ∃ t, ts = t :: rest ∧ t.isNameLike = true ∧ ns = t.before.map (withRole .name) ++ [nameLeaf t] := by
  obtain ⟨ms, hms, rfl⟩ := map_eq_some h
  obtain ⟨t, rfl, ht, rfl⟩ := leaf_eq_some hms
  refine ⟨t, rfl, ht, ?_⟩
  rw [Token.nodes, List.map_append]
  rfl

theorem shownAs_of_isNameLike (hname : t.isNameLike = true) (previous : Option Text) :
    t.shownAs previous = .ofWord previous t.text := by
  unfold Token.isNameLike at hname
  rw [Token.shownAs]
  split at hname
  · rename_i hl
    rw [hl]
  · rename_i w hl
    rw [hl]
  · cases hname

theorem shownAs_of_isFree (hname : t.isNameLike = true) (hfree : isFree t.text = true) (hb : behindOperator previous = false) :
    t.shownAs previous = .identifier := by
  rw [shownAs_of_isNameLike hname]
  exact (Token.ofWord_eq_of_any hb t.text).trans (beq_iff_eq.mp hfree)

theorem reads_freeName (hname : t.isNameLike = true) (hfree : Fit source t → isFree t.text = true)
    (hkind : kind ≠ .classDeclaration) : Reads source (t :: rest) (t.nodes kind) rest := by
  obtain ⟨hm, hf⟩ := ne_mark_of_isNameLike hname
  refine reads_nodes hkind hf (fun hfit => hfit.calm hm) fun previous p ps hb hfit hp _ => ?_
  refine begins_of_kind ?_ _
  rw [hp.kind, shownAs_of_isFree hname (hfree hfit) hb]
  rfl

/-- A class-like other than a class: a keyword, a free name and what goes on behind. -/
theorem reads_named {w : Word} (hw : (w != .class_ && w != .namespace_) = true) (hs : Sound source (seq rs))
    (h : seq (word w :: role .name name :: rs) ts = some (ns, rest))
    (hfree : ∀ c ∈ ns, c.isExtra = false → c.role = some .name → isFree (c.text source) = true) :
    Reads source ts ns rest := by
  obtain ⟨ns₁, mid, ns', hword, hbehind, rfl⟩ := seq_cons_eq_some h
  obtain ⟨ns₂, mid', ns₃, hname, hrest, rfl⟩ := seq_cons_eq_some hbehind
  obtain ⟨ms, hms, rfl⟩ := map_eq_some hname
  obtain ⟨t, rfl, ht, rfl⟩ := leaf_eq_some hms
  have hread : Reads source (t :: mid') (t.nodes .name) mid' := by
    refine reads_freeName ht (fun hfit => ?_) (by decide)
    have := hfree (nameLeaf t) (by simp [Token.nodes, nameLeaf, withRole, Node.leaf, Node.isExtra]) rfl rfl
    rwa [nameLeaf, Node.text, Node.leaf, hfit.text] at this
  exact (SoundFrom.word hw _ _ _ hword).append ((hread.role .name).append (hs _ _ _ hrest))

/-! ## What stands before the keyword of a class -/

/-- A node that is taken neither for the name of a class nor for the keyword. -/
def Neutral (n : Node) : Prop := n.role ≠ some .name ∧ isClassKeyword n = false

theorem neutral_of_isExtra {n : Node} (h : n.isExtra = true) (hrole : n.role = none) : Neutral n := by
  refine ⟨by simp [hrole], ?_⟩
  rw [Node.isExtra, Bool.or_eq_true, beq_iff_eq, beq_iff_eq] at h
  rcases h with h | h <;> · rw [isClassKeyword, h]; rfl

/-- A group is extras and one node. -/
theorem neutral_of_group (hkind : kind ≠ .token "class".toList) :
    ∀ n ∈ group kind none ns, n.isExtra = false → Neutral n := by
  intro n hn hextra
  have hnot : ∀ m ∈ ns.takeWhile Node.isExtra, m.isExtra = true := fun m hm => List.mem_takeWhile_imp hm
  rcases group_eq kind none ns with ⟨hnil, he⟩ | ⟨first, last, -, -, -, he⟩
  · rw [he, ← List.takeWhile_append_dropWhile (p := Node.isExtra) (l := ns), hnil, List.append_nil] at hn
    rw [hnot n hn] at hextra
    cases hextra
  · rw [he] at hn
    rcases List.mem_append.mp hn with hn | hn
    · rw [hnot n hn] at hextra
      cases hextra
    · rw [List.mem_singleton.mp hn]
      exact ⟨by simp, beq_false_of_ne hkind⟩

theorem neutral_of_attributes (h : attributes n ts = some (ns, rest)) : ∀ m ∈ ns, m.isExtra = false → Neutral m := by
  rw [attributes, opt, either] at h
  split at h
  · obtain ⟨ms, -, rfl⟩ := map_eq_some h
    exact neutral_of_group (by decide)
  · cases h
    simp

theorem neutral_of_modifiers (h : many (nextWordIn [.abstract_, .final_, .readonly_]) modifier ts = some (ns, rest)) :
    ∀ m ∈ ns, m.isExtra = false → Neutral m := by
  have hone : ∀ {ts mid ms}, nextWordIn [.abstract_, .final_, .readonly_] ts = true → modifier ts = some (ms, mid) →
      ∀ m ∈ ms, m.isExtra = false → Neutral m := by
    intro ts mid ms hnext h
    unfold modifier at h
    split at h
    · rename_i t ts
      split at h
      · rename_i hl
        rw [nextWordIn, next] at hnext
        simp [Token.isWord, hl] at hnext
      · split at h
        · rename_i kind hkind
          rw [except, either] at h
          split at h
          · cases h
          · obtain ⟨ns, -, rfl⟩ := map_eq_some h
            exact neutral_of_group (modifierKind?_eq_some hkind).2.2
        · cases h
      · cases h
    · cases h
  have hupTo : ∀ fuel ts ns rest, manyUpTo (nextWordIn [.abstract_, .final_, .readonly_]) modifier fuel ts = some (ns, rest) →
      ∀ m ∈ ns, m.isExtra = false → Neutral m := by
    intro fuel
    induction fuel with
    | zero => exact fun _ _ _ h => by cases h
    | succ fuel ih =>
      intro ts ns rest h
      rw [manyUpTo] at h
      split at h
      · rename_i hnext
        split at h
        · rename_i ms mid hfirst
          obtain ⟨ms', hrest, rfl⟩ := map_eq_some h
          intro m hm
          rcases List.mem_append.mp hm with hm | hm
          · exact hone hnext hfirst m hm
          · exact ih _ _ _ hrest m hm
        · cases h
      · cases h
        simp
  exact hupTo _ _ _ _ h

/-- Before the keyword a class is laid like anything else. -/
theorem layAll_awaited {as bs : List Node} (has : ∀ n ∈ as, Neutral n) (ps : List Placed) :
    layAll source .awaited (as ++ bs) ps = (layAll source .absent as ps).bind (layAll source .awaited bs) := by
  induction as generalizing ps with
  | nil => rw [List.nil_append, layAll, Option.bind_some]
  | cons n as ih =>
    obtain ⟨⟨hrole, hkeyword⟩, has⟩ := List.forall_mem_cons.mp has
    rw [List.cons_append, layAll, layAll, if_neg (by simpa using hrole), hkeyword, if_neg (by decide), Option.bind_assoc]
    exact congrArg _ (funext fun q => ih has q)

/-! ## The header of a class -/

/-- The keyword as a leaf. -/
def keywordLeaf (t : Token) : Node := .leaf (wordKind t) none t.span

theorem isClassKeyword_keywordLeaf (hfit : Fit source t) (hl : t.lexeme = .word .class_) :
    isClassKeyword (keywordLeaf t) = true := by
  have hmap : t.text.map Scan.foldCase = "class".toList := by
    rw [(hfit.folds_of_word hl).map_eq, lower_of_word? (hfit.folds_of_word hl) (hfit.isWord _ hl) (by decide)]
    rfl
  rw [isClassKeyword, keywordLeaf, Node.leaf, wordKind, hl]
  simpa using hmap

/-- Behind the keyword comments are passed. -/
theorem layAll_behind {place : Nat} (hns : CommentsBefore place ns) (isSeparated : Bool) (ms : List Node) (ps : List Placed) :
    layAll source (.behind isSeparated) (ns ++ ms) ps = layAll source (.behind (isSeparated && ns.isEmpty)) ms ps := by
  induction ns generalizing isSeparated with
  | nil => rw [List.nil_append, List.isEmpty_nil, Bool.and_true]
  | cons n ns ih =>
    obtain ⟨⟨span, rfl, -⟩, hrest⟩ := List.forall_mem_cons.mp hns
    rw [List.cons_append, List.isEmpty_cons, Bool.and_false, layAll, ih hrest]
    have hsites : sites (Node.leaf .comment none span) = [] := by
      rw [Node.leaf, sites, sitesAll, if_neg (by decide)]
    simp only [hsites, Bool.false_and, List.isEmpty_nil, Bool.not_true, Bool.false_or]
    rfl

/-- The name behind the keyword is a token of its own. -/
theorem takeName_eq_some {gap : List Placed} (hgap : Gap source pos t gap) (hle : gap ≠ []) (hp : Shows previous t p)
    (hfit : Fit source t) (hkind : p.token.kind = .identifier) (hfree : isFree t.text = true) :
    takeName source (nameLeaf t) t.before.isEmpty (gap ++ p :: ps) = some ps := by
  have hoffset := hp.offset
  have hskip : passTo t.span.first.offset (gap ++ p :: ps) = some (p :: ps) := by
    rw [passTo_skip fun q hq => ⟨hgap.isAnchorKind q hq, (hgap.bounds q hq).2⟩, passTo, if_pos (Nat.le_of_eq hoffset.symm)]
  have htake : (gap ++ p :: ps).takeWhile (·.offset < t.span.first.offset) = gap := by
    rw [List.takeWhile_append_of_pos fun q hq => by simpa using (hgap.bounds q hq).2,
      List.takeWhile_cons_of_neg (by simp [hoffset]), List.append_nil]
  have hblank : isBlankTo t.span.first.offset (gap ++ p :: ps) = t.before.isEmpty := by
    rw [isBlankTo, htake]
    cases hbefore : t.before with
    | nil => simpa using (hgap.blank hbefore).resolve_left hle
    | cons n ns => simpa using hgap.comment (by simp [hbefore])
  have hnames : gap.all (·.token.kind != .identifier) = true := by
    refine List.all_eq_true.mpr fun q hq => bne_iff_ne.mpr fun he => ?_
    have := hgap.trivia q hq
    rw [he] at this
    cases this
  have htext : (nameLeaf t).text source = t.text := hfit.text
  have hword : p.token.kind = Token.Kind.ofWord none p.token.text := by
    rw [hkind, hp.text]
    exact (beq_iff_eq.mp hfree).symm
  have hbegins : begins (tokensOf (p :: ps)) = false := begins_of_kind (by rw [hkind]; rfl) _
  simp only [takeName, show (nameLeaf t).span = t.span from rfl, hskip, hblank, htake, hnames, htext, hp.text, hp.line,
    hbegins]
  rw [hp.text] at hword
  simp [← hword]

variable {k : Token}

/-- The keyword and the name of a class take their tokens from the stream. -/
theorem layAll_header {gap gap' : List Placed} {p p' : Placed} (hfit : Fit source k) (hfit' : Fit source t)
    (hk : k.lexeme = .word .class_) (hfree : isFree t.text = true) (hplace : p.offset = k.span.first.offset)
    (hkind : p.token.kind = .classKeyword) (hp' : Shows previous t p') (hkind' : p'.token.kind = .identifier)
    (hpassed : Passed k.span.first.offset gap) (hgap' : Gap source pos t gap') (hne : gap' ≠ []) (ns : List Node) :
    layAll source .awaited (keywordLeaf k :: (t.before ++ nameLeaf t :: ns)) (gap ++ p :: (gap' ++ p' :: ps)) =
      layAll source .absent ns ps := by
  have htake : takeKeyword (keywordLeaf k).span.first.offset (gap ++ p :: (gap' ++ p' :: ps)) = some (gap' ++ p' :: ps) := by
    have hspan : (keywordLeaf k).span = k.span := rfl
    rw [takeKeyword, hspan, passTo_skip hpassed, passTo, if_pos (Nat.le_of_eq hplace.symm)]
    simp [hplace, hkind]
  have hkeyword := isClassKeyword_keywordLeaf hfit hk
  have hsites : sites (keywordLeaf k) = [] := by
    rw [keywordLeaf, Node.leaf, sites, sitesAll, wordKind, hk]
    rfl
  have hsites' : sites (nameLeaf t) = [] := by
    rw [nameLeaf, Node.leaf, sites, sitesAll, if_neg (by decide)]
  rw [layAll, hkeyword, hsites, htake, show (keywordLeaf k).role = none from rfl]
  simp only [List.isEmpty_nil, if_true, Option.bind_some]
  rw [if_neg (by decide), layAll_behind hfit'.before, Bool.true_and, layAll, hsites',
    show (nameLeaf t).role = some .name from rfl, show isClassKeyword (nameLeaf t) = false from rfl,
    takeName_eq_some hgap' hne hp' hfit' hkind' hfree]
  rfl

/-- The keyword and the name of a class over the tokens between two places, `q` being the stream
    behind the comments before the keyword. -/
structure IsHeader (source : Text) (pos : Nat) (k t : Token) (ts : List Token) (ps q ps' : List Placed) : Prop where
  before : layAll source .absent k.before ps = some q
  laid : ∀ ns, layAll source .awaited (keywordLeaf k :: (t.before ++ nameLeaf t :: ns)) q = layAll source .absent ns ps'
  used : UsedTo t.span.stop.offset ps ps'
  le : pos ≤ t.span.stop.offset
  under : Under source (some t.text) t.span.stop.offset ts ps'
  fit : Fit source k
  fit' : Fit source t

theorem Under.header (h : Under source previous pos (k :: t :: ts) ps) (hb : behindOperator previous = false)
    (hk : k.lexeme = .word .class_) (hname : t.isNameLike = true) (hfree : Fit source t → isFree t.text = true) :
    ∃ q ps', IsHeader source pos k t ts ps q ps' := by
  obtain ⟨hm, hf⟩ := ne_mark_of_isNameLike hname
  cases h with
  | @cons _ _ _ _ gap p ps' _ hfit hle hgap _ hp hunder =>
  have hbehind := hunder.le
  cases hunder with
  | finish h => exact absurd h hf
  | @cons _ _ _ _ gap' p' ps' _ hfit' hle' hgap' hjoin' hp' hrest =>
  have hlength := hfit.length
  have hlength' := hfit'.length
  have hoffset := hp.offset
  have hoffset' := hp'.offset
  have hkind : p.token.kind = .classKeyword := by
    rw [hp.kind, Token.shownAs, hk]
    exact ofWord_class hb (hfit.folds_of_word hk) (hfit.isWord _ hk)
  have hkind' : p'.token.kind = .identifier := by
    rw [hp'.kind, shownAs_of_isFree hname (hfree hfit') (hfit.calm (by simp [hk]))]
  have hne : gap' ≠ [] := fun he =>
    hjoin' he hname k.text rfl (hfit.isName (by rw [Token.isNameLike, hk]))
  obtain ⟨gap₁, hsuffix, hbefore⟩ := layAll_before hgap hfit.before
    (fun q (hq : q ∈ p :: (gap' ++ p' :: ps')) => by
      rcases List.mem_cons.mp hq with rfl | hq
      · omega
      · have := hbehind q hq
        omega)
  have hpassed : Passed k.span.first.offset gap₁ := hgap.passed.of_suffix hsuffix
  refine ⟨_, ps', hbefore, layAll_header hfit hfit' hk (hfree hfit') hoffset hkind hp' hkind' hpassed hgap' hne,
    ⟨gap ++ p :: (gap' ++ [p']), by simp, fun q hq => ?_⟩, by omega, hrest, hfit, hfit'⟩
  rw [List.append_cons, List.mem_append] at hq
  rcases hq with hq | hq
  · have := hgap.lt_stop hfit hoffset q hq
    omega
  · exact hgap'.lt_stop hfit' hoffset' q hq

theorem map_withRole_before {place : Nat} (h : CommentsBefore place ns) (role : Role) : ns.map (withRole role) = ns := by
  refine (List.map_congr_left fun n hn => ?_).trans (List.map_id ns)
  obtain ⟨span, rfl, -⟩ := h n hn
  rfl

theorem extras_append_cons {k : Node} (hk : k.isExtra = false) (ns ms : List Node) :
    (ns ++ k :: ms).takeWhile Node.isExtra = ns.takeWhile Node.isExtra ∧
      (ns ++ k :: ms).dropWhile Node.isExtra = ns.dropWhile Node.isExtra ++ k :: ms := by
  induction ns with
  | nil => simp [hk]
  | cons n ns ih =>
    rw [List.cons_append, List.takeWhile_cons, List.takeWhile_cons, List.dropWhile_cons, List.dropWhile_cons, ih.1, ih.2]
    split <;> exact ⟨rfl, rfl⟩

/-- Comments and what is neutral before a keyword are passed over. -/
theorem neutral_append {place : Nat} {before : List Node} (hextras : ∀ m ∈ before, m.isExtra = true → m.role = none)
    (hneutral : ∀ m ∈ before, m.isExtra = false → Neutral m) (hns : CommentsBefore place ns) :
    ∀ m ∈ before ++ ns, Neutral m ∧ (m.isExtra = true → m.role = none) := by
  rw [List.forall_mem_append]
  refine ⟨fun m hm => ⟨?_, hextras m hm⟩, fun m hm => ?_⟩
  · cases hextra : m.isExtra with
    | true => exact neutral_of_isExtra hextra (hextras m hm hextra)
    | false => exact hneutral m hm hextra
  · obtain ⟨span, rfl, -⟩ := hns m hm
    exact ⟨neutral_of_isExtra rfl rfl, fun _ => rfl⟩

theorem stopOf_name (pos : Nat) (as bs : List Node) (t : Token) :
    Plain.stopOf pos (as ++ (t.before ++ nameLeaf t :: bs)) = Plain.stopOf t.span.stop.offset bs := by
  have hsplit : as ++ (t.before ++ nameLeaf t :: bs) = (as ++ t.before ++ [nameLeaf t]) ++ bs := by simp
  have hname : Plain.stopOf pos (as ++ t.before ++ [nameLeaf t]) = t.span.stop.offset := by
    rw [Plain.stopOf, List.getLast?_concat]
    rfl
  rw [hsplit, stopOf_append, hname]

/-- A class: what stands before its keyword, the keyword, a free name and what goes on behind. -/
theorem reads_class {before : List Node} (hbefore : Reads source ts before (k :: mid))
    (hneutral : ∀ m ∈ before, m.isExtra = false → Neutral m) (hk : k.lexeme = .word .class_) (hs : Sound source (seq rs))
    (h : seq (role .name name :: rs) mid = some (ns, rest)) :
    Reads source ts (group .classDeclaration none (before ++ (k.nodes (wordKind k) ++ ns))) rest := by
  intro hlawful previous pos ps hb hu
  obtain ⟨named, mid', behind, hname, hbehind, rfl⟩ := seq_cons_eq_some h
  obtain ⟨t, rfl, ht, rfl⟩ := role_name_eq_some hname
  have hall := areLawful_of_group hlawful
  simp only [areLawful_append, Bool.and_eq_true] at hall
  obtain ⟨hbeforeLawful, -, -, hbehindLawful⟩ := hall
  have hfree : Fit source t → isFree t.text = true := fun hfit => by
    have := isFree_of_group rfl hlawful (c := nameLeaf t) (by simp) rfl rfl
    rwa [nameLeaf, Node.text, Node.leaf, hfit.text] at this
  -- before the keyword, the header, and behind the name
  obtain ⟨previous₁, pos₁, ps₁, hb₁, hstep₁⟩ := hbefore hbeforeLawful previous pos ps hb hu
  obtain ⟨q, ps₂, hheader⟩ := hstep₁.under.header hb₁ hk ht hfree
  obtain ⟨previous₃, pos₃, ps₃, hb₃, hstep₃⟩ := hs _ _ _ hbehind hbehindLawful (some t.text) _ ps₂
    (hheader.fit'.calm (ne_mark_of_isNameLike ht).1) hheader.under
  have hnodes : before ++ (k.nodes (wordKind k) ++ (t.before.map (withRole .name) ++ [nameLeaf t] ++ behind)) =
      (before ++ k.before) ++ keywordLeaf k :: (t.before ++ nameLeaf t :: behind) := by
    rw [map_withRole_before hheader.fit'.before, Token.nodes, keywordLeaf]
    simp
  have hextra : (keywordLeaf k).isExtra = false := by
    rw [keywordLeaf, Node.leaf, Node.isExtra, wordKind, hk]
    rfl
  have hall := neutral_append hstep₁.extras hneutral hheader.fit.before
  obtain ⟨htake, hdrop⟩ := extras_append_cons hextra (before ++ k.before) (t.before ++ nameLeaf t :: behind)
  have hlaid : layAll source .absent (before ++ k.before) ps = some q := by
    rw [layAll_append, hstep₁.laid, Option.bind_some, hheader.before]
  rw [← List.takeWhile_append_dropWhile (p := Node.isExtra) (l := before ++ k.before), layAll_append] at hlaid
  obtain ⟨q₀, hq₀, hq⟩ := Option.bind_eq_some_iff.mp hlaid
  have hle := Nat.le_trans hheader.le hstep₃.le
  rw [hnodes]
  refine ⟨previous₃, pos₃, ps₃, hb₃, step_group (by rw [hdrop]; simp) (Nat.le_trans hstep₁.le hle)
    (hstep₁.used.append hle (hheader.used.append hstep₃.le hstep₃.used)) hstep₃.under ?_ ?_ fun span hspan => ?_⟩
  · rw [List.append_cons, stopOf_name]
    exact hstep₃.stopOf
  · rw [htake]
    exact fun m hm => (hall m ((List.takeWhile_sublist _).mem hm)).2 (List.mem_takeWhile_imp hm)
  · rw [htake, hdrop, hq₀, Option.bind_some, lay, if_neg (by decide), if_pos (by decide),
      layAll_awaited fun m hm => (hall m ((List.dropWhile_sublist _).mem hm)).1, hq, Option.bind_some, hheader.laid,
      hstep₃.laid, Option.bind_some]
    exact passTo_of_le fun p hp => by
      rw [hspan]
      exact hstep₃.under.le p hp

/-! ## Declarations -/

section

variable (hn : n.IsSound source)

include hn

theorem sound_classRest : Sound source (seq [extending, implementing, role .body (classBody n)]) :=
  .seq ⟨sound_extending, sound_implementing, .role (sound_classBody hn)⟩

omit hn in
/-- A class-like other than a class behind its attributes. -/
theorem reads_classLike {before : List Node} (hbefore : Reads source ts before mid) {w : Word}
    (hw : (w != .class_ && w != .namespace_) = true) (hkind : isClassLike kind = true) (hordinary : isOrdinary kind = true)
    (hs : Sound source (seq rs)) (h : seq (word w :: role .name name :: rs) mid = some (ns, rest)) :
    Reads source ts (group kind none (before ++ ns)) rest := by
  intro hlawful
  have hread := reads_named hw hs h fun c hc => isFree_of_group hkind hlawful (List.mem_append_right _ hc)
  exact (hbefore.append hread).group hordinary hlawful

theorem sound_declaration : Sound source (declaration n) := by
  intro ts ns rest hr
  rw [declaration] at hr
  split at hr
  · rename_i before mid hattributes
    have hbefore := sound_attributes hn _ _ _ hattributes
    obtain ⟨ms, hms, rfl⟩ := map_eq_some (f := fun ns => group (declarationKind mid) none (before ++ ns)) hr
    rw [declarationRest] at hms
    rw [declarationKind]
    split at hms
    · rename_i hfunction
      rw [if_pos hfunction]
      have hs : Sound source (seq [functionHeader n, compound n]) := .seq ⟨sound_functionHeader hn, sound_compound hn⟩
      exact (hbefore.append (hs _ _ _ hms)).group rfl
    rename_i hfunction
    rw [if_neg hfunction]
    split at hms
    · rename_i hinterface
      rw [if_pos hinterface]
      have hs : Sound source (seq [extending, role .body (classBody n)]) :=
        .seq ⟨sound_extending, .role (sound_classBody hn)⟩
      exact reads_classLike hbefore rfl rfl rfl hs hms
    rename_i hinterface
    rw [if_neg hinterface]
    split at hms
    · rename_i htrait
      rw [if_pos htrait]
      have hs : Sound source (seq [role .body (classBody n)]) := .seq (.role (sound_classBody hn))
      exact reads_classLike hbefore rfl rfl rfl hs hms
    rename_i htrait
    rw [if_neg htrait]
    split at hms
    · rename_i henum
      rw [if_pos henum]
      have hs : Sound source (seq [enumType, implementing, role .body (enumBody n)]) :=
        .seq ⟨sound_enumType, sound_implementing, .role (sound_enumBody hn)⟩
      exact reads_classLike hbefore rfl rfl rfl hs hms
    rename_i henum
    rw [if_neg henum]
    obtain ⟨mods, mid', behind, hmods, hbehind, rfl⟩ := seq_cons_eq_some hms
    obtain ⟨keyword, mid'', classNodes, hkeyword, hclass, rfl⟩ := seq_cons_eq_some hbehind
    obtain ⟨k, rfl, hk, rfl⟩ := leaf_eq_some hkeyword
    obtain ⟨named, rest', none', hrest, hnil, rfl⟩ := seq_cons_eq_some hclass
    cases hnil
    rw [List.append_nil, ← List.append_assoc]
    refine reads_class (hbefore.append (SoundFrom.many sound_modifier _ _ _ hmods)) (fun m hm => ?_)
      (isWord_iff.mp hk) (sound_classRest hn) hrest
    exact (List.mem_append.mp hm).elim (neutral_of_attributes hattributes m) (neutral_of_modifiers hmods m)
  · cases hr

end

end ClassOutline.Plain
