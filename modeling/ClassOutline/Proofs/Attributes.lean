import ClassOutline.Proofs.TypeHints
import ClassOutline.Proofs.Rediscovery
import ClassOutline.Extraction
/-
  ClassOutline.Proofs.Attributes — parameters with attributes in front of them.

  Attributes move a parameter to the right and stand at the beginning of its signature; its
  nodes are otherwise the same (`IsAttributed`). Its name and value are found at their own
  places, and its reference mark before its own variable (`EndsBracket.marksReference_append`),
  whatever the attributes hold. The type and the dots are looked for in the whole signature, by
  characters: dots in an attribute make the parameter variadic, a `$` in one hides the type, and
  brackets in one count, also those in strings. Attributes that are clear of all three change
  nothing (`parameter_behind_attributes`); with others in front a parameter need not be read as
  it is alone (`attributes_change_parameters`).
-/

namespace ClassOutline

open ClassOutline.Text ClassOutline.Tree ClassOutline.Layout ClassOutline.TypeHint

/-! ## Brackets -/

/-- Every bracket has its partner, by characters alone. -/
inductive Nested : Text → Prop
  | plain {t : Text} (h : '[' ∉ t) (h' : ']' ∉ t) : Nested t
  | brackets {t : Text} (h : Nested t) : Nested ('[' :: (t ++ [']']))
  | append {t u : Text} (h : Nested t) (h' : Nested u) : Nested (t ++ u)

/-- Attribute groups with blanks between and around them. -/
inductive Groups : Text → Prop
  | blanks {t : Text} (h : isAllBlank t = true) : Groups t
  | group {t : Text} (h : Nested t) : Groups ('#' :: '[' :: (t ++ [']']))
  | append {t u : Text} (h : Groups t) (h' : Groups u) : Groups (t ++ u)

theorem outsideAttributes_nested {t : Text} (h : Nested t) (depth : Nat) (x : Text) :
    outsideAttributes (depth + 1) (t ++ x) = outsideAttributes (depth + 1) x := by
  induction h generalizing depth x with
  | @plain t h h' =>
    induction t with
    | nil => rfl
    | cons c t ih =>
      obtain ⟨hopen, ht⟩ := not_or.mp (mt List.mem_cons.mpr h)
      obtain ⟨hclose, ht'⟩ := not_or.mp (mt List.mem_cons.mpr h')
      rw [List.cons_append, outsideAttributes, if_neg (by simpa using Ne.symm hopen), if_neg (by simpa using Ne.symm hclose),
        ih ht ht']
  | @brackets t _ ih =>
    rw [List.cons_append, List.append_assoc, List.singleton_append]
    exact ih (depth + 1) (']' :: x)
  | append _ _ ih ih' => rw [List.append_assoc, ih, ih']

/-- Of attribute groups the blanks around them are left. -/
theorem outsideAttributes_groups {t : Text} (h : Groups t) :
    ∃ z, (∀ c ∈ z, isBlank c = true) ∧ ∀ x, outsideAttributes 0 (t ++ x) = z ++ outsideAttributes 0 x := by
  induction h with
  | @blanks t h =>
    refine ⟨t, List.all_eq_true.mp h, fun x => ?_⟩
    induction t with
    | nil => rfl
    | cons c t ih =>
      obtain ⟨hc, ht⟩ := Bool.and_eq_true_iff.mp (List.all_cons.symm.trans h)
      have hopen : c ≠ '#' := by
        rintro rfl
        cases hc
      rw [List.cons_append, outsideAttributes.eq_2 _ _ fun _ he _ => hopen he, ih ht, List.cons_append]
  | @group t h =>
    refine ⟨[], by simp, fun x => ?_⟩
    rw [List.cons_append, List.cons_append, List.append_assoc, List.singleton_append, List.nil_append]
    exact outsideAttributes_nested h 0 (']' :: x)
  | append _ _ ih ih' =>
    obtain ⟨z, hz, h⟩ := ih
    obtain ⟨z', hz', h'⟩ := ih'
    refine ⟨z ++ z', fun c hc => (List.mem_append.mp hc).elim (hz c) (hz' c), fun x => ?_⟩
    rw [List.append_assoc, h, h', List.append_assoc]

/-! ## Searches in a signature -/

/-- The type of a signature does not depend on attribute groups in front without a `$`. -/
theorem ofSignature?_groups {a : Text} (h : Groups a) (hplain : '$' ∉ a) (s : Text) :
    ofSignature? (a ++ s) = ofSignature? s := by
  have htake : (a ++ s).takeWhile (· != '$') = a ++ s.takeWhile (· != '$') := by
    refine List.takeWhile_append_of_pos fun c hc => ?_
    have hc' : c ≠ '$' := fun he => hplain (he ▸ hc)
    simpa using hc'
  obtain ⟨z, hz, hgroups⟩ := outsideAttributes_groups h
  have htrim : trimBlank (outsideAttributes 0 ((a ++ s).takeWhile (· != '$'))) =
      trimBlank (outsideAttributes 0 (s.takeWhile (· != '$'))) := by
    rw [htake, hgroups, trimBlank, trim, trimStart, List.dropWhile_append_of_pos hz]
    rfl
  rw [TypeHint.ofSignature?_eq _ rfl, TypeHint.ofSignature?_eq _ rfl, htrim]

/-- With a `$` in it, the type is read from what stands in front alone. -/
theorem ofSignature?_of_mem {a : Text} (h : '$' ∈ a) (s : Text) : ofSignature? (a ++ s) = ofSignature? a := by
  obtain ⟨b, r, rfl⟩ := List.append_of_mem h
  have htake : ∀ x : Text, (b ++ '$' :: x).takeWhile (· != '$') = b.takeWhile (· != '$') := Token.takeWhile_stop (by simp) b
  rw [TypeHint.ofSignature?_eq _ rfl, TypeHint.ofSignature?_eq _ rfl, List.append_assoc, List.cons_append, htake, htake]

/-- A bracket and blanks behind it end the text. -/
def EndsBracket (a : Text) : Prop := (trimEnd isBlank a).getLast? = some ']'

theorem EndsBracket.last {a : Text} (h : EndsBracket a) : ∃ b c, a = b ++ [c] ∧ c ≠ '.' := by
  rcases List.eq_nil_or_concat a with rfl | ⟨b, c, rfl⟩
  · cases h
  · rw [List.concat_eq_append] at h ⊢
    refine ⟨b, c, rfl, ?_⟩
    rintro rfl
    rw [EndsBracket, Body.trimEnd_concat rfl, List.getLast?_concat] at h
    cases h

theorem EndsBracket.contains_append {a : Text} (h : EndsBracket a) (s : Text) :
    contains "...".toList (a ++ s) = (contains "...".toList a || contains "...".toList s) := by
  obtain ⟨b, c, rfl, hc⟩ := h.last
  have hmem : c ∉ "...".toList := by simpa using hc
  have hnone : contains "...".toList [] = false := by decide
  rw [List.append_assoc, List.singleton_append, contains_stop (by decide) hmem, contains_stop (by decide) hmem, hnone,
    Bool.or_false]

theorem trimEnd_append_of_ne {p : Char → Bool} {b : Text} (h : trimEnd p b ≠ []) (a : Text) :
    trimEnd p (a ++ b) = a ++ trimEnd p b := by
  unfold trimEnd at h ⊢
  rw [List.reverse_append, List.dropWhile_append, if_neg (by simpa using h), List.reverse_append, List.reverse_reverse]

/-- The character before the blanks at the end. -/
def lastInk (t : Text) : Option Char := (trimEnd isBlank t).getLast?

theorem EndsBracket.lastInk_append {a : Text} (h : EndsBracket a) (t : Text) :
    (lastInk (a ++ t) == some '&') = (lastInk t == some '&') := by
  unfold lastInk
  by_cases ht : trimEnd isBlank t = []
  · rw [trimEnd_append_blank (trimEnd_eq_nil_iff.mp ht), h, ht]
    rfl
  · obtain ⟨c, hc⟩ := Option.ne_none_iff_exists'.mp (mt List.getLast?_eq_none_iff.mp ht)
    rw [trimEnd_append_of_ne ht, List.getLast?_append, hc]
    rfl

theorem EndsBracket.suffix_of_suffix_append {a t : Text} (h : EndsBracket a) (hdots : "...".toList <:+ a ++ t) :
    "...".toList <:+ t := by
  rcases List.suffix_or_suffix_of_suffix hdots (List.suffix_append a t) with hall | ⟨x, hx⟩
  · exact hall
  · rcases List.eq_nil_or_concat x with rfl | ⟨x, d, rfl⟩
    · exact ⟨[], hx.symm⟩
    · -- a dot would be the last character in front
      obtain ⟨b, c, rfl, hc⟩ := h.last
      obtain ⟨r, hr⟩ := hdots
      rw [← hx, ← List.append_assoc, List.append_cancel_right_eq, List.concat_eq_append, ← List.append_assoc] at hr
      have hd : d ∈ "...".toList := by
        rw [← hx]
        simp
      obtain rfl : d = c := by simpa using List.append_inj_right' hr rfl
      exact absurd (by simpa using hd) hc

/-- The dots before a variable are its own: none of them belongs to what is in front. -/
theorem EndsBracket.dropTail_append {a : Text} (h : EndsBracket a) (t : Text) :
    dropTail "...".toList (a ++ t) = a ++ dropTail "...".toList t := by
  rcases dropTail_cases "...".toList t with ht | ⟨ht, hno⟩
  · conv => lhs; rw [ht]
    rw [← List.append_assoc, dropTail, before?_eq_some_iff.mpr rfl, Option.getD_some]
  · rw [ht]
    rcases dropTail_cases "...".toList (a ++ t) with hdots | ⟨hkeep, -⟩
    · obtain ⟨r, hr⟩ := h.suffix_of_suffix_append ⟨_, hdots.symm⟩
      exact absurd hr.symm (hno r)
    · exact hkeep

theorem EndsBracket.trimEnd_append {a : Text} (h : EndsBracket a) (t : Text) :
    ∃ b, EndsBracket b ∧ trimEnd isBlank (a ++ t) = b ++ trimEnd isBlank t := by
  by_cases ht : trimEnd isBlank t = []
  · refine ⟨trimEnd isBlank a, ?_, ?_⟩
    · rw [EndsBracket, (endsInk_trimEnd a).trimEnd_eq]
      exact h
    · rw [trimEnd_append_blank (trimEnd_eq_nil_iff.mp ht), ht, List.append_nil]
  · exact ⟨a, h, trimEnd_append_of_ne ht a⟩

theorem exists_beforeVariable {s : Text} (h : '$' ∈ s) : ∃ b, ∀ a, beforeVariable (a ++ s) = trimEnd isBlank (a ++ b) := by
  obtain ⟨v, u, hs, hv⟩ := List.eq_append_cons_of_mem (List.mem_reverse.mpr h)
  refine ⟨u.reverse, fun a => ?_⟩
  have hany : (a ++ s).any (· == '$') = true := List.any_eq_true.mpr ⟨'$', List.mem_append_right a h, beq_self_eq_true _⟩
  have hpass : ∀ c ∈ v, (c != '$') = true := fun c hc => by
    have hc' : c ≠ '$' := fun he => hv (he ▸ hc)
    simpa using hc'
  rw [beforeVariable, if_pos hany, List.reverse_append, hs, List.append_assoc, List.dropWhile_append_of_pos hpass,
    List.cons_append, List.dropWhile_cons_of_neg (by simp), List.drop_succ_cons, List.drop_zero, List.reverse_append,
    List.reverse_reverse]

theorem EndsBracket.marksReference_append {a : Text} (h : EndsBracket a) {s : Text} (hs : '$' ∈ s) :
    marksReference (a ++ s) = marksReference s := by
  obtain ⟨b, hb⟩ := exists_beforeVariable hs
  obtain ⟨a', ha', htrim⟩ := h.trimEnd_append b
  have hown : beforeVariable s = trimEnd isBlank b := hb []
  rw [marksReference, marksReference, hb a, htrim, hown, ha'.dropTail_append]
  exact ha'.lastInk_append _

/-! ## Trees with and without attributes -/

/-- The same child, further to the right; it begins no further left than its parent. -/
structure Moved (start shift : Nat) (c c' : Node) : Prop where
  kind : c.kind = c'.kind
  role : c.role = c'.role
  inside : start ≤ c'.span.first.offset
  first : c.span.first.offset = c'.span.first.offset + shift
  stop : c.span.stop.offset = c'.span.stop.offset + shift

/-- The first node is the second with attributes in front, in sources that differ by the text of
    these. -/
structure IsAttributed (before attributes : Text) (n n' : Node) : Prop where
  kind : n.kind = n'.kind
  first : n.span.first.offset = before.length
  first' : n'.span.first.offset = before.length
  list : n.children.head?.map (fun c => (c.kind, c.role)) = some (.phrase, none)
  rest : List.Forall₂ (Moved before.length attributes.length) n.children.tail n'.children

theorem Moved.text {before attributes : Text} {c c' : Node} (h : Moved before.length attributes.length c c') (behind : Text) :
    c.text (before ++ (attributes ++ behind)) = c'.text (before ++ behind) := by
  obtain ⟨k, hk⟩ := Nat.exists_eq_add_of_le h.inside
  have hlength : c.span.stop.offset - c.span.first.offset = c'.span.stop.offset - c'.span.first.offset := by
    rw [h.first, h.stop]
    omega
  have hfirst : c.span.first.offset = before.length + (attributes.length + k) := by
    rw [h.first, hk]
    omega
  rw [Node.text, Node.text, Span.text, Span.text, hlength, hfirst, hk, List.drop_length_add_append, List.drop_length_add_append,
    List.drop_length_add_append]

theorem Moved.find? {start shift : Nat} {cs cs' : List Node} (h : List.Forall₂ (Moved start shift) cs cs') (r : Role) :
    Option.Rel (Moved start shift) (cs.find? (·.role == some r)) (cs'.find? (·.role == some r)) := by
  induction h with
  | nil => exact .none
  | @cons c c' cs cs' hc _ ih =>
    rw [List.find?_cons, List.find?_cons, hc.role]
    split
    · exact .some hc
    · exact ih

theorem Moved.any_kind {start shift : Nat} {cs cs' : List Node} (h : List.Forall₂ (Moved start shift) cs cs') (k : Tree.Kind) :
    cs.any (·.kind == k) = cs'.any (·.kind == k) := by
  induction h with
  | nil => rfl
  | cons hc _ ih => rw [List.any_cons, List.any_cons, hc.kind, ih]

section

variable {before attributes : Text} {n n' : Node} (h : IsAttributed before attributes n n')

include h

theorem IsAttributed.exists_list : ∃ list rest, n.children = list :: rest ∧ list.kind = .phrase ∧ list.role = none ∧
    List.Forall₂ (Moved before.length attributes.length) rest n'.children := by
  have hlist := h.list
  have hrest := h.rest
  cases hn : n.children with
  | nil =>
    rw [hn] at hlist
    cases hlist
  | cons list rest =>
    rw [hn] at hlist hrest
    have hpair := Option.some.inj hlist
    exact ⟨list, rest, rfl, congrArg Prod.fst hpair, congrArg Prod.snd hpair, hrest⟩

/-- The attributes play no role in a parameter. -/
theorem IsAttributed.childWith? (r : Role) :
    Option.Rel (Moved before.length attributes.length) (n.childWith? r) (n'.childWith? r) := by
  obtain ⟨list, rest, hn, -, hrole, hrest⟩ := h.exists_list
  have hskip : (list.role == some r) = false := by rw [hrole]; rfl
  rw [Node.childWith?, Node.childWith?, hn, List.find?_cons_of_neg (by simp [hskip])]
  exact Moved.find? hrest r

theorem IsAttributed.hasChild {k : Tree.Kind} (hk : k ≠ .phrase) : n.hasChild k = n'.hasChild k := by
  obtain ⟨list, rest, hn, hkind, -, hrest⟩ := h.exists_list
  have hskip : (list.kind == k) = false := by simpa [hkind] using hk.symm
  rw [Node.hasChild, Node.hasChild, hn, List.any_cons, hskip, Bool.false_or]
  exact Moved.any_kind hrest k

theorem IsAttributed.text? (behind : Text) (r : Role) :
    (n.childWith? r).map (·.text (before ++ (attributes ++ behind))) = (n'.childWith? r).map (·.text (before ++ behind)) := by
  have hrel := h.childWith? r
  generalize n.childWith? r = child at hrel ⊢
  generalize n'.childWith? r = child' at hrel ⊢
  cases hrel with
  | none => rfl
  | some hc => exact congrArg some (hc.text behind)

end

/-! ## Parameters -/

/-- What a parameter is read from. -/
theorem parameterOf?_eq_some_iff {source : Text} {n : Node} {p : ParameterDecl} : parameterOf? source n = some p ↔
    ∃ name, n.childWith? .name = some name ∧ p.name = trimStart isNameMark (name.text source) ∧
      p.signature = (Tree.Span.mk n.span.first name.span.stop).text source ∧
      p.byReference = (n.hasChild .referenceModifier || marksReference p.signature) ∧
      p.variadic = (n.kind == .variadicParameter || contains "...".toList p.signature) ∧
      p.default = (n.childWith? .value).map (·.text source) := by
  rw [parameterOf?, Option.map_eq_some_iff]
  refine exists_congr fun name => and_congr_right fun _ => ⟨?_, ?_⟩
  · rintro rfl
    exact ⟨rfl, rfl, rfl, rfl, rfl⟩
  · rintro ⟨hname, hsignature, hreference, hvariadic, hdefault⟩
    obtain ⟨name', signature, reference, variadic, default⟩ := p
    dsimp only at hname hsignature hreference hvariadic hdefault
    subst hname hsignature hreference hvariadic hdefault
    rfl

/-- A declaration with attributes is the one without them, but for its signature, in which they
    stand, and for its dots. -/
theorem parameterOf?_of_isAttributed {before attributes behind : Text} {n n' : Node} (h : IsAttributed before attributes n n')
    (hends : EndsBracket attributes) {p : ParameterDecl} (hp : parameterOf? (before ++ behind) n' = some p)
    (hvariable : '$' ∈ p.signature) :
    parameterOf? (before ++ (attributes ++ behind)) n =
      some { p with
        signature := attributes ++ p.signature
        variadic := p.variadic || contains "...".toList attributes } := by
  obtain ⟨name', hname', hname, hsignature, hreference, hvariadic, hdefault⟩ := parameterOf?_eq_some_iff.mp hp
  have hrel := h.childWith? .name
  rw [hname'] at hrel
  generalize hchild : n.childWith? .name = child at hrel
  cases hrel with
  | @some name _ hmoved =>
    have hown : p.signature = behind.take (name'.span.stop.offset - before.length) := by
      rw [hsignature, Span.text, h.first', List.drop_left]
    -- it holds its variable, so it reaches behind its start
    have hreach : before.length ≤ name'.span.stop.offset := by
      refine Nat.le_of_not_lt fun hlt => ?_
      rw [hown, Nat.sub_eq_zero_of_le (Nat.le_of_lt hlt)] at hvariable
      cases hvariable
    have hlength : name.span.stop.offset - n.span.first.offset = attributes.length + (name'.span.stop.offset - before.length) := by
      rw [hmoved.stop, h.first]
      omega
    refine parameterOf?_eq_some_iff.mpr ⟨name, hchild, ?_, ?_, ?_, ?_, ?_⟩
    · rw [hmoved.text behind]
      exact hname
    · rw [Span.text, hlength, h.first, List.drop_left, List.take_length_add_append, hown]
    · dsimp only
      rw [hreference, h.hasChild (by decide), hends.marksReference_append hvariable]
    · dsimp only
      rw [hvariadic, h.kind, hends.contains_append, Bool.or_assoc, Bool.or_comm (contains _ p.signature)]
    · rw [h.text? behind]
      exact hdefault

/-- Characters of attributes that no search in a signature stops at. -/
structure AreClear (attributes : Text) : Prop where
  groups : Groups attributes
  plain : '$' ∉ attributes
  dotless : contains "...".toList attributes = false

/-- Of the signature the model of a parameter holds the type alone. -/
theorem ofDecl_with (p : ParameterDecl) (signature : Text) (variadic : Bool) :
    Parameter.ofDecl { p with signature := signature, variadic := variadic } =
      { Parameter.ofDecl p with typeHint := ofSignature? signature, variadic := variadic } := by
  rw [Parameter.ofDecl, Parameter.ofDecl, Parameter.ofDefault, Parameter.ofDefault]

/-- What attributes make of a parameter. All but its type and its dots stay. The type is read from
    a signature that begins with them: behind a `$` in them none of its own is read. Dots in them
    are taken for its own. If they are clear of both, and their brackets match, it is the same. -/
theorem parameter_behind_attributes {before attributes behind : Text} {n n' : Node} (h : IsAttributed before attributes n n')
    (hends : EndsBracket attributes) {p : ParameterDecl} (hp : parameterOf? (before ++ behind) n' = some p)
    (hvariable : '$' ∈ p.signature) :
    (parameterOf? (before ++ (attributes ++ behind)) n).map Parameter.ofDecl =
        some { Parameter.ofDecl p with
          typeHint := ofSignature? (attributes ++ p.signature)
          variadic := p.variadic || contains "...".toList attributes } ∧
      ('$' ∈ attributes → ofSignature? (attributes ++ p.signature) = ofSignature? attributes) ∧
      ('$' ∉ attributes → Groups attributes → ofSignature? (attributes ++ p.signature) = ofSignature? p.signature) ∧
      (AreClear attributes →
        (parameterOf? (before ++ (attributes ++ behind)) n).map Parameter.ofDecl = some (Parameter.ofDecl p)) := by
  have hmodel : (parameterOf? (before ++ (attributes ++ behind)) n).map Parameter.ofDecl =
      some { Parameter.ofDecl p with
        typeHint := ofSignature? (attributes ++ p.signature)
        variadic := p.variadic || contains "...".toList attributes } := by
    rw [parameterOf?_of_isAttributed h hends hp hvariable, Option.map_some, ofDecl_with]
  refine ⟨hmodel, fun hmem => ofSignature?_of_mem hmem p.signature,
    fun hplain hgroups => ofSignature?_groups hgroups hplain p.signature, fun hclear => ?_⟩
  rw [hmodel, ofSignature?_groups hclear.groups hclear.plain, hclear.dotless, Bool.or_false]
  exact congrArg some (ofDecl_with p p.signature p.variadic).symm

/-- The first parameter of the first method of the first class of a tree. -/
def firstParameter? (root : Node) : Option Node := do
  let c ← root.children.find? (·.kind == .classDeclaration)
  let body ← c.childWith? .body
  let m ← body.children.find? (·.kind == .methodDeclaration)
  let list ← m.childWith? .parameters
  list.children.find? isParameter

def methodSample : Text := "<?php class A \x7b function f(".toList

def attributesSample : Text := "#[Each(['a', [2]])]\n#[Plain] ".toList

def parameterSample : Text := "?string &$name = 'x') \x7b\x7d \x7d".toList

instance (start shift : Nat) (c c' : Node) : Decidable (Moved start shift c c') :=
  decidable_of_iff (c.kind = c'.kind ∧ c.role = c'.role ∧ start ≤ c'.span.first.offset ∧
      c.span.first.offset = c'.span.first.offset + shift ∧ c.span.stop.offset = c'.span.stop.offset + shift)
    ⟨fun ⟨hk, hr, hi, hf, hs⟩ => ⟨hk, hr, hi, hf, hs⟩, fun h => ⟨h.kind, h.role, h.inside, h.first, h.stop⟩⟩

instance (before attributes : Text) (n n' : Node) : Decidable (IsAttributed before attributes n n') :=
  decidable_of_iff (n.kind = n'.kind ∧ n.span.first.offset = before.length ∧ n'.span.first.offset = before.length ∧
      n.children.head?.map (fun c => (c.kind, c.role)) = some (.phrase, none) ∧
      List.Forall₂ (Moved before.length attributes.length) n.children.tail n'.children)
    ⟨fun ⟨hk, hf, hf', hl, hr⟩ => ⟨hk, hf, hf', hl, hr⟩, fun h => ⟨h.kind, h.first, h.first', h.list, h.rest⟩⟩

theorem areClear_attributesSample : AreClear attributesSample where
  groups := by
    have hlist : Nested ('[' :: (("'a', ".toList ++ '[' :: ("2".toList ++ [']'])) ++ [']'])) :=
      .brackets (.append (.plain (by decide) (by decide)) (.brackets (.plain (by decide) (by decide))))
    have hfirst :
        Nested ("Each(".toList ++ ('[' :: (("'a', ".toList ++ '[' :: ("2".toList ++ [']'])) ++ [']']) ++ ")".toList)) :=
      .append (.plain (by decide) (by decide)) (.append hlist (.plain (by decide) (by decide)))
    have hsecond : Nested "Plain".toList := .plain (by decide) (by decide)
    have hsplit : attributesSample =
        '#' :: '[' :: ("Each(".toList ++ ('[' :: (("'a', ".toList ++ '[' :: ("2".toList ++ [']'])) ++ [']']) ++ ")".toList) ++ [']']) ++
          (['\n'] ++ ('#' :: '[' :: ("Plain".toList ++ [']']) ++ [' '])) := by
      decide
    rw [hsplit]
    exact .append (.group hfirst) (.append (.blanks (by decide)) (.append (.group hsecond) (.blanks (by decide))))
  plain := by decide
  dotless := by decide

/-- Two groups with lists in their arguments, in front of a parameter that has everything. -/
theorem parameter_behind_attributesSample :
    ∃ n n', firstParameter? (Tree.read (methodSample ++ (attributesSample ++ parameterSample))) = some n ∧
      firstParameter? (Tree.read (methodSample ++ parameterSample)) = some n' ∧
      IsAttributed methodSample attributesSample n n' ∧ AreClear attributesSample ∧
      (parameterOf? (methodSample ++ (attributesSample ++ parameterSample)) n).map Parameter.ofDecl =
        some ⟨"name".toList, true, false, some "string".toList, true, some "'x'".toList⟩ := by
  obtain ⟨n, hn, n', hn', hattributed, hp⟩ :
      ∃ n ∈ firstParameter? (Tree.read (methodSample ++ (attributesSample ++ parameterSample))),
        ∃ n' ∈ firstParameter? (Tree.read (methodSample ++ parameterSample)),
          IsAttributed methodSample attributesSample n n' ∧ parameterOf? (methodSample ++ parameterSample) n' =
            some ⟨"name".toList, "?string &$name".toList, true, false, some "'x'".toList⟩ := by
    decide +kernel
  have hends : EndsBracket attributesSample := by
    unfold EndsBracket
    decide +kernel
  obtain ⟨-, -, -, hclear⟩ := parameter_behind_attributes hattributed hends hp (by decide +kernel)
  refine ⟨n, n', hn, hn', hattributed, areClear_attributesSample, ?_⟩
  rw [hclear areClear_attributesSample]
  decide +kernel

/-- The parameters of all methods in the outline of a source. -/
def outlinedParameters (source : Text) : List Parameter :=
  match extract source .none with
  | .ok f => f.groups.entries.flatMap fun g => g.2.flatMap fun c => c.methods.flatMap (·.parameters)
  | .error _ => []

/-- Both sources are without issues and have one parameter, but it is another one with attributes
    in front than alone. -/
def AttributesChange (before attributes behind : Text) (alone attributed : Parameter) : Prop :=
  alone ≠ attributed ∧ (Tree.read (before ++ behind)).issues = [] ∧
    (Tree.read (before ++ (attributes ++ behind))).issues = [] ∧ outlinedParameters (before ++ behind) = [alone] ∧
    outlinedParameters (before ++ (attributes ++ behind)) = [attributed]

instance (before attributes behind : Text) (alone attributed : Parameter) :
    Decidable (AttributesChange before attributes behind alone attributed) := by
  unfold AttributesChange; infer_instance

def integerSample : Parameter := .ofDefault ['x'] false false (some "int".toList) none

/-- A `$` in a string of an attribute takes the type away, dots in one make the parameter
    variadic, and a bracket in one makes the rest of the string a part of the type. -/
theorem attributes_change_parameters :
    AttributesChange methodSample "#[T('$')] ".toList "int $x) \x7b\x7d \x7d".toList integerSample
        { integerSample with typeHint := none } ∧
      AttributesChange methodSample "#[T('...')] ".toList "int $x) \x7b\x7d \x7d".toList integerSample
        { integerSample with variadic := true } ∧
      AttributesChange methodSample "#[T(']')] ".toList "int $x) \x7b\x7d \x7d".toList integerSample
        { integerSample with typeHint := some "')] int".toList } := by
  decide +kernel

end ClassOutline
