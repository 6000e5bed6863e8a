import ClassOutline.Proofs.Plain.Overlay
/-
  ClassOutline.Proofs.Plain.Reading — nodes that are read lie over the tokens they are read from.

  `Step` says that some nodes lie over the tokens between two places of the stream, and what
  stands there before and behind. `Reads` is what a reader is held to: wherever its tokens
  stand in the stream, its nodes lie over what it took, and it ends behind no operator. A
  reader is `Sound` if that holds of whatever it gives, and combinations of sound readers
  are sound.

  Only lawful nodes are promised to: namespaces stand under the root alone, and no class-like
  bears a name that is reserved.
-/

namespace ClassOutline.Plain

open ClassOutline.Text ClassOutline.Tree ClassOutline.Discovery Reader

/-! ## Lawful nodes -/

def isClassLike : Kind → Bool
  | .classDeclaration | .interfaceDeclaration | .traitDeclaration | .enumDeclaration => true
  | _ => false

/-- Whether a word may name a class-like. -/
def isFree (w : Text) : Bool := Token.Kind.ofWord none w == .identifier

mutual

/-- Whether no namespace is defined in a node and no class-like bears a reserved name. -/
def isLawful (source : Text) : Node → Bool
  | ⟨kind, _, _, _, children⟩ =>
    kind != .namespaceDefinition &&
      (!isClassLike kind || children.all fun c => c.role != some .name || isFree (c.text source)) &&
      areLawful source children

def areLawful (source : Text) : List Node → Bool
  | [] => true
  | n :: ns => isLawful source n && areLawful source ns

end

variable {source : Text}

@[simp] theorem areLawful_nil : areLawful source [] = true := by rw [areLawful]

@[simp] theorem areLawful_cons (n : Node) (ns : List Node) :
    areLawful source (n :: ns) = (isLawful source n && areLawful source ns) := by rw [areLawful]

@[simp] theorem areLawful_append (ns ms : List Node) :
    areLawful source (ns ++ ms) = (areLawful source ns && areLawful source ms) := by
  induction ns with
  | nil => simp
  | cons n ns ih => simp [ih, Bool.and_assoc]

/-! ## Grouping -/

/-- A group is a node of all from the first that is no extra on. -/
theorem group_eq (kind : Kind) (role : Option Role) (ns : List Node) :
    (ns.dropWhile Node.isExtra = [] ∧ group kind role ns = ns) ∨
      ∃ first last, (ns.dropWhile Node.isExtra).head? = some first ∧ ns.getLast? = some last ∧
        (ns.dropWhile Node.isExtra).getLast? = some last ∧
        group kind role ns = ns.takeWhile Node.isExtra ++
          [⟨kind, role, .ofNodes first last, false, ns.dropWhile Node.isExtra⟩] := by
  have hsplit : ns.takeWhile Node.isExtra ++ ns.dropWhile Node.isExtra = ns := List.takeWhile_append_dropWhile
  unfold group
  dsimp only
  cases hin : ns.dropWhile Node.isExtra with
  | nil =>
    rw [hin, List.append_nil] at hsplit
    exact Or.inl ⟨rfl, by simp [hsplit]⟩
  | cons first rest =>
    right
    obtain ⟨last, hlast⟩ : ∃ last, (first :: rest).getLast? = some last := ⟨_, List.getLast?_eq_some_getLast (by simp)⟩
    refine ⟨first, last, rfl, ?_, hlast, by rw [List.head?_cons, hlast]⟩
    rw [← hsplit, hin, List.getLast?_append, hlast]
    rfl

theorem areLawful_of_group {kind : Kind} {ns : List Node} (h : areLawful source (group kind none ns) = true) :
    areLawful source ns = true := by
  rcases group_eq kind none ns with ⟨-, he⟩ | ⟨first, last, -, -, -, he⟩
  · rwa [he] at h
  · rw [he, areLawful_append, areLawful_cons, areLawful_nil, Bool.and_true, isLawful] at h
    obtain ⟨hbefore, hnode⟩ := Bool.and_eq_true_iff.mp h
    rw [← List.takeWhile_append_dropWhile (p := Node.isExtra) (l := ns), areLawful_append, hbefore,
      (Bool.and_eq_true_iff.mp hnode).2]
    rfl

/-! ## Steps -/

/-- Where some nodes from a place on end. -/
def stopOf (pos : Nat) (ns : List Node) : Nat := (ns.getLast?.map (·.span.stop.offset)).getD pos

@[simp] theorem stopOf_nil (pos : Nat) : stopOf pos [] = pos := rfl

theorem stopOf_append (pos : Nat) (ns ms : List Node) : stopOf pos (ns ++ ms) = stopOf (stopOf pos ns) ms := by
  simp only [stopOf, List.getLast?_append]
  cases ms.getLast? <;> rfl

/-- Tokens before a place stand before others. -/
def UsedTo (stop : Nat) (ps ps' : List Placed) : Prop := ∃ used, ps = used ++ ps' ∧ ∀ q ∈ used, q.offset < stop

theorem UsedTo.append {stop stop' : Nat} {ps ps' ps'' : List Placed} (h : UsedTo stop ps ps') (hle : stop ≤ stop')
    (h' : UsedTo stop' ps' ps'') : UsedTo stop' ps ps'' := by
  obtain ⟨used, rfl, hused⟩ := h
  obtain ⟨used', rfl, hused'⟩ := h'
  refine ⟨used ++ used', (List.append_assoc ..).symm, fun q hq => ?_⟩
  rcases List.mem_append.mp hq with hq | hq
  · exact Nat.lt_of_lt_of_le (hused q hq) hle
  · exact hused' q hq

/-- Nodes that lie over the tokens between two places, `rest` being the plain tokens from the
    second on. -/
structure Step (source : Text) (pos : Nat) (ps : List Placed) (ns : List Node) (previous : Option Text) (stop : Nat)
    (rest : List Token) (ps' : List Placed) : Prop where
  le : pos ≤ stop
  used : UsedTo stop ps ps'
  under : Under source previous stop rest ps'
  laid : layAll source .absent ns ps = some ps'
  stopOf : stopOf pos ns = stop
  extras : ∀ n ∈ ns, n.isExtra = true → n.role = none

variable {previous previous' previous'' : Option Text} {pos stop stop' : Nat} {ts mid rest : List Token}
  {ps ps' ps'' : List Placed} {ns ms : List Node}

theorem Step.nil (h : Under source previous pos ts ps) : Step source pos ps [] previous pos ts ps where
  le := Nat.le_refl _
  used := ⟨[], rfl, by simp⟩
  under := h
  laid := by rw [layAll]
  stopOf := rfl
  extras := by simp

theorem Step.append (h : Step source pos ps ns previous stop mid ps')
    (h' : Step source stop ps' ms previous' stop' rest ps'') :
    Step source pos ps (ns ++ ms) previous' stop' rest ps'' where
  le := Nat.le_trans h.le h'.le
  used := h.used.append h'.le h'.used
  under := h'.under
  laid := by rw [layAll_append, h.laid, Option.bind_some, h'.laid]
  stopOf := by rw [stopOf_append, h.stopOf, h'.stopOf]
  extras := fun n hn => (List.mem_append.mp hn).elim (h.extras n) (h'.extras n)

/-- A node around nodes ends where the last of them ends. -/
theorem step_group {kind : Kind} (hne : ns.dropWhile Node.isExtra ≠ []) (hle : pos ≤ stop) (hused : UsedTo stop ps ps')
    (hunder : Under source previous stop rest ps') (hstop : Plain.stopOf pos ns = stop)
    (hextras : ∀ n ∈ ns.takeWhile Node.isExtra, n.role = none)
    (hlay : ∀ span, span.stop.offset = stop → (layAll source .absent (ns.takeWhile Node.isExtra) ps).bind
      (lay source ⟨kind, none, span, false, ns.dropWhile Node.isExtra⟩) = some ps') :
    Step source pos ps (Tree.group kind none ns) previous stop rest ps' := by
  rcases group_eq kind none ns with ⟨hnil, -⟩ | ⟨first, last, -, hlast, -, he⟩
  · exact absurd hnil hne
  have hend : last.span.stop.offset = stop := by
    rw [← hstop, Plain.stopOf, hlast]
    rfl
  rw [he]
  refine ⟨hle, hused, hunder, ?_, ?_, ?_⟩
  · obtain ⟨q, hq, hnode⟩ := Option.bind_eq_some_iff.mp (hlay (.ofNodes first last) hend)
    rw [layAll_append, hq, Option.bind_some, layAll, hnode, Option.bind_some, layAll]
  · rw [stopOf_append]
    exact hend
  · intro n hn hextra
    rcases List.mem_append.mp hn with hn | hn
    · exact hextras n hn
    · rw [List.mem_singleton.mp hn]

/-- A node around what has been laid. -/
theorem Step.group_of {kind : Kind} (h : Step source pos ps ns previous stop rest ps')
    (hlay : ∀ span q, span.stop.offset = stop → layAll source .absent (ns.takeWhile Node.isExtra) ps = some q →
      layAll source .absent (ns.dropWhile Node.isExtra) q = some ps' →
      lay source ⟨kind, none, span, false, ns.dropWhile Node.isExtra⟩ q = some ps') :
    Step source pos ps (Tree.group kind none ns) previous stop rest ps' := by
  rcases group_eq kind none ns with ⟨-, he⟩ | ⟨first, last, hfirst, -, -, -⟩
  · rwa [he]
  refine step_group (fun hnil => by rw [hnil] at hfirst; cases hfirst) h.le h.used h.under h.stopOf (fun n hn => ?_)
    fun span hspan => ?_
  · exact h.extras n ((List.takeWhile_sublist _).mem hn) (List.mem_takeWhile_imp hn)
  · have hlaid := h.laid
    rw [← List.takeWhile_append_dropWhile (p := Node.isExtra) (l := ns), layAll_append] at hlaid
    obtain ⟨q, hq, hinner⟩ := Option.bind_eq_some_iff.mp hlaid
    rw [hq, Option.bind_some, hlay span q hspan hq hinner]

theorem Step.group {kind : Kind} (hclass : kind ≠ .classDeclaration) (huse : kind ≠ .useDeclaration)
    (h : Step source pos ps ns previous stop rest ps') :
    Step source pos ps (Tree.group kind none ns) previous stop rest ps' := by
  refine h.group_of fun span q hspan _ hinner => ?_
  rw [lay, beq_false_of_ne hclass, beq_false_of_ne huse]
  simp only [Bool.false_eq_true, if_false, hinner, Option.bind_some, hspan]
  exact passTo_of_le h.under.le

theorem layAll_map_withRole (role : Role) (ns : List Node) (ps : List Placed) :
    layAll source .absent (ns.map (withRole role)) ps = layAll source .absent ns ps := by
  have hlay : ∀ n qs, lay source (withRole role n) qs = lay source n qs := by
    intro n qs
    obtain ⟨kind, r, span, missing, children⟩ := n
    unfold withRole
    split <;> simp [lay]
  induction ns generalizing ps with
  | nil => rfl
  | cons n ns ih => rw [List.map_cons, layAll, layAll, hlay]; exact congrArg _ (funext fun q => ih q)

@[simp] theorem span_withRole (role : Role) (n : Node) : (withRole role n).span = n.span := by
  unfold withRole
  split <;> rfl

@[simp] theorem isExtra_withRole (role : Role) (n : Node) : (withRole role n).isExtra = n.isExtra := by
  unfold withRole
  split <;> rfl

theorem Step.role (role : Role) (h : Step source pos ps ns previous stop rest ps') :
    Step source pos ps (ns.map (withRole role)) previous stop rest ps' where
  le := h.le
  used := h.used
  under := h.under
  laid := by rw [layAll_map_withRole, h.laid]
  stopOf := by
    rw [← h.stopOf, Plain.stopOf, Plain.stopOf, List.getLast?_map, Option.map_map]
    exact congrArg (Option.getD · pos) (congrArg (Option.map · _) (funext fun n => by simp))
  extras := by
    intro n hn hextra
    obtain ⟨m, hm, rfl⟩ := List.mem_map.mp hn
    rw [isExtra_withRole] at hextra
    rw [withRole, hextra, Bool.true_or, if_pos rfl]
    exact h.extras m hm hextra

theorem areLawful_map_withRole (role : Role) (ns : List Node) :
    areLawful source (ns.map (withRole role)) = areLawful source ns := by
  have hlawful : ∀ n, isLawful source (withRole role n) = isLawful source n := by
    intro n
    obtain ⟨kind, r, span, missing, children⟩ := n
    unfold withRole
    split <;> simp [isLawful]
  induction ns with
  | nil => rfl
  | cons n ns ih => rw [List.map_cons, areLawful_cons, areLawful_cons, hlawful, ih]

/-! ## Single tokens -/

/-- Tokens before a place that begin no anchor. -/
def Passed (stop : Nat) (gap : List Placed) : Prop :=
  ∀ q ∈ gap, isAnchorKind q.token.kind = false ∧ q.offset < stop

variable {t : Token} {gap : List Placed} {p : Placed}

theorem Passed.nil : Passed stop [] := by simp [Passed]

theorem Passed.mono (h : Passed stop gap) (hle : stop ≤ stop') : Passed stop' gap := fun q hq =>
  ⟨(h q hq).1, Nat.lt_of_lt_of_le (h q hq).2 hle⟩

theorem Passed.append {gap' : List Placed} (h : Passed stop gap) (h' : Passed stop gap') : Passed stop (gap ++ gap') :=
  fun q hq => (List.mem_append.mp hq).elim (h q) (h' q)

theorem Passed.of_suffix {gap' : List Placed} (h : Passed stop gap) (hsuffix : gap' <:+ gap) : Passed stop gap' := fun q hq =>
  h q (hsuffix.mem hq)

theorem Gap.passed (h : Gap source pos t gap) : Passed t.span.first.offset gap := fun q hq =>
  ⟨h.isAnchorKind q hq, (h.bounds q hq).2⟩

/-- A token is before where it ends. -/
theorem Fit.passed (h : Fit source t) (hp : p.offset = t.span.first.offset) (hkind : isAnchorKind p.token.kind = false) :
    Passed t.span.stop.offset [p] := by
  have := h.length
  rw [Passed, List.forall_mem_singleton]
  exact ⟨hkind, by omega⟩

theorem Gap.lt_stop (h : Gap source pos t gap) (hfit : Fit source t) (hp : p.offset = t.span.first.offset) :
    ∀ q ∈ gap ++ [p], q.offset < t.span.stop.offset := by
  have := hfit.length
  intro q hq
  rcases List.mem_append.mp hq with hq | hq
  · have := (h.bounds q hq).2
    omega
  · rw [List.mem_singleton.mp hq]
    omega

/-- A token that begins no anchor is passed with the gap before it. -/
theorem Gap.passed_token (h : Gap source pos t gap) (hfit : Fit source t) (hp : p.offset = t.span.first.offset)
    (hkind : Plain.isAnchorKind p.token.kind = false) : Passed t.span.stop.offset (gap ++ [p]) :=
  (h.passed.mono (Nat.le_of_lt hfit.length)).append (hfit.passed hp hkind)

/-- A node that ends with a token is laid behind the comments before the token. -/
theorem Under.token (h : Under source previous pos (t :: ts) ps) (hlexeme : t.lexeme ≠ .finish) {n : Node}
    (hrole : n.role = none ∨ n.isExtra = false) (hstop : n.span.stop.offset = t.span.stop.offset)
    (hlay : ∀ gap p ps', Passed t.span.stop.offset gap → Fit source t → Shows previous t p →
      Under source (some t.text) t.span.stop.offset ts ps' → lay source n (gap ++ p :: ps') = some ps') :
    ∃ ps', Step source pos ps (t.before ++ [n]) (some t.text) t.span.stop.offset ts ps' := by
  cases h with
  | finish h => exact absurd h hlexeme
  | @cons _ _ _ _ gap p ps' _ hfit hle hgap hjoin hp hrest =>
    have hlength := hfit.length
    have hoffset := hp.offset
    have hbehind : ∀ q ∈ p :: ps', t.span.first.offset ≤ q.offset := by
      intro q hq
      rcases List.mem_cons.mp hq with rfl | hq
      · exact Nat.le_of_eq hoffset.symm
      · exact Nat.le_trans (Nat.le_of_lt hlength) (hrest.le q hq)
    have hpassed : Passed t.span.stop.offset gap := hgap.passed.mono (Nat.le_of_lt hlength)
    obtain ⟨gap', hsuffix, hbefore⟩ := layAll_before hgap hfit.before hbehind
    have hn := hlay gap' p ps' (hpassed.of_suffix hsuffix) hfit hp hrest
    refine ⟨ps', by omega, ⟨gap ++ [p], by simp, ?_⟩, hrest, ?_, ?_, ?_⟩
    · intro q hq
      rcases List.mem_append.mp hq with hq | hq
      · exact (hpassed q hq).2
      · rw [List.mem_singleton.mp hq]
        omega
    · rw [layAll_append, hbefore, Option.bind_some, layAll, hn, Option.bind_some, layAll]
    · rw [stopOf_append, stopOf, ← hstop]
      rfl
    · intro m hm hextra
      rcases List.mem_append.mp hm with hm | hm
      · obtain ⟨span, rfl, -⟩ := hfit.before m hm
        rfl
      · rw [List.mem_singleton.mp hm] at hextra ⊢
        exact hrole.resolve_right (by simp [hextra])

theorem Under.leaf (h : Under source previous pos (t :: ts) ps) (hlexeme : t.lexeme ≠ .finish) {kind : Kind}
    (hkind : kind ≠ .classDeclaration)
    (hquiet : ∀ p ps', Fit source t → Shows previous t p → Under source (some t.text) t.span.stop.offset ts ps' →
      begins (tokensOf (p :: ps')) = false) :
    ∃ ps', Step source pos ps (t.nodes kind) (some t.text) t.span.stop.offset ts ps' := by
  refine h.token hlexeme (Or.inl rfl) rfl fun gap p ps' hgap hfit hp hrest => ?_
  have hlt : ¬ t.span.stop.offset ≤ p.offset := by
    have := hp.offset
    have := hfit.length
    omega
  rw [lay_leaf hkind, passTo_skip hgap, passTo, if_neg hlt, hquiet p ps' hfit hp hrest]
  exact passTo_of_le hrest.le

/-- Strings and variables are groups of their pieces. -/
theorem Under.pieces (h : Under source previous pos (t :: ts) ps) (hlexeme : t.lexeme = .variable ∨ t.lexeme = .string)
    {kind : Kind} (hclass : kind ≠ .classDeclaration) (huse : kind ≠ .useDeclaration) :
    ∃ ps', Step source pos ps (t.before ++ Tree.group kind none t.pieces) (some t.text) t.span.stop.offset ts ps' := by
  have hne : t.lexeme ≠ .finish := by rcases hlexeme with h | h <;> simp [h]
  have hfit : Fit source t := by
    cases h with
    | finish h => exact absurd h hne
    | cons _ hfit => exact hfit
  obtain ⟨last, hlast, hstop⟩ := hfit.closes hlexeme
  have hplain : t.pieces.dropWhile Node.isExtra = t.pieces ∧ t.pieces.takeWhile Node.isExtra = [] := by
    cases hpieces : t.pieces with
    | nil => simp
    | cons n ns =>
      obtain ⟨kind, span, -, -, hextra, -⟩ := hfit.pieces n (by simp [hpieces])
      simp [hextra]
  rcases group_eq kind none t.pieces with ⟨hnil, -⟩ | ⟨first, last', -, hlast', -, he⟩
  · rw [hplain.1] at hnil
    rw [hnil] at hlast
    cases hlast
  obtain rfl : last = last' := Option.some.inj (hlast.symm.trans hlast')
  rw [he, hplain.1, hplain.2, List.nil_append]
  refine h.token hne (Or.inl rfl) hstop fun gap p ps' hgap hfit hp hrest => ?_
  have hkind : isAnchorKind p.token.kind = false := by
    rw [hp.kind, Token.shownAs]
    rcases hlexeme with h | h <;> · rw [h]; rfl
  have hpassed : Passed t.span.stop.offset (gap ++ [p]) := hgap.append (hfit.passed hp.offset hkind)
  obtain ⟨u, hu, hlaid⟩ : ∃ u, u <:+ gap ++ [p] ∧
      layAll source .absent t.pieces (gap ++ [p] ++ ps') = some (u ++ ps') := by
    refine layAll_leaves (fun n hn => ?_) fun q hq => (hpassed q hq).1
    obtain ⟨kind, span, rfl, hkind, -, hle⟩ := hfit.pieces n hn
    exact ⟨kind, span, rfl, hkind, fun q hq => Nat.le_trans hle (hrest.le q hq)⟩
  rw [List.append_cons, lay, beq_false_of_ne hclass, beq_false_of_ne huse]
  simp only [Bool.false_eq_true, if_false, hlaid, Option.bind_some, Span.ofNodes, hstop]
  rw [passTo_skip fun q hq => hpassed q (hu.mem hq)]
  exact passTo_of_le hrest.le

end ClassOutline.Plain
