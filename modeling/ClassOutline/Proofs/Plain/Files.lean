import ClassOutline.Proofs.Plain.Namespaces
/-
  ClassOutline.Proofs.Plain.Files — the statements of a file over its tokens.

  Statements under the root are definitions of namespaces, which change the scope, and all
  others, which are laid as anywhere. Behind a braced definition the tree is back in the
  scope before it and the token stream is not: `isInScope` asks that no class stands there.
-/

namespace ClassOutline.Plain

open ClassOutline.Text ClassOutline.Tree ClassOutline.Discovery Reader

variable {source : Text} {n : Nested} {ts mid rest : List Token} {t : Token} {ns ms : List Node}
  {previous : Option Text} {pos stop : Nat} {ps ps' gap : List Placed}

/-! ## Kinds of statements -/

/-- Whether nodes are a group of a kind other than a definition. -/
def IsGrouped (ns : List Node) : Prop := ∃ kind ms, kind ≠ .namespaceDefinition ∧ ns = group kind none ms

theorem kind_of_isGrouped (h : IsGrouped ns) : ∀ m ∈ ns, m.kind ≠ .namespaceDefinition := by
  obtain ⟨kind, ms, hkind, rfl⟩ := h
  have hextra : ∀ m ∈ ms.takeWhile Node.isExtra, m.kind ≠ .namespaceDefinition := by
    intro m hm he
    have := List.mem_takeWhile_imp hm
    rw [Node.isExtra, he] at this
    cases this
  intro m hm
  rcases group_eq kind none ms with ⟨hnil, he⟩ | ⟨first, last, -, -, -, he⟩
  · rw [he, ← List.takeWhile_append_dropWhile (p := Node.isExtra) (l := ms), hnil, List.append_nil] at hm
    exact hextra m hm
  · rw [he] at hm
    rcases List.mem_append.mp hm with hm | hm
    · exact hextra m hm
    · rw [List.mem_singleton.mp hm]
      exact hkind

theorem isGrouped_node {kind : Kind} {r : Reader} (hkind : kind ≠ .namespaceDefinition)
    (h : node kind r ts = some (ns, rest)) : IsGrouped ns := by
  obtain ⟨ms, -, rfl⟩ := map_eq_some h
  exact ⟨kind, ms, hkind, rfl⟩

theorem isGrouped_declaration (h : declaration n ts = some (ns, rest)) : IsGrouped ns := by
  rw [declaration] at h
  split at h
  · rename_i before mid _
    obtain ⟨ms, -, rfl⟩ := map_eq_some (f := fun ns => group (declarationKind mid) none (before ++ ns)) h
    refine ⟨_, _, ?_, rfl⟩
    unfold declarationKind
    repeat' split
    all_goals exact fun h => by cases h
  · cases h

theorem isGrouped_phrase {rs : List Reader} (h : phrase rs ts = some (ns, rest)) : IsGrouped ns :=
  isGrouped_node (by decide) h

/-- A statement is the definition of a namespace or gives none. -/
theorem wordStatement_cases {w : Word} (h : wordStatement n w ts = some (ns, rest)) :
    namespaceDefinition n ts = some (ns, rest) ∨ IsGrouped ns := by
  unfold wordStatement at h
  split at h
  · rw [given, either] at h
    split at h
    · exact Or.inl h
    · cases h
  · exact Or.inr (isGrouped_node (by decide) h)
  · exact Or.inr (isGrouped_phrase h)
  · exact Or.inr (isGrouped_phrase h)
  · exact Or.inr (isGrouped_phrase h)
  · exact Or.inr (isGrouped_phrase h)
  · exact Or.inr (isGrouped_phrase h)
  · exact Or.inr (isGrouped_phrase h)
  · exact Or.inr (isGrouped_phrase h)
  · exact Or.inr (isGrouped_phrase h)
  · exact Or.inr (isGrouped_phrase h)
  · exact Or.inr (isGrouped_phrase h)
  · exact Or.inr (isGrouped_phrase h)
  · exact Or.inr (isGrouped_phrase h)
  · exact Or.inr (isGrouped_phrase h)
  · exact Or.inr (isGrouped_phrase h)
  · exact Or.inr (isGrouped_node (by decide) h)
  · exact Or.inr (isGrouped_declaration h)
  · exact Or.inr (isGrouped_declaration h)
  · exact Or.inr (isGrouped_declaration h)
  · exact Or.inr (isGrouped_declaration h)
  · exact Or.inr (isGrouped_declaration h)
  · exact Or.inr (isGrouped_declaration h)
  · exact Or.inr (isGrouped_declaration h)
  · split at h
    · exact Or.inr (isGrouped_declaration h)
    · exact Or.inr (isGrouped_phrase h)
  · split at h
    · exact Or.inr (isGrouped_phrase h)
    · exact Or.inr (isGrouped_phrase h)
  · exact Or.inr (isGrouped_phrase h)

theorem statementOf_cases (h : statementOf n ts = some (ns, rest)) :
    namespaceDefinition n ts = some (ns, rest) ∨ IsGrouped ns := by
  unfold statementOf at h
  split at h
  · split at h
    · exact wordStatement_cases h
    · split at h
      · exact Or.inr (isGrouped_phrase h)
      · split at h
        · exact Or.inr (isGrouped_node (by decide) h)
        · split at h
          · exact Or.inr (isGrouped_declaration h)
          · exact Or.inr (isGrouped_phrase h)
    · exact Or.inr (isGrouped_phrase h)
  · cases h

/-! ## Files -/

/-- Whether all classes under the root stand where the token stream is in the scope of the
    tree; `outer` is the scope of the tree and `current` that of the token stream. -/
def isInScope (source : Text) : Text → Text → List Node → Bool
  | _, _, [] => true
  | outer, current, n :: ns =>
    if n.kind == .namespaceDefinition then
      isInScope source (if (n.childWith? .body).isSome then outer else scopeName source n) (scopeName source n) ns
    else ((sites n).isEmpty || outer == current) && isInScope source outer current ns

theorem isInScope_append {outer current : Text} (hms : ∀ m ∈ ms, m.kind ≠ .namespaceDefinition) (tail : List Node)
    (h : isInScope source outer current (ms ++ tail) = true) :
    (ms.flatMap sites = [] ∨ outer = current) ∧ isInScope source outer current tail = true := by
  induction ms with
  | nil => exact ⟨Or.inl rfl, h⟩
  | cons m ms ih =>
    obtain ⟨hm, hms⟩ := List.forall_mem_cons.mp hms
    rw [List.cons_append, isInScope, if_neg (by simpa using hm)] at h
    obtain ⟨hscope, hrest⟩ := Bool.and_eq_true_iff.mp h
    obtain ⟨hmore, htail⟩ := ih hms hrest
    refine ⟨?_, htail⟩
    rcases hmore with hmore | hmore
    · rcases Bool.or_eq_true_iff.mp hscope with he | he
      · exact Or.inl (by rw [List.flatMap_cons, List.isEmpty_iff.mp he, hmore]; rfl)
      · exact Or.inr (beq_iff_eq.mp he)
    · exact Or.inr hmore

theorem areLawful_of_top (hms : ∀ m ∈ ms, m.kind ≠ .namespaceDefinition) (h : ∀ m ∈ ms, isLawfulTop source m = true) :
    areLawful source ms = true := by
  induction ms with
  | nil => rfl
  | cons m ms ih =>
    obtain ⟨hm, hms⟩ := List.forall_mem_cons.mp hms
    obtain ⟨htop, h⟩ := List.forall_mem_cons.mp h
    rw [isLawfulTop, if_neg (by simpa using hm)] at htop
    rw [areLawful_cons, htop, ih hms h]
    rfl

/-- Behind the last statement only comments and blanks are left. -/
theorem layTop_finish (h : Under source previous pos [t] ps) (hl : t.lexeme = .finish) (outer current : Text) :
    layTop source outer current t.before ps = true := by
  cases h with
  | cons h => exact absurd hl h
  | finish _ _ hplace hbefore hgap =>
    have hkind : ∀ m ∈ t.before, m.kind ≠ .namespaceDefinition := by
      intro m hm
      obtain ⟨span, rfl, -⟩ := hbefore m hm
      exact fun h => by cases h
    obtain ⟨gap, hsuffix, hlaid⟩ := layAll_before hgap (by rw [hplace]; exact hbefore)
      (fun q (hq : q ∈ []) => absurd hq List.not_mem_nil)
    rw [List.append_nil, List.append_nil] at hlaid
    have hhead : layTop source outer current (t.before ++ []) ps = layTop source outer current [] gap :=
      layTop_append hkind hlaid (Or.inl (flatMap_sites_before hbefore)) []
    have hskip : passTo source.length (gap ++ []) = passTo source.length [] := by
      rw [← hplace]
      exact passTo_skip (hgap.passed.of_suffix hsuffix)
    rw [List.append_nil] at hhead hskip
    rw [hhead, layTop, hskip]
    rfl

/-- The statements of a file lie over its tokens. -/
theorem layTop_statements {depth : Nat} {outer current : Text}
    (h : many (fun ts => !next Token.isFinish ts) (nested depth).statement ts = some (ns, [t]))
    (hl : t.lexeme = .finish) (hlawful : ∀ m ∈ ns, isLawfulTop source m = true)
    (hscope : isInScope source outer current (ns ++ t.before) = true) (hb : behindOperator previous = false)
    (hu : Under source previous pos ts ps) : layTop source outer current (ns ++ t.before) ps = true := by
  rw [many] at h
  generalize ts.length + 1 = fuel at h
  induction fuel generalizing ts ns outer current previous pos ps with
  | zero => cases h
  | succ fuel ih =>
    rw [manyUpTo] at h
    split at h
    · split at h
      · rename_i ms mid hfirst
        obtain ⟨ns', hrest, rfl⟩ := map_eq_some h
        have hms : ∀ m ∈ ms, isLawfulTop source m = true := fun m hm => hlawful m (List.mem_append_left _ hm)
        have hns : ∀ m ∈ ns', isLawfulTop source m = true := fun m hm => hlawful m (List.mem_append_right _ hm)
        rw [List.append_assoc] at hscope ⊢
        cases depth with
        | zero => cases hfirst
        | succ depth =>
          -- a definition changes both scopes, all else is laid where it stands
          rcases statementOf_cases hfirst with hdefinition | hgrouped
          · obtain ⟨place, before, m, stop, ps', previous', rfl, hbefore, hkind, hb', hu', hlaid⟩ :=
              hu.definition (isSound_nested depth) hb hdefinition hms
            have hkinds : ∀ m ∈ before, m.kind ≠ .namespaceDefinition := by
              intro m hm
              obtain ⟨span, rfl, -⟩ := hbefore m hm
              exact fun h => by cases h
            rw [List.append_assoc] at hscope
            obtain ⟨-, hscope⟩ := isInScope_append hkinds _ hscope
            rw [List.singleton_append, isInScope, if_pos (beq_iff_eq.mpr hkind)] at hscope
            rw [hlaid]
            exact ih hns hscope hb' hu' hrest
          · have hkinds := kind_of_isGrouped hgrouped
            obtain ⟨previous', stop, ps', hb', hstep⟩ :=
              sound_statementOf (isSound_nested depth) _ _ _ hfirst (areLawful_of_top hkinds hms) previous pos ps hb hu
            obtain ⟨hms', hscope⟩ := isInScope_append hkinds _ hscope
            rw [layTop_append hkinds hstep.laid hms']
            exact ih hns hscope hb' hstep.under hrest
      · cases h
    · cases h
      exact layTop_finish hu hl outer current

end ClassOutline.Plain
