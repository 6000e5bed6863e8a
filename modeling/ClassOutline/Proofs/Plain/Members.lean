import ClassOutline.Proofs.Plain.Phrases
/-
  ClassOutline.Proofs.Plain.Members — the members of class-likes are sound.

  Attributes and modifiers stand before a member, and a member ends with a semicolon or a
  body. Any word may name a constant, a case or a method: a mark follows.
-/

namespace ClassOutline.Plain

open ClassOutline.Text ClassOutline.Tree ClassOutline.Discovery Reader

variable {source : Text} {n : Nested} {b b' : Bool} {ts rest : List Token} {t : Token} {ns : List Node} {r : Reader}

/-! ## Modifiers -/

theorem modifierKind?_eq_some {w : Word} {kind : Kind} (h : modifierKind? w = some kind) :
    (w != .class_ && w != .namespace_) = true ∧ isOrdinary kind = true ∧ kind ≠ .token "class".toList := by
  unfold modifierKind? at h
  split at h <;> cases h <;> exact ⟨rfl, rfl, by decide⟩

theorem sound_modifier : Sound source modifier := by
  intro ts ns rest hr
  unfold modifier at hr
  split at hr
  · split at hr
    · exact SoundFrom.word (w := .var_) rfl _ _ _ hr
    · split at hr
      · rename_i kind hkind
        obtain ⟨hw, hordinary, -⟩ := modifierKind?_eq_some hkind
        exact SoundFrom.except (.node hordinary (.word hw)) _ _ _ hr
      · cases hr
    · cases hr
  · cases hr

theorem sound_modifiers : Sound source modifiers := .many sound_modifier

section

variable (hn : n.IsSound source)

include hn

/-! ## Members -/

theorem sound_constElement : Sound source (constElement n) :=
  .node rfl (.seq_before (.either (.of_sound .refuse) .name) (.seq (starts_mark (by decide)))
    (.seq ⟨.mark rfl, .role (hn.expression 0)⟩))

theorem sound_constRest : Sound source (constRest n) :=
  .seq ⟨.word rfl, .separated rfl (sound_constElement hn), .mark rfl⟩

theorem sound_propertyElement : Sound source (propertyElement n) :=
  .node rfl (.seq ⟨.role .simpleVariable, sound_initializer hn⟩)

theorem sound_propertyRest : Sound source (propertyRest n) :=
  .seq ⟨.opt sound_type, .separated rfl (sound_propertyElement hn), .mark rfl⟩

theorem sound_methodRest : Sound source (methodRest n) :=
  .seq ⟨sound_functionHeader hn, .either (.role (sound_compound hn)) (.mark rfl)⟩

theorem sound_memberRest (isModified : Bool) (ts : List Token) :
    isOrdinary (memberRest n isModified ts).1 = true ∧ Sound source (memberRest n isModified ts).2 := by
  unfold memberRest
  split
  · exact ⟨rfl, sound_methodRest hn⟩
  · split
    · exact ⟨rfl, sound_constRest hn⟩
    · refine ⟨rfl, ?_⟩
      cases isModified with
      | true => exact sound_propertyRest hn
      | false => exact .refuse

theorem sound_modifiedMember : Sound source (modifiedMember n) := by
  intro ts ns rest hr
  rw [modifiedMember] at hr
  split at hr
  · rename_i before mid hbefore
    split at hr
    · rename_i mods mid' hmods
      have hmember := sound_memberRest hn (!mods.isEmpty) mid'
      generalize memberRest n (!mods.isEmpty) mid' = member at hr hmember
      obtain ⟨kind, r⟩ := member
      obtain ⟨hkind, hsound⟩ := hmember
      obtain ⟨ms, hms, rfl⟩ := map_eq_some (f := fun ns => group kind none (before ++ mods ++ ns)) hr
      exact (((sound_attributes hn _ _ _ hbefore).append (sound_modifiers _ _ _ hmods)).append
        (hsound _ _ _ hms)).group hkind
    · cases hr
  · cases hr

omit hn in
theorem sound_traitUse : Sound source traitUse := .phrase ⟨.word rfl, .separated rfl sound_className, .mark rfl⟩

theorem sound_member : Sound source (member n) := .either sound_traitUse (sound_modifiedMember hn)

theorem sound_enumCase : Sound source (enumCase n) :=
  .node rfl (.seq_cons (.word rfl) (.seq_before .name
    (.opt (.seq (starts_mark (by decide))) (.seq (starts_mark (by decide))))
    (.seq ⟨.opt (.seq ⟨.mark rfl, hn.expression 0⟩), .mark rfl⟩)))

/-! ## Bodies and headers -/

omit hn in
theorem sound_bodyOf (h : Sound source r) : Sound source (bodyOf r) :=
  .node rfl (.seq ⟨.mark rfl, .many h, .mark rfl⟩)

theorem sound_classBody : Sound source (classBody n) := sound_bodyOf (sound_member hn)

theorem sound_enumMember : Sound source (enumMember n) :=
  .either (sound_enumCase hn) (.either sound_traitUse
    (.except (.node rfl (.seq ⟨sound_modifiers, sound_methodRest hn⟩))))

theorem sound_enumBody : Sound source (enumBody n) := sound_bodyOf (sound_enumMember hn)

end

theorem sound_extending : Sound source extending :=
  .opt (.node rfl (.seq ⟨.word rfl, .separated rfl sound_className⟩))

theorem sound_implementing : Sound source implementing :=
  .opt (.node rfl (.seq ⟨.word rfl, .separated rfl sound_className⟩))

theorem sound_enumType : Sound source enumType :=
  .opt (.seq ⟨.mark rfl, .leaf (fun _ h => by cases h)
    fun _ _ h => isHarmless_of_isProperName (Bool.and_eq_true_iff.mp h).1⟩)

end ClassOutline.Plain
