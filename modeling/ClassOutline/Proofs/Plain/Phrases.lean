import ClassOutline.Proofs.Plain.Sound
/-
  ClassOutline.Proofs.Plain.Phrases — names, types, arguments and parameters are sound.

  Each proof is built as its reader is, over readers of expressions and statements that are
  sound as deep as they nest.
-/

namespace ClassOutline.Plain

open ClassOutline.Text ClassOutline.Tree ClassOutline.Discovery Reader

/-- Expressions and statements that nest are sound. -/
structure Nested.IsSound (source : Text) (n : Nested) : Prop where
  expression : ∀ level, Sound source (n.expression level)
  statement : Sound source n.statement

variable {source : Text} {n : Nested} {b b' : Bool} {ts rest : List Token} {t : Token} {ns : List Node} {r : Reader}

/-! ## Names -/

theorem sound_segment : SoundFrom source b false segment := .seq_cons (.operator rfl) (.seq_cons .name .seq_nil)

theorem sound_segments (k : Nat) : Sound source (segments k) := by
  induction k with
  | zero => exact .nothing
  | succ k ih => exact .seq ⟨sound_segment, ih⟩

theorem soundAt_qualified {k : Nat} (h : SoundAt source b false r ts) : SoundAt source b false (qualified k r) ts :=
  .node rfl (.seq_cons (.node rfl (.seq_cons h (.seq (sound_segments k)))) (.seq sound_segment))

theorem soundAt_path (h : nextPath ts = true) : SoundAt source b false path ts := by
  intro ns rest hr
  rw [path] at hr
  split at hr
  · split at hr
    · cases hr
    · exact (SoundAt.node rfl (sound_segment ts)) _ _ hr
    · exact soundAt_qualified (sound_segment ts) _ _ hr
  · rename_i hseparator
    have hname : next isProperName ts = true := by
      rw [nextPath] at h
      simpa [hseparator] using h
    split at hr
    · exact SoundAt.properName hname _ _ hr
    · exact soundAt_qualified (.properName hname) _ _ hr

theorem sound_path : SoundFrom source b false (given nextPath path) :=
  fun _ => .either soundAt_path fun _ _ _ hr => by cases hr

theorem isHarmless_of_isRelative (h : isRelative t = true) : t.isHarmless = true := by
  unfold isRelative at h
  unfold Token.isHarmless
  split at h <;> first | (rename_i he; rw [he]; rfl) | cases h

theorem sound_relative {kind : Kind} (hkind : isOrdinary kind = true) : SoundFrom source b false (relative kind) :=
  .node hkind (.leaf wordKind_ne fun _ _ => isHarmless_of_isRelative)

theorem sound_className : SoundFrom source b false className := .either (sound_relative rfl) sound_path

/-! ## Types -/

theorem isHarmless_of_isBuiltIn (hreal : Real t) (h : isBuiltIn t = true) : t.isHarmless = true :=
  isHarmless_of_mem builtInTypes (by decide) hreal (List.contains_iff_mem.mp (Bool.and_eq_true_iff.mp h).2)

theorem sound_builtIn : Sound source builtIn :=
  .phrase (.leaf (fun _ h => by cases h) fun _ => isHarmless_of_isBuiltIn)

/-- A word for the class around, as a type. -/
theorem soundAt_relativeName (h : next isRelative ts = true) : SoundAt source b false name ts := by
  refine .leaf (fun _ h => by cases h) fun t ht _ _ => ?_
  cases ts with
  | nil => cases ht
  | cons u ts =>
    cases ht
    exact isHarmless_of_isRelative h

theorem sound_atomType : Sound source atomType := by
  refine .either (.except sound_builtIn) fun ts => .either (fun h => ?_) fun _ => ?_
  · exact .either (fun _ => SoundFrom.refuse ts) fun _ => .node rfl (.seq_cons (soundAt_relativeName h) .seq_nil)
  · refine .either (fun h => ?_) fun _ => SoundFrom.refuse ts
    exact .node rfl (.seq_cons (soundAt_path h) .seq_nil)

theorem sound_simpleType : Sound source simpleType :=
  .either (.phrase ⟨.mark rfl, sound_atomType⟩) sound_atomType

theorem sound_type : Sound source type := by
  intro ts ns rest hr
  rw [type] at hr
  split at hr
  · rename_i ms mid hsimple
    have hunion : Sound source (node .phrase (separated ['|'] simpleType)) :=
      .node rfl (.separated rfl sound_simpleType)
    have hjoin : Sound source (phrase [simpleType, many nextJoin (seq [mark ['&'], simpleType])]) :=
      .phrase ⟨sound_simpleType, .many (.seq ⟨.mark rfl, sound_simpleType⟩)⟩
    split at hr
    · exact hunion _ _ _ hr
    · split at hr
      · exact hjoin _ _ _ hr
      · cases hr
        exact sound_simpleType _ _ _ hsimple
  · cases hr

theorem isHarmless_of_isProperName (h : isProperName t = true) : t.isHarmless = true := by
  unfold isProperName at h
  unfold Token.isHarmless
  split at h
  · rename_i he
    rw [he]
  · cases h

theorem sound_returnType : Sound source returnType :=
  .opt (.seq ⟨.mark rfl, .role (.either
    (.except (.leaf (fun _ h => by cases h) fun _ _ h => isHarmless_of_isProperName (Bool.and_eq_true_iff.mp h).1))
    sound_type)⟩)

/-! ## Arguments and attributes -/

section

variable (hn : n.IsSound source)

include hn

theorem sound_argument : Sound source (argument n) :=
  .phrase (.either (.phrase ⟨.mark rfl, hn.expression 0⟩) (hn.expression 0))

theorem sound_arguments : Sound source (arguments n) :=
  .phrase ⟨.mark rfl, .either (.phrase (.mark rfl)) (.listed (sound_argument hn)), .mark rfl⟩

theorem sound_attributeUse : Sound source (attributeUse n) := .phrase ⟨sound_className, .opt (sound_arguments hn)⟩

theorem sound_attributes : Sound source (attributes n) :=
  .opt (.node rfl (.many (.phrase ⟨.mark rfl, .except (.listed (sound_attributeUse hn)), .mark rfl⟩)))

theorem sound_initializer : Sound source (initializer n) := .opt (.seq ⟨.mark rfl, .role (hn.expression 0)⟩)

end

/-! ## Parameters -/

theorem isHarmless_of_words {ws : List Word} (hws : (ws.all fun w => w != .class_ && w != .namespace_) = true)
    (h : ws.any t.isWord = true) : t.isHarmless = true := by
  obtain ⟨w, hw, ht⟩ := List.any_eq_true.mp h
  exact isHarmless_of_isWord (List.all_eq_true.mp hws w hw) ht

theorem sound_visibility : Sound source visibility :=
  .except (.node rfl (.leaf wordKind_ne fun _ _ => isHarmless_of_words rfl))

theorem sound_reference : Sound source reference := .opt (.node rfl (.mark rfl))

theorem sound_promotedVariable : Sound source promotedVariable :=
  .either (.phrase ⟨.mark rfl, .simpleVariable⟩) .simpleVariable

theorem isOrdinary_parameterKind (ns : List Node) : isOrdinary (parameterKind ns) = true := by
  unfold parameterKind
  split
  · rfl
  · split <;> rfl

theorem starts_parameters : Starts Shut (parameters n) := .node (.seq (starts_mark (by decide)))

section

variable (hn : n.IsSound source)

include hn

theorem sound_parameterRest : Sound source (parameterRest n) := by
  intro ts ns rest hr
  rw [parameterRest] at hr
  have hpromoted : Sound source (seq [visibility, opt (nextWord .readonly_) readonly, opt beforeType type,
      role .name promotedVariable, initializer n]) :=
    .seq ⟨sound_visibility, .opt (.phrase (.word rfl)), .opt sound_type, .role sound_promotedVariable,
      sound_initializer hn⟩
  have hsimple : Sound source (seq [opt beforeType type, reference, opt (nextMark dots) (mark dots),
      role .name simpleVariable, initializer n]) :=
    .seq ⟨.opt sound_type, sound_reference, .opt (.mark rfl), .role .simpleVariable, sound_initializer hn⟩
  split at hr
  · exact hpromoted _ _ _ hr
  · exact hsimple _ _ _ hr

theorem sound_parameter : Sound source (parameter n) := by
  intro ts ns rest hr
  rw [parameter] at hr
  split at hr
  · rename_i before mid hbefore
    split at hr
    · rename_i ms rest' hms
      dsimp only at hr
      split at hr
      · cases hr
        exact ((sound_attributes hn _ _ _ hbefore).append (sound_parameterRest hn _ _ _ hms)).group
          (isOrdinary_parameterKind ms)
      · cases hr
    · cases hr
  · cases hr

theorem sound_parameters : Sound source (parameters n) :=
  .phrase ⟨.mark rfl, .listed (sound_parameter hn), .mark rfl⟩

/-! ## Functions -/

theorem sound_compound : Sound source (compound n) := .node rfl (.seq ⟨.mark rfl, .many hn.statement, .mark rfl⟩)

/-- Any word may name a function: parentheses follow. -/
theorem sound_functionHeader : Sound source (functionHeader n) := by
  have hname : SoundBefore source (role .name (either (next isRelative) (relative .name) name)) :=
    .role (.either (.of_sound (sound_relative rfl)) .name)
  have hbehind : Sound source (seq [role .parameters (parameters n), returnType]) :=
    .seq ⟨.role (sound_parameters hn), sound_returnType⟩
  exact .seq_cons (.word rfl) (.seq_cons sound_reference
    (.seq_before hname (.seq (.role starts_parameters)) hbehind))

end

end ClassOutline.Plain
