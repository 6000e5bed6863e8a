import ClassOutline.Proofs.Plain.ClassLikes
/-
  ClassOutline.Proofs.Plain.Imports — declarations of imports are sound.

  Nothing that stands in a `use` declaration is looked at when a tree is laid over tokens:
  they are passed as a whole. The nodes in it lie over its tokens nevertheless, and since
  none of them is a class, what lies over the tokens passes them (`passTo_of_layAll`).
-/

namespace ClassOutline.Plain

open ClassOutline.Text ClassOutline.Tree ClassOutline.Discovery Reader

variable {source : Text} {n : Nested} {b b' : Bool} {ts mid rest : List Token} {t : Token} {ns ms : List Node}
  {r : Reader} {rs : List Reader} {kind : Kind} {previous : Option Text} {pos stop : Nat} {ps ps' : List Placed}

/-! ## Passing what is laid -/

theorem passTo_trans {i j : Nat} {q r : List Placed} (hq : passTo i ps = some q) (hr : passTo j q = some r) :
    passTo (max i j) ps = some r := by
  induction ps with
  | nil =>
    cases hq
    exact hr
  | cons p ps ih =>
    rw [passTo] at hq ⊢
    by_cases hi : i ≤ p.offset
    · rw [if_pos hi] at hq
      cases hq
      by_cases hj : j ≤ p.offset
      · rw [passTo, if_pos hj] at hr
        rw [if_pos (by omega), ← hr]
      · rw [passTo, if_neg hj] at hr
        rw [if_neg (by omega), show max i j = j by omega]
        exact hr
    · rw [if_neg hi] at hq
      rw [if_neg (by omega)]
      split at hq
      · cases hq
      · rename_i hb
        rw [if_neg hb]
        exact ih hq

/-- A class that is laid has a name. -/
theorem sitesAll_ne_nil {header : Header} (hpending : header.isPending = true) {cs : List Node} {r : List Placed}
    (h : layAll source header cs ps = some r) (previous : Option Node) : sitesAll true previous cs ≠ [] := by
  induction cs generalizing header ps previous with
  | nil => cases header <;> simp [layAll, Header.isPending] at h hpending
  | cons c cs ih =>
    rw [sitesAll_append]
    by_cases hrole : c.role = some .name
    · simp [hrole]
    · have hrest : sitesAll true (some c) cs ≠ [] := by
        cases header with
        | absent => cases hpending
        | awaited =>
          rw [layAll, if_neg (by simpa using hrole)] at h
          split at h
          · split at h
            · obtain ⟨q, -, hq⟩ := Option.bind_eq_some_iff.mp h
              exact ih rfl hq _
            · cases h
          · obtain ⟨q, -, hq⟩ := Option.bind_eq_some_iff.mp h
            exact ih rfl hq _
        | behind isSeparated =>
          rw [layAll, beq_false_of_ne hrole] at h
          split at h
          · cases h
          · exact ih rfl h _
      have hname : (c.role != some .name) = true := bne_iff_ne.mpr hrole
      simp [hname, hrest]

mutual

theorem passTo_of_lay (n : Node) {ps r : List Placed} (h : lay source n ps = some r) (hn : sites n = []) :
    ∃ i, passTo i ps = some r := by
  obtain ⟨kind, role, span, missing, children⟩ := n
  rw [lay] at h
  rw [sites] at hn
  split at h
  · exact ⟨_, h⟩
  · rename_i huse
    rw [if_neg huse] at hn
    obtain ⟨q, hall, hpass⟩ := Option.bind_eq_some_iff.mp h
    split at hall
    · rename_i hclass
      rw [hclass] at hn
      exact absurd hn (sitesAll_ne_nil rfl hall none)
    · rename_i hclass
      rw [Bool.not_eq_true] at hclass
      rw [hclass, sitesAll_false] at hn
      obtain ⟨i, hi⟩ := passTo_of_layAll children hall hn
      exact ⟨_, passTo_trans hi hpass⟩

/-- Nodes without classes lie over tokens that can be passed. -/
theorem passTo_of_layAll (ns : List Node) {ps r : List Placed} (h : layAll source .absent ns ps = some r)
    (hns : ns.flatMap sites = []) : ∃ i, passTo i ps = some r := by
  match ns with
  | [] =>
    rw [layAll] at h
    cases h
    exact ⟨0, passTo_of_le fun _ _ => Nat.zero_le _⟩
  | n :: ns =>
    rw [layAll] at h
    rw [List.flatMap_cons, List.append_eq_nil_iff] at hns
    obtain ⟨q, hq, hr⟩ := Option.bind_eq_some_iff.mp h
    obtain ⟨i, hi⟩ := passTo_of_lay n hq hns.1
    obtain ⟨j, hj⟩ := passTo_of_layAll ns hr hns.2
    exact ⟨_, passTo_trans hi hj⟩

end

/-- What can be passed is passed up to the place behind it. -/
theorem passTo_stop {i : Nat} {used : List Placed} (h : passTo i (used ++ ps') = some ps')
    (hused : ∀ q ∈ used, q.offset < stop) (hle : ∀ q ∈ ps', stop ≤ q.offset) :
    passTo stop (used ++ ps') = some ps' := by
  induction used with
  | nil => exact passTo_of_le hle
  | cons u used ih =>
    obtain ⟨hu, hused⟩ := List.forall_mem_cons.mp hused
    rw [List.cons_append, passTo] at h ⊢
    rw [if_neg (by omega)]
    split at h
    · have := congrArg List.length (Option.some.inj h)
      simp at this
      omega
    · split at h
      · cases h
      · rename_i hb
        rw [if_neg hb]
        exact ih h hused

/-- A `use` declaration around what has been laid. -/
theorem Step.use (hns : ns.flatMap sites = []) (h : Step source pos ps ns previous stop rest ps') :
    Step source pos ps (Tree.group .useDeclaration none ns) previous stop rest ps' := by
  obtain ⟨hbefore, hinside⟩ : (ns.takeWhile Node.isExtra).flatMap sites = [] ∧
      (ns.dropWhile Node.isExtra).flatMap sites = [] := by
    rw [← List.takeWhile_append_dropWhile (p := Node.isExtra) (l := ns), List.flatMap_append] at hns
    exact List.append_eq_nil_iff.mp hns
  refine h.group_of fun span q hspan hq hinner => ?_
  obtain ⟨i, hi⟩ := passTo_of_layAll _ hq hbefore
  obtain ⟨j, hj⟩ := passTo_of_layAll _ hinner hinside
  obtain ⟨used, rfl, hused⟩ := h.used
  have hsuffix : q <:+ used ++ ps' := by
    rw [passTo_eq_dropWhile hi]
    exact List.dropWhile_suffix _
  have hsuffix' : ps' <:+ q := by
    conv_lhs => rw [passTo_eq_dropWhile hj]
    exact List.dropWhile_suffix _
  obtain ⟨u, rfl⟩ := hsuffix'
  obtain ⟨v, hv⟩ := hsuffix
  rw [← List.append_assoc, List.append_cancel_right_eq] at hv
  rw [lay, if_pos (by decide), hspan]
  exact passTo_stop hj (fun q hq => hused q (by rw [← hv]; simp [hq])) h.under.le

/-! ## Readers without classes -/

/-- Tokens with nothing but comments before them. -/
def Tame (ts : List Token) : Prop := ∀ t ∈ ts, ∃ place, CommentsBefore place t.before

/-- No class is declared in what a reader gives. -/
def IsBare (r : Reader) : Prop :=
  ∀ ts ns rest, Tame ts → r ts = some (ns, rest) → ns.flatMap sites = [] ∧ Tame rest

theorem Under.tame (h : Under source previous pos ts ps) : Tame ts := by
  induction h with
  | finish _ _ _ hbefore => exact List.forall_mem_singleton.mpr ⟨_, hbefore⟩
  | cons _ hfit _ _ _ _ _ ih => exact List.forall_mem_cons.mpr ⟨⟨_, hfit.before⟩, ih⟩

theorem sites_leaf (kind : Kind) (role : Option Role) (span : Span) : sites (.leaf kind role span) = [] := by
  rw [Node.leaf, sites, sitesAll]
  split <;> rfl

theorem flatMap_sites_before {place : Nat} (h : CommentsBefore place ns) : ns.flatMap sites = [] := by
  refine List.flatMap_eq_nil_iff.mpr fun n hn => ?_
  obtain ⟨span, rfl, -⟩ := h n hn
  exact sites_leaf ..

theorem flatMap_sites_group (hkind : kind ≠ .classDeclaration) (h : ns.flatMap sites = []) :
    (group kind none ns).flatMap sites = [] := by
  rcases group_eq kind none ns with ⟨-, he⟩ | ⟨first, last, -, -, -, he⟩
  · rwa [he]
  · rw [← List.takeWhile_append_dropWhile (p := Node.isExtra) (l := ns), List.flatMap_append, List.append_eq_nil_iff] at h
    rw [he, List.flatMap_append, h.1, List.nil_append, List.flatMap_singleton, sites, beq_false_of_ne hkind, sitesAll_false, h.2]
    exact ite_self _

theorem sites_withRole (role : Role) (n : Node) : sites (withRole role n) = sites n := by
  obtain ⟨kind, r, span, missing, children⟩ := n
  unfold withRole
  split
  · rfl
  · simp [sites]

theorem IsBare.leaf {test : Token → Bool} {kind : Token → Kind} : IsBare (leaf test kind) := by
  intro ts ns rest htame hr
  obtain ⟨t, rfl, -, rfl⟩ := leaf_eq_some hr
  obtain ⟨⟨place, ht⟩, hrest⟩ := List.forall_mem_cons.mp htame
  rw [Token.nodes, List.flatMap_append, flatMap_sites_before ht, List.nil_append, List.flatMap_singleton]
  exact ⟨sites_leaf .., hrest⟩

theorem IsBare.seq (h : List.Forall IsBare rs) : IsBare (seq rs) := by
  rw [List.forall_iff_forall_mem] at h
  induction rs with
  | nil =>
    intro ts ns rest htame hr
    cases hr
    exact ⟨rfl, htame⟩
  | cons r rs ih =>
    obtain ⟨hr, hrs⟩ := List.forall_mem_cons.mp h
    intro ts ns rest htame h
    obtain ⟨ns₁, mid, ns₂, hfirst, hsecond, rfl⟩ := seq_cons_eq_some h
    obtain ⟨hns₁, hmid⟩ := hr _ _ _ htame hfirst
    obtain ⟨hns₂, hrest⟩ := ih hrs _ _ _ hmid hsecond
    exact ⟨by rw [List.flatMap_append, hns₁, hns₂]; rfl, hrest⟩

theorem IsBare.either {test : List Token → Bool} {a c : Reader} (ha : IsBare a) (hc : IsBare c) :
    IsBare (either test a c) := by
  intro ts ns rest htame hr
  rw [Reader.either] at hr
  split at hr
  · exact ha _ _ _ htame hr
  · exact hc _ _ _ htame hr

theorem IsBare.nothing : IsBare nothing := by
  intro ts ns rest htame hr
  cases hr
  exact ⟨rfl, htame⟩

theorem IsBare.refuse : IsBare refuse := fun _ _ _ _ hr => by cases hr

theorem IsBare.many {test : List Token → Bool} (h : IsBare r) : IsBare (many test r) := by
  have hupTo : ∀ fuel, IsBare (manyUpTo test r fuel) := by
    intro fuel
    induction fuel with
    | zero => exact fun _ _ _ _ hr => by cases hr
    | succ fuel ih =>
      intro ts ns rest htame hr
      rw [manyUpTo] at hr
      split at hr
      · split at hr
        · rename_i ns₁ mid hfirst
          obtain ⟨ns₂, hrest, rfl⟩ := map_eq_some hr
          obtain ⟨hns₁, hmid⟩ := h _ _ _ htame hfirst
          obtain ⟨hns₂, hrest⟩ := ih _ _ _ hmid hrest
          exact ⟨by rw [List.flatMap_append, hns₁, hns₂]; rfl, hrest⟩
        · cases hr
      · cases hr
        exact ⟨rfl, htame⟩
  exact fun ts => hupTo (ts.length + 1) ts

theorem IsBare.node (hkind : kind ≠ .classDeclaration) (h : IsBare r) : IsBare (node kind r) := by
  intro ts ns rest htame hr
  obtain ⟨ms, hms, rfl⟩ := map_eq_some hr
  obtain ⟨hns, hrest⟩ := h _ _ _ htame hms
  exact ⟨flatMap_sites_group hkind hns, hrest⟩

theorem IsBare.role {role : Role} (h : IsBare r) : IsBare (Reader.role role r) := by
  intro ts ns rest htame hr
  obtain ⟨ms, hms, rfl⟩ := map_eq_some hr
  obtain ⟨hns, hrest⟩ := h _ _ _ htame hms
  refine ⟨?_, hrest⟩
  rw [List.flatMap_map, ← hns]
  exact congrArg (List.flatMap · ms) (funext (sites_withRole role))

theorem IsBare.separated {separator : Text} (h : IsBare r) : IsBare (separated separator r) :=
  .seq ⟨h, .many (.seq ⟨.leaf, h⟩)⟩

/-! ## The readers of imports -/

theorem bare_segments (k : Nat) : IsBare (segments k) := by
  induction k with
  | zero => exact .nothing
  | succ k ih => exact .seq ⟨.seq ⟨.leaf, .leaf⟩, ih⟩

theorem bare_qualified {k : Nat} (h : IsBare r) : IsBare (qualified k r) :=
  .node (by decide) (.seq ⟨.node (by decide) (.seq ⟨h, bare_segments k⟩), .seq ⟨.leaf, .leaf⟩⟩)

theorem bare_path : IsBare path := by
  have hsegment : IsBare segment := .seq ⟨.leaf, .leaf⟩
  intro ts ns rest htame hr
  rw [path] at hr
  split at hr
  · split at hr
    · cases hr
    · exact IsBare.node (by decide) hsegment _ _ _ htame hr
    · exact bare_qualified hsegment _ _ _ htame hr
  · split at hr
    · exact IsBare.leaf _ _ _ htame hr
    · exact bare_qualified .leaf _ _ _ htame hr

theorem bare_useClause : IsBare useClause :=
  .node (by decide) (.seq ⟨.either .leaf .nothing, .either (.node (by decide) .leaf) (.either bare_path .refuse),
    .either (.seq ⟨.leaf, .role .leaf⟩) .nothing⟩)

theorem bare_groupPath : IsBare groupPath := by
  intro ts
  have hinside : IsBare (seq [opt nextSeparator (mark ['\\']), given (next isProperName) name,
      segments (segmentCount ts.length (if nextSeparator ts then ts.drop 2 else ts.drop 1))]) :=
    .seq ⟨.either .leaf .nothing, .either .leaf .refuse, bare_segments _⟩
  exact IsBare.node (by decide) hinside ts

/-- What stands between the braces of a `use` declaration and before them. -/
theorem bare_useDeclaration : IsBare (seq [word .use_,
    either nextGroup (seq [importType, groupPath, mark ['\\'], useGroup]) (separated [','] useClause), semicolon]) :=
  .seq ⟨.leaf, .either (.seq ⟨.either .leaf .nothing, bare_groupPath, .leaf,
    .node (by decide) (.seq ⟨.leaf, .separated bare_useClause, .leaf⟩)⟩) (.separated bare_useClause), .leaf⟩

/-- What is read as long as a test passes starts with a mark or stops before one. -/
theorem SoundBefore.many {test : List Token → Bool} (h : SoundBefore source r) (hr : Starts Shut r)
    (hm : many test r ts = some (ns, rest)) (hshut : Shut rest) : Shut ts ∧ Reads source ts ns rest := by
  have hupTo : ∀ fuel ts ns rest, manyUpTo test r fuel ts = some (ns, rest) → Shut rest →
      Shut ts ∧ Reads source ts ns rest := by
    intro fuel
    induction fuel with
    | zero => exact fun _ _ _ hm => by cases hm
    | succ fuel ih =>
      intro ts ns rest hm hshut
      rw [manyUpTo] at hm
      split at hm
      · split at hm
        · rename_i ns₁ mid hfirst
          obtain ⟨ns₂, hrest, rfl⟩ := map_eq_some hm
          obtain ⟨hmid, hread⟩ := ih _ _ _ hrest hshut
          exact ⟨hr _ _ _ hfirst, (h _ _ _ hfirst hmid).append hread⟩
        · cases hm
      · cases hm
        exact ⟨hshut, .nil⟩
  exact hupTo _ _ _ _ hm hshut

theorem SoundBefore.separated {separator : Text} (hs : Token.nameOperators.contains separator = false)
    (hbrace : separator ≠ ['{']) (h : SoundBefore source r) : SoundBefore source (separated separator r) := by
  intro ts ns rest hr hshut
  obtain ⟨ns₁, mid, ns₂, hfirst, hsecond, rfl⟩ := seq_cons_eq_some hr
  obtain ⟨ns₃, mid', ns₄, hmany, hnil, rfl⟩ := seq_cons_eq_some hsecond
  cases hnil
  obtain ⟨hmid, hread⟩ := SoundBefore.many (.seq_cons (.mark hs) (.seq_last h)) (.seq (starts_mark hbrace)) hmany hshut
  exact (h _ _ _ hfirst hmid).append (hread.append .nil)

/-! ## Imports -/

theorem sound_importType : Sound source importType := by
  refine fun ts => .either (fun h => ?_) fun _ => SoundFrom.nothing ts
  refine .leaf wordKind_ne fun t ht _ _ => ?_
  cases ts with
  | nil => cases ht
  | cons u ts =>
    cases ht
    exact isHarmless_of_words rfl h

theorem before_useClause : SoundBefore source useClause :=
  .node rfl (.seq_cons sound_importType (.seq_cons sound_className
    (.seq_last (.either (.seq_cons (.word rfl) (.seq_last (.role .name))) (.of_sound .nothing)))))

theorem sound_groupPath : Sound source groupPath := by
  intro ts
  refine .node rfl ?_
  have hbehind : SoundFrom source false false (seq [segments (segmentCount ts.length
      (if nextSeparator ts then ts.drop 2 else ts.drop 1))]) := .seq (sound_segments _)
  have hname : ∀ b, SoundFrom source b false (given (next isProperName) name) := fun _ ts =>
    .either SoundAt.properName fun _ => SoundFrom.refuse ts
  cases hs : nextSeparator ts with
  | true =>
    have : SoundAt source false true (opt nextSeparator (mark ['\\'])) ts :=
      .either (fun _ => SoundFrom.operator rfl ts) fun h => by rw [hs] at h; cases h
    exact this.seq_cons (.seq_cons (hname _) hbehind)
  | false =>
    have : SoundAt source false false (opt nextSeparator (mark ['\\'])) ts :=
      .either (fun h => by rw [hs] at h; cases h) fun _ => SoundFrom.nothing ts
    exact this.seq_cons (.seq_cons (hname _) hbehind)

theorem sound_useGroup : SoundFrom source b false useGroup :=
  .node rfl (.seq_cons (.mark rfl) (.seq_before (.separated rfl (by decide) before_useClause)
    (.seq (starts_mark (by decide))) (.seq (.mark rfl))))

theorem sound_useDeclaration : Sound source useDeclaration := by
  have hgroup : Sound source (seq [importType, groupPath, mark ['\\'], useGroup]) :=
    .seq_cons sound_importType (.seq_cons sound_groupPath (.seq_cons (.operator rfl) (.seq_cons sound_useGroup .seq_nil)))
  have hinside : Sound source (seq [word .use_,
      either nextGroup (seq [importType, groupPath, mark ['\\'], useGroup]) (separated [','] useClause), semicolon]) :=
    .seq_cons (.word rfl) (.seq_before (.either (.of_sound hgroup) (.separated rfl (by decide) before_useClause))
      (.seq (starts_mark (by decide))) (.seq (.mark rfl)))
  intro ts ns rest hr hlawful previous pos ps hb hu
  obtain ⟨ms, hms, rfl⟩ := map_eq_some hr
  obtain ⟨previous', stop, ps', hb', hstep⟩ := hinside _ _ _ hms (areLawful_of_group hlawful) previous pos ps hb hu
  exact ⟨previous', stop, ps', hb', hstep.use (bare_useDeclaration _ _ _ hu.tame hms).1⟩

end ClassOutline.Plain
