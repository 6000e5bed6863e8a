import ClassOutline.Plain.Token
import ClassOutline.Proofs.Lexing.Bytes
/-
  ClassOutline.Proofs.Plain.Strings — strings of plain sources end where literals do.

  The reader of plain sources takes a string apart into runs of text and escapes; the lexer
  looks for the first quote that no backslash escapes. No piece holds such a quote, and none
  ends between a backslash and what it escapes (`Inner`), so both find the same end
  (`stringNodes?_spec`).
-/

namespace ClassOutline.Plain

open ClassOutline.Text ClassOutline.Tree ClassOutline.Scan ClassOutline.Token

/-! ## Insides of strings -/

/-- Text that can stand inside quotes: no quote is free, and nothing is left to be escaped. -/
inductive Inner (quote : Char) : Text → Prop
  | nil : Inner quote []
  | char {c r} (hc : c ≠ '\\' ∧ c ≠ quote) (h : Inner quote r) : Inner quote (c :: r)
  | escape {r} (c) (h : Inner quote r) : Inner quote ('\\' :: c :: r)

variable {quote : Char} {u v t : Text}

theorem Inner.append (hu : Inner quote u) (hv : Inner quote v) : Inner quote (u ++ v) := by
  induction hu with
  | nil => exact hv
  | char hc _ ih => exact .char hc ih
  | escape c _ ih => exact .escape c ih

theorem Inner.of_forall (h : ∀ c ∈ u, c ≠ '\\' ∧ c ≠ quote) : Inner quote u := by
  induction u with
  | nil => exact .nil
  | cons c u ih =>
    obtain ⟨hc, hu⟩ := List.forall_mem_cons.mp h
    exact .char hc (ih hu)

theorem Inner.tail {c : Char} (hc : c ≠ '\\') (h : Inner quote (c :: u)) : Inner quote u := by
  cases h with
  | char _ h => exact h
  | escape => exact absurd rfl hc

/-- A literal ends at the quote behind text that can stand inside. -/
theorem quotedTailLength_of_inner (hq : quote ≠ '\\') (h : Inner quote u) (r : Text) :
    quotedTailLength '\\' quote (u ++ quote :: r) = u.length + 1 := by
  induction h with
  | nil =>
    cases r with
    | nil => rfl
    | cons d r => rw [List.nil_append, quotedTailLength, if_neg hq, if_pos rfl, List.length_nil]
  | char hc _ ih =>
    rw [List.cons_append, quotedTailLength_cons_of_ne hc.1 hc.2, ih, List.length_cons]
    omega
  | escape c _ ih =>
    rw [List.cons_append, List.cons_append, quotedTailLength, if_pos rfl, ih, List.length_cons, List.length_cons]
    omega

/-! ## Escapes -/

theorem ne_of_isHex {c : Char} (h : isHex c = true) : c ≠ '\\' ∧ c ≠ '"' ∧ c ≠ '\'' := by
  refine ⟨?_, ?_, ?_⟩ <;>
  · intro he
    rw [he] at h
    cases h

theorem ne_of_isOctal {c : Char} (h : isOctal c = true) : c ≠ '\\' ∧ c ≠ '"' ∧ c ≠ '\'' := by
  refine ⟨?_, ?_, ?_⟩ <;>
  · intro he
    rw [he] at h
    cases h

/-- What a piece of a string comes to: a prefix that can stand inside. -/
def IsPiece (quote : Char) (t : Text) (n : Nat) : Prop := n ≤ t.length ∧ Inner quote (t.take n)

/-- A backslash with the character behind it, and characters that mean nothing. -/
theorem isPiece_backslash (c : Char) (hu : ∀ d ∈ u, d ≠ '\\' ∧ d ≠ quote) (r : Text) :
    IsPiece quote ('\\' :: c :: (u ++ r)) (u.length + 2) := by
  refine ⟨by simp, ?_⟩
  rw [List.take_succ_cons, List.take_succ_cons, List.take_left' rfl]
  exact .escape c (.of_forall hu)

theorem isPiece_escape {n : Nat} (h : escapeLength? t = some n) : IsPiece '"' t n := by
  have hhex : ∀ {d : Char}, isHex d = true → d ≠ '\\' ∧ d ≠ '"' := fun hd => ⟨(ne_of_isHex hd).1, (ne_of_isHex hd).2.1⟩
  unfold escapeLength? at h
  split at h
  · rename_i a r
    split at h
    · cases h
    · rename_i ha
      have ha := hhex (show isHex a = true by simpa using ha)
      split at h
      · rename_i b r
        by_cases hb : isHex b = true
        · rw [if_pos hb] at h
          cases h
          exact isPiece_backslash 'x' (u := [a, b]) (by simpa using ⟨ha, hhex hb⟩) r
        · rw [if_neg hb] at h
          cases h
          exact isPiece_backslash 'x' (u := [a]) (by simpa using ha) (b :: r)
      · cases h
        exact isPiece_backslash 'x' (u := [a]) (by simpa using ha) []
  · rename_i r
    dsimp only at h
    split at h
    · rename_i hclose
      cases h
      obtain ⟨v, hv⟩ : ∃ v, r.drop (r.takeWhile isHex).length = '\x7d' :: v :=
        List.head?_eq_some_iff.mp (beq_iff_eq.mp (Bool.and_eq_true_iff.mp hclose).2)
      have hdigits : ∀ d ∈ '\x7b' :: (r.takeWhile isHex ++ ['\x7d']), d ≠ '\\' ∧ d ≠ '"' := by
        intro d hd
        simp only [List.mem_cons, List.mem_append, List.not_mem_nil, or_false] at hd
        rcases hd with rfl | hd | rfl
        · decide
        · exact hhex (List.mem_takeWhile_imp hd)
        · decide
      have hpiece := isPiece_backslash 'u' hdigits v
      have hr : r = r.takeWhile isHex ++ '\x7d' :: v := by
        rw [← hv]
        exact takeWhile_append_drop isHex r
      rw [List.cons_append, List.append_assoc, List.singleton_append, ← hr] at hpiece
      simpa using hpiece
    · cases h
  · rename_i c r _ _
    split at h
    · cases h
      have hoctal : ∀ d ∈ (r.take 2).takeWhile isOctal, d ≠ '\\' ∧ d ≠ '"' := fun d hd =>
        ⟨(ne_of_isOctal (List.mem_takeWhile_imp hd)).1, (ne_of_isOctal (List.mem_takeWhile_imp hd)).2.1⟩
      obtain ⟨v, hv⟩ : (r.take 2).takeWhile isOctal <+: r := (List.takeWhile_prefix _).trans (List.take_prefix 2 r)
      have hpiece := isPiece_backslash c hoctal v
      rwa [hv, Nat.add_comm] at hpiece
    · split at h
      · cases h
        exact isPiece_backslash c (u := []) (by simp) r
      · cases h
  · cases h

/-! ## Runs -/

/-- What belongs to a run is skipped. -/
theorem runFrom_skip {k : Container} {t : Text} {skip n m : Nat} {behindVariable : Bool}
    (h : runFrom k t skip behindVariable n = some m) :
    skip ≤ t.length ∧ runFrom k (t.drop skip) 0 behindVariable (n + skip) = some m := by
  induction skip generalizing t n with
  | zero => exact ⟨Nat.zero_le _, h⟩
  | succ skip ih =>
    cases t with
    | nil => cases h
    | cons c r =>
      rw [runFrom] at h
      obtain ⟨hle, hrun⟩ := ih h
      exact ⟨Nat.succ_le_succ hle, by rw [List.drop_succ_cons, ← Nat.add_right_comm, Nat.add_assoc] at *; exact hrun⟩

theorem runStep_ne_zero {d : Char} (hd : d ≠ '"' ∧ d ≠ '\\' ∧ d ≠ '$' ∧ d ≠ '\x7b') (u : Text) :
    runStep .quotes false (d :: u) ≠ 0 := by
  unfold runStep
  split
  · rename_i he
    cases he
  · rename_i he
    exact absurd (List.cons.inj he).1 hd.1
  · simp
  · rename_i he
    exact absurd (List.cons.inj he).1 hd.2.1
  · rename_i he
    exact absurd (List.cons.inj he).1 hd.2.2.1
  · simp
  · simp
  · rename_i he
    exact absurd (List.cons.inj he).1 hd.2.2.2
  · simp

/-- A backslash that is no escape takes the next character along, or a run goes on with it. -/
theorem escapes_cases {r : Text} {n : Nat} (h : escapes .quotes r = (false, n)) :
    (n = 1 ∧ r ≠ []) ∨ (n = 0 ∧ ∀ d u, r = d :: u → d ≠ '\\' ∧ runStep .quotes false r ≠ 0) := by
  unfold escapes at h
  split at h
  · cases h
    exact Or.inl ⟨rfl, by simp⟩
  · refine Or.inr ⟨(Prod.mk.inj h).2.symm, fun d u hd => ?_⟩
    cases hd
    exact ⟨by decide, runStep_ne_zero (by decide) _⟩
  · cases h
  · exact Or.inl ⟨(Prod.mk.inj h).2.symm, by simp⟩
  · rename_i c u hbrace _ hslash _
    refine Or.inr ⟨(Prod.mk.inj h).2.symm, fun d v hd => ?_⟩
    cases hd
    have hletters := (Bool.or_eq_false_iff.mp (Prod.mk.inj h).1).1
    have hne : ∀ e ∈ "nrtvef$\"u".toList, c ≠ e := fun e he hc => by
      rw [List.any_eq_false] at hletters
      exact hletters e he (beq_iff_eq.mpr hc.symm)
    exact ⟨hslash, runStep_ne_zero ⟨hne _ (by decide), hslash, hne _ (by decide), hbrace⟩ _⟩
  · exact Or.inr ⟨(Prod.mk.inj h).2.symm, fun d u hd => by cases hd⟩

/-- What a run takes in one go: a character, an escape that is none, or a backslash alone
    before a character that the run goes on with. -/
theorem runStep_cases {c : Char} {r : Text} {k : Nat} (h : runStep .quotes false (c :: r) = k + 1) :
    (k = 0 ∧ c ≠ '\\' ∧ c ≠ '"') ∨ (c = '\\' ∧ k = 1 ∧ r ≠ []) ∨
      (c = '\\' ∧ k = 0 ∧ ∀ d u, r = d :: u → d ≠ '\\' ∧ runStep .quotes false r ≠ 0) := by
  unfold runStep at h
  split at h
  · cases h
  · cases h
  · rename_i he
    cases he
    exact Or.inl ⟨by simpa using h.symm, by decide, by decide⟩
  · rename_i r' he
    obtain ⟨rfl, rfl⟩ := List.cons.inj he
    right
    split at h
    · cases h
    · rename_i i hi
      obtain rfl : i = k := Nat.succ.inj h
      exact (escapes_cases hi).imp (fun h => ⟨rfl, h⟩) fun h => ⟨rfl, h⟩
  · rename_i he
    obtain ⟨rfl, rfl⟩ := List.cons.inj he
    split at h
    · cases h
    · exact Or.inl ⟨by omega, by decide, by decide⟩
  · rename_i he
    obtain ⟨rfl, rfl⟩ := List.cons.inj he
    exact Or.inl ⟨by simpa using h.symm, by decide, by decide⟩
  · rename_i he
    obtain ⟨rfl, rfl⟩ := List.cons.inj he
    exact Or.inl ⟨by simpa using h.symm, by decide, by decide⟩
  · cases h
  · rename_i hquote _ hslash _ _ _ _ he
    obtain ⟨rfl, rfl⟩ := List.cons.inj he
    refine Or.inl ⟨?_, hslash, hquote⟩
    simpa using h.symm

theorem IsPiece.append {m n : Nat} (hm : IsPiece quote t m) (hn : IsPiece quote (t.drop m) n) : IsPiece quote t (m + n) := by
  obtain ⟨hle, hinner⟩ := hm
  obtain ⟨hle', hinner'⟩ := hn
  rw [List.length_drop] at hle'
  exact ⟨by omega, by rw [List.take_add]; exact hinner.append hinner'⟩

/-- A run between quotation marks ends before the mark and before escapes. -/
theorem isPiece_runFrom {n m : Nat} (h : runFrom .quotes t 0 false n = some m) :
    ∃ j, m = n + j ∧ IsPiece '"' t j ∧ (runStep .quotes false t ≠ 0 → 0 < j) := by
  induction hlength : t.length using Nat.strong_induction_on generalizing t n with
  | _ length ih =>
  subst hlength
  cases t with
  | nil => cases h
  | cons c r =>
    rw [runFrom] at h
    split at h
    · rename_i hzero
      cases h
      exact ⟨0, rfl, ⟨Nat.zero_le _, .nil⟩, fun hne => absurd hzero hne⟩
    · rename_i k hk
      obtain ⟨hle, hrun⟩ := runFrom_skip h
      obtain ⟨j, rfl, hpiece, hpositive⟩ := ih _ (by rw [List.length_drop, List.length_cons]; omega) hrun rfl
      refine ⟨k + 1 + j, by omega, ?_, fun _ => by omega⟩
      rcases runStep_cases hk with ⟨rfl, hc⟩ | ⟨rfl, rfl, hr⟩ | ⟨rfl, rfl, hr⟩
      · exact IsPiece.append ⟨by simp, .char hc .nil⟩ hpiece
      · obtain ⟨d, u, rfl⟩ := List.exists_cons_of_ne_nil hr
        exact IsPiece.append ⟨by simp, .escape d .nil⟩ hpiece
      · rw [List.drop_zero] at hpiece hpositive
        cases r with
        | nil => cases h
        | cons d u =>
          obtain ⟨hd, hstep⟩ := hr d u rfl
          obtain ⟨i, rfl⟩ := Nat.exists_eq_add_of_lt (hpositive hstep)
          obtain ⟨hle, hinner⟩ := hpiece
          refine ⟨by simp only [List.length_cons] at hle ⊢; omega, ?_⟩
          rw [show 0 + 1 + (0 + i + 1) = i + 1 + 1 by omega, List.take_succ_cons, List.take_succ_cons]
          rw [show 0 + i + 1 = i + 1 by omega, List.take_succ_cons] at hinner
          exact .escape d (hinner.tail hd)

/-! ## Pieces -/

theorem isPiece_quotePiece? {kind : Tree.Kind} {n : Nat} (h : quotePiece? t = some (kind, n)) :
    IsPiece '"' t n ∧ (kind = contentKind ∨ kind = escapeKind) := by
  unfold quotePiece? at h
  split at h
  · rename_i m hrun
    cases h
    refine ⟨?_, Or.inl rfl⟩
    obtain ⟨m', hfrom, hm⟩ := Option.bind_eq_some_iff.mp hrun
    obtain ⟨j, rfl, hpiece, -⟩ := isPiece_runFrom hfrom
    split at hm
    · cases hm
    · cases hm
      rwa [Nat.zero_add]
  · obtain ⟨m, hm, he⟩ := Option.map_eq_some_iff.mp h
    cases he
    exact ⟨isPiece_escape hm, Or.inr rfl⟩

theorem isPiece_apostrophePiece? {kind : Tree.Kind} {n : Nat} (h : apostrophePiece? t = some (kind, n)) :
    IsPiece '\'' t n ∧ (kind = contentKind ∨ kind = escapeKind) := by
  have hall : ∀ r : Text, ∀ c ∈ r.takeWhile (fun c => c != '\'' && c != '\\'), c ≠ '\\' ∧ c ≠ '\'' := by
    intro r c hc
    simpa [and_comm] using List.mem_takeWhile_imp hc
  have hbegins : ∀ r : Text, r.takeWhile (fun c => c != '\'' && c != '\\') <+: r := fun r => List.takeWhile_prefix _
  unfold apostrophePiece? at h
  split at h
  · rename_i m hm
    cases h
    refine ⟨?_, Or.inl rfl⟩
    unfold quotedLength? at hm
    split at hm
    · rename_i r
      have hr := hbegins r
      have hplain := hall r
      generalize r.takeWhile (fun c => c != '\'' && c != '\\') = w at *
      obtain ⟨u, rfl⟩ := hr
      cases w with
      | nil => cases hm
      | cons d w =>
        cases hm
        exact isPiece_backslash d (fun c hc => hplain c (List.mem_cons_of_mem _ hc)) u
    · rename_i c r hslash
      split at hm
      · cases hm
      · rename_i hquote
        have hc : c ≠ '\\' ∧ c ≠ '\'' := ⟨hslash, by simpa using hquote⟩
        split at hm
        · cases hm
          exact ⟨by simp, .char hc .nil⟩
        · cases hm
          have hr := hbegins r
          have hplain := hall r
          generalize r.takeWhile (fun c => c != '\'' && c != '\\') = w at *
          obtain ⟨u, rfl⟩ := hr
          refine ⟨by simp only [List.length_cons, List.length_append]; omega, ?_⟩
          rw [Nat.add_comm, List.take_succ_cons, List.take_left' rfl]
          exact .char hc (.of_forall hplain)
    · cases hm
  · obtain ⟨m, hm, he⟩ := Option.map_eq_some_iff.mp h
    cases he
    refine ⟨?_, Or.inr rfl⟩
    unfold shapeLength? at hm
    split at hm
    all_goals try contradiction
    split at hm
    · cases hm
      exact isPiece_backslash _ (u := []) (by simp) _
    · cases hm

/-! ## Places -/

theorem offset_step (p : Pos) (c : Char) : (p.step c).offset = p.offset + 1 := by
  unfold Pos.step
  split <;> rfl

@[simp] theorem offset_past (p : Pos) (t : Text) : (p.past t).offset = p.offset + t.length := by
  induction t generalizing p with
  | nil => rfl
  | cons c t ih =>
    rw [Pos.past, List.foldl_cons, ← Pos.past, ih, offset_step, List.length_cons]
    omega

theorem row_step (p : Pos) (c : Char) : (p.step c).row = p.row + [c].count '\n' := by
  unfold Pos.step
  split
  · rename_i hc
    rw [beq_iff_eq.mp hc]
    rfl
  · rename_i hc
    simp [List.count_singleton, beq_iff_eq] at *
    omega

@[simp] theorem row_past (p : Pos) (t : Text) : (p.past t).row = p.row + t.count '\n' := by
  induction t generalizing p with
  | nil => rfl
  | cons c t ih =>
    rw [Pos.past, List.foldl_cons, ← Pos.past, ih, row_step, Nat.add_assoc, ← List.count_append]
    rfl

/-! ## Strings -/

/-- Leaves that may stand for the pieces of a token. -/
def ArePieces (stop : Nat) (ns : List Node) : Prop :=
  ∀ n ∈ ns, ∃ kind span, n = .leaf kind none span ∧ kind ≠ .classDeclaration ∧ n.isExtra = false ∧ span.stop.offset ≤ stop

theorem piecesTo_spec {piece? : Text → Option (Tree.Kind × Nat)}
    (hpiece : ∀ {t kind n}, piece? t = some (kind, n) → IsPiece quote t n ∧ (kind = contentKind ∨ kind = escapeKind))
    {fuel n : Nat} {p : Pos} {nodes : List Node} (h : piecesTo quote piece? fuel p t = some (nodes, n)) :
    IsPiece quote t n ∧ (∃ r, t.drop n = quote :: r) ∧ ArePieces (p.offset + n) nodes := by
  induction fuel generalizing p t nodes n with
  | zero => cases h
  | succ fuel ih =>
    cases t with
    | nil => cases h
    | cons c r =>
      rw [piecesTo] at h
      split at h
      · rename_i hc
        cases h
        exact ⟨⟨Nat.zero_le _, .nil⟩, ⟨r, by rw [beq_iff_eq.mp hc]; rfl⟩, by simp [ArePieces]⟩
      · obtain ⟨⟨kind, m⟩, hkind, h⟩ := Option.bind_eq_some_iff.mp h
        obtain ⟨⟨nodes', m'⟩, hrest, he⟩ := Option.map_eq_some_iff.mp h
        cases he
        obtain ⟨hm, hkind⟩ := hpiece hkind
        obtain ⟨hm', ⟨u, hu⟩, hnodes⟩ := ih hrest
        have hlength : ((c :: r).take m).length = m := List.length_take_of_le hm.1
        refine ⟨hm.append hm', ⟨u, by rw [← List.drop_drop, hu]⟩, List.forall_mem_cons.mpr ⟨?_, fun n hn => ?_⟩⟩
        · refine ⟨kind, _, rfl, ?_, ?_, by rw [offset_past, hlength]; omega⟩
          · rcases hkind with rfl | rfl <;> decide
          · rcases hkind with rfl | rfl <;> rfl
        · obtain ⟨kind, span, rfl, hkind, hextra, hstop⟩ := hnodes n hn
          rw [offset_past, hlength] at hstop
          exact ⟨kind, span, rfl, hkind, hextra, by omega⟩

/-- A string of a plain source is a literal, and its pieces end with it. -/
theorem stringNodes?_spec (hq : quote = '"' ∨ quote = '\'') {p : Pos} {r : Text} {nodes : List Node} {n : Nat}
    (h : stringNodes? quote p (quote :: r) = some (nodes, n)) :
    quotedLength '\\' (quote :: r) = n ∧ n ≤ (quote :: r).length ∧ 2 ≤ n ∧ ArePieces (p.offset + n) nodes ∧
      ∃ l, nodes.getLast? = some l ∧ l.span.stop.offset = p.offset + n := by
  unfold stringNodes? at h
  obtain ⟨⟨inside, m⟩, hpieces, he⟩ := Option.map_eq_some_iff.mp h
  cases he
  have hspec : IsPiece quote r m ∧ (∃ u, r.drop m = quote :: u) ∧ ArePieces ((p.step quote).offset + m) inside := by
    rcases hq with rfl | rfl
    · exact piecesTo_spec isPiece_quotePiece? hpieces
    · exact piecesTo_spec isPiece_apostrophePiece? hpieces
  obtain ⟨⟨hle, hinner⟩, ⟨u, hu⟩, hinside⟩ := hspec
  have hr : r = r.take m ++ quote :: u := by rw [← hu, List.take_append_drop]
  have hlength : (r.take m).length = m := List.length_take_of_le hle
  have hne : quote ≠ '\\' := by rcases hq with rfl | rfl <;> decide
  have htail : quotedTailLength '\\' quote r = m + 1 := by
    conv_lhs => rw [hr]
    rw [quotedTailLength_of_inner hne hinner, hlength]
  have hlt : m < r.length := by
    rw [hr, List.length_append, hlength, List.length_cons]
    omega
  have hleaf : ∀ span : Span, span.stop.offset ≤ p.offset + (m + 2) →
      ∃ kind s, (Node.leaf (.token [quote]) none span) = .leaf kind none s ∧ kind ≠ .classDeclaration ∧
        (Node.leaf (.token [quote]) none span).isExtra = false ∧ s.stop.offset ≤ p.offset + (m + 2) :=
    fun span hspan => ⟨.token [quote], span, rfl, (fun h => by cases h), rfl, hspan⟩
  have hclose : (((p.step quote).past (r.take m)).step quote).offset = p.offset + (m + 2) := by
    rw [offset_step, offset_past, offset_step, hlength]
    omega
  refine ⟨by rw [quotedLength, htail]; omega, by rw [List.length_cons]; omega, by omega, ?_, ?_⟩
  · intro n hn
    simp only [List.mem_append, List.mem_cons, List.not_mem_nil, or_false] at hn
    rcases hn with (rfl | hn) | rfl
    · exact hleaf _ (by rw [offset_step]; omega)
    · obtain ⟨kind, span, rfl, hkind, hextra, hstop⟩ := hinside n hn
      rw [offset_step] at hstop
      exact ⟨kind, span, rfl, hkind, hextra, by omega⟩
    · exact hleaf _ (Nat.le_of_eq hclose)
  · exact ⟨_, List.getLast?_concat, hclose⟩

end ClassOutline.Plain
