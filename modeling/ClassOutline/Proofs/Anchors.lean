import ClassOutline.Discovery
import Mathlib.Data.List.Forall2
/-
  ClassOutline.Proofs.Anchors — what discovery finds, position by position.

  The automaton of `Discovery` reads a token stream once and keeps a half-read anchor in
  its state. The anchors themselves are a matter of positions only: `ClassAt` says that a
  class stands at a position, `Opens` that a namespace is opened at one, and `ScopeAt`
  which namespace holds there, namely the one opened last.

  Proved:
  - `run_seeking_cons`: wherever the automaton is, it goes on as if it had just begun to
    seek, with the scope it has and the class it is about to find. So no anchor is skipped
    and none is read twice, though a token may break one anchor and begin the next.
  - `opening?_eq_some_iff` and `scopeAt_iff`: the scope the automaton holds is the one of
    the last opening before it.
  - `classes_forall₂_classAt`: the classes found in any token stream, from a lexer or not,
    are exactly those at the positions of `ClassAt`, in order.
-/

namespace ClassOutline.Discovery

open ClassOutline.Token

/-! ## Anchors by position -/

def kindAt (ts : List Token) (k : Nat) : Option Kind := ts[k]?.map Token.kind

/-- A `class` keyword, one white-space token and a name. -/
def ClassAt (ts : List Token) (k : Nat) : Prop :=
  kindAt ts k = some .classKeyword ∧ kindAt ts (k + 1) = some .whitespace ∧
    kindAt ts (k + 2) = some .identifier

instance (ts : List Token) (k : Nat) : Decidable (ClassAt ts k) := by unfold ClassAt; infer_instance

/-- A separator and a name behind it, which go on a namespace path. -/
def SegmentAt (ts : List Token) (i : Nat) : Prop :=
  kindAt ts i = some .nsSeparator ∧ kindAt ts (i + 1) = some .identifier

/-- Position `j` holds the first token behind `m` that is not trivia. -/
def FirstBehind (ts : List Token) (m j : Nat) : Prop :=
  m < j ∧ (kindAt ts j).any (!·.isTrivia) ∧ ∀ i, m < i → i < j → (kindAt ts i).any (·.isTrivia)

def textAt (ts : List Token) (k : Nat) : Text := (ts[k]?.map Token.text).getD []

/-- The longest run of segments from position `i` on has `n` of them. -/
def SegmentRun (ts : List Token) (i n : Nat) : Prop :=
  (∀ p < n, SegmentAt ts (i + 2 * p)) ∧ ¬ SegmentAt ts (i + 2 * n)

/-- The text of `n` segments from position `i` on. -/
def segmentsText (ts : List Token) (i n : Nat) : Text :=
  (List.range n).flatMap fun p => '\\' :: textAt ts (i + 2 * p + 1)

/-- A namespace is opened at `m`: behind the keyword, trivia aside, stands a path, or the
    brace of a global block. -/
def Opens (ts : List Token) (m : Nat) (scope : Text) : Prop :=
  kindAt ts m = some .namespaceKeyword ∧ ∃ j, FirstBehind ts m j ∧
    ((kindAt ts j = some .identifier ∧
        ∃ n, SegmentRun ts (j + 1) n ∧ scope = textAt ts j ++ segmentsText ts (j + 1) n) ∨
      (kindAt ts j = some .punct ∧ textAt ts j = ['{'] ∧ scope = []))

/-- The namespace at `k` is the one opened last before it, and global if there is none. -/
def ScopeAt (ts : List Token) (k : Nat) (scope : Text) : Prop :=
  (∃ m < k, Opens ts m scope ∧ ∀ m', m < m' → m' < k → ∀ s, ¬ Opens ts m' s) ∨
    (scope = [] ∧ ∀ m < k, ∀ s, ¬ Opens ts m s)

/-! ## Anchors at the front of a stream -/

/-- The segments a stream begins with. -/
def segments : List Token → List Text
  | sep :: name :: r =>
    if sep.kind = .nsSeparator ∧ name.kind = .identifier then name.text :: segments r else []
  | _ => []

def pathText (ts : List Token) : Text := (segments ts).flatMap ('\\' :: ·)

/-- The namespace that what follows the keyword opens. -/
def openedBy? (behind : List Token) : Option Text :=
  match behind.dropWhile (·.kind.isTrivia) with
  | tok :: r =>
    if tok.kind = .identifier then some (tok.text ++ pathText r)
    else if isOpenBrace tok then some [] else none
  | [] => none

/-- The namespace that is opened at the front of a stream. -/
def opening? : List Token → Option Text
  | tok :: r => if tok.kind = .namespaceKeyword then openedBy? r else none
  | [] => none

/-- The class that what follows the keyword completes. -/
def namedBy? (scope : Text) : List Token → Option FoundClass
  | blank :: name :: _ =>
    if blank.kind = .whitespace ∧ name.kind = .identifier then some ⟨scope, name.text, name.line⟩
    else none
  | _ => none

/-- The class at the front of a stream. -/
def classHere? (scope : Text) : List Token → Option FoundClass
  | tok :: r => if tok.kind = .classKeyword then namedBy? scope r else none
  | [] => none

/-! ## The automaton -/

theorem run_cons (s : State) (tok : Token) (r : List Token) :
    run s (tok :: r) = (step s tok).2.toList ++ run (step s tok).1 r := rfl

/-- A token that begins no anchor leaves the automaton seeking. -/
theorem run_seeking_neutral (scope : Text) {tok : Token} (hn : tok.kind ≠ .namespaceKeyword)
    (hc : tok.kind ≠ .classKeyword) (r : List Token) :
    run ⟨.seeking, scope⟩ (tok :: r) = run ⟨.seeking, scope⟩ r := by
  have hs : seek scope tok = ⟨.seeking, scope⟩ := by
    unfold seek
    split <;> simp_all
  simp [run_cons, step, hs]

theorem run_inPath (scope : Text) (ts : List Token) :
    run ⟨.inPath, scope⟩ ts = run ⟨.seeking, scope ++ pathText ts⟩ ts := by
  induction ts using segments.induct generalizing scope with
  | case1 sep name r h ih =>
    obtain ⟨hs, hn⟩ := h
    rw [run_seeking_neutral _ (by simp [hs]) (by simp [hs]),
      run_seeking_neutral _ (by simp [hn]) (by simp [hn])]
    simp [run_cons, step, hs, hn, ih, pathText, segments]
  | case2 sep name r h =>
    have hp : pathText (sep :: name :: r) = [] := by simp [pathText, segments, h]
    rw [hp, List.append_nil]
    by_cases hs : sep.kind = .nsSeparator
    · have hn : ¬ name.kind = .identifier := fun hn => h ⟨hs, hn⟩
      simp [run_cons, step, seek, hs, hn]
    · simp [run_cons, step, hs]
  | case3 ts h =>
    match ts, h with
    | [], _ => rfl
    | [tok], _ => simp [run, step, seek, pathText, segments]; split <;> rfl
    | a :: b :: r, h => exact absurd rfl (h a b r)

theorem run_afterNamespace (scope : Text) (ts : List Token) :
    run ⟨.afterNamespace, scope⟩ ts = run ⟨.seeking, (openedBy? ts).getD scope⟩ ts := by
  induction ts with
  | nil => rfl
  | cons tok r ih =>
    by_cases ht : tok.kind.isTrivia = true
    · have ho : openedBy? (tok :: r) = openedBy? r := by simp [openedBy?, ht]
      have hn : tok.kind ≠ .namespaceKeyword := by intro h; simp [h, Kind.isTrivia] at ht
      have hc : tok.kind ≠ .classKeyword := by intro h; simp [h, Kind.isTrivia] at ht
      rw [ho, run_seeking_neutral _ hn hc, ← ih]
      simp [run_cons, step, ht]
    · by_cases hi : tok.kind = .identifier
      · rw [run_seeking_neutral _ (by simp [hi]) (by simp [hi])]
        simp [run_cons, step, openedBy?, hi, Kind.isTrivia, run_inPath]
      · by_cases hb : isOpenBrace tok = true
        · have hp : tok.kind = .punct := by simp [isOpenBrace] at hb; exact hb.1
          rw [run_seeking_neutral _ (by simp [hp]) (by simp [hp])]
          simp [run_cons, step, openedBy?, hp, hb, Kind.isTrivia]
        · simp [run_cons, step, openedBy?, ht, hi, hb]

theorem run_afterClass (scope : Text) (ts : List Token) :
    run ⟨.afterClass, scope⟩ ts = (namedBy? scope ts).toList ++ run ⟨.seeking, scope⟩ ts := by
  match ts with
  | [] => rfl
  | [tok] => by_cases hw : tok.kind = .whitespace <;> simp [run, step, seek, namedBy?, hw]
  | blank :: name :: r =>
    by_cases hw : blank.kind = .whitespace
    · rw [run_seeking_neutral _ (by simp [hw]) (by simp [hw])]
      by_cases hn : name.kind = .identifier
      · rw [run_seeking_neutral _ (by simp [hn]) (by simp [hn])]
        simp [run_cons, step, namedBy?, hw, hn]
      · simp [run_cons, step, namedBy?, hw, hn]
    · simp [run_cons, step, namedBy?, hw]

/-- The automaton goes on behind every token as if it began there, with the scope it has by
    then; a class shows at its keyword. -/
theorem run_seeking_cons (scope : Text) (tok : Token) (r : List Token) :
    run ⟨.seeking, scope⟩ (tok :: r) = (classHere? scope (tok :: r)).toList ++
      run ⟨.seeking, (opening? (tok :: r)).getD scope⟩ r := by
  by_cases hn : tok.kind = .namespaceKeyword
  · simp [run_cons, step, seek, classHere?, opening?, hn, run_afterNamespace]
  · by_cases hc : tok.kind = .classKeyword
    · simp [run_cons, step, seek, classHere?, opening?, hc, run_afterClass]
    · simp [run_seeking_neutral scope hn hc, classHere?, opening?, hn, hc]

/-! ## From the front of a stream to its positions -/

theorem kindAt_drop (ts : List Token) (m i : Nat) : kindAt (ts.drop m) i = kindAt ts (m + i) := by
  simp [kindAt]

theorem textAt_drop (ts : List Token) (m i : Nat) : textAt (ts.drop m) i = textAt ts (m + i) := by
  simp [textAt]

@[simp] theorem kindAt_cons_zero (tok : Token) (r : List Token) : kindAt (tok :: r) 0 = some tok.kind := rfl

@[simp] theorem kindAt_cons_succ (tok : Token) (r : List Token) (k : Nat) :
    kindAt (tok :: r) (k + 1) = kindAt r k := by simp [kindAt]

@[simp] theorem textAt_cons_zero (tok : Token) (r : List Token) : textAt (tok :: r) 0 = tok.text := rfl

@[simp] theorem textAt_cons_succ (tok : Token) (r : List Token) (k : Nat) :
    textAt (tok :: r) (k + 1) = textAt r k := by simp [textAt]

theorem segmentAt_drop (ts : List Token) (m i : Nat) : SegmentAt (ts.drop m) i ↔ SegmentAt ts (m + i) := by
  simp only [SegmentAt, kindAt_drop, Nat.add_assoc]

theorem segmentRun_drop (ts : List Token) (i n : Nat) : SegmentRun (ts.drop i) 0 n ↔ SegmentRun ts i n := by
  simp only [SegmentRun, segmentAt_drop, Nat.zero_add]

theorem segmentsText_drop (ts : List Token) (i n : Nat) :
    segmentsText (ts.drop i) 0 n = segmentsText ts i n := by
  simp only [segmentsText, textAt_drop, Nat.zero_add, Nat.add_assoc]

/-- A run of segments that begins with one is the run behind it, one longer. -/
theorem segmentRun_succ {sep name : Token} (hs : sep.kind = .nsSeparator) (hn : name.kind = .identifier)
    (r : List Token) (n : Nat) : SegmentRun (sep :: name :: r) 0 (n + 1) ↔ SegmentRun r 0 n := by
  have shift : ∀ p, SegmentAt (sep :: name :: r) (0 + 2 * (p + 1)) ↔ SegmentAt r (0 + 2 * p) := by
    intro p
    simp only [SegmentAt, show 0 + 2 * (p + 1) = 0 + 2 * p + 1 + 1 by omega, kindAt_cons_succ]
  constructor
  · intro h
    obtain ⟨h, hl⟩ := h
    exact ⟨fun p hp => (shift p).mp (h (p + 1) (by omega)), fun hc => hl ((shift n).mpr hc)⟩
  · intro h
    obtain ⟨h, hl⟩ := h
    refine ⟨fun p hp => ?_, fun hc => hl ((shift n).mp hc)⟩
    cases p with
    | zero => simp [SegmentAt, hs, hn]
    | succ p => exact (shift p).mpr (h p (by omega))

theorem segmentRun_of_not {ts : List Token} (h : ¬ SegmentAt ts 0) (n : Nat) : SegmentRun ts 0 n ↔ n = 0 := by
  constructor
  · intro h
    obtain ⟨hp, -⟩ := h
    by_contra hne
    exact h (hp 0 (Nat.pos_of_ne_zero hne))
  · intro heq
    subst heq
    exact ⟨by simp, h⟩

theorem segmentRun_iff (ts : List Token) (n : Nat) : SegmentRun ts 0 n ↔ n = (segments ts).length := by
  induction ts using segments.induct generalizing n with
  | case1 sep name r h ih =>
    obtain ⟨hs, hn⟩ := h
    cases n with
    | zero => simp [SegmentRun, SegmentAt, segments, hs, hn]
    | succ n => simp [segmentRun_succ hs hn, ih, segments, hs, hn]
  | case2 sep name r h =>
    have h0 : ¬ SegmentAt (sep :: name :: r) 0 := by simpa [SegmentAt] using h
    simpa [segments, h] using segmentRun_of_not h0 n
  | case3 ts h =>
    match ts, h with
    | [], _ => exact segmentRun_of_not (by simp [SegmentAt, kindAt]) n
    | [tok], _ => exact segmentRun_of_not (by simp [SegmentAt, kindAt]) n
    | a :: b :: r, h => exact absurd rfl (h a b r)

theorem segmentsText_eq_pathText (ts : List Token) : segmentsText ts 0 (segments ts).length = pathText ts := by
  induction ts using segments.induct with
  | case1 sep name r h ih =>
    have hl : (segments (sep :: name :: r)).length = (segments r).length + 1 := by simp [segments, h]
    have hp : pathText (sep :: name :: r) = '\\' :: name.text ++ pathText r := by
      simp [pathText, segments, h]
    rw [hl, hp, ← ih]
    simp only [segmentsText, List.range_succ_eq_map, List.flatMap_cons, List.flatMap_map]
    congr 2
  | case2 sep name r h => simp [segmentsText, segments, pathText, h]
  | case3 ts h =>
    match ts, h with
    | [], _ => rfl
    | [tok], _ => rfl
    | a :: b :: r, h => exact absurd rfl (h a b r)

/-- The first token that is not trivia, by position and by dropping what is before it. -/
theorem dropWhile_trivia_eq_cons_iff (ts : List Token) (tok : Token) (r : List Token) :
    ts.dropWhile (·.kind.isTrivia) = tok :: r ↔ ∃ j, ts[j]? = some tok ∧ tok.kind.isTrivia = false ∧
      (∀ i < j, (kindAt ts i).any (·.isTrivia)) ∧ ts.drop (j + 1) = r := by
  induction ts with
  | nil => simp
  | cons head tail ih =>
    by_cases ht : head.kind.isTrivia = true
    · rw [List.dropWhile_cons, if_pos ht, ih]
      constructor
      · intro h
        obtain ⟨j, hj, hs, hb, hr⟩ := h
        refine ⟨j + 1, by simpa using hj, hs, fun i hi => ?_, by simpa using hr⟩
        cases i with
        | zero => simpa using ht
        | succ i => simpa using hb i (by omega)
      · intro h
        obtain ⟨j, hj, hs, hb, hr⟩ := h
        cases j with
        | zero =>
          have he : head = tok := by simpa using hj
          simp [he, hs] at ht
        | succ j =>
          exact ⟨j, by simpa using hj, hs, fun i hi => by simpa using hb (i + 1) (by omega), by simpa using hr⟩
    · rw [List.dropWhile_cons, if_neg ht]
      constructor
      · intro h
        obtain ⟨rfl, rfl⟩ := List.cons.inj h
        exact ⟨0, rfl, by simpa using ht, by simp, rfl⟩
      · intro h
        obtain ⟨j, hj, hs, hb, hr⟩ := h
        cases j with
        | zero =>
          have he : head = tok := by simpa using hj
          simpa [he] using hr
        | succ j => exact absurd (by simpa using hb 0 (by omega)) ht

theorem firstBehind_cons_zero_iff (tok : Token) (r : List Token) (j : Nat) :
    FirstBehind (tok :: r) 0 j ↔ ∃ i next, j = i + 1 ∧ r[i]? = some next ∧ next.kind.isTrivia = false ∧
      ∀ i' < i, (kindAt r i').any (·.isTrivia) := by
  constructor
  · intro h
    obtain ⟨hj, hs, hb⟩ := h
    obtain ⟨i, rfl⟩ := Nat.exists_eq_add_of_lt hj
    simp only [Nat.zero_add, kindAt_cons_succ] at hs hb
    cases hn : r[i]? with
    | none => simp [kindAt, hn] at hs
    | some next =>
      refine ⟨i, next, by omega, hn, by simpa [kindAt, hn] using hs, fun i' hi' => ?_⟩
      simpa using hb (i' + 1) (by omega) (by omega)
  · intro h
    obtain ⟨i, next, rfl, hn, hs, hb⟩ := h
    refine ⟨by omega, by simp [kindAt, hn, hs], fun i' hpos hlt => ?_⟩
    obtain ⟨p, rfl⟩ := Nat.exists_eq_add_of_lt hpos
    simpa using hb p (by omega)

/-- What a keyword opens, in terms of the first token behind it that is not trivia. -/
theorem openedBy?_eq_some_iff (r : List Token) (scope : Text) :
    openedBy? r = some scope ↔ ∃ next rest, r.dropWhile (·.kind.isTrivia) = next :: rest ∧
      ((next.kind = .identifier ∧ scope = next.text ++ pathText rest) ∨
        (next.kind = .punct ∧ next.text = ['{'] ∧ scope = [])) := by
  unfold openedBy?
  cases hd : r.dropWhile (·.kind.isTrivia) with
  | nil => simp
  | cons next rest =>
    have brace : isOpenBrace next = true ↔ next.kind = .punct ∧ next.text = ['{'] := by simp [isOpenBrace]
    by_cases hi : next.kind = .identifier
    · simp [hi, eq_comm]
    · by_cases hb : isOpenBrace next = true
      · simp [hb, brace.mp hb, eq_comm]
      · have hb' := mt brace.mpr hb
        simp only [hi, hb, if_false, Bool.false_eq_true, reduceCtorEq, false_iff]
        intro h
        obtain ⟨_, _, he, h⟩ := h
        obtain ⟨rfl, rfl⟩ := List.cons.inj he
        rcases h with h | h
        · exact hi h.1
        · exact hb' ⟨h.1, h.2.1⟩

theorem opens_zero_iff (ts : List Token) (scope : Text) : Opens ts 0 scope ↔ opening? ts = some scope := by
  cases ts with
  | nil => simp [Opens, opening?, kindAt]
  | cons tok r =>
    by_cases hk : tok.kind = .namespaceKeyword
    · simp only [Opens, opening?, hk, if_true, kindAt_cons_zero, true_and, openedBy?_eq_some_iff,
        dropWhile_trivia_eq_cons_iff, firstBehind_cons_zero_iff]
      constructor
      · intro h
        obtain ⟨_, ⟨i, next, rfl, hn, hs, hb⟩, h⟩ := h
        refine ⟨next, r.drop (i + 1), ⟨i, hn, hs, hb, rfl⟩, ?_⟩
        have hkind : kindAt r i = some next.kind := by simp [kindAt, hn]
        have htext : textAt r i = next.text := by simp [textAt, hn]
        simp only [kindAt_cons_succ, textAt_cons_succ, hkind, htext, Option.some.injEq] at h
        rcases h with ⟨hi, n, hrun, hsc⟩ | h
        · rw [← segmentRun_drop, segmentRun_iff, List.drop_succ_cons] at hrun
          rw [← segmentsText_drop, hrun, List.drop_succ_cons, segmentsText_eq_pathText] at hsc
          exact Or.inl ⟨hi, hsc⟩
        · exact Or.inr h
      · intro h
        obtain ⟨next, _, ⟨i, hn, hs, hb, rfl⟩, h⟩ := h
        refine ⟨i + 1, ⟨i, next, rfl, hn, hs, hb⟩, ?_⟩
        have hkind : kindAt r i = some next.kind := by simp [kindAt, hn]
        have htext : textAt r i = next.text := by simp [textAt, hn]
        simp only [kindAt_cons_succ, textAt_cons_succ, hkind, htext, Option.some.injEq]
        rcases h with ⟨hi, hsc⟩ | h
        · refine Or.inl ⟨hi, (segments (r.drop (i + 1))).length, ?_, ?_⟩
          · rw [← segmentRun_drop, segmentRun_iff, List.drop_succ_cons]
          · rw [← segmentsText_drop, List.drop_succ_cons, segmentsText_eq_pathText, hsc]
        · exact Or.inr h
    · simp [Opens, opening?, hk]

theorem firstBehind_drop (ts : List Token) (m j : Nat) :
    FirstBehind (ts.drop m) 0 j ↔ FirstBehind ts m (m + j) := by
  simp only [FirstBehind, kindAt_drop]
  constructor
  · intro h
    obtain ⟨h0, hs, hb⟩ := h
    refine ⟨by omega, hs, fun i hi hj => ?_⟩
    have := hb (i - m) (by omega) (by omega)
    rwa [show m + (i - m) = i by omega] at this
  · intro h
    obtain ⟨h0, hs, hb⟩ := h
    exact ⟨by omega, hs, fun i hi hj => hb (m + i) (by omega) (by omega)⟩

/-- A namespace is opened at a position exactly if one is at the front of what begins there. -/
theorem opening?_eq_some_iff (ts : List Token) (m : Nat) (scope : Text) :
    opening? (ts.drop m) = some scope ↔ Opens ts m scope := by
  rw [← opens_zero_iff]
  have hrun : ∀ j n, SegmentRun (ts.drop m) (j + 1) n ↔ SegmentRun ts (m + j + 1) n := by
    intro j n
    rw [← segmentRun_drop (ts.drop m), List.drop_drop, segmentRun_drop, Nat.add_assoc]
  have htext : ∀ j n, segmentsText (ts.drop m) (j + 1) n = segmentsText ts (m + j + 1) n := by
    intro j n
    rw [← segmentsText_drop (ts.drop m), List.drop_drop, segmentsText_drop, Nat.add_assoc]
  simp only [Opens, kindAt_drop, textAt_drop, firstBehind_drop, hrun, htext, Nat.add_zero]
  constructor
  · intro h
    obtain ⟨hk, j, hj, h⟩ := h
    exact ⟨hk, m + j, hj, h⟩
  · intro h
    obtain ⟨hk, j, hj, h⟩ := h
    obtain ⟨i, rfl⟩ := Nat.exists_eq_add_of_le (Nat.le_of_lt hj.1)
    exact ⟨hk, i, hj, h⟩

/-! ## The scope at a position -/

/-- The namespace opened last among the first `k` positions, and `scope` if none is. -/
def scopeFrom (scope : Text) (ts : List Token) (k : Nat) : Text :=
  ((List.range k).filterMap fun m => opening? (ts.drop m)).getLast?.getD scope

theorem scopeFrom_succ (scope : Text) (tok : Token) (r : List Token) (k : Nat) :
    scopeFrom scope (tok :: r) (k + 1) = scopeFrom ((opening? (tok :: r)).getD scope) r k := by
  simp only [scopeFrom, List.range_succ_eq_map, List.filterMap_cons, List.drop_zero, List.filterMap_map]
  cases h : opening? (tok :: r) with
  | none => simp
  | some s => simp [List.getLast?_cons]

theorem scopeFrom_add_one (scope : Text) (ts : List Token) (k : Nat) :
    scopeFrom scope ts (k + 1) = (opening? (ts.drop k)).getD (scopeFrom scope ts k) := by
  simp only [scopeFrom, List.range_succ, List.filterMap_append, List.filterMap_cons, List.filterMap_nil]
  cases h : opening? (ts.drop k) <;> simp

theorem scopeAt_iff (ts : List Token) (k : Nat) (scope : Text) :
    ScopeAt ts k scope ↔ scope = scopeFrom [] ts k := by
  induction k with
  | zero => simp [ScopeAt, scopeFrom]
  | succ k ih =>
    rw [scopeFrom_add_one]
    cases h : opening? (ts.drop k) with
    | none =>
      -- Nothing is opened at `k`, so the last opening before `k + 1` is the last one before `k`.
      have hk : ∀ s, ¬ Opens ts k s := fun s hs => by simp [(opening?_eq_some_iff ts k s).mpr hs] at h
      rw [Option.getD_none, ← ih]
      constructor
      · intro h
        rcases h with ⟨m, hm, ho, hl⟩ | ⟨hs, hl⟩
        · have : m ≠ k := by intro heq; subst heq; exact hk _ ho
          exact Or.inl ⟨m, by omega, ho, fun m' h1 h2 => hl m' h1 (by omega)⟩
        · exact Or.inr ⟨hs, fun m hm => hl m (by omega)⟩
      · intro h
        rcases h with ⟨m, hm, ho, hl⟩ | ⟨hs, hl⟩
        · refine Or.inl ⟨m, by omega, ho, fun m' h1 h2 s => ?_⟩
          by_cases e : m' = k
          · subst e; exact hk s
          · exact hl m' h1 (by omega) s
        · refine Or.inr ⟨hs, fun m hm s => ?_⟩
          by_cases e : m = k
          · subst e; exact hk s
          · exact hl m (by omega) s
    | some s =>
      have hk : Opens ts k s := (opening?_eq_some_iff ts k s).mp h
      rw [Option.getD_some]
      constructor
      · intro h
        rcases h with ⟨m, hm, ho, hl⟩ | ⟨-, hl⟩
        · have e : m = k := by
            by_contra hne
            exact hl k (by omega) (by omega) s hk
          subst e
          exact Option.some.inj (((opening?_eq_some_iff ts m scope).mpr ho).symm.trans h)
        · exact absurd hk (hl k (by omega) s)
      · intro heq
        subst heq
        exact Or.inl ⟨k, by omega, hk, fun m' h1 h2 => by omega⟩

/-! ## The classes of a stream -/

/-- The positions of classes, in order. -/
def classPositions (ts : List Token) : List Nat := (List.range ts.length).filter fun k => ClassAt ts k

theorem mem_classPositions (ts : List Token) (k : Nat) : k ∈ classPositions ts ↔ ClassAt ts k := by
  simp only [classPositions, List.mem_filter, List.mem_range, decide_eq_true_eq, and_iff_right_iff_imp]
  intro h
  obtain ⟨hk, -⟩ := h
  by_contra hlt
  simp [kindAt, List.getElem?_eq_none (Nat.le_of_not_lt hlt)] at hk

theorem classPositions_cons (tok : Token) (r : List Token) :
    classPositions (tok :: r) =
      (if ClassAt (tok :: r) 0 then [0] else []) ++ (classPositions r).map (· + 1) := by
  have shift : ∀ k, ClassAt (tok :: r) (k + 1) ↔ ClassAt r k := by
    intro k
    simp [ClassAt]
  simp only [classPositions, List.length_cons, List.range_succ_eq_map, List.filter_cons, List.filter_map,
    decide_eq_true_eq]
  have hcomp : ((fun k => decide (ClassAt (tok :: r) k)) ∘ Nat.succ) = fun k => decide (ClassAt r k) := by
    funext k
    simp [shift]
  rw [hcomp]
  split <;> rfl

/-- The class at a position, under the last namespace opened before it. -/
def foundAt (scope : Text) (ts : List Token) (k : Nat) : FoundClass :=
  ⟨scopeFrom scope ts k, textAt ts (k + 2), (ts[k + 2]?.map Token.line).getD 0⟩

theorem foundAt_cons_succ (scope : Text) (tok : Token) (r : List Token) (k : Nat) :
    foundAt scope (tok :: r) (k + 1) = foundAt ((opening? (tok :: r)).getD scope) r k := by
  simp [foundAt, scopeFrom_succ]

theorem classHere?_eq (scope : Text) (ts : List Token) :
    classHere? scope ts = if ClassAt ts 0 then some (foundAt scope ts 0) else none := by
  match ts with
  | [] => simp [classHere?, ClassAt, kindAt]
  | [tok] => simp [classHere?, namedBy?, ClassAt, kindAt]
  | [tok, blank] => simp [classHere?, namedBy?, ClassAt, kindAt]
  | tok :: blank :: name :: r =>
    by_cases hk : tok.kind = .classKeyword
    · simp [classHere?, namedBy?, ClassAt, foundAt, scopeFrom, hk]
    · simp [classHere?, ClassAt, hk]

/-- By induction on the stream, with the scope the automaton holds as the invariant. -/
theorem run_seeking_eq_map (scope : Text) (ts : List Token) :
    run ⟨.seeking, scope⟩ ts = (classPositions ts).map (foundAt scope ts) := by
  induction ts generalizing scope with
  | nil => rfl
  | cons tok r ih =>
    have hmap : ((classPositions r).map (· + 1)).map (foundAt scope (tok :: r)) =
        (classPositions r).map (foundAt ((opening? (tok :: r)).getD scope) r) := by
      rw [List.map_map]
      exact List.map_congr_left fun k _ => foundAt_cons_succ scope tok r k
    rw [run_seeking_cons, ih, classHere?_eq, classPositions_cons, List.map_append, hmap]
    split <;> rfl

/-- Discovery finds a class at each position of `ClassAt`, in order and nowhere else, with
    the name and line written there and the namespace opened last before it. -/
theorem classes_forall₂_classAt (ts : List Token) :
    ∃ ks : List Nat, ks.Pairwise (· < ·) ∧ (∀ k, k ∈ ks ↔ ClassAt ts k) ∧
      List.Forall₂ (fun k (c : FoundClass) =>
        (∃ name, ts[k + 2]? = some name ∧ c.name = name.text ∧ c.line = name.line) ∧
          ∀ scope, ScopeAt ts k scope ↔ scope = c.scope) ks (classes ts) := by
  refine ⟨classPositions ts, ?_, mem_classPositions ts, ?_⟩
  · exact List.pairwise_lt_range.filter _
  · rw [classes, State.start, run_seeking_eq_map, List.forall₂_map_right_iff, List.forall₂_same]
    intro k hk
    obtain ⟨-, -, hname⟩ := (mem_classPositions ts k).mp hk
    obtain ⟨name, hn, -⟩ := Option.map_eq_some_iff.mp hname
    refine ⟨⟨name, hn, by simp [foundAt, textAt, hn], by simp [foundAt, hn]⟩, fun scope => ?_⟩
    exact scopeAt_iff ts k scope

end ClassOutline.Discovery
