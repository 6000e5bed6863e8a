import ClassOutline.Tree.Issue
import ClassOutline.Proofs.Anchors
import ClassOutline.Proofs.Extraction
import ClassOutline.Proofs.Sites
/-
  ClassOutline.Proofs.Agreement — where the token stream and the syntax tree agree.

  Classes are found twice: by their anchors in the token stream, which knows no grammar, and
  as declarations of the syntax tree, which knows nothing of the tokens. `laid` lays a tree
  over the tokens of its source. It goes through both together and asks that an anchor of a
  class begins where a class declaration has its keyword and nowhere else, that the name
  behind it is a token of its own, and that a namespace is opened where a definition under
  the root has its keyword, by the path the definition is named with. A class that stands
  behind a braced definition, where the tree is back in the scope before it and the token
  stream is not, is in reach only if the two scopes are one.

  Then both find the same classes (`classes_eq_declared`), but for those whose name is
  reserved or does not follow its keyword at once, which have no anchor; and nothing is
  found that is not declared (`exists_decl_of_found`). That the tree of a plain source is
  laid over it is shown from the two lexers and the grammar (`Plain.laid_of_plain`).
-/

namespace ClassOutline.Discovery

open ClassOutline.Text ClassOutline.Token ClassOutline.Tree

/-! ## Tokens in their places -/

/-- A token and the number of characters before it. -/
structure Placed where
  offset : Nat
  token : Token
  deriving DecidableEq

def placedFrom : Nat → List Token → List Placed
  | _, [] => []
  | offset, tok :: ts => ⟨offset, tok⟩ :: placedFrom (offset + tok.text.length) ts

def tokensOf (ps : List Placed) : List Token := ps.map Placed.token

@[simp] theorem tokensOf_nil : tokensOf [] = [] := rfl

@[simp] theorem tokensOf_cons (p : Placed) (ps : List Placed) : tokensOf (p :: ps) = p.token :: tokensOf ps := rfl

theorem tokensOf_placedFrom (offset : Nat) (ts : List Token) : tokensOf (placedFrom offset ts) = ts := by
  induction ts generalizing offset with
  | nil => rfl
  | cons tok ts ih => rw [placedFrom, tokensOf_cons, ih]

/-- Whether an anchor begins at the front of a stream. -/
def begins (ts : List Token) : Bool := (classHere? [] ts).isSome || (opening? ts).isSome

/-- Passes over the tokens that begin before a place; none if one of them begins an anchor. -/
def passTo (stop : Nat) : List Placed → Option (List Placed)
  | [] => some []
  | p :: ps =>
    if stop ≤ p.offset then some (p :: ps)
    else if begins (tokensOf (p :: ps)) then none
    else passTo stop ps

/-! ## Laying a tree over tokens -/

/-- How much of the header of a class declaration has been laid. -/
inductive Header where
  | absent
  | awaited
  /-- Behind the keyword; whether the name may follow with white space only between. -/
  | behind (isSeparated : Bool)

/-- Takes the keyword of a class declaration. -/
def takeKeyword (place : Nat) (ps : List Placed) : Option (List Placed) :=
  match passTo place ps with
  | some (p :: r) => if p.offset == place && p.token.kind == .classKeyword then some r else none
  | _ => none

/-- Whether the tokens before a place are a single blank. -/
def isBlankTo (place : Nat) (ps : List Placed) : Bool :=
  (tokensOf (ps.takeWhile (·.offset < place))).map Token.kind == [.whitespace]

/-- Takes the name of a class declaration and what separates it from the keyword. The name
    is the token that the tree reads there, and that token begins no anchor itself. -/
def takeName (source : Text) (name : Node) (isSeparated : Bool) (ps : List Placed) : Option (List Placed) :=
  let place := name.span.first.offset
  match passTo place ps with
  | some (p :: r) =>
    if isBlankTo place ps == isSeparated &&
        (ps.takeWhile (·.offset < place)).all (·.token.kind != .identifier) &&
        p.token.kind == Kind.ofWord none p.token.text && p.token.text == name.text source &&
        p.token.line == name.span.first.row + 1 && !begins (tokensOf (p :: r))
    then some r else none
  | _ => none

mutual

/-- The tokens behind a node that is laid over those before them. -/
def lay (source : Text) : Node → List Placed → Option (List Placed)
  | ⟨kind, _, span, _, children⟩, ps =>
    if kind == .useDeclaration then passTo span.stop.offset ps
    else
      (layAll source (if kind == .classDeclaration then .awaited else .absent) children ps).bind
        (passTo span.stop.offset)

def layAll (source : Text) : Header → List Node → List Placed → Option (List Placed)
  | .absent, [], ps => some ps
  | .awaited, [], _ => none
  | .behind _, [], _ => none
  | .absent, c :: cs, ps => (lay source c ps).bind (layAll source .absent cs)
  | .awaited, c :: cs, ps =>
    if c.role == some .name then none
    else if isClassKeyword c then
      if (sites c).isEmpty then
        (takeKeyword c.span.first.offset ps).bind (layAll source (.behind true) cs)
      else none
    else (lay source c ps).bind (layAll source .awaited cs)
  | .behind isSeparated, c :: cs, ps =>
    if !(sites c).isEmpty || isClassKeyword c then none
    else if c.role == some .name then
      (takeName source c isSeparated ps).bind (layAll source .absent cs)
    else layAll source (.behind false) cs ps

end

/-- Lays the nodes under the root; `outer` is the scope of the tree, `current` that of the
    token stream. -/
def layTop (source : Text) : Text → Text → List Node → List Placed → Bool
  | _, _, [], ps => passTo source.length ps == some []
  | outer, current, n :: ns, ps =>
    if n.kind == .namespaceDefinition then
      match passTo n.span.first.offset ps with
      | some (p :: r) =>
        opening? (tokensOf (p :: r)) == some (scopeName source n) &&
          match n.childWith? .body with
          | some body =>
            match (layAll source .absent body.children r).bind (passTo n.span.stop.offset) with
            | some r => layTop source outer (scopeName source n) ns r
            | none => false
          | none =>
            match passTo n.span.stop.offset r with
            | some r => layTop source (scopeName source n) (scopeName source n) ns r
            | none => false
      | _ => false
    else
      match lay source n ps with
      | some r => ((sites n).isEmpty || outer == current) && layTop source outer current ns r
      | none => false

/-- Whether a tree lies over the tokens of its source. -/
def laid (source : Text) (root : Node) : Bool :=
  layTop source [] [] root.children (placedFrom 0 (tokenize source))

/-! ## Passing tokens -/

theorem namedBy?_eq_none_of {ts : List Token} (h : namedBy? [] ts = none) (scope : Text) :
    namedBy? scope ts = none := by
  unfold namedBy? at h ⊢
  split <;> simp_all

theorem classHere?_eq_none_of {ts : List Token} (h : classHere? [] ts = none) (scope : Text) :
    classHere? scope ts = none := by
  cases ts with
  | nil => rfl
  | cons tok r =>
    rw [classHere?] at h ⊢
    by_cases hc : tok.kind = .classKeyword
    · rw [if_pos hc] at h ⊢
      exact namedBy?_eq_none_of h scope
    · rw [if_neg hc]

/-- No token is the keyword of both kinds of anchors. -/
theorem classHere?_of_opening? {ts : List Token} {opened : Text} (h : opening? ts = some opened) (scope : Text) :
    classHere? scope ts = none := by
  cases ts with
  | nil => rfl
  | cons tok r =>
    rw [opening?] at h
    split at h
    · rename_i hn
      simp [classHere?, hn]
    · cases h

/-- Where no anchor begins the automaton goes on as it was. -/
theorem run_of_not_begins {tok : Token} {r : List Token} (h : begins (tok :: r) = false) (scope : Text) :
    run ⟨.seeking, scope⟩ (tok :: r) = run ⟨.seeking, scope⟩ r := by
  obtain ⟨hc, ho⟩ := Bool.or_eq_false_iff.mp h
  rw [Option.isSome_eq_false_iff, Option.isNone_iff_eq_none] at hc ho
  rw [run_seeking_cons, classHere?_eq_none_of hc, ho]
  rfl

theorem run_passTo {stop : Nat} {ps r : List Placed} (h : passTo stop ps = some r) (scope : Text) :
    run ⟨.seeking, scope⟩ (tokensOf ps) = run ⟨.seeking, scope⟩ (tokensOf r) := by
  induction ps with
  | nil =>
    cases h
    rfl
  | cons p ps ih =>
    rw [passTo] at h
    split at h
    · cases h
      rfl
    · split at h
      · cases h
      · rename_i hb
        rw [tokensOf_cons, run_of_not_begins (by simpa using hb), ih h]

theorem passTo_eq_dropWhile {stop : Nat} {ps r : List Placed} (h : passTo stop ps = some r) :
    r = ps.dropWhile (·.offset < stop) := by
  induction ps with
  | nil =>
    cases h
    rfl
  | cons p ps ih =>
    rw [passTo] at h
    split at h
    · rename_i hs
      cases h
      rw [List.dropWhile_cons_of_neg (by simpa using hs)]
    · rename_i hs
      split at h
      · cases h
      · rw [List.dropWhile_cons_of_pos (by simpa using hs), ← ih h]

/-! ## Headers of classes -/

/-- A class declaration that has an anchor: only white space stands before its name, and the
    name is not reserved. -/
def isAnchored (source : Text) (s : Site) : Bool :=
  s.isSeparated && Kind.ofWord none (s.name.text source) == .identifier

/-- The class that is found at a site. -/
def foundOf (source scope : Text) (s : Site) : FoundClass :=
  ⟨scope, s.name.text source, s.name.span.first.row + 1⟩

def foundAll (source scope : Text) (ss : List Site) : List FoundClass :=
  (ss.filter (isAnchored source)).map (foundOf source scope)

@[simp] theorem foundAll_append (source scope : Text) (a b : List Site) :
    foundAll source scope (a ++ b) = foundAll source scope a ++ foundAll source scope b := by
  simp [foundAll]

theorem foundAll_singleton (source scope : Text) (s : Site) :
    foundAll source scope [s] = (if isAnchored source s then some (foundOf source scope s) else none).toList := by
  cases h : isAnchored source s <;> simp [foundAll, h]

theorem foundAll_of_isEmpty {ss : List Site} (h : ss.isEmpty = true) (source scope : Text) :
    foundAll source scope ss = [] := by
  rw [List.isEmpty_iff.mp h]
  rfl

theorem run_takeKeyword {place : Nat} {ps r : List Placed} (h : takeKeyword place ps = some r) (scope : Text) :
    run ⟨.seeking, scope⟩ (tokensOf ps) =
      (namedBy? scope (tokensOf r)).toList ++ run ⟨.seeking, scope⟩ (tokensOf r) := by
  unfold takeKeyword at h
  split at h
  · rename_i p r' hp
    split at h
    · rename_i hk
      cases h
      have hkind : p.token.kind = .classKeyword := beq_iff_eq.mp (Bool.and_eq_true_iff.mp hk).2
      rw [run_passTo hp, tokensOf_cons, run_seeking_cons]
      simp [classHere?, opening?, hkind]
    · cases h
  · cases h

/-- What follows the keyword names the class exactly if it is a blank and then a name. -/
theorem namedBy?_append {gap : List Token} (hgap : ∀ t ∈ gap, t.kind ≠ .identifier) {tok : Token}
    (htok : tok.kind ≠ .whitespace) (r : List Token) (scope : Text) :
    namedBy? scope (gap ++ tok :: r) =
      if gap.map Token.kind = [.whitespace] ∧ tok.kind = .identifier then some ⟨scope, tok.text, tok.line⟩
      else none := by
  match gap with
  | [] =>
    cases r with
    | nil => simp [namedBy?]
    | cons t r => simp [namedBy?, htok]
  | [blank] => simp [namedBy?]
  | blank :: second :: gap =>
    have hs : second.kind ≠ .identifier := hgap second (by simp)
    simp [namedBy?, hs]

theorem ofWord_ne_whitespace (previous : Option Text) (word : Text) :
    Kind.ofWord previous word ≠ .whitespace := by
  unfold Kind.ofWord
  intro h
  simp only at h
  repeat' split at h
  all_goals cases h

theorem run_takeName {source : Text} {name : Node} {isSeparated : Bool} {ps r : List Placed}
    (h : takeName source name isSeparated ps = some r) (scope : Text) :
    namedBy? scope (tokensOf ps) =
        (if isAnchored source ⟨name, isSeparated⟩ then some (foundOf source scope ⟨name, isSeparated⟩) else none) ∧
      run ⟨.seeking, scope⟩ (tokensOf ps) = run ⟨.seeking, scope⟩ (tokensOf r) := by
  simp only [takeName] at h
  split at h
  · rename_i p r' hp
    split at h
    · rename_i hall
      cases h
      simp only [Bool.and_eq_true, beq_iff_eq, Bool.not_eq_true', List.all_eq_true, bne_iff_ne] at hall
      obtain ⟨⟨⟨⟨⟨hsep, hgap⟩, hkind⟩, htext⟩, hline⟩, hbegins⟩ := hall
      refine ⟨?_, ?_⟩
      · have hsplit : tokensOf ps = tokensOf (ps.takeWhile (·.offset < name.span.first.offset)) ++
            p.token :: tokensOf r := by
          rw [← tokensOf_cons, passTo_eq_dropWhile hp]
          simp only [tokensOf, ← List.map_append, List.takeWhile_append_dropWhile]
        have hgap' : ∀ t ∈ tokensOf (ps.takeWhile (·.offset < name.span.first.offset)), t.kind ≠ .identifier := by
          intro t ht
          obtain ⟨q, hq, rfl⟩ := List.mem_map.mp ht
          exact hgap q hq
        have hne : p.token.kind ≠ .whitespace := by
          rw [hkind]
          exact ofWord_ne_whitespace _ _
        rw [hsplit, namedBy?_append hgap' hne]
        have hblank : (tokensOf (ps.takeWhile (·.offset < name.span.first.offset))).map Token.kind =
            [.whitespace] ↔ isSeparated = true := by
          rw [← hsep, isBlankTo, beq_iff_eq]
        simp only [isAnchored, foundOf, Bool.and_eq_true, beq_iff_eq, hblank, htext, hline, hkind]
      · rw [tokensOf_cons] at hbegins
        rw [run_passTo hp, tokensOf_cons, run_of_not_begins hbegins]
    · cases h
  · cases h

/-! ## What is found in a laid tree -/

def Header.isPending : Header → Bool
  | .absent => false
  | _ => true

/-- The header knows whether the node before is the keyword. -/
def Header.Fits (previous : Option Node) : Header → Prop
  | .behind isSeparated => previous.any isClassKeyword = isSeparated
  | _ => True

/-- What is found from a place on; behind a keyword the class it names is found, too. -/
def Header.run (header : Header) (scope : Text) (ps : List Placed) : List FoundClass :=
  match header with
  | .behind _ => (namedBy? scope (tokensOf ps)).toList ++ Discovery.run ⟨.seeking, scope⟩ (tokensOf ps)
  | _ => Discovery.run ⟨.seeking, scope⟩ (tokensOf ps)

mutual

/-- A laid node: its anchored classes are found, and then what is found behind it. -/
theorem run_lay {source : Text} (n : Node) {ps r : List Placed} (h : lay source n ps = some r) (scope : Text) :
    run ⟨.seeking, scope⟩ (tokensOf ps) =
      foundAll source scope (sites n) ++ run ⟨.seeking, scope⟩ (tokensOf r) := by
  obtain ⟨kind, role, span, missing, children⟩ := n
  rw [lay] at h
  rw [sites]
  split at h
  · rename_i hu
    rw [if_pos hu, run_passTo h]
    rfl
  · rename_i hu
    obtain ⟨r', hall, hpass⟩ := Option.bind_eq_some_iff.mp h
    rw [if_neg hu, ← run_passTo hpass]
    by_cases hk : kind = .classDeclaration
    · rw [if_pos (beq_iff_eq.mpr hk)] at hall
      rw [beq_iff_eq.mpr hk]
      exact run_layAll children .awaited hall scope none trivial
    · rw [if_neg (by simpa using hk)] at hall
      rw [beq_eq_false_iff_ne.mpr hk]
      exact run_layAll children .absent hall scope none trivial

theorem run_layAll {source : Text} (cs : List Node) (header : Header) {ps r : List Placed}
    (h : layAll source header cs ps = some r) (scope : Text) (previous : Option Node)
    (hprev : header.Fits previous) :
    header.run scope ps =
      foundAll source scope (sitesAll header.isPending previous cs) ++ run ⟨.seeking, scope⟩ (tokensOf r) := by
  match cs, header with
  | [], .absent =>
    rw [layAll] at h
    cases h
    rw [sitesAll]
    rfl
  | [], .awaited => simp [layAll] at h
  | [], .behind _ => simp [layAll] at h
  | c :: cs, .absent =>
    rw [layAll] at h
    obtain ⟨r', hc, hcs⟩ := Option.bind_eq_some_iff.mp h
    have hrest := run_layAll cs .absent hcs scope (some c) trivial
    show run _ (tokensOf ps) = foundAll source scope (sitesAll false previous (c :: cs)) ++ _
    rw [sitesAll_append, run_lay c hc scope]
    simp only [Bool.false_and, Bool.false_eq_true, if_false, List.nil_append, foundAll_append, List.append_assoc]
    exact congrArg _ hrest
  | c :: cs, .awaited =>
    rw [layAll] at h
    split at h
    · cases h
    rename_i hrole
    have hne : (c.role == some .name) = false := by simpa using hrole
    show run _ (tokensOf ps) = foundAll source scope (sitesAll true previous (c :: cs)) ++ _
    simp only [sitesAll_append, hne, Bool.and_false, Bool.false_eq_true, if_false, List.nil_append, bne,
      Bool.not_false, Bool.and_true, foundAll_append, List.append_assoc]
    split at h
    · rename_i hk
      split at h
      · rename_i hs
        obtain ⟨r', hc, hcs⟩ := Option.bind_eq_some_iff.mp h
        rw [foundAll_of_isEmpty hs, List.nil_append, run_takeKeyword hc]
        exact run_layAll cs (.behind true) hcs scope (some c) hk
      · cases h
    · obtain ⟨r', hc, hcs⟩ := Option.bind_eq_some_iff.mp h
      rw [run_lay c hc scope]
      exact congrArg _ (run_layAll cs .awaited hcs scope (some c) trivial)
  | c :: cs, .behind isSeparated =>
    rw [layAll] at h
    split at h
    · cases h
    rename_i hs
    simp only [Bool.or_eq_true, Bool.not_eq_true', not_or, Bool.not_eq_false, Bool.not_eq_true] at hs
    obtain ⟨hempty, hkey⟩ := hs
    show _ = foundAll source scope (sitesAll true previous (c :: cs)) ++ _
    rw [sitesAll_append, foundAll_append, foundAll_append, foundAll_of_isEmpty hempty, List.nil_append]
    split at h
    · rename_i hrole
      obtain ⟨r', hc, hcs⟩ := Option.bind_eq_some_iff.mp h
      obtain ⟨hnamed, hrun⟩ := run_takeName hc scope
      have hrest := run_layAll cs .absent hcs scope (some c) trivial
      have hprev' : previous.any isClassKeyword = isSeparated := hprev
      simp only [hrole, Bool.and_self, if_true, bne, Bool.not_true, Bool.and_false, hprev', List.append_assoc]
      show (namedBy? scope (tokensOf ps)).toList ++ run _ (tokensOf ps) = _
      rw [hnamed, hrun, ← foundAll_singleton]
      exact congrArg _ hrest
    · rename_i hrole
      have hne : (c.role == some .name) = false := by simpa using hrole
      simp only [hne, Bool.and_false, Bool.false_eq_true, if_false, bne, Bool.not_false, Bool.and_true]
      exact run_layAll cs (.behind false) h scope (some c) hkey

end

/-- The class that is found for a declaration. -/
def ofDeclared (source : Text) (d : DeclaredClass) : FoundClass := foundOf source d.scope d.site

/-- The declared classes that have an anchor. -/
def anchored (source : Text) (ds : List DeclaredClass) : List DeclaredClass :=
  ds.filter fun d => isAnchored source d.site

theorem anchored_append (source : Text) (a b : List DeclaredClass) :
    anchored source (a ++ b) = anchored source a ++ anchored source b := List.filter_append ..

theorem map_ofDeclared_anchored (source scope : Text) (ss : List Site) :
    (anchored source (ss.map (⟨scope, ·⟩))).map (ofDeclared source) = foundAll source scope ss := by
  simp only [anchored, List.filter_map, List.map_map]
  rfl

/-- An anchor of a namespace opens it. -/
theorem run_opening {place : Nat} {ps r : List Placed} {p : Placed} (hp : passTo place ps = some (p :: r)) {opened : Text}
    (h : opening? (tokensOf (p :: r)) = some opened) (scope : Text) :
    run ⟨.seeking, scope⟩ (tokensOf ps) = run ⟨.seeking, opened⟩ (tokensOf r) := by
  rw [run_passTo hp, tokensOf_cons, run_seeking_cons, ← tokensOf_cons, classHere?_of_opening? h scope, h]
  rfl

theorem run_layTop {source : Text} (outer current : Text) (ns : List Node) (ps : List Placed)
    (h : layTop source outer current ns ps = true) :
    run ⟨.seeking, current⟩ (tokensOf ps) =
      (anchored source (declaredTop source outer ns)).map (ofDeclared source) := by
  induction ns generalizing outer current ps with
  | nil =>
    rw [layTop] at h
    rw [run_passTo (beq_iff_eq.mp h)]
    rfl
  | cons n ns ih =>
    rw [layTop] at h
    rw [declaredTop]
    split at h
    · rename_i hk
      rw [if_pos hk]
      split at h
      · rename_i p r hp
        obtain ⟨ho, h⟩ := Bool.and_eq_true_iff.mp h
        rw [run_opening hp (beq_iff_eq.mp ho)]
        cases hb : n.childWith? .body with
        | some body =>
          simp only [hb] at h
          split at h
          · rename_i r' hr
            obtain ⟨r'', hall, hpass⟩ := Option.bind_eq_some_iff.mp hr
            have hbody := run_layAll body.children .absent hall (scopeName source n) none trivial
            simp only [anchored_append, List.map_append, map_ofDeclared_anchored]
            rw [← ih outer (scopeName source n) r' h, ← run_passTo hpass]
            exact hbody
          · cases h
        | none =>
          simp only [hb] at h
          split at h
          · rename_i r' hr
            show run _ (tokensOf r) = (anchored source (declaredTop source (scopeName source n) ns)).map _
            rw [← ih (scopeName source n) (scopeName source n) r' h, ← run_passTo hr]
          · cases h
      · cases h
    · rename_i hk
      rw [if_neg hk]
      split at h
      · rename_i r hr
        obtain ⟨hscope, h⟩ := Bool.and_eq_true_iff.mp h
        rw [anchored_append, List.map_append, map_ofDeclared_anchored, ← ih outer current r h,
          run_lay n hr current]
        rcases Bool.or_eq_true_iff.mp hscope with he | he
        · rw [foundAll_of_isEmpty he, foundAll_of_isEmpty he]
        · rw [beq_iff_eq.mp he]
      · cases h

/-! ## Agreement -/

def entryOf (c : FoundClass) : Entry := (c.fqn, c.line)

theorem classes_of_laid {source : Text} {root : Node} (h : laid source root = true) :
    classes (tokenize source) = (anchored source (declared source root)).map (ofDeclared source) := by
  have hrun := run_layTop [] [] root.children _ h
  rwa [tokensOf_placedFrom] at hrun

/-- What is found in a laid tree is a class that the tree declares, on that line. -/
theorem exists_decl_of_found {source : Text} {root : Node} (h : laid source root = true) {c : FoundClass}
    (hc : c ∈ classes (tokenize source)) :
    ∃ d ∈ (Declarations.ofTree source root).classes, d.kind = .isClass ∧ d.fqn = c.fqn ∧ d.line = c.line := by
  rw [classes_of_laid h] at hc
  obtain ⟨site, hsite, rfl⟩ := List.mem_map.mp hc
  have hentry : site.entry source ∈ (Declarations.ofTree source root).classEntries :=
    (ofTree_perm_declared source root).mem_iff.mpr
      (List.mem_map.mpr ⟨site, (List.mem_filter.mp hsite).1, rfl⟩)
  obtain ⟨d, hd, he⟩ := List.mem_map.mp hentry
  obtain ⟨hmem, hkind⟩ := List.mem_filter.mp hd
  obtain ⟨hfqn, hline⟩ := Prod.mk.inj he
  exact ⟨d, hmem, beq_iff_eq.mp hkind, hfqn, hline⟩

theorem extract_ne_undeclared {source : Text} (h : laid source (Tree.read source) = true) (known : KnownNames)
    (fqn : Text) : extract source known ≠ .error (.malformed fqn .undeclared) := by
  rw [extract_eq_ofFound]
  refine addAll_ne_undeclared (fun c hc => ?_) _
  rw [isSome_build?, isSome_findClass?_iff]
  obtain ⟨d, hd, hkind, hfqn, -⟩ := exists_decl_of_found h (List.mem_of_mem_filter hc)
  exact ⟨d, hd, hkind, by rw [hfqn, sameName, beq_self_eq_true]⟩

/-- If a tree lies over the tokens of its source, the classes found in the token stream are
    the class declarations of the tree that have an anchor, in source order and with the
    same qualified names and lines; and no outline fails for want of a declaration. -/
theorem classes_eq_declared (source : Text) (root : Node) (h : laid source root = true) :
    (classes (tokenize source)).map entryOf =
        (anchored source (declared source root)).map (DeclaredClass.entry source) ∧
      (Declarations.ofTree source root).classEntries.Perm
        ((declared source root).map (DeclaredClass.entry source)) ∧
      (Tree.read source = root →
        ∀ known fqn, extract source known ≠ .error (.malformed fqn .undeclared)) := by
  refine ⟨?_, ofTree_perm_declared source root, ?_⟩
  · rw [classes_of_laid h, List.map_map]
    rfl
  · intro heq known fqn
    subst heq
    exact extract_ne_undeclared h known fqn

/-- A string with an element of an array in it, whose key is a string, too. -/
def interpolatedSample : Text := "<?php $x = \"\x7b$a[\"class Foo\"]\x7d\";".toList

def onFirstLine (first stop : Nat) : Span := ⟨⟨first, 0, first⟩, ⟨stop, 0, stop⟩⟩

def variableSample (place : Nat) : Node :=
  ⟨.variableName, none, onFirstLine place (place + 2), false,
    [.leaf (.token ['$']) none (onFirstLine place (place + 1)),
      .leaf .name none (onFirstLine (place + 1) (place + 2))]⟩

def keySample : Node :=
  ⟨.phrase, none, onFirstLine 16 27, false,
    [.leaf (.token ['"']) none (onFirstLine 16 17),
      .leaf (.lexeme "string_content".toList) none (onFirstLine 17 26),
      .leaf (.token ['"']) none (onFirstLine 26 27)]⟩

def elementSample : Node :=
  ⟨.phrase, none, onFirstLine 13 28, false,
    [variableSample 13, .leaf (.token ['[']) none (onFirstLine 15 16), keySample,
      .leaf (.token [']']) none (onFirstLine 27 28)]⟩

def stringSample : Node :=
  ⟨.phrase, none, onFirstLine 11 30, false,
    [.leaf (.token ['"']) none (onFirstLine 11 12), .leaf (.token ['\x7b']) none (onFirstLine 12 13), elementSample,
      .leaf (.token ['\x7d']) none (onFirstLine 28 29), .leaf (.token ['"']) none (onFirstLine 29 30)]⟩

/-- The syntax tree of the sample: an assignment of one string. -/
def interpolatedTree : Node :=
  ⟨.program, none, onFirstLine 0 31, false,
    [.leaf .openTag none (onFirstLine 0 5),
      ⟨.phrase, none, onFirstLine 6 31, false,
        [⟨.phrase, none, onFirstLine 6 30, false,
            [variableSample 6, .leaf (.token ['=']) none (onFirstLine 9 10), stringSample]⟩,
          .leaf (.token [';']) none (onFirstLine 30 31)]⟩]⟩

end ClassOutline.Discovery
