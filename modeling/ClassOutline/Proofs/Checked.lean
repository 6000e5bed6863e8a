import ClassOutline.Model.Build
import ClassOutline.Proofs.TypeHints
/-
  ClassOutline.Proofs.Checked — building, step by step on a machine that can fault.

  `ClassModel.build?` is total, so that it says nothing of the indices, ranges and byte positions
  a machine works with. Here the same steps are taken with operations that stop a run outside
  their domains: a difference below zero, a place or a range outside a list, a cut inside a
  character, a loop that goes on. What is asked for without a fault has no answer there instead:
  a successor beyond the largest word, and a part of a text whose end is no boundary.

  Every function is shown to give what its total counterpart gives, in a lemma of its own, and so
  is the whole (`Checked.build?_eq`): the guard in front of a body is all that its ranges need,
  whatever the bounds are. That the columns are machine words is used in one place, where the
  successor of the largest is not taken (`Checked.cutAfter_eq`).
-/

namespace ClassOutline

open ClassOutline.Text ClassOutline.Token

/-- All four numbers are machine words. -/
def Bounds.IsWords (b : Bounds) : Prop :=
  b.openLine ≤ maxColumn ∧ b.openColumn ≤ maxColumn ∧ b.closeLine ≤ maxColumn ∧ b.closeColumn ≤ maxColumn

instance (b : Bounds) : Decidable b.IsWords := by unfold Bounds.IsWords; infer_instance

/-- The bounds of a method are what a machine can hold. -/
def MemberDecl.IsWords : MemberDecl → Prop
  | .method m => ∀ b ∈ m.body, b.IsWords
  | _ => True

instance : (m : MemberDecl) → Decidable m.IsWords
  | .constant _ _ => isTrue trivial
  | .property _ => isTrue trivial
  | .method m => inferInstanceAs (Decidable (∀ b ∈ m.body, b.IsWords))

namespace Checked

/-! ## Operations -/

/-- What stops a run. -/
inductive Fault where
  | underflow
  | outOfRange
  | insideCharacter
  | endless
  deriving DecidableEq, Repr

abbrev Run := Except Fault

theorem ok_bind {α β : Type} (a : α) (f : α → Run β) : (Except.ok a >>= f) = f a := rfl

def difference (a b : Nat) : Run Nat := if b ≤ a then .ok (a - b) else .error .underflow

def successor? (n : Nat) : Option Nat := if n < Bounds.maxColumn then some (n + 1) else none

section

variable {α : Type}

def range (l : List α) (first last : Nat) : Run (List α) :=
  if first ≤ last ∧ last ≤ l.length then .ok ((l.take last).drop first) else .error .outOfRange

def update (l : List α) (i : Nat) (f : α → α) : Run (List α) :=
  if h : i < l.length then .ok (l.set i (f l[i])) else .error .outOfRange

def remove (l : List α) (i : Nat) : Run (List α) :=
  if i < l.length then .ok (l.eraseIdx i) else .error .outOfRange

end

/-- The text before a byte position and the text from it on. -/
def cut (n : Nat) (t : Text) : Run (Text × Text) :=
  match takeWidth? n t, dropWidth? n t with
  | some a, some b => .ok (a, b)
  | _, _ => .error .insideCharacter

/-- The byte position of the first character of a class. -/
def position? (p : Char → Bool) (t : Text) : Option Nat :=
  if t.any p then some (width (t.takeWhile fun c => !p c)) else none

theorem cut_width (a b : Text) : cut (width a) (a ++ b) = .ok (a, b) := by
  rw [cut, takeWidth?_append, dropWidth?_append]

section

variable {p : Char → Bool} {t : Text}

/-- A character that is found stands on a boundary. -/
theorem cut_of_position? {n : Nat} (h : position? p t = some n) :
    cut n t = .ok (t.takeWhile (fun c => !p c), t.dropWhile fun c => !p c) := by
  obtain ⟨-, hn⟩ := Option.ite_none_right_eq_some.mp h
  obtain rfl := Option.some.inj hn
  have hcut := cut_width (t.takeWhile fun c => !p c) (t.dropWhile fun c => !p c)
  rwa [List.takeWhile_append_dropWhile] at hcut

theorem not_of_position?_eq_none (h : position? p t = none) : ∀ c ∈ t, (!p c) = true := by
  intro c hc
  cases hp : p c with
  | false => rfl
  | true =>
    rw [position?, if_pos (List.any_eq_true.mpr ⟨c, hc, hp⟩)] at h
    cases h

/-- So does the end of a text in which nothing is found. -/
theorem cut_position (p : Char → Bool) (t : Text) :
    cut ((position? p t).getD (width t)) t = .ok (t.takeWhile (fun c => !p c), t.dropWhile fun c => !p c) := by
  cases hfound : position? p t with
  | some n => exact cut_of_position? hfound
  | none =>
    have hnone := not_of_position?_eq_none hfound
    have hcut := cut_width t []
    rw [List.append_nil] at hcut
    rw [Option.getD_none, List.takeWhile_eq_self_iff.mpr hnone, List.dropWhile_eq_nil_iff.mpr hnone]
    exact hcut

end

theorem update_eq_ok {α : Type} (f : α → α) {l : List α} {i : Nat} (h : i < l.length) :
    update l i f = .ok (l.set i (f l[i])) :=
  dif_pos h

/-! ## Bodies -/

def cutBefore (column : Nat) (line : Text) : Text :=
  match dropWidth? column line with
  | some rest => if 0 < column then rest else line
  | none => line

def cutAfter (column : Nat) (line : Text) : Text :=
  ((successor? column).bind (takeWidth? · line)).getD line

def ofLines (ls : List Text) : Run Text := do
  let openLone := ls.head?.any (Body.isLone '{')
  let ls ← if openLone then remove ls 0 else pure ls
  let closeLone := ls.getLast?.any (Body.isLone '}')
  let ls := if closeLone then ls.dropLast else ls
  let body := joinLines ls
  let body := if closeLone then body else Body.stripClose body
  return if openLone then body else Body.stripOpen body

def extract (ls : List Text) (b : Bounds) : Run (Except BadBounds Text) :=
  if b.openLine = 0 ∨ b.closeLine < b.openLine ∨ ls.length < b.closeLine then
    return .error ⟨b.openLine, b.closeLine, ls.length⟩
  else do
    let first ← difference b.openLine 1
    let slice ← range ls first b.closeLine
    let last ← difference slice.length 1
    let slice ← update slice last (cutAfter b.closeColumn)
    let slice ← update slice 0 (cutBefore b.openColumn)
    let body ← ofLines slice
    return .ok body

theorem cutBefore_eq (column : Nat) (line : Text) : cutBefore column line = Body.cutBefore column line := by
  rw [cutBefore, Body.cutBefore]
  cases column with
  | zero => rw [dropWidth?.eq_1, Option.getD_some]; rfl
  | succ n => cases dropWidth? (n + 1) line <;> rfl

theorem cutAfter_eq {column : Nat} (h : column ≤ Bounds.maxColumn) (line : Text) :
    cutAfter column line = Body.cutAfter column line := by
  rw [cutAfter, Body.cutAfter, successor?]
  rcases Nat.lt_or_eq_of_le h with hlt | heq
  · rw [if_pos hlt, if_neg (Nat.ne_of_lt hlt), Option.bind_some]
  · rw [if_neg (by omega), if_pos heq]
    rfl

theorem remove_zero {α : Type} (x : α) (l : List α) : remove (x :: l) 0 = .ok l :=
  if_pos (Nat.succ_pos _)

theorem ofLines_eq (ls : List Text) : ofLines ls = .ok (Body.ofLines ls) := by
  cases ls with
  | nil => rfl
  | cons l ls =>
    rw [ofLines, Body.ofLines]
    cases hlone : (l :: ls).head?.any (Body.isLone '{') with
    | false => rfl
    | true =>
      rw [if_pos rfl, remove_zero]
      rfl

theorem update_zero (f : Text → Text) {ls : List Text} (h : ls ≠ []) :
    update ls 0 f = .ok (Body.modifyFirst f ls) := by
  obtain ⟨l, ls, rfl⟩ := List.exists_cons_of_ne_nil h
  exact update_eq_ok f (Nat.succ_pos _)

theorem modifyLast_ne_nil (f : Text → Text) {ls : List Text} (h : ls ≠ []) : Body.modifyLast f ls ≠ [] := by
  obtain ⟨before, l, rfl⟩ := (List.eq_nil_or_concat ls).resolve_left h
  rw [List.concat_eq_append, Body.modifyLast_concat]
  exact List.append_ne_nil_of_right_ne_nil before (List.cons_ne_nil _ _)

theorem update_last (f : Text → Text) {ls : List Text} (h : ls ≠ []) :
    update ls (ls.length - 1) f = .ok (Body.modifyLast f ls) := by
  obtain ⟨before, l, rfl⟩ := (List.eq_nil_or_concat ls).resolve_left h
  have hplace : (before.concat l).length - 1 = before.length := by
    rw [List.length_concat, Nat.add_sub_cancel]
  rw [hplace, List.concat_eq_append, Body.modifyLast_concat, update_eq_ok f (by simp)]
  simp

/-- The guard is all that the ranges and places need. -/
theorem extract_eq (ls : List Text) {b : Bounds} (h : b.IsWords) : extract ls b = .ok (Body.extract ls b) := by
  rw [extract, Body.extract]
  by_cases hfits : b.Fits ls.length
  · have hfits' := hfits
    obtain ⟨hpos, hle, hend⟩ := hfits'
    have hguard : ¬ (b.openLine = 0 ∨ b.closeLine < b.openLine ∨ ls.length < b.closeLine) := by omega
    have hfirst : difference b.openLine 1 = .ok (b.openLine - 1) := if_pos hpos
    have hrange : range ls (b.openLine - 1) b.closeLine = .ok ((ls.take b.closeLine).drop (b.openLine - 1)) :=
      if_pos ⟨by omega, hend⟩
    have hlen : 0 < ((ls.take b.closeLine).drop (b.openLine - 1)).length := by
      rw [List.length_drop, List.length_take, Nat.min_eq_left hend]
      omega
    have hne := List.ne_nil_of_length_pos hlen
    have hlast : difference ((ls.take b.closeLine).drop (b.openLine - 1)).length 1 =
        .ok (((ls.take b.closeLine).drop (b.openLine - 1)).length - 1) := if_pos hlen
    have hafter : cutAfter b.closeColumn = Body.cutAfter b.closeColumn := funext (cutAfter_eq h.2.2.2)
    have hbefore : cutBefore b.openColumn = Body.cutBefore b.openColumn := funext (cutBefore_eq b.openColumn)
    rw [if_neg hguard, if_pos hfits, hfirst, ok_bind, hrange, ok_bind, hlast, ok_bind, hafter, update_last _ hne, ok_bind,
      hbefore, update_zero _ (modifyLast_ne_nil _ hne), ok_bind, ofLines_eq, ok_bind]
    rfl
  · have hguard : b.openLine = 0 ∨ b.closeLine < b.openLine ∨ ls.length < b.closeLine := by
      unfold Bounds.Fits at hfits
      omega
    rw [if_pos hguard, if_neg hfits]
    rfl

/-! ## Types and documentation -/

def depthBehind (c : Char) (depth : Nat) : Run Nat :=
  if c == '[' then .ok (depth + 1) else if c == ']' then difference depth 1 else .ok depth

def outsideAttributes : Nat → Text → Run Text
  | 0, '#' :: '[' :: r => outsideAttributes 1 r
  | 0, c :: r => do
    let outside ← outsideAttributes 0 r
    return c :: outside
  | depth + 1, c :: r => do
    let depth ← depthBehind c (depth + 1)
    outsideAttributes depth r
  | _, [] => return []

/-- Drops promotion words, at most `rounds` of them before the run counts as endless. -/
def dropPromotions : Nat → Text → Run Text
  | 0, _ => .error .endless
  | rounds + 1, t => do
    if t.isEmpty then return t
    let (word, rest) ← cut ((position? isBlank t).getD (width t)) t
    if TypeHint.promotions.contains (lower word) then dropPromotions rounds (trimStart isBlank rest) else return t

def beforeVariable (signature : Text) : Run Text :=
  match position? (· == '$') signature with
  | some n => do
    let (before, _) ← cut n signature
    return before
  | none => return signature

def ofSignature? (signature : Text) : Run (Option Text) := do
  let before ← beforeVariable signature
  let before ← outsideAttributes 0 before
  let typed ← dropPromotions ((trimBlank before).length + 1) (trimBlank before)
  let single := trimEnd isBlank (dropTail "...".toList (trimEnd isBlank typed))
  let value := trimEnd isBlank (dropTail ['&'] single)
  let plain := trimStart isBlank (dropHead ['?'] value)
  let element := dropTail "[]".toList plain
  return if element.isEmpty then none else some element

/-- The lines of a block; those before the first that holds text are a range of their own. -/
def decode? (comment : Text) : Run (Option (List Text)) :=
  let ls := (lines (DocComment.inside (trimBlank comment))).map DocComment.lineText
  let ls := (ls.reverse.dropWhile List.isEmpty).reverse
  match ls.findIdx? fun l => !l.isEmpty with
  | none => return none
  | some first => do
    let kept ← range ls first ls.length
    return if kept.head?.all List.isEmpty then none else some kept

def linesOf : Option Text → Run (List Text)
  | none => return []
  | some comment => do
    let ls ← decode? comment
    return ls.getD []

theorem outsideAttributes_eq (depth : Nat) (t : Text) :
    outsideAttributes depth t = .ok (TypeHint.outsideAttributes depth t) := by
  fun_induction TypeHint.outsideAttributes depth t with
  | case1 r ih => exact ih
  | case2 c r h ih =>
    rw [outsideAttributes.eq_2 c r h, ih]
    rfl
  | case3 depth c r ih =>
    have hdepth : depthBehind c (depth + 1) = .ok (if c == '[' then depth + 2 else if c == ']' then depth else depth + 1) := by
      unfold depthBehind
      split
      · rfl
      · split
        · exact if_pos (Nat.succ_pos depth)
        · rfl
    rw [outsideAttributes, hdepth, ok_bind]
    exact ih
  | case4 depth => cases depth <;> rfl

/-- A promotion word is not empty, so that there is less behind it. -/
theorem length_behind_promotion {t : Text}
    (h : TypeHint.promotions.contains (lower (t.takeWhile fun c => !isBlank c)) = true) :
    (trimStart isBlank (t.dropWhile fun c => !isBlank c)).length < t.length := by
  have hword : 0 < (t.takeWhile fun c => !isBlank c).length := by
    refine List.length_pos_of_ne_nil fun hnil => ?_
    rw [hnil] at h
    cases h
  have hall := congrArg List.length (List.takeWhile_append_dropWhile (p := fun c => !isBlank c) (l := t))
  have htrim := (List.dropWhile_sublist (l := t.dropWhile fun c => !isBlank c) isBlank).length_le
  rw [List.length_append] at hall
  rw [trimStart]
  omega

theorem dropPromotions_eq {rounds fuel : Nat} {t : Text} (hrounds : t.length < rounds) (hfuel : t.length ≤ fuel) :
    dropPromotions rounds t = .ok (TypeHint.dropPromotions fuel t) := by
  induction rounds generalizing fuel t with
  | zero => cases hrounds
  | succ rounds ih =>
    cases t with
    | nil => cases fuel <;> rfl
    | cons c r =>
      obtain ⟨fuel, rfl⟩ : ∃ n, fuel = n + 1 := ⟨fuel - 1, by simp only [List.length_cons] at hfuel; omega⟩
      rw [dropPromotions, if_neg (by simp), cut_position, ok_bind, TypeHint.dropPromotions]
      dsimp only
      rw [drop_takeWhile]
      cases hword : TypeHint.promotions.contains (lower ((c :: r).takeWhile fun c => !isBlank c)) with
      | false => rfl
      | true =>
        have hrest := length_behind_promotion hword
        rw [if_pos rfl, if_pos rfl]
        exact ih (by omega) (by simp only [List.length_cons] at hfuel hrest ⊢; omega)

theorem beforeVariable_eq (signature : Text) : beforeVariable signature = .ok (signature.takeWhile (· != '$')) := by
  unfold beforeVariable
  cases hfound : position? (· == '$') signature with
  | some n =>
    show (cut n signature >>= _) = _
    rw [cut_of_position? hfound]
    rfl
  | none =>
    have hall : signature.takeWhile (· != '$') = signature :=
      List.takeWhile_eq_self_iff.mpr (not_of_position?_eq_none hfound)
    rw [hall]
    rfl

theorem ofSignature?_eq (signature : Text) : ofSignature? signature = .ok (TypeHint.ofSignature? signature) := by
  rw [ofSignature?, beforeVariable_eq, ok_bind, outsideAttributes_eq, ok_bind,
    dropPromotions_eq (Nat.lt_succ_self _) (Nat.le_refl _)]
  rfl

theorem decode?_eq (comment : Text) : decode? comment = .ok (DocComment.decode? comment) := by
  unfold decode? DocComment.decode?
  dsimp only
  generalize (((lines (DocComment.inside (trimBlank comment))).map DocComment.lineText).reverse.dropWhile
    List.isEmpty).reverse = ls
  cases hfirst : ls.findIdx? fun l => !l.isEmpty with
  | none =>
    have hempty : ls.dropWhile List.isEmpty = [] := by
      rw [List.dropWhile_eq_nil_iff]
      intro l hl
      simpa using List.findIdx?_eq_none_iff.mp hfirst l hl
    rw [hempty]
    rfl
  | some first =>
    obtain ⟨hlt, rfl⟩ := List.findIdx?_eq_some_iff_findIdx_eq.mp hfirst
    have hrange : range ls (ls.findIdx fun l => !l.isEmpty) ls.length = .ok (ls.dropWhile List.isEmpty) := by
      rw [range, if_pos ⟨Nat.le_of_lt hlt, Nat.le_refl _⟩, List.take_length, List.dropWhile_eq_drop_findIdx_not]
    show (range ls _ ls.length >>= _) = _
    rw [hrange, ok_bind]
    -- what is kept begins with a line that holds text
    cases hhead : ls.dropWhile List.isEmpty with
    | nil => rfl
    | cons l kept =>
      have hl := List.head?_dropWhile_not List.isEmpty ls
      rw [hhead, List.head?_cons] at hl
      show Except.ok (if l.isEmpty = true then none else some (l :: kept)) = _
      rw [if_neg (by simpa using hl)]
      rfl

theorem linesOf_eq (comment : Option Text) : linesOf comment = .ok (DocComment.linesOf comment) := by
  cases comment with
  | none => rfl
  | some comment =>
    rw [linesOf, decode?_eq]
    rfl

/-! ## Models -/

def parameter (p : ParameterDecl) : Run Parameter := do
  let typeHint ← ofSignature? p.signature
  return .ofDefault p.name p.byReference p.variadic typeHint p.default

def property (p : PropertyDecl) : Run Property := do
  let doc ← linesOf p.doc
  return ⟨p.name, p.default, p.visibility, p.isStatic, doc⟩

def bodyText (ls : List Text) (m : MethodDecl) : Run (Option Text) :=
  match m.isAbstract, m.body with
  | false, some b => do
    let body ← extract ls b
    return body.toOption
  | _, _ => return some []

def method (ls : List Text) (m : MethodDecl) : Run Method := do
  let body ← bodyText ls m
  let parameters ← m.parameters.mapM parameter
  let doc ← linesOf m.doc
  return {
    name := m.name
    isAbstract := m.isAbstract
    isStatic := m.isStatic
    isFinal := m.isFinal
    returnsReference := m.returnsReference
    visibility := m.visibility
    parameters := parameters
    returnType := m.returnType
    doc := doc
    body := body }

def addMember (ls : List Text) (c : ClassModel) : MemberDecl → Run ClassModel
  | .constant name value => return { c with constants := c.constants.insert name value }
  | .property p => do
    let p ← property p
    return { c with properties := c.properties ++ [p] }
  | .method m => do
    let m ← method ls m
    return { c with methods := c.methods ++ [m] }

def build? (d : Declarations) (ls : List Text) (known : KnownNames) (fqn : Text) : Run (Option ClassModel) :=
  match d.findClass? fqn with
  | none => return none
  | some c => do
    let doc ← linesOf c.doc
    let header := { ClassModel.ofHeader d known c with doc := doc }
    let model ← (d.membersOf c.fqn).foldlM (addMember ls) header
    return some model

theorem parameter_eq (p : ParameterDecl) : parameter p = .ok (Parameter.ofDecl p) := by
  rw [parameter, ofSignature?_eq]
  rfl

theorem property_eq (p : PropertyDecl) : property p = .ok (Property.ofDecl p) := by
  rw [property, linesOf_eq]
  rfl

section

variable {ls : List Text}

theorem bodyText_eq {m : MethodDecl} (h : ∀ b ∈ m.body, b.IsWords) : bodyText ls m = .ok (m.bodyText ls) := by
  unfold bodyText MethodDecl.bodyText
  cases m.isAbstract with
  | true => rfl
  | false =>
    cases hbody : m.body with
    | none => rfl
    | some b =>
      show (extract ls b >>= _) = _
      rw [extract_eq ls (h b hbody)]
      rfl

theorem mapM_ok {α β : Type} {f : α → Run β} {g : α → β} (h : ∀ a, f a = .ok (g a)) (l : List α) :
    l.mapM f = .ok (l.map g) := by
  obtain rfl : f = fun a => pure (g a) := funext h
  exact List.mapM_pure

theorem method_eq {m : MethodDecl} (h : ∀ b ∈ m.body, b.IsWords) : method ls m = .ok (Method.ofDecl ls m) := by
  rw [method, bodyText_eq h, ok_bind, mapM_ok parameter_eq, ok_bind, linesOf_eq]
  rfl

theorem addMember_eq (c : ClassModel) {member : MemberDecl} (h : member.IsWords) :
    addMember ls c member = .ok (c.addMember ls member) := by
  cases member with
  | constant name value => rfl
  | property p =>
    rw [addMember, property_eq]
    rfl
  | method m =>
    rw [addMember, method_eq h]
    rfl

theorem foldlM_addMember {members : List MemberDecl} (h : ∀ member ∈ members, member.IsWords) (c : ClassModel) :
    members.foldlM (addMember ls) c = .ok (members.foldl (ClassModel.addMember ls) c) := by
  induction members generalizing c with
  | nil => rfl
  | cons member members ih =>
    rw [List.foldlM_cons, addMember_eq c (h member List.mem_cons_self), ok_bind]
    exact ih (fun m hm => h m (List.mem_cons_of_mem member hm)) _

/-- A run over words comes to an end without a fault, with what the library builds. -/
theorem build?_eq {d : Declarations} (h : ∀ member ∈ d.members, member.decl.IsWords) (known : KnownNames) (fqn : Text) :
    build? d ls known fqn = .ok (ClassModel.build? d ls known fqn) := by
  rw [build?, ClassModel.build?]
  cases d.findClass? fqn with
  | none => rfl
  | some c =>
    have hmembers : ∀ member ∈ d.membersOf c.fqn, member.IsWords := by
      intro member hmember
      obtain ⟨m, hm, rfl⟩ := List.mem_map.mp hmember
      exact h m (List.mem_of_mem_filter hm)
    show (linesOf c.doc >>= _) = _
    rw [linesOf_eq, ok_bind]
    show (List.foldlM (addMember ls) (ClassModel.ofHeader d known c) (d.membersOf c.fqn) >>= _) = _
    rw [foldlM_addMember hmembers]
    rfl

end

end Checked
end ClassOutline
