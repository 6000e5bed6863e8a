import ClassOutline.Plain.Token
import ClassOutline.Proofs.Paths
/-
  ClassOutline.Proofs.Plain.Words — the reserved words of the two lexers.

  The reader of plain sources has a list of words of its own and folds their case in its own
  way. Over characters that fold alike (`Folds`) it takes the same words for `class` and
  `namespace` as the lexer does outside of paths and members, and what may follow the
  keyword of a class without a name is reserved in both.
-/

namespace ClassOutline.Plain

open ClassOutline.Text ClassOutline.Token

/-- No character folds to a letter of ASCII that is not one of its cases. -/
def Folds (t : Text) : Prop := ∀ c ∈ t, Scan.foldCase c = c.toLower

theorem Folds.map_eq {t : Text} (h : Folds t) : t.map Scan.foldCase = lower t := List.map_congr_left h

/-- A word is its first letter and the rest in the list of that letter. -/
theorem exists_entry {t : Text} {w : Word} (h : word? t = some w) :
    ∃ c r, t.map Scan.foldCase = c :: r ∧ (r, w) ∈ wordsWith c := by
  unfold word? at h
  split at h
  · rename_i c r hmap
    obtain ⟨⟨text, v⟩, hfind, rfl⟩ := Option.map_eq_some_iff.mp h
    have htext := List.find?_some hfind
    obtain rfl : text = r := beq_iff_eq.mp htext
    exact ⟨c, text, hmap, List.mem_of_find?_eq_some hfind⟩
  · cases h

/-- The words that anchors are made of, and those behind a class without a name. -/
def spelling : Word → Text
  | .class_ => "class".toList
  | .namespace_ => "namespace".toList
  | .extends_ => "extends".toList
  | .implements_ => "implements".toList
  | _ => []

theorem all_spelled (c : Char) :
    (wordsWith c).all (fun e => spelling e.2 == [] || c :: e.1 == spelling e.2) = true := by
  unfold wordsWith
  split <;> rfl

theorem eq_spelling {c : Char} {r : Text} {w : Word} (h : (r, w) ∈ wordsWith c) (hw : spelling w ≠ []) :
    c :: r = spelling w := by
  have hall := List.all_eq_true.mp (all_spelled c) _ h
  rw [beq_false_of_ne hw, Bool.false_or] at hall
  exact beq_iff_eq.mp hall

theorem lower_of_word? {t : Text} (ht : Folds t) {w : Word} (h : word? t = some w) (hw : spelling w ≠ []) :
    lower t = spelling w := by
  obtain ⟨c, r, hmap, hmem⟩ := exists_entry h
  rw [← ht.map_eq, hmap, eq_spelling hmem hw]

theorem word?_of_lower {t : Text} (ht : Folds t) {w : Word} (hw : w = .class_ ∨ w = .namespace_)
    (h : lower t = spelling w) : word? t = some w := by
  rw [← ht.map_eq] at h
  rcases hw with rfl | rfl <;> · rw [word?, h]; rfl

/-! ## Kinds of words -/

/-- Whether what stands before is an operator, behind which every word is a name. -/
def behindOperator (previous : Option Text) : Bool := previous.any nameOperators.contains

theorem ofWord_of_behind {previous : Option Text} (h : behindOperator previous = true) (t : Text) :
    Kind.ofWord previous t = .identifier := by
  rw [Kind.ofWord]
  exact if_pos h

theorem ofWord_of_calm {previous : Option Text} (h : behindOperator previous = false) {t w : Text} (ht : lower t = w) :
    Kind.ofWord previous t =
      if w == "namespace".toList then .namespaceKeyword
      else if w == "class".toList then .classKeyword
      else if reserved.contains w then .keyword
      else .identifier := by
  rw [ofWord_eq_of_any h, Kind.ofWord, ht]
  rfl

theorem ofWord_class {previous : Option Text} (h : behindOperator previous = false) {t : Text} (ht : Folds t)
    (hw : word? t = some .class_) : Kind.ofWord previous t = .classKeyword := by
  rw [ofWord_of_calm h (lower_of_word? ht hw (by decide))]
  rfl

theorem ofWord_namespace {previous : Option Text} (h : behindOperator previous = false) {t : Text} (ht : Folds t)
    (hw : word? t = some .namespace_) : Kind.ofWord previous t = .namespaceKeyword := by
  rw [ofWord_of_calm h (lower_of_word? ht hw (by decide))]
  rfl

/-- What a class without a name may go on with is reserved. -/
theorem ofWord_clause {previous : Option Text} (h : behindOperator previous = false) {t : Text} (ht : Folds t) {w : Word}
    (hclause : w = .extends_ ∨ w = .implements_) (hw : word? t = some w) : Kind.ofWord previous t = .keyword := by
  have hne : spelling w ≠ [] := by rcases hclause with rfl | rfl <;> decide
  rw [ofWord_of_calm h (lower_of_word? ht hw hne)]
  rcases hclause with rfl | rfl <;> rfl

/-- No other word is the keyword of an anchor. -/
theorem ofWord_ne_anchor {t : Text} (ht : Folds t) (hclass : word? t ≠ some .class_)
    (hnamespace : word? t ≠ some .namespace_) (previous : Option Text) :
    Kind.ofWord previous t ≠ .classKeyword ∧ Kind.ofWord previous t ≠ .namespaceKeyword := by
  have hc : (lower t == "class".toList) = false := by
    refine beq_false_of_ne fun h => hclass (word?_of_lower ht (Or.inl rfl) h)
  have hn : (lower t == "namespace".toList) = false := by
    refine beq_false_of_ne fun h => hnamespace (word?_of_lower ht (Or.inr rfl) h)
  cases h : behindOperator previous with
  | true =>
    rw [ofWord_of_behind h]
    exact ⟨by decide, by decide⟩
  | false =>
    rw [ofWord_of_calm h rfl, hc, hn]
    simp only [Bool.false_eq_true, if_false]
    split <;> exact ⟨by decide, by decide⟩

end ClassOutline.Plain
