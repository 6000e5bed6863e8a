import ClassOutline.Text.Blank
/-
  ClassOutline.TypeHint — the type a parameter is written with.

  `ofSignature?` reads what stands before the parameter's `$`: attribute groups and
  promotion modifiers are passed over, then the variadic dots, the reference mark, the
  nullable mark and one pair of array brackets are taken off. What is left is the type.
-/

namespace ClassOutline.TypeHint

open ClassOutline.Text

/-- Text without its attribute groups; `depth` counts the open brackets of one. -/
def outsideAttributes : Nat → Text → Text
  | 0, '#' :: '[' :: r => outsideAttributes 1 r
  | 0, c :: r => c :: outsideAttributes 0 r
  | d + 1, c :: r =>
    outsideAttributes (if c == '[' then d + 2 else if c == ']' then d else d + 1) r
  | _, [] => []

/-- Words that promote a parameter to a property. -/
def promotions : List Text :=
  ["public".toList, "protected".toList, "private".toList, "readonly".toList]

/-- Drops up to `fuel` leading promotion words with the blanks behind them. -/
def dropPromotions : Nat → Text → Text
  | 0, t => t
  | fuel + 1, t =>
    let word := t.takeWhile fun c => !isBlank c
    if promotions.contains (lower word) then
      dropPromotions fuel (trimStart isBlank (t.drop word.length))
    else t

/-- The declared type of a parameter's signature, if it has one. -/
def ofSignature? (signature : Text) : Option Text :=
  let before := trimBlank (outsideAttributes 0 (signature.takeWhile (· != '$')))
  let typed := trimEnd isBlank (dropPromotions before.length before)
  let single := trimEnd isBlank (dropTail "...".toList typed)
  let value := trimEnd isBlank (dropTail ['&'] single)
  let plain := trimStart isBlank (dropHead ['?'] value)
  let element := dropTail "[]".toList plain
  if element.isEmpty then none else some element

end ClassOutline.TypeHint
