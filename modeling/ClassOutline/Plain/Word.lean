import ClassOutline.Scan.Extent
/-
  ClassOutline.Plain.Word — the reserved words.

  Words are reserved in any case. Where only a name can stand, a reserved word is a name.
-/

namespace ClassOutline.Plain

inductive Word where
  | abstract_ | and_ | array_ | as_ | break_ | callable_ | case_ | catch_ | class_ | clone_ | const_
  | continue_ | declare_ | default_ | do_ | echo_ | else_ | elseif_ | enum_ | exit_ | extends_
  | false_ | final_ | finally_ | fn_ | for_ | foreach_ | from_ | function_ | global_ | goto_ | if_
  | implements_ | include_ | includeOnce | instanceof_ | insteadof_ | interface_ | list_ | match_
  | namespace_ | new_ | null_ | or_ | parent_ | print_ | private_ | protected_ | public_
  | readonly_ | require_ | requireOnce | return_ | self_ | static_ | switch_ | throw_ | trait_
  | true_ | try_ | unset_ | use_ | var_ | while_ | xor_ | yield_
  /-- The end of a block that a colon began. -/
  | blockEnd
  deriving DecidableEq, Repr

/-- The words by their first letters, in lower case. -/
def wordsWith : Char → List (Text × Word)
  | 'a' => [(['b', 's', 't', 'r', 'a', 'c', 't'], .abstract_), (['n', 'd'], .and_),
    (['r', 'r', 'a', 'y'], .array_), (['s'], .as_)]
  | 'b' => [(['r', 'e', 'a', 'k'], .break_)]
  | 'c' => [(['a', 'l', 'l', 'a', 'b', 'l', 'e'], .callable_), (['a', 's', 'e'], .case_),
    (['a', 't', 'c', 'h'], .catch_), (['l', 'a', 's', 's'], .class_),
    (['l', 'o', 'n', 'e'], .clone_), (['o', 'n', 's', 't'], .const_),
    (['o', 'n', 't', 'i', 'n', 'u', 'e'], .continue_)]
  | 'd' => [(['e', 'c', 'l', 'a', 'r', 'e'], .declare_), (['e', 'f', 'a', 'u', 'l', 't'], .default_),
    (['o'], .do_)]
  | 'e' => [(['c', 'h', 'o'], .echo_), (['l', 's', 'e'], .else_),
    (['l', 's', 'e', 'i', 'f'], .elseif_), (['n', 'u', 'm'], .enum_), (['x', 'i', 't'], .exit_),
    (['x', 't', 'e', 'n', 'd', 's'], .extends_),
    (['n', 'd', 'd', 'e', 'c', 'l', 'a', 'r', 'e'], .blockEnd), (['n', 'd', 'f', 'o', 'r'], .blockEnd),
    (['n', 'd', 'f', 'o', 'r', 'e', 'a', 'c', 'h'], .blockEnd), (['n', 'd', 'i', 'f'], .blockEnd),
    (['n', 'd', 's', 'w', 'i', 't', 'c', 'h'], .blockEnd),
    (['n', 'd', 'w', 'h', 'i', 'l', 'e'], .blockEnd)]
  | 'f' => [(['a', 'l', 's', 'e'], .false_), (['i', 'n', 'a', 'l'], .final_),
    (['i', 'n', 'a', 'l', 'l', 'y'], .finally_), (['n'], .fn_), (['o', 'r'], .for_),
    (['o', 'r', 'e', 'a', 'c', 'h'], .foreach_), (['r', 'o', 'm'], .from_),
    (['u', 'n', 'c', 't', 'i', 'o', 'n'], .function_)]
  | 'g' => [(['l', 'o', 'b', 'a', 'l'], .global_), (['o', 't', 'o'], .goto_)]
  | 'i' => [(['f'], .if_), (['m', 'p', 'l', 'e', 'm', 'e', 'n', 't', 's'], .implements_),
    (['n', 'c', 'l', 'u', 'd', 'e'], .include_),
    (['n', 'c', 'l', 'u', 'd', 'e', '_', 'o', 'n', 'c', 'e'], .includeOnce),
    (['n', 's', 't', 'a', 'n', 'c', 'e', 'o', 'f'], .instanceof_),
    (['n', 's', 't', 'e', 'a', 'd', 'o', 'f'], .insteadof_),
    (['n', 't', 'e', 'r', 'f', 'a', 'c', 'e'], .interface_)]
  | 'l' => [(['i', 's', 't'], .list_)]
  | 'm' => [(['a', 't', 'c', 'h'], .match_)]
  | 'n' => [(['a', 'm', 'e', 's', 'p', 'a', 'c', 'e'], .namespace_), (['e', 'w'], .new_),
    (['u', 'l', 'l'], .null_)]
  | 'o' => [(['r'], .or_)]
  | 'p' => [(['a', 'r', 'e', 'n', 't'], .parent_), (['r', 'i', 'n', 't'], .print_),
    (['r', 'i', 'v', 'a', 't', 'e'], .private_), (['r', 'o', 't', 'e', 'c', 't', 'e', 'd'], .protected_),
    (['u', 'b', 'l', 'i', 'c'], .public_)]
  | 'r' => [(['e', 'a', 'd', 'o', 'n', 'l', 'y'], .readonly_), (['e', 'q', 'u', 'i', 'r', 'e'], .require_),
    (['e', 'q', 'u', 'i', 'r', 'e', '_', 'o', 'n', 'c', 'e'], .requireOnce),
    (['e', 't', 'u', 'r', 'n'], .return_)]
  | 's' => [(['e', 'l', 'f'], .self_), (['t', 'a', 't', 'i', 'c'], .static_),
    (['w', 'i', 't', 'c', 'h'], .switch_)]
  | 't' => [(['h', 'r', 'o', 'w'], .throw_), (['r', 'a', 'i', 't'], .trait_), (['r', 'u', 'e'], .true_),
    (['r', 'y'], .try_)]
  | 'u' => [(['n', 's', 'e', 't'], .unset_), (['s', 'e'], .use_)]
  | 'v' => [(['a', 'r'], .var_)]
  | 'w' => [(['h', 'i', 'l', 'e'], .while_)]
  | 'x' => [(['o', 'r'], .xor_)]
  | 'y' => [(['i', 'e', 'l', 'd'], .yield_)]
  | _ => []

def word? (t : Text) : Option Word :=
  match t.map Scan.foldCase with
  | c :: r => ((wordsWith c).find? (·.1 == r)).map (·.2)
  | [] => none

end ClassOutline.Plain
