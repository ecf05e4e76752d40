import QueryEngine.Value.Basic
import QueryEngine.Decimal.Layout

/-!
# Values as texts
-/

set_option autoImplicit false

namespace QueryEngine.Value

/-- The components of a vector in brackets. -/
def componentsText {f : BinaryFormat} (xs : List (Binary f)) : String :=
  "[" ++ ", ".intercalate (xs.map NumberLayout.component.format) ++ "]"

/-- The text of a value: texts in single quotes, vectors in brackets. -/
def display : Value → String
  | null => "null"
  | bool b => if b then "true" else "false"
  | long n => toString n.toInt
  | float x => NumberLayout.plain.format x
  | double x => NumberLayout.plain.format x
  | text s => "'" ++ s ++ "'"
  | floatVector xs => componentsText xs
  | doubleVector xs => componentsText xs

end QueryEngine.Value
