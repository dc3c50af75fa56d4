import SelectorAlgebra.Selector.Text

/-!
# Fault — broken promises of a caller

A fault is never a property of a style sheet: it means that a value was put together that its type
is not meant to hold.
-/

namespace SelectorAlgebra

/-- What a caller did that it promised not to do. -/
inductive Fault where
  /-- A source range that ends before it begins. -/
  | spanReversed (start stop : Nat)
  /-- A range of specificity whose ends are the wrong way round. -/
  | specificityReversed
  /-- A compound without conditions. -/
  | emptyCompound
  /-- Two extensions merged that do not have the same extender and target. -/
  | extensionMismatch (left right : Complex)

/-- The wording of a fault. -/
def Fault.message : Fault → String
  | .spanReversed start stop =>
    "span end " ++ toString stop ++ " precedes start " ++ toString start
  | .specificityReversed => "specificity min must not exceed max"
  | .emptyCompound => "compound selector components may not be empty"
  | .extensionMismatch left right =>
    left.text ++ " and " ++ right.text ++ " aren't the same extension"

end SelectorAlgebra
