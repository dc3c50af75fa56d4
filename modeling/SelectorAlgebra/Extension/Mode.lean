/-!
# Extension/Mode — what extending keeps and requires
-/

namespace SelectorAlgebra

/-- How extensions are applied to a selector. -/
inductive ExtendMode where
  /-- Every target counts by itself, and the selector is kept. -/
  | normal
  /-- All targets have to be met, and the selector gives way. -/
  | replace
  /-- All targets have to be met, and the selector is kept. -/
  | allTargets
  deriving DecidableEq, Repr, Inhabited

namespace ExtendMode

/-- The name of a mode. -/
def text : ExtendMode → String
  | .normal => "normal"
  | .replace => "replace"
  | .allTargets => "all-targets"

/-- The mode with a given name. -/
def ofText? (name : String) : Option ExtendMode :=
  [.normal, .replace, .allTargets].find? (·.text == name)

end ExtendMode

end SelectorAlgebra
