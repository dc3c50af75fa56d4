import SelectorAlgebra.Sequence.OrderedMap
import SelectorAlgebra.Specificity.Selector
import SelectorAlgebra.Superselector.Basic

/-!
# Extension/Trim — dropping choices that others already cover

A choice may go if another one is above it and specific enough: at least as specific as the sources
that the choice came from, so that extending never lowers the specificity of a rule.  Selectors that
an author wrote are never dropped, only their repetitions are.
-/

namespace SelectorAlgebra

/-- For each condition of an extender, the specificity of the selector it was written in. -/
abbrev SourceSpecificity := OrderedMap Simple Nat

/-- The highest source specificity among conditions. -/
def Compound.sourceSpecificity (sources : SourceSpecificity) (c : Compound) : Nat :=
  (c.filterMap sources.get?).foldl max 0

/-- The highest source specificity among the conditions of all compounds. -/
def Complex.sourceSpecificity (sources : SourceSpecificity) (c : Complex) : Nat :=
  (c.compounds.map (Compound.sourceSpecificity sources)).foldl max 0

/-- Whether `c` may go because of `other`. -/
def Complex.dominatedBy (sources : SourceSpecificity) (c other : Complex) : Bool :=
  c.sourceSpecificity sources ≤ other.specificity.min && other.isSuperselector c

/-- The list with its first element equivalent to `c` moved to the front, or with `c` there if it
has none. -/
def moveToFront (c : Complex) (l : List Complex) : List Complex :=
  match l.find? (· == c) with
  | some found => found :: l.eraseP (· == c)
  | none => c :: l

/-- The choices that remain of those still to come, given the ones `before` them. -/
def trimAfter (sources : SourceSpecificity) (authored : Complex → Bool) :
    List Complex → List Complex → List Complex
  | _, [] => []
  | before, c :: rest =>
    let kept := trimAfter sources authored (before ++ [c]) rest
    if authored c then moveToFront c kept
    else if kept.any (c.dominatedBy sources) || before.any (c.dominatedBy sources) then kept
    else c :: kept

/-- Lists longer than this are left as they are. -/
def trimLimit : Nat := 100

/-- The choices that are not covered by others; `authored` tells which ones an author wrote. -/
def trim (sources : SourceSpecificity) (authored : Complex → Bool) (l : List Complex) :
    List Complex :=
  if trimLimit < l.length then l else trimAfter sources authored [] l

end SelectorAlgebra
