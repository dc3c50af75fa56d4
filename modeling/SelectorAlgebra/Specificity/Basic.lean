import SelectorAlgebra.Fault

/-!
# Specificity/Basic — ranges of specificity

A selector with alternatives inside a pseudo selector has no single specificity, so every selector
gets a range.  Both ends stay at `limit` once they reach it.
-/

namespace SelectorAlgebra

/-- The lowest and the highest specificity of a selector. -/
structure Specificity where
  min : Nat
  max : Nat
  deriving DecidableEq, Repr, Inhabited

namespace Specificity

/-- The weight of one ordinary condition. -/
def unit : Nat := 1000

/-- The largest specificity that is told apart: what fits into 32 bits. -/
def limit : Nat := 4294967295

/-- A number, or `limit` if it is beyond it. -/
def cap (n : Nat) : Nat := Nat.min limit n

/-- The range of a selector without conditions. -/
def zero : Specificity := ⟨0, 0⟩

/-- The range of one ordinary condition. -/
def ofUnit : Specificity := ⟨unit, unit⟩

/-- The range between two bounds. -/
def range (min max : Nat) : Except Fault Specificity :=
  if min ≤ max then .ok ⟨min, max⟩ else .error .specificityReversed

/-- The range of two conditions required together. -/
def add (a b : Specificity) : Specificity := ⟨cap (a.min + b.min), cap (a.max + b.max)⟩

instance : Add Specificity := ⟨add⟩

/-- The smallest range around two. -/
def widen (a b : Specificity) : Specificity := ⟨Nat.min a.min b.min, Nat.max a.max b.max⟩

/-- The range of any number of conditions required together. -/
def sum (ranges : List Specificity) : Specificity := ranges.foldl add zero

/-- The smallest range around all of several, if there is one. -/
def widest? : List Specificity → Option Specificity
  | [] => none
  | first :: rest => some (rest.foldl widen first)

end Specificity

end SelectorAlgebra
