import Mathlib
import SelectorAlgebra.Specificity.Selector

/-!
# Proofs/ExactSpecificity — specificity is exact up to its limit

Both ends of a range stop at `Specificity.limit` whenever two ranges are added, inside the
arguments of pseudo selectors and outside.  Reckoning with all natural numbers and stopping once
at the end gives the same:

    specificity  =  cap (exact least weight) … cap (exact greatest weight)

* `specificity_eq_exact` — so it is for conditions, compounds, complex selectors and lists of any
  size and depth, and the lower end never passes the upper one.

The engine is `capped`, the range with both ends stopped: sums and spans of capped ranges
are capped ranges of the sums and spans (`capped_add`, `capped_widen`), so a fold that
starts at one ends at one.
-/

namespace SelectorAlgebra

/-! ## Exact weights

One number for each selector, once it is settled which of several choices counts. -/

mutual

/-- The exact weight of a condition, if `pick` says which choice of an argument counts. -/
def Simple.weight (pick : List ℕ → ℕ) : Simple → ℕ
  | .universal _ => 0
  | .pseudo ⟨_, _, some l⟩ => pick (weightsOfList pick l)
  | _ => 1000

/-- The sum of the exact weights of some conditions. -/
def weightOfCompound (pick : List ℕ → ℕ) : List Simple → ℕ
  | [] => 0
  | s :: rest => s.weight pick + weightOfCompound pick rest

/-- The sum of the exact weights of the compounds in a row. -/
def weightOfItems (pick : List ℕ → ℕ) : List Item → ℕ
  | [] => 0
  | .compound c :: rest => weightOfCompound pick c + weightOfItems pick rest
  | .combinator _ :: rest => weightOfItems pick rest

/-- The exact weights of the choices of a list. -/
def weightsOfList (pick : List ℕ → ℕ) : List Complex → List ℕ
  | [] => []
  | ⟨items, _⟩ :: rest => weightOfItems pick items :: weightsOfList pick rest

end

/-- The exact weight of a compound. -/
def Compound.weight (pick : List ℕ → ℕ) (c : Compound) : ℕ := weightOfCompound pick c

/-- The exact weight of a complex selector: combinators weigh nothing. -/
def Complex.weight (pick : List ℕ → ℕ) (c : Complex) : ℕ := weightOfItems pick c.items

/-- The exact weight of a list: that of the choice that counts. -/
def SelectorList.weight (pick : List ℕ → ℕ) (l : SelectorList) : ℕ := pick (weightsOfList pick l)

/-- The least of some weights. -/
def leastOf (weights : List ℕ) : ℕ := weights.min?.getD 0

/-- The greatest of some weights. -/
def greatestOf (weights : List ℕ) : ℕ := weights.max?.getD 0

/-! ## The least weight is at most the greatest -/

/-- Of weights that do not exceed others, the least does not exceed the greatest of the others. -/
theorem leastOf_le_greatestOf {weights weights' : List ℕ}
    (h : List.Forall₂ (· ≤ ·) weights weights') : leastOf weights ≤ greatestOf weights' := by
  cases h with
  | nil => exact Nat.le_refl 0
  | @cons w w' ws ws' first rest =>
    have lower : leastOf (w :: ws) ≤ w := by
      rw [leastOf, List.min?_cons, Option.getD_some]
      cases ws.min? with
      | none => exact Nat.le_refl w
      | some m => exact Nat.min_le_left w m
    have upper : w' ≤ greatestOf (w' :: ws') := by
      rw [greatestOf, List.max?_cons, Option.getD_some]
      cases ws'.max? with
      | none => exact Nat.le_refl w'
      | some m => exact Nat.le_max_left w' m
    exact (lower.trans first).trans upper

mutual

/-- The least weight is at most the greatest, by recursion over the selector;
`leastOf_le_greatestOf` is the step at an argument. -/
theorem Simple.weight_le : ∀ s : Simple, s.weight leastOf ≤ s.weight greatestOf
  | .pseudo ⟨_, _, some l⟩ => by
    rw [Simple.weight, Simple.weight]
    exact leastOf_le_greatestOf (weightsOfList_le l)
  | .universal _ | .pseudo ⟨_, _, none⟩ | .type _ | .className _ | .idName _ | .attr _
  | .placeholder _ | .parent _ => Nat.le_refl _

theorem weightOfCompound_le : ∀ c : List Simple,
    weightOfCompound leastOf c ≤ weightOfCompound greatestOf c
  | [] => Nat.le_refl 0
  | s :: c => by
    rw [weightOfCompound, weightOfCompound]
    exact Nat.add_le_add s.weight_le (weightOfCompound_le c)

theorem weightOfItems_le :
    ∀ row : List Item, weightOfItems leastOf row ≤ weightOfItems greatestOf row
  | [] => Nat.le_refl 0
  | .compound c :: row => by
    rw [weightOfItems, weightOfItems]
    exact Nat.add_le_add (weightOfCompound_le c) (weightOfItems_le row)
  | .combinator _ :: row => by
    rw [weightOfItems, weightOfItems]
    exact weightOfItems_le row

/-- For a list the weights are compared choice by choice. -/
theorem weightsOfList_le : ∀ l : List Complex,
    List.Forall₂ (· ≤ ·) (weightsOfList leastOf l) (weightsOfList greatestOf l)
  | [] => .nil
  | ⟨row, _⟩ :: l => by
    rw [weightsOfList, weightsOfList]
    exact .cons (weightOfItems_le row) (weightsOfList_le l)

end

/-! ## Capped ranges -/

section Capped

open Specificity (cap)

/-- The range between two numbers, with both ends stopped at the limit. -/
def capped (least greatest : ℕ) : Specificity := ⟨cap least, cap greatest⟩

variable (m n m' n' : ℕ)

/-- Capping is a minimum. -/
theorem cap_eq_min : cap n = min (2 ^ 32 - 1) n := rfl

/-- Capping keeps the order, so least and greatest may be taken before or after it. -/
theorem cap_mono : Monotone cap := fun _ _ h => min_le_min_left _ h

/-- Capping the parts first does not change the capped sum; the sums are those of one saturating
addition. -/
theorem cap_add : cap (cap m + cap n) = cap (m + n) := by
  simp only [cap_eq_min]
  omega

theorem zero_eq_capped : Specificity.zero = capped 0 0 := rfl

/-- Ranges add up to the range of the sums. -/
theorem capped_add : capped m n + capped m' n' = capped (m + m') (n + n') :=
  congrArg₂ Specificity.mk (cap_add m m') (cap_add n n')

/-- Ranges widen to the range of the least and the greatest. -/
theorem capped_widen : (capped m n).widen (capped m' n') = capped (min m m') (max n n') :=
  congrArg₂ Specificity.mk cap_mono.map_min.symm cap_mono.map_max.symm

end Capped

/-! ## Ranges are capped exact ranges -/

mutual

/-- The range of a condition is its exact range, capped; proved with the functions below, which
follow the recursion of `specificity`. -/
theorem Simple.specificity_eq_capped : ∀ s : Simple,
    s.specificity = capped (s.weight leastOf) (s.weight greatestOf)
  | .pseudo ⟨_, _, some l⟩ => by
    rw [Simple.specificity, specificityOfList_eq_capped l, Simple.weight, Simple.weight]
  | .universal _ | .pseudo ⟨_, _, none⟩ | .type _ | .className _ | .idName _ | .attr _
  | .placeholder _ | .parent _ => rfl

/-- Adding up a compound from any capped range. -/
theorem addCompound_capped : ∀ (m n : ℕ) (c : List Simple),
    addCompound (capped m n) c
      = capped (m + weightOfCompound leastOf c) (n + weightOfCompound greatestOf c)
  | _, _, [] => rfl
  | m, n, s :: c => by
    rw [addCompound, s.specificity_eq_capped, capped_add, addCompound_capped _ _ c,
      weightOfCompound, weightOfCompound, Nat.add_assoc, Nat.add_assoc]

/-- Adding up a row. -/
theorem addItems_capped : ∀ (m n : ℕ) (row : List Item),
    addItems (capped m n) row
      = capped (m + weightOfItems leastOf row) (n + weightOfItems greatestOf row)
  | _, _, [] => rfl
  | m, n, .compound c :: row => by
    rw [addItems, zero_eq_capped, addCompound_capped 0 0 c, Nat.zero_add, Nat.zero_add, capped_add,
      addItems_capped _ _ row, weightOfItems, weightOfItems, Nat.add_assoc, Nat.add_assoc]
  | m, n, .combinator _ :: row => by
    rw [addItems, addItems_capped m n row, weightOfItems, weightOfItems]

/-- Widening over a list takes the least and the greatest so far. -/
theorem widenList_capped : ∀ (m n : ℕ) (l : List Complex),
    widenList (capped m n) l
      = capped ((weightsOfList leastOf l).foldl min m) ((weightsOfList greatestOf l).foldl max n)
  | _, _, [] => rfl
  | m, n, ⟨row, _⟩ :: l => by
    rw [widenList, zero_eq_capped, addItems_capped 0 0 row, Nat.zero_add, Nat.zero_add,
      capped_widen,
      widenList_capped _ _ l, weightsOfList, weightsOfList, List.foldl_cons, List.foldl_cons]

/-- The range of a list of choices. -/
theorem specificityOfList_eq_capped : ∀ l : List Complex,
    specificityOfList l
      = capped (leastOf (weightsOfList leastOf l)) (greatestOf (weightsOfList greatestOf l))
  | [] => rfl
  | ⟨row, _⟩ :: l => by
    rw [specificityOfList, zero_eq_capped, addItems_capped 0 0 row, Nat.zero_add, Nat.zero_add,
      widenList_capped _ _ l, weightsOfList, weightsOfList, leastOf, greatestOf, List.min?_cons',
      List.max?_cons', Option.getD_some, Option.getD_some]

end

theorem Compound.specificity_eq_capped (c : Compound) :
    c.specificity = capped (c.weight leastOf) (c.weight greatestOf) := by
  have sum := addCompound_capped 0 0 c
  rwa [Nat.zero_add, Nat.zero_add] at sum

theorem Complex.specificity_eq_capped (c : Complex) :
    c.specificity = capped (c.weight leastOf) (c.weight greatestOf) := by
  have sum := addItems_capped 0 0 c.items
  rwa [Nat.zero_add, Nat.zero_add] at sum

/-- The range runs from the least to the greatest weight, with both ends stopped at the largest
number that fits into 32 bits. -/
structure StopsAtLimit (range : Specificity) (least greatest : ℕ) : Prop where
  lower : range.min = min (2 ^ 32 - 1) least
  upper : range.max = min (2 ^ 32 - 1) greatest
  ordered : range.min ≤ range.max

/-- What capping does to a range: nothing below the limit, and the limit beyond it. -/
theorem stopsAtLimit_capped {m n : ℕ} (h : m ≤ n) : StopsAtLimit (capped m n) m n :=
  ⟨cap_eq_min m, cap_eq_min n, cap_mono h⟩

/-- **Specificity is the exact weight, stopped at the largest number that fits into 32 bits**, for
conditions, compounds, complex selectors and lists of any size and depth. -/
theorem specificity_eq_exact (s : Simple) (c : Compound) (x : Complex) (l : SelectorList) :
    StopsAtLimit s.specificity (s.weight leastOf) (s.weight greatestOf) ∧
    StopsAtLimit c.specificity (c.weight leastOf) (c.weight greatestOf) ∧
    StopsAtLimit x.specificity (x.weight leastOf) (x.weight greatestOf) ∧
    StopsAtLimit l.specificity (l.weight leastOf) (l.weight greatestOf) := by
  refine ⟨?_, ?_, ?_, ?_⟩
  · rw [s.specificity_eq_capped]
    exact stopsAtLimit_capped s.weight_le
  · rw [c.specificity_eq_capped]
    exact stopsAtLimit_capped (weightOfCompound_le c)
  · rw [x.specificity_eq_capped]
    exact stopsAtLimit_capped (weightOfItems_le x.items)
  · rw [SelectorList.specificity, specificityOfList_eq_capped l]
    exact stopsAtLimit_capped (leastOf_le_greatestOf (weightsOfList_le l))

end SelectorAlgebra
