import SelectorAlgebra.Selector.Occurrence

/-!
# Proofs/WholeSelectors — selectors without empty parts

A selector is **whole** if no list, complex selector or compound in it is empty, at any depth of
arguments.  These are the selectors that can be written down, and the ones that decoding gives.

The check is a computation (`isWhole`); `isWhole_iff` on each level reads it through members.
-/

namespace SelectorAlgebra

mutual

/-- Whether the argument, if there is one, is whole. -/
def Simple.isWhole : Simple → Bool
  | .pseudo ⟨_, _, some l⟩ => !l.isEmpty && areWholeChoices l
  | _ => true

/-- Whether every condition is whole. -/
def areWholeConditions : List Simple → Bool
  | [] => true
  | s :: rest => s.isWhole && areWholeConditions rest

/-- Whether every compound of a row has conditions, and whole ones. -/
def areWholeItems : List Item → Bool
  | [] => true
  | .compound c :: rest => !c.isEmpty && areWholeConditions c && areWholeItems rest
  | .combinator _ :: rest => areWholeItems rest

/-- Whether every choice has items, and whole ones. -/
def areWholeChoices : List Complex → Bool
  | [] => true
  | ⟨items, _⟩ :: rest => !items.isEmpty && areWholeItems items && areWholeChoices rest

end

/-- Whether there are conditions, and every one is whole. -/
def Compound.isWhole (c : Compound) : Bool := !c.isEmpty && areWholeConditions c

/-- Whether there are items, and every compound is whole. -/
def Complex.isWhole (c : Complex) : Bool := !c.items.isEmpty && areWholeItems c.items

/-- Whether there are choices, and every one is whole. -/
def SelectorList.isWhole (l : SelectorList) : Bool := !l.isEmpty && areWholeChoices l

/-! ## Reading the check through members -/

theorem areWholeConditions_iff : ∀ {c : List Simple},
    areWholeConditions c = true ↔ ∀ s ∈ c, s.isWhole = true
  | [] => by simp [areWholeConditions]
  | s :: rest => by simp [areWholeConditions, @areWholeConditions_iff rest]

/-- A compound is whole when it has conditions and they are. -/
theorem Compound.isWhole_iff {c : Compound} :
    c.isWhole = true ↔ c ≠ [] ∧ ∀ s ∈ c, s.isWhole = true := by
  simp [isWhole, areWholeConditions_iff]

theorem areWholeItems_iff : ∀ {items : List Item},
    areWholeItems items = true ↔ ∀ c, Item.compound c ∈ items → Compound.isWhole c = true
  | [] => by simp [areWholeItems]
  | .compound c :: rest => by
    have step : areWholeItems (.compound c :: rest) = (Compound.isWhole c && areWholeItems rest) :=
      rfl
    simp [step, @areWholeItems_iff rest, or_imp, forall_and]
  | .combinator _ :: rest => by simp [areWholeItems, @areWholeItems_iff rest]

/-- A complex selector is whole when it has items and its compounds are. -/
theorem Complex.isWhole_iff {c : Complex} :
    c.isWhole = true ↔ c.items ≠ [] ∧ ∀ d, Item.compound d ∈ c.items →
      Compound.isWhole d = true := by
  simp [isWhole, areWholeItems_iff]

theorem areWholeChoices_iff : ∀ {l : List Complex},
    areWholeChoices l = true ↔ ∀ c ∈ l, c.isWhole = true
  | [] => by simp [areWholeChoices]
  | ⟨items, _⟩ :: rest => by simp [areWholeChoices, Complex.isWhole, @areWholeChoices_iff rest]

/-- A list is whole when it has choices and they are. -/
theorem SelectorList.isWhole_iff {l : SelectorList} :
    l.isWhole = true ↔ l ≠ [] ∧ ∀ c ∈ l, c.isWhole = true := by
  simp [isWhole, areWholeChoices_iff]

/-- A condition is whole exactly if its argument is, if it has one. -/
theorem Simple.isWhole_iff {s : Simple} :
    s.isWhole = true ↔ ∀ l, s.argument? = some l → SelectorList.isWhole l = true := by
  rcases s with _ | _ | _ | _ | _ | _ | _ | ⟨_, _, _ | l⟩ <;>
    simp [Simple.isWhole, argument?, SelectorList.isWhole]

end SelectorAlgebra
