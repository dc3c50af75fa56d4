import SelectorAlgebra.Selector.Basic

/-!
# Selector/Occurrence — the simple selectors at every depth

`simples` lists every simple selector that occurs in a selector, going into the argument of a
pseudo selector right after the pseudo selector itself.  `nesting` counts how deep those arguments
go; it is what recursion through arguments descends on.
-/

namespace SelectorAlgebra

/-! ## Every simple selector, outermost first -/

mutual

/-- This simple selector and all that occur in its argument. -/
def Simple.simples : Simple → List Simple
  | .pseudo ⟨n, a, some l⟩ => .pseudo ⟨n, a, some l⟩ :: simplesOfList l
  | s => [s]

/-- All simple selectors that occur in a compound. -/
def simplesOfCompound : List Simple → List Simple
  | [] => []
  | s :: rest => s.simples ++ simplesOfCompound rest

/-- All simple selectors that occur in a row of items. -/
def simplesOfItems : List Item → List Simple
  | [] => []
  | .compound c :: rest => simplesOfCompound c ++ simplesOfItems rest
  | .combinator _ :: rest => simplesOfItems rest

/-- All simple selectors that occur in a list. -/
def simplesOfList : List Complex → List Simple
  | [] => []
  | ⟨items, _⟩ :: rest => simplesOfItems items ++ simplesOfList rest

end

/-- All simple selectors that occur in a compound, at any depth. -/
def Compound.simples (c : Compound) : List Simple := simplesOfCompound c

/-- All simple selectors that occur in a complex selector, at any depth. -/
def Complex.simples (c : Complex) : List Simple := simplesOfItems c.items

/-- All simple selectors that occur in a list, at any depth. -/
def SelectorList.simples (l : SelectorList) : List Simple := simplesOfList l

/-- Whether `&` occurs anywhere in the selector. -/
def Complex.containsParent (c : Complex) : Bool := c.simples.any Simple.isParent

/-- Whether `&` occurs anywhere in the list. -/
def SelectorList.containsParent (l : SelectorList) : Bool :=
  (SelectorList.simples l).any Simple.isParent

/-! ## Depth of arguments -/

mutual

/-- How many selector arguments stand one inside the other. -/
def Simple.nesting : Simple → Nat
  | .pseudo ⟨_, _, some l⟩ => nestingOfList l + 1
  | _ => 0

/-- The deepest nesting in a compound. -/
def nestingOfCompound : List Simple → Nat
  | [] => 0
  | s :: rest => max s.nesting (nestingOfCompound rest)

/-- The deepest nesting in a row of items. -/
def nestingOfItems : List Item → Nat
  | [] => 0
  | .compound c :: rest => max (nestingOfCompound c) (nestingOfItems rest)
  | .combinator _ :: rest => nestingOfItems rest

/-- The deepest nesting in a list. -/
def nestingOfList : List Complex → Nat
  | [] => 0
  | ⟨items, _⟩ :: rest => max (nestingOfItems items) (nestingOfList rest)

end

/-- The deepest nesting of selector arguments in a list. -/
def SelectorList.nesting (l : SelectorList) : Nat := nestingOfList l

/-! ## Reading the two through members -/

@[simp] theorem simplesOfCompound_eq_flatMap : ∀ c : List Simple,
    simplesOfCompound c = c.flatMap Simple.simples
  | [] => rfl
  | s :: rest => by simp [simplesOfCompound, simplesOfCompound_eq_flatMap rest]

@[simp] theorem simplesOfList_eq_flatMap : ∀ l : List Complex,
    simplesOfList l = l.flatMap Complex.simples
  | [] => rfl
  | ⟨_, _⟩ :: rest => by simp [simplesOfList, Complex.simples, simplesOfList_eq_flatMap rest]

theorem nesting_le_nestingOfCompound {s : Simple} : ∀ {c : List Simple},
    s ∈ c → s.nesting ≤ nestingOfCompound c
  | _ :: rest, h => by
    rcases List.mem_cons.1 h with rfl | h
    · exact Nat.le_max_left _ _
    · exact Nat.le_trans (nesting_le_nestingOfCompound h) (Nat.le_max_right _ _)

theorem nestingOfCompound_le_nestingOfItems {c : List Simple} : ∀ {items : List Item},
    Item.compound c ∈ items → nestingOfCompound c ≤ nestingOfItems items
  | .compound _ :: rest, h => by
    rcases List.mem_cons.1 h with h | h
    · cases h; exact Nat.le_max_left _ _
    · exact Nat.le_trans (nestingOfCompound_le_nestingOfItems h) (Nat.le_max_right _ _)
  | .combinator _ :: rest, h => by
    rcases List.mem_cons.1 h with h | h
    · cases h
    · have le : nestingOfCompound c ≤ nestingOfItems rest := nestingOfCompound_le_nestingOfItems h
      exact le

theorem nestingOfItems_le_nestingOfList {c : Complex} : ∀ {l : List Complex},
    c ∈ l → nestingOfItems c.items ≤ nestingOfList l
  | ⟨_, _⟩ :: rest, h => by
    rcases List.mem_cons.1 h with rfl | h
    · exact Nat.le_max_left _ _
    · exact Nat.le_trans (nestingOfItems_le_nestingOfList h) (Nat.le_max_right _ _)

/-- An argument nests less deep than the pseudo selector it belongs to. -/
theorem nestingOfList_lt_nesting {s : Simple} {l : SelectorList} (h : s.argument? = some l) :
    nestingOfList l < s.nesting := by
  cases s with
  | pseudo p =>
    obtain ⟨name, argument, selector⟩ := p
    cases h
    exact Nat.lt_succ_self _
  | _ => cases h

end SelectorAlgebra
