import SelectorAlgebra.Selector.Basic

/-!
# Selector/Visibility — selectors that match nothing a style sheet can name

A placeholder never reaches the output, so whatever requires one is invisible.  A pseudo selector
is invisible with its argument, apart from `:not`, which then excludes nothing.  A list is
invisible only if every choice is.
-/

namespace SelectorAlgebra

mutual

/-- Whether this simple selector can only match through a placeholder. -/
def Simple.isInvisible : Simple → Bool
  | .placeholder _ => true
  | .pseudo ⟨name, _, some l⟩ => name.name != "not" && isInvisibleList l
  | _ => false

/-- Whether some condition of the compound is invisible. -/
def isInvisibleCompound : List Simple → Bool
  | [] => false
  | s :: rest => s.isInvisible || isInvisibleCompound rest

/-- Whether some compound of the row is invisible. -/
def isInvisibleItems : List Item → Bool
  | [] => false
  | .compound c :: rest => isInvisibleCompound c || isInvisibleItems rest
  | .combinator _ :: rest => isInvisibleItems rest

/-- Whether every choice of the list is invisible. -/
def isInvisibleList : List Complex → Bool
  | [] => true
  | ⟨items, _⟩ :: rest => isInvisibleItems items && isInvisibleList rest

end

/-- Whether some condition of the compound is invisible. -/
def Compound.isInvisible (c : Compound) : Bool := isInvisibleCompound c

/-- Whether some compound of the selector is invisible. -/
def Complex.isInvisible (c : Complex) : Bool := isInvisibleItems c.items

/-- Whether every choice of the list is invisible. -/
def SelectorList.isInvisible (l : SelectorList) : Bool := isInvisibleList l

end SelectorAlgebra
