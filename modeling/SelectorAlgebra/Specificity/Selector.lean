import SelectorAlgebra.Selector.Basic
import SelectorAlgebra.Specificity.Basic

/-!
# Specificity/Selector — the specificity of a selector

Every condition weighs `Specificity.unit`, apart from `*`, which weighs nothing, and a pseudo
selector with a selector argument, which spans the range of that argument.  Compounds and complex
selectors add up, lists span.
-/

namespace SelectorAlgebra

mutual

/-- The range of a simple selector. -/
def Simple.specificity : Simple → Specificity
  | .universal _ => .zero
  | .pseudo ⟨_, _, some l⟩ => specificityOfList l
  | _ => .ofUnit

/-- The range of the rest of a compound, added to what was found before. -/
def addCompound (found : Specificity) : List Simple → Specificity
  | [] => found
  | s :: rest => addCompound (found + s.specificity) rest

/-- The range of the rest of a row of items, added to what was found before. -/
def addItems (found : Specificity) : List Item → Specificity
  | [] => found
  | .compound c :: rest => addItems (found + addCompound .zero c) rest
  | .combinator _ :: rest => addItems found rest

/-- The range of the rest of a list, spanned with what was found before. -/
def widenList (found : Specificity) : List Complex → Specificity
  | [] => found
  | ⟨items, _⟩ :: rest => widenList (found.widen (addItems .zero items)) rest

/-- The range that the choices of a list span. -/
def specificityOfList : List Complex → Specificity
  | [] => .zero
  | ⟨items, _⟩ :: rest => widenList (addItems .zero items) rest

end

/-- The range of a compound: its conditions add up. -/
def Compound.specificity (c : Compound) : Specificity := addCompound .zero c

/-- The range of a complex selector: its compounds add up, combinators weigh nothing. -/
def Complex.specificity (c : Complex) : Specificity := addItems .zero c.items

/-- The range that the choices of a list span. -/
def SelectorList.specificity (l : SelectorList) : Specificity := specificityOfList l

end SelectorAlgebra
