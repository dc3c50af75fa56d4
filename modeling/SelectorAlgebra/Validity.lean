import SelectorAlgebra.Selector.Basic

/-!
# Validity — combinators where style sheets do not allow them

    useless           repeated combinators
    bogus but leading repeated, trailing or several leading combinators
    bogus             any of these, or one leading combinator

Each property also holds of a selector with a bogus argument inside a pseudo selector, at any
depth.  Arguments of `:has` are relative to an element and may begin with one combinator; all
others may not.
-/

namespace SelectorAlgebra

/-- Whether combinators are out of place in a row of items of which the first `leading` may be
combinators. -/
def isMisplaced (leading : Nat) (items : List Item) : Bool :=
  let count := (items.takeWhile Item.isCombinator).length
  count == items.length || leading < count || items.getLast?.any Item.isCombinator ||
    hasRepeatedCombinator (items.drop count)

mutual

/-- Whether the argument of a pseudo selector is bogus. -/
def Simple.hasBogusArgument : Simple → Bool
  | .pseudo ⟨name, _, some l⟩ => isBogusList (if name.name == "has" then 1 else 0) l
  | _ => false

/-- Whether an argument inside a compound is bogus. -/
def hasBogusArgumentCompound : List Simple → Bool
  | [] => false
  | s :: rest => s.hasBogusArgument || hasBogusArgumentCompound rest

/-- Whether an argument inside a row of items is bogus. -/
def hasBogusArgumentItems : List Item → Bool
  | [] => false
  | .compound c :: rest => hasBogusArgumentCompound c || hasBogusArgumentItems rest
  | .combinator _ :: rest => hasBogusArgumentItems rest

/-- Whether some choice of a list is bogus when `leading` combinators may begin it. -/
def isBogusList (leading : Nat) : List Complex → Bool
  | [] => false
  | ⟨items, _⟩ :: rest =>
    isMisplaced leading items || hasBogusArgumentItems items || isBogusList leading rest

end

namespace Complex

/-- Whether the selector is not valid in a style sheet. -/
def isBogus (c : Complex) : Bool := isMisplaced 0 c.items || hasBogusArgumentItems c.items

/-- Whether the selector is not valid even where one leading combinator is allowed. -/
def isBogusBeyondLeading (c : Complex) : Bool :=
  isMisplaced 1 c.items || hasBogusArgumentItems c.items

/-- Whether the selector is bogus even as the selector of an enclosing rule. -/
def isUseless (c : Complex) : Bool :=
  hasRepeatedCombinator c.items || hasBogusArgumentItems c.items

end Complex

namespace SelectorList

/-- Whether some choice is not valid in a style sheet. -/
def isBogus (l : SelectorList) : Bool := l.any Complex.isBogus

/-- Whether some choice is not valid even where one leading combinator is allowed. -/
def isBogusBeyondLeading (l : SelectorList) : Bool := l.any Complex.isBogusBeyondLeading

/-- Whether some choice is useless. -/
def isUseless (l : SelectorList) : Bool := l.any Complex.isUseless

end SelectorList

end SelectorAlgebra
