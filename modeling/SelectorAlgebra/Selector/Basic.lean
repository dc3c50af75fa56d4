import SelectorAlgebra.Selector.PseudoName

/-!
# Selector/Basic — what a selector is

    list     a, b c        a choice of complex selectors
    complex  a.b > c d     compounds joined by combinators
    compound a.b#c         conditions on one element
    simple   .a  #b  *     one condition

A complex selector is a row of items, each a compound or an explicit combinator; two neighbouring
compounds stand in the descendant relation, which has no item of its own.  Rows with leading,
trailing or repeated combinators are selectors too: `Validity` tells them apart.  Compounds,
complex selectors and lists are meant to be non-empty; decoding refuses the empty ones
(`Selector/Decode`), and nothing here relies on it.

A pseudo selector may hold a whole selector list as its argument, so the four levels are one
mutual family.
-/

namespace SelectorAlgebra

/-- An explicit combinator between two compounds. -/
inductive Combinator where
  /-- The right element is a child of the left one: `>`. -/
  | child
  /-- The right element directly follows the left one: `+`. -/
  | nextSibling
  /-- The right element follows the left one among its siblings: `~`. -/
  | followingSibling
  deriving DecidableEq, Repr, Inhabited

/-- The namespace label of a type, universal or attribute selector.  A selector written without a
label has no namespace at all, which is not one of these. -/
inductive Namespace where
  /-- Any namespace or none: `*|`. -/
  | any
  /-- No namespace: `|`. -/
  | empty
  /-- The namespace bound to a label: `ns|`. -/
  | named (label : String)
  deriving DecidableEq, Repr, Inhabited

/-- A local name, with the namespace written before it if there is one. -/
structure QualifiedName where
  name : String
  ns : Option Namespace
  deriving DecidableEq, Repr, Inhabited

/-- How an attribute selector compares the attribute with its value. -/
inductive AttributeOperator where
  | equals
  | includes
  | dashMatch
  | prefixMatch
  | suffixMatch
  | substringMatch
  deriving DecidableEq, Repr, Inhabited

/-- A condition on an attribute: `[name]`, or `[name op value modifier]`. -/
structure Attribute where
  name : QualifiedName
  operator : Option AttributeOperator
  value : Option String
  modifier : Option String
  deriving DecidableEq, Repr, Inhabited

mutual

/-- One condition on an element. -/
inductive Simple where
  /-- Every element: `*` or `ns|*`. -/
  | universal (ns : Option Namespace)
  /-- Elements by name: `div` or `ns|div`. -/
  | type (name : QualifiedName)
  /-- Elements of a class: `.name`. -/
  | className (name : String)
  /-- The element with an id: `#name`. -/
  | idName (name : String)
  /-- Elements by attribute: `[href]`, `[lang|=en]`. -/
  | attr (condition : Attribute)
  /-- A name that is only ever extended, never written to a style sheet: `%name`. -/
  | placeholder (name : String)
  /-- The selector of the enclosing rule: `&` or `&suffix`. -/
  | parent (suffix : Option String)
  /-- A state or a part of an element: `:hover`, `::before`, `:not(.a)`. -/
  | pseudo (pseudo : Pseudo)

/-- A pseudo-class or pseudo-element, with an optional text and an optional selector argument. -/
structure Pseudo extends PseudoName where
  /-- The text argument, such as `2n+1`. -/
  argument : Option String
  /-- The selector argument, such as the `.a` of `:not(.a)`. -/
  selector : Option (List Complex)

/-- One place in a complex selector. -/
inductive Item where
  | compound (simples : List Simple)
  | combinator (combinator : Combinator)

/-- A row of items, read from left to right. -/
structure Complex where
  items : List Item
  /-- Whether a new line stands before this selector in its list. -/
  lineBreak : Bool

end

/-- The conditions on a single element. -/
abbrev Compound := List Simple

/-- A choice of complex selectors. -/
abbrev SelectorList := List Complex

instance : Inhabited Simple := ⟨.universal none⟩
instance : Inhabited Item := ⟨.combinator default⟩
instance : Inhabited Complex := ⟨⟨[], false⟩⟩

/-! ## Items -/

namespace Item

/-- The compound standing here, if it is one. -/
def compound? : Item → Option Compound
  | .compound simples => some simples
  | .combinator _ => none

/-- The combinator standing here, if it is one. -/
def combinator? : Item → Option Combinator
  | .compound _ => none
  | .combinator c => some c

/-- Whether a combinator stands here. -/
def isCombinator : Item → Bool
  | .compound _ => false
  | .combinator _ => true

/-- Whether a compound stands here. -/
def isCompound : Item → Bool
  | .compound _ => true
  | .combinator _ => false

end Item

/-- Whether two combinators stand next to each other. -/
def hasRepeatedCombinator : List Item → Bool
  | .combinator _ :: .combinator _ :: _ => true
  | _ :: rest => hasRepeatedCombinator rest
  | [] => false

/-! ## Complex selectors -/

namespace Complex

/-- The selector that is one compound. -/
def ofCompound (compound : Compound) : Complex := ⟨[.compound compound], false⟩

/-- The compounds, from left to right. -/
def compounds (c : Complex) : List Compound := c.items.filterMap Item.compound?

/-- The last item, if it is a compound. -/
def lastCompound? (c : Complex) : Option Compound := c.items.getLast?.bind Item.compound?

/-- The only item, if there is one and it is a compound. -/
def singleCompound? (c : Complex) : Option Compound :=
  match c.items with
  | [.compound simples] => some simples
  | _ => none

/-- The combinators before the first compound. -/
def leadingCombinators (c : Complex) : List Combinator :=
  (c.items.takeWhile Item.isCombinator).filterMap Item.combinator?

/-- The combinators after the last compound; all of them when there is no compound. -/
def trailingCombinators (c : Complex) : List Combinator :=
  ((c.items.reverse.takeWhile Item.isCombinator).reverse).filterMap Item.combinator?

end Complex

/-! ## Simple selectors -/

namespace Simple

/-- The pseudo selector, if this is one. -/
def pseudo? : Simple → Option Pseudo
  | .pseudo p => some p
  | _ => none

/-- The selector argument, if this is a pseudo selector that has one. -/
def argument? : Simple → Option SelectorList
  | .pseudo p => p.selector
  | _ => none

/-- Whether this names the element itself: a type or universal selector. -/
def isUniversalOrType : Simple → Bool
  | .universal _ => true
  | .type _ => true
  | _ => false

/-- Whether this is the parent selector `&`, with or without a suffix. -/
def isParent : Simple → Bool
  | .parent _ => true
  | _ => false

/-- Whether this is `#name`. -/
def isId : Simple → Bool
  | .idName _ => true
  | _ => false

/-- Whether this is a type selector. -/
def isType : Simple → Bool
  | .type _ => true
  | _ => false

/-- Whether this is a placeholder that other modules may not extend: its name begins with a dash
or an underscore. -/
def isPrivatePlaceholder : Simple → Bool
  | .placeholder name => match name.toList with
    | '-' :: _ => true
    | '_' :: _ => true
    | _ => false
  | _ => false

/-! ### Short forms -/

/-- The selector `*`. -/
def anyElement : Simple := .universal none

/-- A type selector without a namespace. -/
def ofTypeName (name : String) : Simple := .type ⟨name, none⟩

end Simple

namespace Attribute

/-- The condition `[name]`. -/
def present (name : QualifiedName) : Attribute := ⟨name, none, none, none⟩

/-- The condition `[name op value modifier]`. -/
def compare (name : QualifiedName) (operator : AttributeOperator) (value : String)
    (modifier : Option String) : Attribute :=
  ⟨name, some operator, some value, modifier⟩

end Attribute

end SelectorAlgebra
