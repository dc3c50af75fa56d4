import SelectorAlgebra.Json.Basic
import SelectorAlgebra.Selector.Basic

/-!
# Selector/Encode — selectors as JSON

A list is an array of complex selectors, a compound an array of simple selectors.  A choice between
forms (the kind of a simple selector, compound or combinator, the kind of a namespace) is an object
with the name of the form as its only key, or that name alone when the form has no content.  Every
field is written, missing ones as `null`.
-/

namespace SelectorAlgebra

/-- The name of a combinator. -/
def Combinator.label : Combinator → String
  | .child => "Child"
  | .nextSibling => "NextSibling"
  | .followingSibling => "FollowingSibling"

/-- The name of an attribute operator. -/
def AttributeOperator.label : AttributeOperator → String
  | .equals => "Equals"
  | .includes => "Includes"
  | .dashMatch => "DashMatch"
  | .prefixMatch => "PrefixMatch"
  | .suffixMatch => "SuffixMatch"
  | .substringMatch => "SubstringMatch"

/-- The JSON form of a namespace. -/
def Namespace.toJson : Namespace → Json
  | .any => .string "Any"
  | .empty => .string "Empty"
  | .named label => .object [("Named", .string label)]

/-- A text, or `null`. -/
def textToJson (text : Option String) : Json := .ofOption (text.map .string)

/-- The JSON form of a qualified name. -/
def QualifiedName.toJson (q : QualifiedName) : Json :=
  .object [("name", .string q.name), ("namespace", .ofOption (q.ns.map Namespace.toJson))]

/-- The JSON form of an attribute selector. -/
def Attribute.toJson (a : Attribute) : Json :=
  .object [("name", a.name.toJson),
    ("operator", .ofOption (a.operator.map fun op => .string op.label)),
    ("value", textToJson a.value), ("modifier", textToJson a.modifier)]

mutual

/-- The JSON form of a simple selector. -/
def Simple.toJson : Simple → Json
  | .universal ns =>
    .object [("Universal", .object [("namespace", .ofOption (ns.map Namespace.toJson))])]
  | .type name => .object [("Type", name.toJson)]
  | .className name => .object [("Class", .string name)]
  | .idName name => .object [("Id", .string name)]
  | .attr a => .object [("Attribute", a.toJson)]
  | .placeholder name => .object [("Placeholder", .string name)]
  | .parent suffix => .object [("Parent", .object [("suffix", textToJson suffix)])]
  | .pseudo ⟨name, argument, selector⟩ =>
    .object [("Pseudo", .object [("name", .string name.name), ("element", .bool name.doubleColon),
      ("argument", textToJson argument),
      ("selector", match selector with
        | none => .null
        | some l => .array (elementsOfList l))])]

/-- The JSON forms of the conditions of a compound. -/
def elementsOfCompound : List Simple → List Json
  | [] => []
  | s :: rest => s.toJson :: elementsOfCompound rest

/-- The JSON forms of the items of a row. -/
def elementsOfItems : List Item → List Json
  | [] => []
  | .compound c :: rest =>
    .object [("Compound", .array (elementsOfCompound c))] :: elementsOfItems rest
  | .combinator c :: rest => .object [("Comb", .string c.label)] :: elementsOfItems rest

/-- The JSON forms of the choices of a list. -/
def elementsOfList : List Complex → List Json
  | [] => []
  | ⟨items, lineBreak⟩ :: rest =>
    .object [("components", .array (elementsOfItems items)), ("line_break", .bool lineBreak)] ::
      elementsOfList rest

end

/-- The JSON form of a compound. -/
def Compound.toJson (c : Compound) : Json := .array (elementsOfCompound c)

/-- The JSON form of a row of items. -/
def itemsToJson (items : List Item) : Json := .array (elementsOfItems items)

/-- The JSON form of a complex selector. -/
def Complex.toJson (c : Complex) : Json :=
  .object [("components", itemsToJson c.items), ("line_break", .bool c.lineBreak)]

/-- The JSON form of a selector list. -/
def SelectorList.toJson (l : SelectorList) : Json := .array (elementsOfList l)

end SelectorAlgebra
