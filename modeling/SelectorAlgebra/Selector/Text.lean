import SelectorAlgebra.Selector.Basic
import SelectorAlgebra.Text.Identifier

/-!
# Selector/Text — selectors as style sheets write them

    list     choices separated by `, `, or by a comma and a new line before a line break
    complex  items separated by one space
    compound conditions run together
    pseudo   `:name`, `::name`, `:name(text)`, `:name(selector)`, `:name(text selector)`

The text of an attribute's operator, value and modifier is written only when operator and value
are both there.
-/

namespace SelectorAlgebra

/-- The sign of a combinator. -/
def Combinator.text : Combinator → String
  | .child => ">"
  | .nextSibling => "+"
  | .followingSibling => "~"

/-- The combinator with a given sign. -/
def Combinator.ofText? (text : String) : Option Combinator :=
  [.child, .nextSibling, .followingSibling].find? (·.text == text)

/-- The sign of an attribute operator. -/
def AttributeOperator.text : AttributeOperator → String
  | .equals => "="
  | .includes => "~="
  | .dashMatch => "|="
  | .prefixMatch => "^="
  | .suffixMatch => "$="
  | .substringMatch => "*="

/-- The attribute operator with a given sign. -/
def AttributeOperator.ofText? (text : String) : Option AttributeOperator :=
  [.equals, .includes, .dashMatch, .prefixMatch, .suffixMatch, .substringMatch].find?
    (·.text == text)

/-- The label and the bar after it. -/
def Namespace.text : Namespace → String
  | .any => "*|"
  | .empty => "|"
  | .named label => label ++ "|"

/-- The text of a namespace that may be missing. -/
def namespaceText : Option Namespace → String
  | none => ""
  | some ns => ns.text

/-- The name behind its namespace. -/
def QualifiedName.text (q : QualifiedName) : String := namespaceText q.ns ++ q.name

/-- The value of an attribute: bare if it is an identifier, else quoted. -/
def attributeValueText (value : String) : String :=
  if Text.isIdentifier value then value else Text.quoted value

/-- What follows the name of an attribute. -/
def Attribute.conditionText (a : Attribute) : String :=
  match a.operator, a.value with
  | some operator, some value =>
    operator.text ++ attributeValueText value ++
      (match a.modifier with
        | some modifier => " " ++ modifier
        | none => "")
  | _, _ => ""

/-- The attribute selector between its brackets. -/
def Attribute.text (a : Attribute) : String := "[" ++ a.name.text ++ a.conditionText ++ "]"

mutual

/-- The text of a simple selector. -/
def Simple.text : Simple → String
  | .universal ns => namespaceText ns ++ "*"
  | .type name => name.text
  | .className name => "." ++ name
  | .idName name => "#" ++ name
  | .attr a => a.text
  | .placeholder name => "%" ++ name
  | .parent suffix => "&" ++ suffix.getD ""
  | .pseudo ⟨name, argument, selector⟩ =>
    (if name.doubleColon then "::" else ":") ++ name.name ++
      (match argument, selector with
        | none, none => ""
        | some a, none => "(" ++ a ++ ")"
        | none, some l => "(" ++ textOfList l ++ ")"
        | some a, some l => "(" ++ a ++ " " ++ textOfList l ++ ")")

/-- The conditions run together. -/
def textOfCompound : List Simple → String
  | [] => ""
  | s :: rest => s.text ++ textOfCompound rest

/-- The text of one place in a row. -/
def Item.text : Item → String
  | .compound c => textOfCompound c
  | .combinator c => c.text

/-- The remaining items, each behind a space. -/
def textOfItemsTail : List Item → String
  | [] => ""
  | i :: rest => " " ++ i.text ++ textOfItemsTail rest

/-- The items, separated by single spaces. -/
def Complex.text : Complex → String
  | ⟨[], _⟩ => ""
  | ⟨i :: rest, _⟩ => i.text ++ textOfItemsTail rest

/-- The remaining choices, each behind a comma and a space or new line. -/
def textOfListTail : List Complex → String
  | [] => ""
  | ⟨items, lineBreak⟩ :: rest =>
    (if lineBreak then ",\n" else ", ") ++ Complex.text ⟨items, lineBreak⟩ ++ textOfListTail rest

/-- The choices, separated by commas. -/
def textOfList : List Complex → String
  | [] => ""
  | c :: rest => c.text ++ textOfListTail rest

end

/-- The text of a compound. -/
def Compound.text (c : Compound) : String := textOfCompound c

/-- The text of a selector list. -/
def SelectorList.text (l : SelectorList) : String := textOfList l

/-- The text of a pseudo selector. -/
def Pseudo.text (p : Pseudo) : String := Simple.text (.pseudo p)

end SelectorAlgebra
