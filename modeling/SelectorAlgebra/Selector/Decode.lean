import SelectorAlgebra.Selector.Encode
import SelectorAlgebra.Selector.Stored

/-!
# Selector/Decode — selectors out of JSON

The reverse of `Selector/Encode`, more liberal in three ways: optional fields may be missing,
unknown fields are passed over, and fields stand in any order.  Empty lists, complex selectors and
compounds are refused.

The reader of simple selectors takes the reader of their arguments as a parameter; `ofJsonWithin`
ties the knot, going through as many levels of arguments as the JSON value has levels at all.
-/

namespace SelectorAlgebra

open Json

/-- The combinator with a given name. -/
def Combinator.ofJson : Decoder Combinator := fun j => do
  let label ← decodeText j
  require ([.child, .nextSibling, .followingSibling].find? (·.label == label))

/-- The attribute operator with a given name. -/
def AttributeOperator.ofJson : Decoder AttributeOperator := fun j => do
  let label ← decodeText j
  require ([.equals, .includes, .dashMatch, .prefixMatch, .suffixMatch, .substringMatch].find?
    (·.label == label))

/-- The namespace a JSON value is the form of. -/
def Namespace.ofJson : Decoder Namespace
  | .string "Any" => .ok .any
  | .string "Empty" => .ok .empty
  | .object [("Named", label)] => do return .named (← decodeText label)
  | _ => .error .malformed

/-- The qualified name a JSON value is the form of. -/
def QualifiedName.ofJson : Decoder QualifiedName := fun j => do
  let fields ← decodeFields j
  let name ← field? fields "name" decodeText
  let ns ← nullableField fields "namespace" Namespace.ofJson
  return ⟨← require name, ns⟩

/-- The attribute selector a JSON value is the form of. -/
def Attribute.ofJson : Decoder Attribute := fun j => do
  let fields ← decodeFields j
  let name ← field? fields "name" QualifiedName.ofJson
  let operator ← nullableField fields "operator" AttributeOperator.ofJson
  let value ← nullableField fields "value" decodeText
  let modifier ← nullableField fields "modifier" decodeText
  return ⟨← require name, operator, value, modifier⟩

/-- The stored pseudo selector in a JSON value, given how its argument is read. -/
def PseudoData.ofJsonWith (argument : Decoder SelectorList) : Decoder PseudoData := fun j => do
  let fields ← decodeFields j
  let text? ← nullableField fields "argument" decodeText
  let element ← field? fields "element" decodeFlag
  let name ← field? fields "name" decodeText
  let selector ← nullableField fields "selector" argument
  return ⟨← require name, element.getD false, text?, selector⟩

/-- The pseudo selector a JSON value is the form of, given how its argument is read. -/
def Pseudo.ofJsonWith (argument : Decoder SelectorList) : Decoder Pseudo := fun j => do
  return .ofData (← PseudoData.ofJsonWith argument j)

/-- The simple selector a JSON value is the form of, given how arguments are read. -/
def Simple.ofJsonWith (argument : Decoder SelectorList) : Decoder Simple := fun j => do
  match ← decodeVariant j with
  | ("Universal", body) => do
    return .universal (← nullableField (← decodeFields body) "namespace" Namespace.ofJson)
  | ("Type", body) => do return .type (← QualifiedName.ofJson body)
  | ("Class", body) => do return .className (← decodeText body)
  | ("Id", body) => do return .idName (← decodeText body)
  | ("Attribute", body) => do return .attr (← Attribute.ofJson body)
  | ("Placeholder", body) => do return .placeholder (← decodeText body)
  | ("Parent", body) =>
    do return .parent (← nullableField (← decodeFields body) "suffix" decodeText)
  | ("Pseudo", body) => do return .pseudo (← Pseudo.ofJsonWith argument body)
  | _ => .error .malformed

/-- The compound a JSON value is the form of, given how arguments are read. -/
def Compound.ofJsonWith (argument : Decoder SelectorList) : Decoder Compound := fun j => do
  Compound.ofSimples (← decodeList (Simple.ofJsonWith argument) j)

/-- The item a JSON value is the form of, given how arguments are read. -/
def Item.ofJsonWith (argument : Decoder SelectorList) : Decoder Item := fun j => do
  match ← decodeVariant j with
  | ("Compound", body) => do return .compound (← Compound.ofJsonWith argument body)
  | ("Comb", body) => do return .combinator (← Combinator.ofJson body)
  | _ => .error .malformed

/-- The stored complex selector in a JSON value, given how arguments are read. -/
def ComplexData.ofJsonWith (argument : Decoder SelectorList) : Decoder ComplexData := fun j => do
  let fields ← decodeFields j
  let items ← field? fields "components" (decodeList (Item.ofJsonWith argument))
  let lineBreak ← field? fields "line_break" decodeFlag
  return ⟨← require items, lineBreak.getD false⟩

/-- The complex selector a JSON value is the form of, given how arguments are read. -/
def Complex.ofJsonWith (argument : Decoder SelectorList) : Decoder Complex := fun j => do
  Complex.ofData (← ComplexData.ofJsonWith argument j)

/-- The list a JSON value is the form of, with selector arguments up to `depth` levels deep. -/
def SelectorList.ofJsonWithin : Nat → Decoder SelectorList
  | 0, _ => .error .malformed
  | depth + 1, j => do
    SelectorList.ofChoices
      (← decodeList (Complex.ofJsonWith (SelectorList.ofJsonWithin depth)) j)

/-- The list a JSON value is the form of. -/
def SelectorList.ofJson : Decoder SelectorList :=
  fun j => SelectorList.ofJsonWithin (j.nesting + 1) j

/-- The complex selector a JSON value is the form of. -/
def Complex.ofJson : Decoder Complex := Complex.ofJsonWith SelectorList.ofJson

/-- The item a JSON value is the form of. -/
def Item.ofJson : Decoder Item := Item.ofJsonWith SelectorList.ofJson

/-- The compound a JSON value is the form of. -/
def Compound.ofJson : Decoder Compound := Compound.ofJsonWith SelectorList.ofJson

/-- The simple selector a JSON value is the form of. -/
def Simple.ofJson : Decoder Simple := Simple.ofJsonWith SelectorList.ofJson

end SelectorAlgebra
