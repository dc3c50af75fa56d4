import SelectorAlgebra.Json.Decode
import SelectorAlgebra.Selector.Pseudo

/-!
# Selector/Stored — selectors as they are stored

A stored selector is a selector without what can be worked out again, and without the promise that
its lists are filled.  Storing forgets both; reading it back works out the one and checks the other:

    Pseudo         ⇄  PseudoData       the name is normalized and classified again
    Complex        ⇄  ComplexData      refused without items
    Compound       ⇄  List Simple      refused without conditions
    SelectorList   ⇄  List Complex     refused without choices
-/

namespace SelectorAlgebra

/-- A pseudo selector as it is stored. -/
structure PseudoData where
  name : String
  /-- Whether it is written with two colons. -/
  element : Bool
  argument : Option String
  selector : Option SelectorList

/-- A complex selector as it is stored. -/
structure ComplexData where
  items : List Item
  lineBreak : Bool

/-- The members of a list, unless it has none. -/
def requireMembers {α : Type} (error : DecodeError) (members : List α) :
    Except DecodeError (List α) :=
  if members.isEmpty then .error error else .ok members

theorem requireMembers_eq_ok_iff {α : Type} {error : DecodeError} {members members' : List α} :
    requireMembers error members = .ok members' ↔ members' ≠ [] ∧ members = members' := by
  cases members with
  | nil => simp +contextual [requireMembers, eq_comm]
  | cons a rest =>
    refine ⟨?_, fun h => congrArg Except.ok h.2⟩
    rintro ⟨⟩
    exact ⟨List.cons_ne_nil a rest, rfl⟩

/-- The stored form of a pseudo selector. -/
def Pseudo.toData (p : Pseudo) : PseudoData := ⟨p.name, p.doubleColon, p.argument, p.selector⟩

/-- The pseudo selector that is stored. -/
def Pseudo.ofData (data : PseudoData) : Pseudo :=
  .written data.name data.element data.argument data.selector

/-- The stored form of a complex selector. -/
def Complex.toData (c : Complex) : ComplexData := ⟨c.items, c.lineBreak⟩

/-- The complex selector that is stored, unless it has no items. -/
def Complex.ofData (data : ComplexData) : Except DecodeError Complex :=
  (requireMembers .emptyComplex data.items).map (⟨·, data.lineBreak⟩)

/-- The compound with given conditions, unless there are none. -/
def Compound.ofSimples (simples : List Simple) : Except DecodeError Compound :=
  requireMembers .emptyCompound simples

/-- The list with given choices, unless there are none. -/
def SelectorList.ofChoices (choices : List Complex) : Except DecodeError SelectorList :=
  requireMembers .emptyList choices

end SelectorAlgebra
