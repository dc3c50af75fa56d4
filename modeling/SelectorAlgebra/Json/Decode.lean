import SelectorAlgebra.Json.Basic

/-!
# Json/Decode — reading typed values out of JSON

A decoder fails with the first problem it meets, from left to right and from the inside out: what
an array holds is read before the array is found to be empty, and the fields an object has are
read before the ones it lacks are missed.
-/

namespace SelectorAlgebra

/-- Why a JSON value is not the form of a selector. -/
inductive DecodeError where
  /-- A wrong kind of value, a missing or repeated field, or an unknown name. -/
  | malformed
  /-- A list without a complex selector. -/
  | emptyList
  /-- A complex selector without items. -/
  | emptyComplex
  /-- A compound without conditions. -/
  | emptyCompound
  deriving DecidableEq, Repr, Inhabited

/-- The wording of the errors that have one. -/
def DecodeError.message? : DecodeError → Option String
  | .malformed => none
  | .emptyList => some "selector list must have at least one complex selector"
  | .emptyComplex => some "complex selector must have at least one component"
  | .emptyCompound => some "compound selector must have at least one component"

namespace Json

/-- A reader of JSON values of one kind. -/
abbrev Decoder (α : Type) := Json → Except DecodeError α

/-- What was found, or `malformed`. -/
def require {α : Type} : Option α → Except DecodeError α
  | some a => .ok a
  | none => .error .malformed

/-- A text. -/
def decodeText : Decoder String := fun j => require j.string?

/-- A truth value. -/
def decodeFlag : Decoder Bool := fun j => require j.bool?

/-- An array, all of whose elements are read the same way. -/
def decodeList {α : Type} (element : Decoder α) : Decoder (List α) := fun j => do
  (← require j.array?).mapM element

/-- The fields of an object. -/
def decodeFields : Decoder (List (String × Json)) := fun j => require j.object?

/-- The name and the content of an object with a single field. -/
def decodeVariant : Decoder (String × Json)
  | .object [field] => .ok field
  | _ => .error .malformed

/-- A field that may be missing, but stands no more than once. -/
def field? {α : Type} (fields : List (String × Json)) (key : String) (read : Decoder α) :
    Except DecodeError (Option α) :=
  match fields.filter (·.1 == key) with
  | [] => .ok none
  | [(_, j)] => (read j).map some
  | _ => .error .malformed

/-- A reader that takes `null` for a missing value. -/
def nullable {α : Type} (read : Decoder α) : Decoder (Option α) := fun j =>
  if j.isNull then .ok none else (read j).map some

/-- A field that may be missing or `null`, which is the same. -/
def nullableField {α : Type} (fields : List (String × Json)) (key : String) (read : Decoder α) :
    Except DecodeError (Option α) :=
  (field? fields key (nullable read)).map Option.join

end Json

end SelectorAlgebra
