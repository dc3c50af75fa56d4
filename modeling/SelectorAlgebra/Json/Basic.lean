/-!
# Json/Basic — values of the JSON format

Fields keep the order and the number in which they are written.  A number is kept as the literal
it is written with: what a literal may stand for is for the reader of a field to decide.

Escapes can name half of a surrogate pair without the other half.  The grammar allows it, but no
text has such a half in it, so a value like that is kept only as `unreadable`: it may stand where
nobody looks, and every reader refuses it.
-/

namespace SelectorAlgebra

/-- A JSON value. -/
inductive Json where
  | null
  | bool (value : Bool)
  | number (literal : String)
  | string (value : String)
  | array (elements : List Json)
  | object (fields : List (String × Json))
  /-- A string, or an object with a key, that escapes half of a surrogate pair alone. -/
  | unreadable
  deriving Inhabited

namespace Json

/-- The number of a natural number. -/
def ofNat (n : Nat) : Json := .number (toString n)

/-- A value that may be missing, as itself or `null`. -/
def ofOption (value : Option Json) : Json := value.getD .null

/-- The text, if this is one. -/
def string? : Json → Option String
  | .string value => some value
  | _ => none

/-- The truth value, if this is one. -/
def bool? : Json → Option Bool
  | .bool value => some value
  | _ => none

/-- The elements, if this is an array. -/
def array? : Json → Option (List Json)
  | .array elements => some elements
  | _ => none

/-- The fields, if this is an object. -/
def object? : Json → Option (List (String × Json))
  | .object fields => some fields
  | _ => none

/-- The value of a row of decimal digits. -/
def digitsValue (digits : List Char) : Nat :=
  digits.foldl (fun n c => 10 * n + (c.toNat - '0'.toNat)) 0

/-- The natural number a literal stands for, if it is written with digits alone. -/
def nat? : Json → Option Nat
  | .number literal =>
    let digits := literal.toList
    if !digits.isEmpty && digits.all Char.isDigit then some (digitsValue digits) else none
  | _ => none

/-- Whether the character may stand between tokens. -/
def isSpace (c : Char) : Bool := c == ' ' || c == '\n' || c == '\r' || c == '\t'

/-- Whether this is `null`. -/
def isNull : Json → Bool
  | .null => true
  | _ => false

mutual

/-- How many arrays and objects stand one inside the other. -/
def nesting : Json → Nat
  | .array elements => nestingOfElements elements + 1
  | .object fields => nestingOfFields fields + 1
  | _ => 0

/-- The deepest nesting among elements. -/
def nestingOfElements : List Json → Nat
  | [] => 0
  | j :: rest => max j.nesting (nestingOfElements rest)

/-- The deepest nesting among fields. -/
def nestingOfFields : List (String × Json) → Nat
  | [] => 0
  | (_, j) :: rest => max j.nesting (nestingOfFields rest)

end

mutual

/-- Whether every string and every key in the value has a text. -/
def isReadable : Json → Bool
  | .array elements => areReadable elements
  | .object fields => haveReadable fields
  | .unreadable => false
  | _ => true

/-- Whether every element is readable. -/
def areReadable : List Json → Bool
  | [] => true
  | j :: rest => j.isReadable && areReadable rest

/-- Whether every field has a readable value. -/
def haveReadable : List (String × Json) → Bool
  | [] => true
  | (_, j) :: rest => j.isReadable && haveReadable rest

end

end Json

end SelectorAlgebra
