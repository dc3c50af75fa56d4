import SelectorAlgebra.Json.Basic

/-!
# Json/Text — writing JSON

One writer, told by a `Layout` where to put white space: `compact` puts none, `pretty` one field or
element a line.  In a string, quotes, backslashes and the control characters below U+0020 are
escaped and everything else stands as it is.  A value without a text is written as `null`.
-/

namespace SelectorAlgebra.Json

/-- A digit in base sixteen, letters small. -/
def hexDigit (n : Nat) : Char :=
  if n < 10 then Char.ofNat (n + '0'.toNat) else Char.ofNat (n - 10 + 'a'.toNat)

/-- How a character is written inside a string. -/
def escapeChar (c : Char) : List Char :=
  if c = '"' then ['\\', '"']
  else if c = '\\' then ['\\', '\\']
  else if c = '\n' then ['\\', 'n']
  else if c = '\r' then ['\\', 'r']
  else if c = '\t' then ['\\', 't']
  else if c.toNat = 8 then ['\\', 'b']
  else if c.toNat = 12 then ['\\', 'f']
  else if c.toNat < 32 then
    ['\\', 'u', '0', '0', hexDigit (c.toNat / 16), hexDigit (c.toNat % 16)]
  else [c]

/-- A string between its quotes. -/
def quote (s : String) : String := String.ofList ('"' :: (s.toList.flatMap escapeChar ++ ['"']))

/-- Where white space is put. -/
structure Layout where
  /-- What stands before an element or a field some levels in, and before a closing bracket. -/
  line : Nat → String
  /-- What stands between the colon of a field and its value. -/
  gap : String
  isSpace_line : ∀ level, (line level).toList.all isSpace = true
  isSpace_gap : gap.toList.all isSpace = true

/-- No white space anywhere. -/
def Layout.tight : Layout := ⟨fun _ => "", "", fun _ => rfl, rfl⟩

/-- A line of its own for every element and field, two spaces further in for each level. -/
def Layout.indented : Layout where
  line level := String.ofList ('\n' :: List.replicate (2 * level) ' ')
  gap := " "
  isSpace_line level := by simp [isSpace]
  isSpace_gap := rfl

mutual

/-- The value, some levels in. -/
def textAt (layout : Layout) (level : Nat) : Json → String
  | .null | .unreadable => "null"
  | .bool b => if b then "true" else "false"
  | .number literal => literal
  | .string s => quote s
  | .array [] => "[]"
  | .array (j :: rest) =>
    "[" ++ layout.line (level + 1) ++ textAt layout (level + 1) j ++
      elementsText layout (level + 1) rest ++ layout.line level ++ "]"
  | .object [] => "\x7b\x7d"
  | .object ((k, v) :: rest) =>
    "\x7b" ++ layout.line (level + 1) ++ quote k ++ ":" ++ layout.gap ++
      textAt layout (level + 1) v ++ fieldsText layout (level + 1) rest ++ layout.line level ++
      "\x7d"

/-- The remaining elements, each behind a comma. -/
def elementsText (layout : Layout) (level : Nat) : List Json → String
  | [] => ""
  | j :: rest => "," ++ layout.line level ++ textAt layout level j ++ elementsText layout level rest

/-- The remaining fields, each behind a comma. -/
def fieldsText (layout : Layout) (level : Nat) : List (String × Json) → String
  | [] => ""
  | (k, v) :: rest =>
    "," ++ layout.line level ++ quote k ++ ":" ++ layout.gap ++ textAt layout level v ++
      fieldsText layout level rest

end

/-- The value without white space. -/
def compact (j : Json) : String := j.textAt .tight 0

/-- The value over several lines. -/
def pretty (j : Json) : String := j.textAt .indented 0

end SelectorAlgebra.Json
