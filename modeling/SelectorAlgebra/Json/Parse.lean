import SelectorAlgebra.Json.Basic

/-!
# Json/Parse — reading JSON

`parse?` reads a text that is one JSON value with white space around it.  Each reader takes the
rest of the text and returns what it read with what is left.  A reader that calls others counts
down a number that starts beyond the length of the text: every second call, at the latest, has used
up a character.

A string that escapes half of a surrogate pair alone is read, but has no text; `Json.unreadable`
stands for it and for an object that has it as a key.
-/

namespace SelectorAlgebra.Json

/-- What a reader has read, and the text after it. -/
abbrev Reader (α : Type) := List Char → Option (α × List Char)

/-- The text after its leading white space. -/
def skipSpace (cs : List Char) : List Char := cs.dropWhile isSpace

/-- The text after a given word. -/
def word : List Char → List Char → Option (List Char)
  | [], cs => some cs
  | w :: ws, c :: cs => if w = c then word ws cs else none
  | _ :: _, [] => none

/-! ## Numbers -/

/-- One digit or more. -/
def digits : Reader (List Char) := fun cs =>
  match cs.takeWhile Char.isDigit with
  | [] => none
  | ds => some (ds, cs.dropWhile Char.isDigit)

/-- Digits that do not begin with a zero, unless it is the only one. -/
def integerPart : Reader (List Char)
  | '0' :: c :: rest => if c.isDigit then none else some (['0'], c :: rest)
  | cs => digits cs

/-- A point and digits, or nothing. -/
def fractionPart : Reader (List Char)
  | '.' :: rest => (digits rest).map fun (ds, left) => ('.' :: ds, left)
  | cs => some ([], cs)

/-- An exponent, or nothing. -/
def exponentPart : Reader (List Char)
  | c :: rest =>
    if c = 'e' ∨ c = 'E' then
      match rest with
      | s :: rest' =>
        if s = '+' ∨ s = '-' then (digits rest').map fun (ds, left) => (c :: s :: ds, left)
        else (digits rest).map fun (ds, left) => (c :: ds, left)
      | [] => none
    else some ([], c :: rest)
  | [] => some ([], [])

/-- A number without sign, as its literal. -/
def unsigned : Reader (List Char) := fun cs => do
  let (whole, cs) ← integerPart cs
  let (fraction, cs) ← fractionPart cs
  let (exponent, cs) ← exponentPart cs
  return (whole ++ fraction ++ exponent, cs)

/-- A number, as its literal. -/
def numeral : Reader (List Char)
  | '-' :: rest => (unsigned rest).map fun (ds, left) => ('-' :: ds, left)
  | cs => unsigned cs

/-! ## Strings -/

/-- The value of a digit in base sixteen. -/
def hexValue? (c : Char) : Option Nat :=
  if c.isDigit then some (c.toNat - '0'.toNat)
  else if 'a' ≤ c ∧ c ≤ 'f' then some (c.toNat - 'a'.toNat + 10)
  else if 'A' ≤ c ∧ c ≤ 'F' then some (c.toNat - 'A'.toNat + 10)
  else none

/-- Four digits in base sixteen. -/
def codeUnit : Reader Nat
  | a :: b :: c :: d :: rest => do
    let a ← hexValue? a
    let b ← hexValue? b
    let c ← hexValue? c
    let d ← hexValue? d
    return (((a * 16 + b) * 16 + c) * 16 + d, rest)
  | _ => none

/-- The second half of a surrogate pair, written as an escape of its own. -/
def secondHalf : Reader Nat := fun cs => do
  let (unit, cs) ← codeUnit (← word ['\\', 'u'] cs)
  if 0xDC00 ≤ unit ∧ unit ≤ 0xDFFF then return (unit, cs) else none

/-- The character written after `\u`: one unit outside the surrogates, or a pair of them.  Half of
a pair alone is no character. -/
def unicodeEscape : Reader (Option Char) := fun cs => do
  let (unit, cs) ← codeUnit cs
  if unit < 0xD800 ∨ 0xDFFF < unit then return (some (Char.ofNat unit), cs)
  else if 0xDBFF < unit then return (none, cs)
  else match secondHalf cs with
    | some (second, cs) =>
      return (some (Char.ofNat (0x10000 + (unit - 0xD800) * 0x400 + (second - 0xDC00))), cs)
    | none => return (none, cs)

/-- The character written after a backslash, if it is one. -/
def escape : Reader (Option Char)
  | '"' :: rest => some (some '"', rest)
  | '\\' :: rest => some (some '\\', rest)
  | '/' :: rest => some (some '/', rest)
  | 'b' :: rest => some (some (Char.ofNat 8), rest)
  | 'f' :: rest => some (some (Char.ofNat 12), rest)
  | 'n' :: rest => some (some '\n', rest)
  | 'r' :: rest => some (some '\r', rest)
  | 't' :: rest => some (some '\t', rest)
  | 'u' :: rest => unicodeEscape rest
  | _ => none

/-- The characters already `read`, latest first, and one more; there are none if an escape was no
character. -/
def addChar (c : Option Char) (read : Option (List Char)) : Option (List Char) := do
  return (← c) :: (← read)

/-- The characters up to the closing quote, put before those already `read`, latest first. -/
def stringBody : Nat → Option (List Char) → Reader (Option (List Char))
  | 0, _, _ => none
  | _ + 1, _, [] => none
  | n + 1, read, c :: rest =>
    if c = '"' then some (read.map List.reverse, rest)
    else if c = '\\' then do
      let (c, rest) ← escape rest
      stringBody n (addChar c read) rest
    else if c.toNat < 32 then none
    else stringBody n (addChar (some c) read) rest

/-- A string, after its opening quote: its text, if it has one. -/
def stringTail (n : Nat) : Reader (Option String) := fun cs =>
  (stringBody n (some []) cs).map fun (read, left) => (read.map String.ofList, left)

/-- The string with a text. -/
def ofText : Option String → Json
  | some text => .string text
  | none => .unreadable

/-- The object with fields whose keys should have a text. -/
def ofFields (fields : List (Option String × Json)) : Json :=
  match fields.mapM fun (key, j) => key.map (·, j) with
  | some fields => .object fields
  | none => .unreadable

/-! ## Values -/

mutual

/-- One value. -/
def value : Nat → Reader Json
  | 0, _ => none
  | n + 1, cs =>
    match skipSpace cs with
    | '"' :: rest => (stringTail n rest).map fun (s, left) => (ofText s, left)
    | '[' :: rest =>
      match skipSpace rest with
      | ']' :: left => some (.array [], left)
      | rest => (elements n rest).map fun (js, left) => (.array js, left)
    | '\x7b' :: rest =>
      match skipSpace rest with
      | '\x7d' :: left => some (.object [], left)
      | rest => (fields n rest).map fun (fs, left) => (ofFields fs, left)
    | 't' :: rest => (word ['r', 'u', 'e'] rest).map fun left => (.bool true, left)
    | 'f' :: rest => (word ['a', 'l', 's', 'e'] rest).map fun left => (.bool false, left)
    | 'n' :: rest => (word ['u', 'l', 'l'] rest).map fun left => (.null, left)
    | cs => (numeral cs).map fun (literal, left) => (.number (String.ofList literal), left)

/-- One element or more, up to the closing bracket. -/
def elements : Nat → Reader (List Json)
  | 0, _ => none
  | n + 1, cs => do
    let (j, cs) ← value n cs
    match skipSpace cs with
    | ',' :: rest => (elements n rest).map fun (js, left) => (j :: js, left)
    | ']' :: rest => some ([j], rest)
    | _ => none

/-- One field or more, up to the closing brace. -/
def fields : Nat → Reader (List (Option String × Json))
  | 0, _ => none
  | n + 1, cs =>
    match skipSpace cs with
    | '"' :: rest => do
      let (key, cs) ← stringTail n rest
      match skipSpace cs with
      | ':' :: rest => do
        let (j, cs) ← value n rest
        match skipSpace cs with
        | ',' :: rest => (fields n rest).map fun (fs, left) => ((key, j) :: fs, left)
        | '\x7d' :: rest => some ([(key, j)], rest)
        | _ => none
      | _ => none
    | _ => none

end

/-- The value that a whole text is. -/
def parse? (text : String) : Option Json :=
  let cs := text.toList
  match value (2 * cs.length + 2) cs with
  | some (j, left) => if (skipSpace left).isEmpty then some j else none
  | none => none

end SelectorAlgebra.Json
