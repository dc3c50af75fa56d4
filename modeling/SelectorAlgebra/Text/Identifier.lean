/-!
# Text/Identifier — bare words and quoted strings in style sheets

An attribute value is written bare when it is an identifier and between double quotes otherwise.
-/

namespace SelectorAlgebra.Text

/-- A character that may begin an identifier: an ASCII letter, an underscore, or any character
outside ASCII. -/
def isNameStart (c : Char) : Bool := c.isAlpha || c == '_' || 128 ≤ c.toNat

/-- A character that may stand inside an identifier. -/
def isNameChar (c : Char) : Bool := isNameStart c || c.isDigit || c == '-'

/-- What may follow the optional first dash of an identifier. -/
def isIdentifierBody : List Char → Bool
  | [] => false
  | c :: rest => (c == '-' || isNameStart c) && rest.all isNameChar

/-- Whether the text may be written as a bare word: an optional dash, then a second dash or a
name-start character, then name characters. -/
def isIdentifier (text : String) : Bool :=
  match text.toList with
  | '-' :: rest => isIdentifierBody rest
  | cs => isIdentifierBody cs

/-- The characters of a text with a backslash before every quote and backslash. -/
def escapeQuoted : List Char → List Char
  | [] => []
  | c :: rest =>
    if c = '"' ∨ c = '\\' then '\\' :: c :: escapeQuoted rest else c :: escapeQuoted rest

/-- The text between double quotes. -/
def quoted (text : String) : String :=
  String.ofList ('"' :: (escapeQuoted text.toList ++ ['"']))

end SelectorAlgebra.Text
