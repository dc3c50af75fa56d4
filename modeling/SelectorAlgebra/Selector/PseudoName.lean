/-!
# Selector/PseudoName — the name of a pseudo selector, and what it says

The rules for a pseudo selector hang on its name without vendor label and letter case:
`:-moz-any(.a)` follows the rule of `:any`.  Four pseudo-elements may also be written with one
colon, so being a class (`isClass`) is not the same as being written with one colon.

Both are worked out once, when the name is written, and kept beside it; whoever copies a name copies
them too.  A `PseudoName` carries the proof that they are those of its name.
-/

namespace SelectorAlgebra

/-- The name without its vendor label: what stands between a leading dash and the next one is
dropped when it begins with an ASCII character other than a dash. -/
def dropVendor : List Char → List Char
  | '-' :: c :: rest =>
    if c = '-' ∨ 128 ≤ c.toNat then '-' :: c :: rest
    else match rest.dropWhile (· ≠ '-') with
      | [] => '-' :: c :: rest
      | _ :: name => name
  | name => name

/-- The name in lower case, without vendor label. -/
def normalizeName (name : String) : String :=
  String.ofList ((dropVendor name.toList).map Char.toLower)

/-- Whether a name is that of a pseudo-element even behind a single colon. -/
def isLegacyElementName (name : String) : Bool :=
  ["after", "before", "first-line", "first-letter"].contains name

/-- A name with the colons before it, and what follows from both. -/
structure PseudoName where
  /-- The name as written, without colons. -/
  name : String
  /-- Whether it is written with two colons. -/
  doubleColon : Bool
  /-- The name in lower case, without vendor label. -/
  normalizedName : String
  /-- Whether it is that of a pseudo-class, and not of a pseudo-element. -/
  isClass : Bool
  normalizedName_eq : normalizedName = normalizeName name
  isClass_eq : isClass = (!doubleColon && !isLegacyElementName normalizedName)

/-- The name as it is written. -/
def PseudoName.written (name : String) (doubleColon : Bool) : PseudoName where
  name := name
  doubleColon := doubleColon
  normalizedName := normalizeName name
  isClass := !doubleColon && !isLegacyElementName (normalizeName name)
  normalizedName_eq := rfl
  isClass_eq := rfl

/-- What is kept beside a name is what would be worked out again. -/
theorem PseudoName.written_name (n : PseudoName) : PseudoName.written n.name n.doubleColon = n := by
  obtain ⟨name, doubleColon, normalizedName, isClass, rfl, rfl⟩ := n
  rfl

/-- Names that are written alike are alike. -/
theorem PseudoName.eq_of_written {n n' : PseudoName} (name : n.name = n'.name)
    (doubleColon : n.doubleColon = n'.doubleColon) : n = n' := by
  rw [← n.written_name, ← n'.written_name, name, doubleColon]

end SelectorAlgebra
