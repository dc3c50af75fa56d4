import SelectorAlgebra.Selector.Occurrence
import SelectorAlgebra.Superselector.Cover

/-!
# Superselector/Basic — when one selector matches all that another matches

The relation is decided by walking both rows from the left.  Each compound of the upper row takes
the first compound of the lower row that it covers, skipping others as intervening ancestors, and
then the combinators after the two have to agree:

    upper  lower
    ~      ~ or +
    > +    the same
    none   > or none

A yes is meant to be certain; a no is not.  Rows that begin or end with a combinator are above and
below nothing.

`superWithin n` is the relation for rows with at most `n` levels of selector arguments, counted on
both sides together: going into an argument uses one up.  `isSuperselector` has as many as it
needs.
-/

namespace SelectorAlgebra

/-- Whether the combinator after a compound of the upper row allows the one after the compound
that was found for it. -/
def Combinator.allows : Combinator → Combinator → Bool
  | .followingSibling, k => k != .child
  | k₁, k₂ => k₁ == k₂

/-- What is left of the lower row after the first compound that `accept` takes, given with the items
before it.  The last item is left out of the search, so something is always left. -/
def firstAccepted (accept : Compound → List Item → Bool) :
    List Item → List Item → Option (List Item)
  | parents, item :: next :: rest =>
    if item.compound?.any fun c => accept c parents then some (next :: rest)
    else firstAccepted accept (parents ++ [item]) (next :: rest)
  | _, _ => none

/-- Whether the last compound of the upper row covers the last one of the lower row. -/
def coversLast (cover : Compound → Compound → List Item → Bool) (c₁ : Compound)
    (lower : List Item) : Bool :=
  match lower.getLast? with
  | some (.compound c₂) =>
    !hasRepeatedCombinator lower.dropLast && cover c₁ c₂ lower.dropLast
  | _ => false

/-- The walk along both rows, with `cover` deciding for compounds. -/
def walk (cover : Compound → Compound → List Item → Bool) : List Item → List Item → Bool
  | _, [] => false
  | _, .combinator _ :: _ => false
  | [], _ => false
  | .combinator _ :: _, _ => false
  | [.compound c₁], lower => coversLast cover c₁ lower
  | .compound c₁ :: .combinator k₁ :: upper, lower =>
    if lower.length < upper.length + 2 then false
    else match firstAccepted (cover c₁) [] lower with
      | some (.combinator k₂ :: rest) =>
        k₁.allows k₂ && !(upper.length == 1 && 3 < lower.length) && walk cover upper rest
      | _ => false
  | .compound c₁ :: .compound c :: upper, lower =>
    if lower.length < upper.length + 2 then false
    else match firstAccepted (cover c₁) [] lower with
      | some (.combinator k₂ :: rest) =>
        k₂ == .child && walk cover (.compound c :: upper) rest
      | some rest => walk cover (.compound c :: upper) rest
      | none => false

/-- The relation between rows, with `cover` deciding for compounds. -/
def rowCovers (cover : Compound → Compound → List Item → Bool) (upper lower : List Item) : Bool :=
  upper.getLast?.any Item.isCompound && lower.getLast?.any Item.isCompound &&
    walk cover upper lower

/-- The relation between rows with at most `n` levels of selector arguments on both sides. -/
def superWithin : Nat → ItemsRelation
  | 0 => fun _ _ => false
  | n + 1 => rowCovers (covers (superWithin n))

/-- Whether the row `upper` matches every element that the row `lower` matches. -/
def itemsSuperselector (upper lower : List Item) : Bool :=
  superWithin (nestingOfItems upper + nestingOfItems lower + 1) upper lower

/-- A compound that no selector mentions. -/
def unmentioned : Compound := [.placeholder "<temp>"]

/-- Whether `upper` is above `lower` when both are the parents of one element: so is `.a` above
`.a > .b`, since `.a .c` is above `.a > .b .c`, although it is not above it as a whole. -/
def parentSuperselector (upper lower : List Item) : Bool :=
  !upper.head?.any Item.isCombinator && !lower.head?.any Item.isCombinator &&
    upper.length ≤ lower.length &&
      itemsSuperselector (upper ++ [.compound unmentioned]) (lower ++ [.compound unmentioned])

/-- Whether `c₁` matches every element that `c₂` matches behind the items `parents`. -/
def Compound.isSuperselectorBehind (c₁ c₂ : Compound) (parents : List Item) : Bool :=
  covers itemsSuperselector c₁ c₂ parents

/-- Whether `c₁` matches every element that `c₂` matches. -/
def Compound.isSuperselector (c₁ c₂ : Compound) : Bool := covers itemsSuperselector c₁ c₂ []

/-- Whether `c₁` matches every element that `c₂` matches. -/
def Complex.isSuperselector (c₁ c₂ : Complex) : Bool := itemsSuperselector c₁.items c₂.items

/-- Whether `l₁` matches every element that `l₂` matches. -/
def SelectorList.isSuperselector (l₁ l₂ : SelectorList) : Bool :=
  listCovers itemsSuperselector l₁ l₂

end SelectorAlgebra
