import SelectorAlgebra.Sequence.Choices
import SelectorAlgebra.Unification.Trailing

/-!
# Unification/Weave — the parents of one element, interleaved

An element inside `.a .b` and inside `.c .d` has all four among its ancestors, `.a` above `.b` and
`.c` above `.d`, but nothing fixes the order of `.a` and `.c`.  `weaveParents` lists the orders, and
`weave` does it for any number of rows:

    leading combinators   one side's, if they contain the other's
    `:root`               stands first, and once
    groups                compounds joined by combinators stay together
    common groups         stand once, the rest between them in both orders
    trailing combinators  see `Unification/Trailing`

Two groups are common if one is above the other as parents, or if both name the same id or
pseudo-element and unify in exactly one way.  That last case weaves again, but only what is left of
the two groups without their last compounds; `weaveParentsWithin n` allows for `n` such steps one
inside the other, and `weaveParents` for as many as there are items.
-/

namespace SelectorAlgebra

/-! ## Groups -/

/-- Whether the compound requires `:root`. -/
def Compound.isRoot (c : Compound) : Bool :=
  c.any fun s => match s with
    | .pseudo p => p.isRoot
    | _ => false

/-- The leading compound if it requires `:root`, and the rest of the row. -/
def splitRoot : List Item → Option Compound × List Item
  | .compound c :: rest => if Compound.isRoot c then (some c, rest) else (none, .compound c :: rest)
  | row => (none, row)

/-- Both rows behind the same `:root`, if either of them begins with one. -/
def shareRoot (row₁ row₂ : List Item) : Option (List Item × List Item) :=
  match splitRoot row₁, splitRoot row₂ with
  | (some root₁, rest₁), (some root₂, rest₂) =>
    (Compound.unify root₁ root₂).map fun root => (.compound root :: rest₁, .compound root :: rest₂)
  | (some root₁, rest₁), (none, rest₂) => some (rest₁, .compound root₁ :: rest₂)
  | (none, rest₁), (some root₂, rest₂) => some (.compound root₂ :: rest₁, rest₂)
  | (none, rest₁), (none, rest₂) => some (rest₁, rest₂)

/-- The row with one more item in front, cut into groups: an item joins the group behind it if
either of the two that meet is a combinator. -/
def consGroup (item : Item) : List (List Item) → List (List Item)
  | (next :: group) :: groups =>
    if item.isCombinator || next.isCombinator then (item :: next :: group) :: groups
    else [item] :: (next :: group) :: groups
  | groups => [item] :: groups

/-- The row cut into groups that combinators hold together:

    a b > c d ~ e  ↦  a | b > c | d ~ e
-/
def groupItems (row : List Item) : List (List Item) := row.foldr consGroup []

/-- Whether at most one element of a document can meet the condition: an id or a
pseudo-element. -/
def Simple.isUnique (s : Simple) : Bool := s.isId || s.isPseudoElement

/-- The conditions of a row that only one element can meet. -/
def uniqueConditions (row : List Item) : List Simple :=
  (row.filterMap Item.compound?).flatten.filter Simple.isUnique

/-- Whether two groups share a condition that only one element can meet. -/
def mustUnify (group₁ group₂ : List Item) : Bool :=
  (uniqueConditions group₂).any (uniqueConditions group₁).contains

/-- The group that stands for two, if they are common; `unify` unifies two groups. -/
def commonGroup (unify : List Item → List Item → Option (List (List Item)))
    (group₁ group₂ : List Item) : Option (List Item) :=
  if equivItems group₁ group₂ then some group₁
  else if !(group₁.head?.any Item.isCompound && group₂.head?.any Item.isCompound) then none
  else if parentSuperselector group₁ group₂ then some group₂
  else if parentSuperselector group₂ group₁ then some group₁
  else if mustUnify group₁ group₂ then
    match unify group₁ group₂ with
    | some [unified] => some unified
    | _ => none
  else none

/-! ## Orders -/

/-- The orders in which two runs of groups may stand: either first, if neither is empty. -/
def runOrders (run₁ run₂ : List (List Item)) : List (List Item) :=
  match run₁, run₂ with
  | [], [] => []
  | [], _ => [run₂.flatten]
  | _, [] => [run₁.flatten]
  | _, _ => [(run₁ ++ run₂).flatten, (run₂ ++ run₁).flatten]

/-- The choices for two rows of groups around their common groups. -/
def interleave : List (List Item) → List (List Item) → List (List Item) → List (List (List Item))
  | [], groups₁, groups₂ => [runOrders groups₁ groups₂]
  | group :: common, groups₁, groups₂ =>
    let other := fun g => !parentSuperselector g group
    runOrders (groups₁.takeWhile other) (groups₂.takeWhile other) :: [group] ::
      interleave common (groups₁.dropWhile other).tail (groups₂.dropWhile other).tail

/-- One row for every selection from the choices, leaving out choices without options. -/
def rowsOfChoices (choices : List (List (List Item))) : List (List Item) :=
  (selections (choices.filter (!·.isEmpty))).map List.flatten

/-! ## Weaving -/

/-- The rows woven so far, with one more row woven into each of them; `merge` weaves two rows of
parents.  A row without items is passed over. -/
def weaveRow (merge : List Item → List Item → Option (List (List Item)))
    (woven : List (List Item)) (row : List Item) : List (List Item) :=
  match row.getLast? with
  | none => woven
  | some target =>
    match row.dropLast with
    | [] => woven.map (· ++ [target])
    | parents => woven.flatMap fun before =>
        ((merge before parents).getD []).map (· ++ [target])

/-- Several rows, each the parents of the last item of the next, woven into single rows. -/
def weaveWith (merge : List Item → List Item → Option (List (List Item))) :
    List (List Item) → List (List Item)
  | [] => []
  | first :: rows => rows.foldl (weaveRow merge) [first]

/-- The last item of a row, if it is a compound. -/
def baseOfRow (row : List Item) : Option Compound := row.getLast?.bind Item.compound?

/-- The compound that requires what the last compounds of all rows require. -/
def unifyBases : List (List Item) → Option Compound
  | [] => none
  | first :: rows => do
    rows.foldlM (fun found row => do Compound.unify (← baseOfRow row) found) (← baseOfRow first)

/-- The rows without their last items, and the last of them with another compound at its end. -/
def withBase (base : Compound) : List (List Item) → List (List Item)
  | [] => []
  | [row] => [row.dropLast ++ [.compound base]]
  | row :: rows => row.dropLast :: withBase base rows

/-- The rows that match what all of several rows match, given how two rows of parents are woven.
A single row is its own answer. -/
def unifyRowsWith (merge : List Item → List Item → Option (List (List Item)))
    (rows : List (List Item)) : Option (List (List Item)) :=
  match rows with
  | [row] => some [row]
  | _ => (unifyBases rows).map fun base => weaveWith merge (withBase base rows)

/-- The combinators that begin a row. -/
def startCombinators (row : List Item) : List Combinator :=
  (row.takeWhile Item.isCombinator).filterMap Item.combinator?

/-- The rows in which two rows of parents of one element may be interleaved, if they can be, with
at most `n` steps into groups. -/
def weaveParentsWithin : Nat → List Item → List Item → Option (List (List Item))
  | 0, _, _ => none
  | n + 1, parents₁, parents₂ => do
    let leading ← mergeCombinators (startCombinators parents₁) (startCombinators parents₂)
    let (trailing, row₁, row₂) ← mergeTrailing (parents₁.dropWhile Item.isCombinator)
      (parents₂.dropWhile Item.isCombinator)
    let (row₁, row₂) ← shareRoot row₁ row₂
    let unify := fun group₁ group₂ => unifyRowsWith (weaveParentsWithin n) [group₁, group₂]
    let common := commonSubsequence (commonGroup unify) (groupItems row₂) (groupItems row₁)
    return rowsOfChoices
      ([leading.map .combinator] :: interleave common (groupItems row₁) (groupItems row₂) ++
        trailing)

/-- The rows in which two rows of parents of one element may be interleaved, if they can be. -/
def weaveParents (parents₁ parents₂ : List Item) : Option (List (List Item)) :=
  weaveParentsWithin (parents₁.length + parents₂.length + 1) parents₁ parents₂

/-- Several rows, each the parents of the last item of the next, woven into single rows. -/
def weave (rows : List (List Item)) : List (List Item) := weaveWith weaveParents rows

/-- The rows that match what all of several rows match, unless nothing does. -/
def unifyRows (rows : List (List Item)) : Option (List (List Item)) :=
  unifyRowsWith weaveParents rows

/-! ## Unifying selectors -/

/-- The selectors that match what both match, unless nothing does. -/
def Complex.unify (c₁ c₂ : Complex) : Option (List Complex) :=
  match unifyRows [c₁.items, c₂.items] with
  | none => none
  | some rows =>
    match rows.filter (!·.isEmpty) with
    | [] => none
    | rows => some (rows.map (⟨·, false⟩))

/-- The list that matches what both lists match, unless nothing does. -/
def SelectorList.unify (l₁ l₂ : SelectorList) : Option SelectorList :=
  match l₁.flatMap fun c₁ => l₂.flatMap fun c₂ => (c₁.unify c₂).getD [] with
  | [] => none
  | l => some l

end SelectorAlgebra
