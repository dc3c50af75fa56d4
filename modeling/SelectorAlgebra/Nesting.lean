import SelectorAlgebra.Error
import SelectorAlgebra.Selector.Occurrence
import SelectorAlgebra.Selector.Pseudo
import SelectorAlgebra.Sequence.Columns

/-!
# Nesting — the selector of a rule inside another rule

The selector of a nested rule may name the enclosing one by `&`:

    &          the parent itself
    &.b        the parent, with `.b` added to its last compound
    &-b        the parent, with `-b` added to the last name in it
    :not(&)    the parent as an argument
    .c         no `&` at all: inside the parent

A parent with several choices gives one resolution for each of them, and for each combination when
`&` stands in several compounds.  The results are listed choice of the parent by choice of the
parent.

The resolution of a compound takes that of the arguments inside it as a parameter;
`resolveWithin n` goes `n` levels deep.
-/

namespace SelectorAlgebra

/-- The condition with `suffix` added to the name it ends in; conditions that do not end in a name
refuse. -/
def Simple.withSuffix (s : Simple) (suffix : String) : Except SelectorError Simple :=
  match s with
  | .type q => .ok (.type { q with name := q.name ++ suffix })
  | .className name => .ok (.className (name ++ suffix))
  | .idName name => .ok (.idName (name ++ suffix))
  | .placeholder name => .ok (.placeholder (name ++ suffix))
  | .pseudo p =>
    if p.argument.isNone && p.selector.isNone then
      .ok (.pseudo (.written (p.name ++ suffix) p.doubleColon none none))
    else .error (.invalidSuffix s)
  | _ => .error (.invalidSuffix s)

/-- Whether `&` occurs in the argument of a pseudo selector. -/
def Simple.argumentContainsParent (s : Simple) : Bool :=
  s.argument?.any SelectorList.containsParent

/-- The condition with every `&` in its argument resolved. -/
def Simple.resolveArgument (resolve : SelectorList → Except SelectorError SelectorList)
    (s : Simple) : Except SelectorError Simple :=
  match s with
  | .pseudo p =>
    match p.selector with
    | some l =>
      if SelectorList.containsParent l then do return .pseudo (p.withSelector (← resolve l))
      else .ok s
    | none => .ok s
  | _ => .ok s

/-- A parent with a suffix and further conditions joined to its last compound. -/
def joinToParent (suffix : Option String) (conditions : List Simple) (parent : Complex) :
    Except SelectorError Complex :=
  match parent.lastCompound?.bind List.getLast? with
  | none => .error (.incompatibleParent parent)
  | some last => do
    let last ← match suffix with
      | some suffix => last.withSuffix suffix
      | none => .ok last
    let before := (parent.lastCompound?.getD []).dropLast
    return ⟨parent.items.dropLast ++ [.compound (before ++ last :: conditions)], parent.lineBreak⟩

/-- The selectors that replace a compound, or `none` if it names no parent. -/
def resolveCompound (resolve : SelectorList → Except SelectorError SelectorList)
    (parent : SelectorList) (compound : Compound) :
    Except SelectorError (Option (List Complex)) := do
  let resolved ← compound.mapM (Simple.resolveArgument resolve)
  match compound with
  | [.parent none] => return some parent
  | .parent suffix :: _ => return some (← parent.mapM (joinToParent suffix resolved.tail))
  | _ =>
    if compound.any Simple.argumentContainsParent then return some [.ofCompound resolved]
    else return none

/-- The selectors that replace an item, or `none` if it names no parent. -/
def resolveItem (resolve : SelectorList → Except SelectorError SelectorList)
    (parent : SelectorList) : Item → Except SelectorError (Option (List Complex))
  | .compound c => resolveCompound resolve parent c
  | .combinator _ => .ok none

/-- Every way to go on from the rows so far with one more item, given what replaces the item. -/
def continueWith (rows : List Complex) (item : Item) : Option (List Complex) → List Complex
  | none => rows.map fun row => ⟨row.items ++ [item], row.lineBreak⟩
  | some replacements => rows.flatMap fun row =>
      replacements.map fun c => ⟨row.items ++ c.items, row.lineBreak || c.lineBreak⟩

/-- The resolutions of one choice of the nested rule. -/
def resolveComplex (resolve : SelectorList → Except SelectorError SelectorList)
    (parent : SelectorList) (implicit : Bool) (c : Complex) : Except SelectorError (List Complex) :=
  if c.containsParent then
    c.items.foldlM (fun rows item => do
      return continueWith rows item (← resolveItem resolve parent item)) [⟨[], false⟩]
  else if implicit then
    .ok (parent.map fun p => ⟨p.items ++ c.items, c.lineBreak || p.lineBreak⟩)
  else .ok [c]

/-- A list nested under a parent, with arguments up to `n` levels deep.  Choices without `&` go
inside the parent if `implicit` says so. -/
def resolveWithin : Nat → SelectorList → Bool → SelectorList → Except SelectorError SelectorList
  | 0, _, _, l => .ok l
  | n + 1, parent, implicit, l => do
    return roundRobin (← l.mapM (resolveComplex (resolveWithin n parent false) parent implicit))

/-- The selector of a rule nested under `parent`, or outside every rule. -/
def SelectorList.resolveParents (l : SelectorList) (parent : Option SelectorList)
    (implicit : Bool) : Except SelectorError SelectorList :=
  match parent with
  | none => if l.containsParent then .error .topLevelParent else .ok l
  | some parent => resolveWithin (l.nesting + 1) parent implicit l

end SelectorAlgebra
