import SelectorAlgebra.Selector.Equivalence

/-!
# Superselector/Cover — when one compound matches all that another matches

`covers` decides it for two compounds, given a relation `sup` that decides it for the rows of items
inside arguments.  Each condition of the first compound has to be met by the second one; a
condition with a selector argument is met by the rule for its kind:

    :is :matches :any :where    an argument of the same name is inside, or the compound itself is
    :has :host :host-context    an argument of the same name is inside
    ::slotted                   the same, among pseudo-elements
    :not                        every branch is ruled out by some condition
    :current                    the same argument stands under the same name
    :nth-child :nth-last-child  the same formula, and an argument inside
    all others                  the condition itself stands there

A compound with a pseudo-element matches pseudo-elements, so it is only covered by compounds that
name the pseudo-element too.
-/

namespace SelectorAlgebra

/-- A relation between rows of items. -/
abbrev ItemsRelation := List Item → List Item → Bool

/-- Whether every choice of `l₂` is below some choice of `l₁`. -/
def listCovers (sup : ItemsRelation) (l₁ l₂ : SelectorList) : Bool :=
  l₂.all fun c₂ => l₁.any fun c₁ => sup c₁.items c₂.items

/-- The kinds of pseudo-class that only match elements their argument matches. -/
def PseudoKind.isRestriction : PseudoKind → Bool
  | .is => true
  | .matchesAny => true
  | .any => true
  | .nthChild => true
  | .nthLastChild => true
  | _ => false

/-- Whether every choice of the list is a compound that has `simple` among its conditions. -/
def SelectorList.requires (l : SelectorList) (simple : Simple) : Bool :=
  l.all fun c => match c.singleCompound? with
    | some compound => compound.contains simple
    | none => false

/-- Whether `condition`, standing in a compound, implies `simple`. -/
def Simple.impliedBy (simple condition : Simple) : Bool :=
  simple == condition ||
    match condition with
    | .pseudo p =>
      match p.selector with
      | some l => p.kind.isRestriction && SelectorList.requires l simple
      | none => false
    | _ => false

/-- Whether some condition of the compound implies `simple`. -/
def Simple.metBy (simple : Simple) (compound : Compound) : Bool :=
  compound.any simple.impliedBy

/-- The selector arguments of the pseudo-classes, or of the pseudo-elements, with a given name. -/
def Compound.argumentsOf (compound : Compound) (name : String) (element : Bool) :
    List SelectorList :=
  compound.filterMap fun s => match s with
    | .pseudo p => if p.isElement == element && p.name == name then p.selector else none
    | _ => none

/-- Whether a condition rules out all that a branch of the argument of `:not` matches: another
type, another id, or a `:not` whose argument is above the branch. -/
def Simple.rulesOut (sup : ItemsRelation) (name : String) (condition : Simple)
    (branch : Complex) : Bool :=
  match condition with
  | .type _ => branch.lastCompound?.any fun c => c.any fun s => s.isType && s != condition
  | .idName _ => branch.lastCompound?.any fun c => c.any fun s => s.isId && s != condition
  | .pseudo p =>
    match p.selector with
    | some l => p.name == name && listCovers sup l [branch]
    | none => false
  | _ => false

/-- Whether the pseudo selector `p` with argument `l` is met by a compound behind `parents`. -/
def Pseudo.metBy (sup : ItemsRelation) (p : Pseudo) (l : SelectorList) (compound : Compound)
    (parents : List Item) : Bool :=
  let among (element : Bool) : Bool :=
    (compound.argumentsOf p.name element).any fun l' => listCovers sup l l'
  match p.kind with
  | .is | .matchesAny | .any | .whereAny =>
    among false || l.any fun c => sup c.items (parents ++ [.compound compound])
  | .has | .host | .hostContext => among false
  | .slotted => among true
  | .not => l.all fun branch => compound.any fun s => s.rulesOut sup p.name branch
  | .current => (compound.argumentsOf p.name false).any fun l' => l == l'
  | .nthChild | .nthLastChild => compound.any fun s => match s with
    | .pseudo p' => p'.name == p.name && p'.argument == p.argument &&
        p'.selector.any fun l' => listCovers sup l l'
    | _ => false
  | .other => Simple.metBy (.pseudo p) compound

/-- Whether a condition is met by a compound behind `parents`. -/
def Simple.metBehind (sup : ItemsRelation) (simple : Simple) (compound : Compound)
    (parents : List Item) : Bool :=
  match simple with
  | .pseudo p =>
    match p.selector with
    | some l => p.metBy sup l compound parents
    | none => simple.metBy compound
  | _ => simple.metBy compound

/-- Whether this is a pseudo-element without selector argument. -/
def Simple.isPlainPseudoElement : Simple → Bool
  | .pseudo p => p.isElement && p.selector.isNone
  | _ => false

/-- Whether `c₁` matches every element that `c₂` matches, given that `c₂` stands behind the items
`parents`. -/
def covers (sup : ItemsRelation) (c₁ c₂ : Compound) (parents : List Item) : Bool :=
  (c₁.all fun s => s.metBehind sup c₂ parents) &&
    c₂.all fun s => !s.isPlainPseudoElement || s.metBy c₁

end SelectorAlgebra
