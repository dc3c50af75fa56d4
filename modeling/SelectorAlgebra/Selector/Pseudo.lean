import SelectorAlgebra.Selector.Basic

/-!
# Selector/Pseudo — what a pseudo selector is

The rule that a pseudo selector follows is told by its normalized name (`kind`).
-/

namespace SelectorAlgebra

/-- The pseudo selectors that have rules of their own when they carry a selector argument. -/
inductive PseudoKind where
  | is
  | matchesAny
  | any
  | whereAny
  | has
  | host
  | hostContext
  | slotted
  | not
  | current
  | nthChild
  | nthLastChild
  | other
  deriving DecidableEq, Repr, Inhabited

namespace PseudoKind

/-- The kind a normalized name selects. -/
def ofName (name : String) : PseudoKind :=
  match name with
  | "is" => .is
  | "matches" => .matchesAny
  | "any" => .any
  | "where" => .whereAny
  | "has" => .has
  | "host" => .host
  | "host-context" => .hostContext
  | "slotted" => .slotted
  | "not" => .not
  | "current" => .current
  | "nth-child" => .nthChild
  | "nth-last-child" => .nthLastChild
  | _ => .other

end PseudoKind

namespace Pseudo

/-- The pseudo selector that is written with a name, one or two colons before it, and arguments. -/
def written (name : String) (doubleColon : Bool) (argument : Option String)
    (selector : Option SelectorList) : Pseudo :=
  ⟨.written name doubleColon, argument, selector⟩

@[simp] theorem selector_written (name : String) (doubleColon : Bool) (argument : Option String)
    (selector : Option SelectorList) :
    (written name doubleColon argument selector).selector = selector := rfl

/-- The rule this pseudo selector follows. -/
def kind (p : Pseudo) : PseudoKind := .ofName p.normalizedName

/-- Whether this is a pseudo-element, however many colons it is written with. -/
def isElement (p : Pseudo) : Bool := !p.isClass

theorem isClass_eq_not_isElement (p : Pseudo) : p.isClass = !p.isElement := (Bool.not_not _).symm

/-- Whether this is `:host`, spelled exactly so. -/
def isHost (p : Pseudo) : Bool := p.isClass && p.name == "host"

/-- Whether this is `:host-context`, spelled exactly so. -/
def isHostContext (p : Pseudo) : Bool := p.isClass && p.name == "host-context"

/-- Whether this is the pseudo-class `:root`. -/
def isRoot (p : Pseudo) : Bool := p.isClass && p.normalizedName == "root"

/-- The same pseudo selector around another selector argument.  The name is copied with all that is
kept beside it. -/
def withSelector (p : Pseudo) (selector : SelectorList) : Pseudo :=
  { p with selector := some selector }

/-- A pseudo-class without argument. -/
def ofClass (name : String) : Pseudo := .written name false none none

/-- A pseudo-element without argument. -/
def ofElement (name : String) : Pseudo := .written name true none none

/-- A pseudo-class with a selector argument. -/
def around (name : String) (selector : SelectorList) : Pseudo :=
  .written name false none (some selector)

end Pseudo

/-- Whether this is a pseudo-element such as `::before`. -/
def Simple.isPseudoElement : Simple → Bool
  | .pseudo p => p.isElement
  | _ => false

/-- Whether one of the conditions is a pseudo-element. -/
def Compound.hasPseudoElement (compound : Compound) : Bool := compound.any Simple.isPseudoElement

end SelectorAlgebra
