import SelectorAlgebra.Fault
import SelectorAlgebra.Selector.Equivalence

/-!
# Unification/Compound — the compound that requires what two compounds require

`Simple.unify` adds one condition to a compound, or fails when no element can meet both.  Element
names stay in front, pseudo selectors at the end with pseudo-elements last.  A lone `*` or `:host`
decides itself what it becomes together with another condition: `*` gives way, `:host` only stands
beside conditions that have selector arguments.

`Compound.unify` adds the conditions of one compound to another, one after the other.
-/

namespace SelectorAlgebra

/-! ## Element names -/

/-- The namespace that two name; a missing one only agrees with a missing one, or with any. -/
def unifyNamespaces (ns₁ ns₂ : Option Namespace) : Option (Option Namespace) :=
  if ns₁ = ns₂ ∨ ns₂ = some .any then some ns₁
  else if ns₁ = some .any then some ns₂
  else none

/-- The local name that two name, where a missing one stands for every name. -/
def unifyLocalNames (name₁ name₂ : Option String) : Option (Option String) :=
  if name₁ = name₂ ∨ name₂ = none then some name₁
  else if name₁ = none then some name₂
  else none

/-- Namespace and local name of a type or universal selector. -/
def Simple.elementName? : Simple → Option (Option Namespace × Option String)
  | .universal ns => some (ns, none)
  | .type q => some (q.ns, some q.name)
  | _ => none

/-- The type or universal selector with a namespace and, unless it is universal, a local name. -/
def Simple.ofElementName (ns : Option Namespace) : Option String → Simple
  | none => .universal ns
  | some name => .type ⟨name, ns⟩

/-- The type or universal selector that requires what two of them require. -/
def Simple.unifyElement (s₁ s₂ : Simple) : Option Simple := do
  let (ns₁, name₁) ← s₁.elementName?
  let (ns₂, name₂) ← s₂.elementName?
  let ns ← unifyNamespaces ns₁ ns₂
  let name ← unifyLocalNames name₁ name₂
  return .ofElementName ns name

/-! ## One condition and a compound -/

/-- Whether this is `:host` or `:host-context`. -/
def Simple.isHostLike : Simple → Bool
  | .pseudo p => p.isHost || p.isHostContext
  | _ => false

/-- Whether this condition may stand beside `:host`: it is `:host` itself or has a selector
argument. -/
def Simple.standsWithHost : Simple → Bool
  | .pseudo p => p.isHost || p.selector.isSome
  | _ => false

/-- A universal selector together with a compound. -/
def unifyUniversal (ns : Option Namespace) (compound : Compound) : Option Compound :=
  match compound with
  | [] => some [.universal ns]
  | first :: rest =>
    if first.isUniversalOrType then
      (Simple.unifyElement (.universal ns) first).map (· :: rest)
    else if rest.isEmpty && first.isHostLike then none
    else if ns = none ∨ ns = some .any then some compound
    else some (.universal ns :: compound)

/-- A type selector together with a compound. -/
def unifyType (name : QualifiedName) (compound : Compound) : Option Compound :=
  match compound with
  | first :: rest =>
    if first.isUniversalOrType then (Simple.unifyElement (.type name) first).map (· :: rest)
    else some (.type name :: compound)
  | [] => some [.type name]

/-- The compound with the pseudo selector `p` in it: before every pseudo-element, or at the end if
there is none.  Two different pseudo-elements do not go together. -/
def insertPseudo (p : Pseudo) (compound : Compound) : Option Compound :=
  if compound.contains (.pseudo p) then some compound
  else if compound.hasPseudoElement then
    if p.isElement then none
    else some (compound.flatMap fun s => if s.isPseudoElement then [.pseudo p, s] else [s])
  else some (compound ++ [.pseudo p])

/-- The pseudo-class `:host` or `:host-context` together with a compound. -/
def unifyHost (p : Pseudo) (compound : Compound) : Option Compound :=
  if compound.all Simple.standsWithHost then insertPseudo p compound else none

/-- What a compound that is a lone `*` or `:host` becomes together with `s`; `none` if the compound
is anything else. -/
def unifyWithLone (s : Simple) : Compound → Option (Option Compound)
  | [.universal ns] => some (unifyUniversal ns [s])
  | [.pseudo p] => if p.isHost || p.isHostContext then some (unifyHost p [s]) else none
  | _ => none

/-- Whether this is a pseudo selector. -/
def Simple.isPseudo : Simple → Bool
  | .pseudo _ => true
  | _ => false

/-- The compound with `s` in it, before the first pseudo selector. -/
def insertBeforePseudos (s : Simple) (compound : Compound) : Compound :=
  if compound.contains s then compound
  else compound.takeWhile (!·.isPseudo) ++ s :: compound.dropWhile (!·.isPseudo)

/-- An ordinary condition together with a compound. -/
def unifyOrdinary (s : Simple) (compound : Compound) : Option Compound :=
  match unifyWithLone s compound with
  | some result => result
  | none => some (insertBeforePseudos s compound)

/-- The compound that requires a condition and what `compound` requires, unless no element can meet
both. -/
def Simple.unify (s : Simple) (compound : Compound) : Option Compound :=
  match s with
  | .universal ns => unifyUniversal ns compound
  | .type name => unifyType name compound
  | .idName _ =>
    if compound.any fun t => t.isId && t != s then none else unifyOrdinary s compound
  | .pseudo p =>
    if p.isHost || p.isHostContext then unifyHost p compound
    else match unifyWithLone s compound with
      | some result => result
      | none => insertPseudo p compound
  | _ => unifyOrdinary s compound

/-! ## Two compounds -/

/-- The compound that requires what two require, unless no element can meet both. -/
def Compound.unify (c₁ c₂ : Compound) : Option Compound :=
  c₁.foldlM (fun found s => s.unify found) c₂

/-- The same for conditions that need not make up a compound: none at all on both sides is a
fault. -/
def unifyConditions (c₁ c₂ : List Simple) : Except Fault (Option Compound) :=
  match Compound.unify c₁ c₂ with
  | some [] => .error .emptyCompound
  | result => .ok result

end SelectorAlgebra
