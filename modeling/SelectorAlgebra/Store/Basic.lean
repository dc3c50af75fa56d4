import SelectorAlgebra.Extension.Apply
import SelectorAlgebra.Selector.Visibility
import SelectorAlgebra.Validity

/-!
# Store/Basic — the selectors and extensions of one style sheet

A store holds the selectors of all rules met so far, each as extended as it can be, and the
extensions met so far.  It keeps two indexes, so that a new extension only visits what it can
change:

    bySimple    condition ↦ the selectors it occurs in, at any depth
    byExtender  condition ↦ the rules whose extender mentions it

This module has the store's type, its queries and the small updates; `Store/Settle` and
`Store/Update` have the operations.
-/

namespace SelectorAlgebra

/-- The selector of a rule, with the place and the media queries of the rule. -/
structure Slot where
  value : SelectorList
  span : Span
  media : Option MediaContext

/-- All that is known of a style sheet's selectors and extensions. -/
structure Store where
  mode : ExtendMode
  /-- How many rounds of extending extensions are tried before giving up. -/
  roundLimit : Nat
  /-- The selectors, in the order they were added. -/
  slots : List Slot
  /-- For each condition, the positions of the selectors it occurs in. -/
  bySimple : OrderedMap Simple (List Nat)
  extensions : ExtensionMap
  /-- For each condition, the rules whose extender mentions it. -/
  byExtender : OrderedMap Simple (List ExtendRule)
  sources : SourceSpecificity
  /-- The selectors that authors wrote. -/
  authored : List Complex

/-- An operation on a store: it may fail, and what it did to the store until then stays. -/
abbrev Storing (α : Type) := ExceptT Failure (StateM Store) α

namespace Store

/-- The store of an empty style sheet. -/
def empty (mode : ExtendMode) (roundLimit : Nat) : Store :=
  ⟨mode, roundLimit, [], .empty, .empty, .empty, .empty, []⟩

/-! ## Queries -/

/-- The number of selectors. -/
def count (s : Store) : Nat := s.slots.length

/-- Whether no extension was ever added. -/
def isEmpty (s : Store) : Bool := s.extensions.isEmpty

/-- The current selectors, in the order they were added. -/
def selectors (s : Store) : List SelectorList := s.slots.map Slot.value

/-- The current selector at a position. -/
def selector? (s : Store) (id : Nat) : Option SelectorList := (s.slots[id]?).map Slot.value

/-- Every condition that occurred in a selector, in the order they were first met. -/
def simples (s : Store) : List Simple := s.bySimple.keys

/-- The mandatory rules whose target is picked, every merged one by itself. -/
def mandatoryRules (s : Store) (pick : Simple → Bool) : List ExtendRule :=
  ((s.extensions.entries.filter fun e => pick e.1).flatMap fun e =>
    e.2.values.flatMap Extension.rules).filter fun r => !r.optional

/-- Every mandatory rule has to have found its target; the first one that has not is reported. -/
def checkTargets (s : Store) : Except SelectorError Unit :=
  match s.mandatoryRules fun target => !s.bySimple.contains target with
  | [] => .ok ()
  | r :: _ => .error (.targetNotFound r.target r.span)

/-! ## Small updates -/

/-- The store with selectors counted as author-written. -/
def addAuthored (s : Store) (l : SelectorList) : Store :=
  { s with authored := l.foldl addDistinct s.authored }

/-- The index with every condition that occurs in a list pointing to its position. -/
def register (index : OrderedMap Simple (List Nat)) (l : SelectorList) (id : Nat) :
    OrderedMap Simple (List Nat) :=
  (SelectorList.simples l).foldl
    (fun m simple => m.alter simple fun ids => addDistinct (ids.getD []) id) index

/-- The store with one more selector. -/
def pushSlot (s : Store) (slot : Slot) : Store :=
  { s with slots := s.slots ++ [slot], bySimple := register s.bySimple slot.value s.count }

/-- The store with another selector at a position. -/
def setSelector (s : Store) (id : Nat) (slot : Slot) (value : SelectorList) : Store :=
  { s with
    slots := s.slots.set id { slot with value := value }
    bySimple := register s.bySimple value id }

/-- The store with an entry for a target, which may still have no extension. -/
def ensureTarget (s : Store) (target : Simple) : Store :=
  { s with extensions := s.extensions.insertNew target .empty }

/-- The map with an extension of a target by an extender. -/
def setExtension (m : ExtensionMap) (target : Simple) (extender : Complex) (e : Extension) :
    ExtensionMap :=
  m.alter target fun sources => (sources.getD .empty).insert extender e

/-- The store with an extension of a target by an extender. -/
def putExtension (s : Store) (target : Simple) (extender : Complex) (e : Extension) : Store :=
  { s with extensions := setExtension s.extensions target extender e }

/-- The store without an extension. -/
def dropExtension (s : Store) (target : Simple) (extender : Complex) : Store :=
  { s with extensions := s.extensions.alter target fun sources =>
      (sources.getD .empty).erase extender }

/-- The store with a rule in the index under each of the given conditions. -/
def indexRule (s : Store) (r : ExtendRule) (conditions : List Simple) : Store :=
  let add := fun index simple => OrderedMap.alter index simple fun rules => rules.getD [] ++ [r]
  { s with byExtender := conditions.foldl add s.byExtender }

/-- The store with the specificity of an extender under each of its conditions that has none. -/
def noteSources (s : Store) (extender : Complex) : Store :=
  let note := fun sources simple => OrderedMap.insertNew sources simple extender.specificity.max
  { s with sources := extender.simples.foldl note s.sources }

end Store

/-- An operation that only may fail. -/
def Storing.ofExcept {α : Type} (e : Except Failure α) : Storing α := ExceptT.mk (pure e)

/-- A step of extending, with the given extensions, for a selector at `span` inside `media`. -/
def Storing.extending {α : Type} (extensions : ExtensionMap) (span : Span)
    (media : Option MediaContext) (step : ExtendContext → Extending α) : Storing α := do
  let s ← get
  let (result, authored) := (step ⟨s.mode, s.sources, extensions, media⟩).run.run s.authored
  modify fun s => { s with authored := authored }
  match result with
  | .ok a => return a
  | .error cause => throw (.refused (.nested span cause))

end SelectorAlgebra
