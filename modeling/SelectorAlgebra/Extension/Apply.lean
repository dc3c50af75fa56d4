import SelectorAlgebra.Extension.Basic
import SelectorAlgebra.Extension.Mode
import SelectorAlgebra.Extension.Trim
import SelectorAlgebra.Selector.Occurrence
import SelectorAlgebra.Unification.Weave

/-!
# Extension/Apply — extending a selector

Extending goes through the levels of a selector:

    condition  may stand for itself or for the extenders of the extensions it is a target of
    compound   one unification for each way to pick from its conditions
    complex    one weaving for each way to pick from its compounds
    list       all of them, trimmed

A pseudo selector is first extended in its argument.  What extending gives for a level is `none`
when no extension applies, so that an unextended selector stays exactly as it is.

Along the way the selectors that authors wrote are kept track of: what an author-written selector
itself becomes counts as author-written.  That record is kept even when extending is given up half
way because an extension would leave its media queries.
-/

namespace SelectorAlgebra

/-- For each target, its extensions by extender. -/
abbrev ExtensionMap := OrderedMap Simple (OrderedMap Complex Extension)

/-- What extending depends on. -/
structure ExtendContext where
  mode : ExtendMode
  sources : SourceSpecificity
  extensions : ExtensionMap
  /-- The media queries around the selector that is extended. -/
  media : Option MediaContext

/-- A step of extending: it may be refused, and it keeps the record of author-written selectors. -/
abbrev Extending (α : Type) := ExceptT SelectorError (StateM (List Complex)) α

/-- A step that may only be refused. -/
def Extending.ofExcept {α : Type} (e : Except SelectorError α) : Extending α := ExceptT.mk (pure e)

/-- What may stand in the place of one condition or more. -/
inductive Substitute where
  /-- The conditions themselves. -/
  | kept (conditions : Compound)
  /-- The extender of an extension. -/
  | extended (e : Extension)

namespace Substitute

/-- The selector that stands there. -/
def complex : Substitute → Complex
  | .kept conditions => .ofCompound conditions
  | .extended e => e.extender

/-- The conditions that are kept. -/
def keptConditions : Substitute → Compound
  | .kept conditions => conditions
  | .extended _ => []

/-- The row of an extender. -/
def extenderRow? : Substitute → Option (List Item)
  | .kept _ => none
  | .extended e => some e.extender.items

/-- An extender may have to stay inside its media queries. -/
def checkMedia (media : Option MediaContext) : Substitute → Except SelectorError Unit
  | .kept _ => .ok ()
  | .extended e => e.asRule.checkMedia media

end Substitute

/-! ## Arguments of pseudo selectors -/

/-- What replaces a choice in the argument of `p`: the argument of a pseudo selector that is all
there is in the choice may take its place, if the two mean the same one inside the other. -/
def Pseudo.flattenChoice (p : Pseudo) (c : Complex) : List Complex :=
  match c.singleCompound? with
  | some [.pseudo inner] =>
    match inner.selector with
    | none => [c]
    | some l =>
      match p.kind with
      | .not => if inner.kind == .is || inner.kind == .matchesAny then l else []
      | .is | .matchesAny | .whereAny | .any | .current | .nthChild | .nthLastChild =>
        if inner.name == p.name && inner.argument == p.argument then l else []
      | .has | .host | .hostContext | .slotted => [c]
      | .other => []
  | _ => [c]

/-- The choices that go into `p` instead of its argument `l`.  Selectors of several items stay out
of a `:not` that had none, as long as something else is left. -/
def Pseudo.choicesFor (p : Pseudo) (l extended : SelectorList) : SelectorList :=
  let simplified :=
    if p.kind == .not && !(l.any fun c => 1 < c.items.length) &&
        extended.any fun c => c.items.length == 1 then
      extended.filter fun c => c.items.length ≤ 1
    else extended
  simplified.flatMap p.flattenChoice

/-- The pseudo selectors that replace `p` when its argument `l` is extended.  A `:not` around one
choice becomes one `:not` for each. -/
def Pseudo.withExtended (p : Pseudo) (l extended : SelectorList) : Option (List Pseudo) :=
  match p.choicesFor l extended with
  | [] => none
  | choices =>
    if p.kind == .not && l.length == 1 then some (choices.map fun c => p.withSelector [c])
    else some [p.withSelector choices]

/-- The conditions that replace `s` when its argument is extended, if it has one and it is. -/
def Simple.extendArgument (inner : SelectorList → Extending (Option SelectorList)) (s : Simple) :
    Extending (Option (List Simple)) :=
  match s with
  | .pseudo p =>
    match p.selector with
    | some l => do
      match ← inner l with
      | some extended => return (p.withExtended l extended).map (·.map .pseudo)
      | none => return none
    | none => return none
  | _ => return none

/-! ## Compounds -/

namespace ExtendContext

variable (ctx : ExtendContext)

/-- What may stand for a condition, if it is a target. -/
def substitutes? (s : Simple) : Option (List Substitute) :=
  (ctx.extensions.get? s).map fun sources =>
    let added := sources.values.map Substitute.extended
    if ctx.mode = .replace then added else .kept [s] :: added

/-- The choices for one condition, given what replaces it when its argument is extended. -/
def choicesFor (part : Simple × Option (List Simple)) : Option (List (List Substitute)) :=
  match part.2 with
  | some replaced => some (replaced.map fun t => (ctx.substitutes? t).getD [.kept [t]])
  | none => (ctx.substitutes? part.1).map ([·])

/-- The targets met by the conditions of a compound. -/
def targetsMet (parts : List (Simple × Option (List Simple))) : List Simple :=
  ((parts.flatMap fun part => part.2.getD [part.1]).filter ctx.extensions.contains).foldl
    addDistinct []

/-- Whether as many targets are met as the mode asks for. -/
def enoughTargets (parts : List (Simple × Option (List Simple))) : Bool :=
  ctx.mode == .normal || ctx.extensions.size < 2 ||
    (ctx.targetsMet parts).length == ctx.extensions.size

/-- The choices for a compound, unless nothing in it is extended.  The conditions before the first
extended one stay together. -/
def compoundChoices (parts : List (Simple × Option (List Simple))) :
    Option (List (List Substitute)) :=
  let untouched := fun part => (ctx.choicesFor part).isNone
  let before := (parts.takeWhile untouched).map Prod.fst
  match parts.dropWhile untouched with
  | [] => none
  | rest =>
    some ((if before.isEmpty then [] else [[.kept before]]) ++
      rest.flatMap fun part => (ctx.choicesFor part).getD [[.kept [part.1]]])

/-- The rows that a selection of substitutes unifies to.  What is kept makes up one compound. -/
def unifySelection (selection : List Substitute) : Option (List (List Item)) :=
  let rows := selection.filterMap Substitute.extenderRow?
  match selection.flatMap Substitute.keptConditions with
  | [] => unifyRows rows
  | kept => unifyRows ([.compound kept] :: rows)

/-- The row of a selection in which the selector stands for itself. -/
def keptSelection (selection : List Substitute) : Option (List (List Item)) :=
  some [[.compound (selection.flatMap fun s => s.complex.lastCompound?.getD [])]]

/-- The selectors of a selection, from the rows it gives. -/
def complexesOf (selection : List Substitute) (rows : Option (List (List Item))) :
    Except SelectorError (Option (List Complex)) :=
  match rows with
  | none => .ok none
  | some rows => do
    selection.forM (Substitute.checkMedia ctx.media)
    let lineBreak := selection.any (·.complex.lineBreak)
    return some ((rows.filter (!·.isEmpty)).map (⟨·, lineBreak⟩))

/-- The selectors of every selection.  The first one is the selector itself, unless it gives
way. -/
def complexesOfSelections (choices : List (List Substitute)) :
    Except SelectorError (List (Option (List Complex))) :=
  match ctx.mode, selections choices with
  | .replace, all => all.mapM fun s => ctx.complexesOf s (unifySelection s)
  | _, [] => .ok []
  | _, first :: rest => do
    let kept ← ctx.complexesOf first (keptSelection first)
    return kept :: (← rest.mapM fun s => ctx.complexesOf s (unifySelection s))

/-- The selectors a compound becomes, given the choices for it; `authored` tells whether it is part
of an author-written selector. -/
def complexesOfChoices (authored : Bool) (choices : List (List Substitute)) :
    Except SelectorError (List Complex) :=
  match choices with
  | [only] => only.mapM fun s => do
      s.checkMedia ctx.media
      return s.complex
  | _ => do
    let found ← ctx.complexesOfSelections choices
    let itself := if authored && ctx.mode != .replace then
        found.head?.join.bind List.head?
      else none
    return trim ctx.sources (fun c => itself.any (· == c))
      (found.flatMap (·.getD []))

/-- The selectors a compound becomes, unless no extension applies. -/
def extendCompound (inner : SelectorList → Extending (Option SelectorList)) (authored : Bool)
    (c : Compound) : Extending (Option (List Complex)) := do
  let parts ← c.mapM fun s => do return (s, ← s.extendArgument inner)
  match ctx.compoundChoices parts with
  | none => return none
  | some choices =>
    if ctx.enoughTargets parts then
      return some (← Extending.ofExcept (ctx.complexesOfChoices authored choices))
    else return none

/-! ## Complex selectors and lists -/

/-- The selectors an item becomes, unless no extension applies. -/
def extendItem (inner : SelectorList → Extending (Option SelectorList)) (authored : Bool) :
    Item → Extending (Option (List Complex))
  | .compound c => ctx.extendCompound inner authored c
  | .combinator _ => return none

/-- All weavings of the choices for the items of a selector. -/
def weaveChoices (lineBreak : Bool) (choices : List (List Complex)) : List Complex :=
  (selections choices).flatMap fun path =>
    ((weave (path.map Complex.items)).filter (!·.isEmpty)).map
      (⟨·, lineBreak || path.any Complex.lineBreak⟩)

/-- The selectors a complex selector becomes, unless no extension applies, given how arguments are
extended.  The first one is the selector itself if it is kept. -/
def extendComplexWith (inner : SelectorList → Extending (Option SelectorList)) (c : Complex) :
    Extending (Option (List Complex)) := do
  let authored := (← get).contains c
  let parts ← c.items.mapM (ctx.extendItem inner authored)
  if parts.all Option.isNone then return none
  let choices := List.zipWith (fun item part => part.getD [⟨[item], false⟩]) c.items parts
  let result := weaveChoices c.lineBreak choices
  if authored then
    match result with
    | first :: _ => modify (addDistinct · first)
    | [] => pure ()
  return some result

/-- The list a selector list becomes, unless no extension applies, given how arguments are
extended. -/
def extendListWith (inner : SelectorList → Extending (Option SelectorList)) (l : SelectorList) :
    Extending (Option SelectorList) := do
  let parts ← l.mapM (ctx.extendComplexWith inner)
  if parts.all Option.isNone then return none
  let extended := (List.zipWith (fun c part => part.getD [c]) l parts).flatten
  let authored ← get
  match trim ctx.sources authored.contains extended with
  | [] => return none
  | trimmed => return some trimmed

/-- The list a selector list with arguments up to `n` levels deep becomes. -/
def extendListWithin : Nat → SelectorList → Extending (Option SelectorList)
  | 0, _ => return none
  | n + 1, l => ctx.extendListWith (extendListWithin n) l

/-- The list a selector list becomes, unless no extension applies. -/
def extendList (l : SelectorList) : Extending (Option SelectorList) :=
  ctx.extendListWithin (l.nesting + 1) l

/-- The selectors a complex selector becomes, unless no extension applies. -/
def extendComplex (c : Complex) : Extending (Option (List Complex)) :=
  ctx.extendComplexWith (ctx.extendListWithin (nestingOfItems c.items)) c

end ExtendContext

end SelectorAlgebra
