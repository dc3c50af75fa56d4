import SelectorAlgebra.Extension.Apply
import SelectorAlgebra.Selector.Visibility

/-!
# Extension/OneShot — extending and replacing outside a style sheet

`extend` adds to a selector what it becomes when `source` extends the targets, `replace` puts that
in its place.  Each member of the list of targets is one step; all conditions of a member have to
be met together.
-/

namespace SelectorAlgebra

/-- The compounds that a list of targets is made of. -/
def SelectorList.compoundTargets (targets : SelectorList) : Except SelectorError (List Compound) :=
  targets.mapM fun c => match c.singleCompound? with
    | some compound => .ok compound
    | none => .error (.complexTarget c)

/-- The extensions of every condition of a compound by every choice of `source`. -/
def extensionsOf (source : SelectorList) (compound : Compound) (span : Span) : ExtensionMap :=
  .ofList (compound.map fun s => (s, .ofList (source.map fun c =>
    (c, .rule (.oneOff c s span c.specificity.max false)))))

/-- The selector after one target has been extended or replaced in it. -/
def applyTarget (mode : ExtendMode) (source : SelectorList) (span : Span) (l : SelectorList)
    (target : Compound) : Extending SelectorList := do
  let ctx : ExtendContext := ⟨mode, .empty, extensionsOf source target span, none⟩
  return (← ctx.extendList l).getD l

/-- The selector after all targets have been extended or replaced in it, one after the other.  All
its choices are author-written, unless it is invisible. -/
def applyTargets (mode : ExtendMode) (l source targets : SelectorList) (span : Span) :
    Except SelectorError SelectorList := do
  let compounds ← targets.compoundTargets
  let authored := if l.isInvisible then [] else List.foldl addDistinct [] l
  ((compounds.foldlM (applyTarget mode source span) l).run.run authored).1

/-- The selector, extended as though a rule with selector `source` extended the targets. -/
def SelectorList.extend (l source targets : SelectorList) (span : Span) :
    Except SelectorError SelectorList :=
  applyTargets .allTargets l source targets span

/-- The selector with the targets in it replaced by `source`. -/
def SelectorList.replace (l source targets : SelectorList) (span : Span) :
    Except SelectorError SelectorList :=
  applyTargets .replace l source targets span

end SelectorAlgebra
