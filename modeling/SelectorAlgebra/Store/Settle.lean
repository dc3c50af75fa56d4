import SelectorAlgebra.Store.Basic

/-!
# Store/Settle — extending extenders until nothing new appears

When `.c` extends `.a` and `.a` already extends `.b`, then `.c` extends `.b` too.  A round extends
the extenders of some rules by some extensions; the rules it adds feed the next round.  Extenders
that contain their own target can go on for ever, so the number of rounds is limited.
-/

namespace SelectorAlgebra.Store

/-- The rule of an extender that extending another one gave.  It is returned if its pair is new and
its target is among those that are being extended. -/
def addDerived (pending : ExtensionMap) (r : ExtendRule) : Storing (Option ExtendRule) := do
  let s ← get
  match (s.extensions.get? r.target).bind (·.get? r.extender) with
  | some existing =>
    if existing.rules.contains r then return none
    let merged ← Storing.ofExcept (Extension.merge existing (.rule r))
    modify (·.putExtension r.target r.extender merged)
    return none
  | none =>
    modify fun s =>
      (s.indexRule r r.extender.compounds.flatten).putExtension r.target r.extender (.rule r)
    return if pending.contains r.target then some r else none

/-- The new rules found by extending the extender of one rule.  A rule whose extender became
something else is given up. -/
def extendRule (pending : ExtensionMap) (r : ExtendRule) : Storing (List ExtendRule) := do
  match ← Storing.extending pending r.extenderSpan r.media (·.extendComplex r.extender) with
  | none => return []
  | some found =>
    if !(← get).extensions.contains r.target then return []
    let keepsItself := found.head?.any (· == r.extender)
    let others := if keepsItself then found.tail else found
    let added ← others.mapM fun c => addDerived pending (r.withExtender c)
    if !keepsItself then modify (·.dropExtension r.target r.extender)
    return added.filterMap id

/-- The map of some rules, each under its target and extender. -/
def mapOfRules (rules : List ExtendRule) : ExtensionMap :=
  rules.foldl (fun m r => setExtension m r.target r.extender (.rule r)) .empty

/-- A map with all extensions of another one added to it. -/
def addAll (m new : ExtensionMap) : ExtensionMap :=
  new.entries.foldl (fun m e => m.alter e.1 fun sources =>
    (sources.getD .empty).insertAll e.2.entries) m

/-- The rules that what a round added may extend: those whose extender mentions one of its targets,
apart from the ones it added itself. -/
def affectedRules (s : Store) (added : ExtensionMap) : List ExtendRule :=
  (added.keys.flatMap fun target => (s.byExtender.get? target).getD []).filter fun r =>
    !((added.get? r.target).any (·.contains r.extender))

/-- Rounds of extending rules by the `pending` extensions and by what that adds; at most `limit` of
them.  The result is `new` with all extensions that were added. -/
def settleWithin (limit : Nat) :
    Nat → List ExtendRule → ExtensionMap → ExtensionMap → Storing ExtensionMap
  | _, [], _, new => return new
  | 0, _, _, _ => throw (.unsettled limit)
  | n + 1, rules, pending, new => do
    let added := mapOfRules (← rules.mapM (extendRule pending)).flatten
    if added.isEmpty then return new
    settleWithin limit n (affectedRules (← get) added) added (addAll new added)

/-- Extends the extenders of `rules` by the extensions `new`, and goes on with what that adds.  The
result is `new` with all extensions that were added. -/
def settle (rules : List ExtendRule) (new : ExtensionMap) : Storing ExtensionMap := do
  let limit := (← get).roundLimit
  settleWithin limit limit rules new new

end SelectorAlgebra.Store
