import SelectorAlgebra.Store.Settle

/-!
# Store/Update — adding rules, extensions and other style sheets

Selectors and extensions may come in any order: a selector is extended by all extensions there are
when it comes in, and an extension is applied at once to all selectors there are.  An operation that
fails leaves what it has done so far.
-/

namespace SelectorAlgebra.Store

/-- Extends the selectors at the given positions.  A selector that does not change is left exactly
as it is. -/
def extendSelectors (new : ExtensionMap) (ids : List Nat) : Storing Unit :=
  ids.forM fun id => do
    match (← get).slots[id]? with
    | none => return ()
    | some slot =>
      match ← Storing.extending new slot.span slot.media (·.extendList slot.value) with
      | none => return ()
      | some extended =>
        if extended == slot.value then return ()
        modify (·.setSelector id slot extended)

/-- Adds the selector of a rule, and gives its position. -/
def addSelector (l : SelectorList) (span : Span) (media : Option MediaContext) : Storing Nat := do
  if !l.isInvisible then modify (·.addAuthored l)
  let s ← get
  let extended ←
    if s.extensions.isEmpty then pure none
    else Storing.extending s.extensions span media (·.extendList l)
  modify (·.pushSlot ⟨extended.getD l, span, media⟩)
  return s.count

/-- Adds one rule to the extensions.  It is returned if its extender and target are a new pair. -/
def addRule (r : ExtendRule) : Storing (Option ExtendRule) := do
  match ((← get).extensions.get? r.target).bind (·.get? r.extender) with
  | some existing =>
    let merged ← Storing.ofExcept (Extension.merge existing (.rule r))
    modify (·.putExtension r.target r.extender merged)
    return none
  | none =>
    modify fun s => ((s.putExtension r.target r.extender (.rule r)).indexRule r
      r.extender.simples).noteSources r.extender
    return some r

/-- Adds the rule that every choice of `extender` extends `target`, and applies it. -/
def addExtension (extender : SelectorList) (extenderSpan : Span) (target : Simple) (span : Span)
    (media : Option MediaContext) (optional : Bool) : Storing Unit := do
  let s ← get
  let dependents := s.byExtender.get? target
  let reached := s.bySimple.contains target || dependents.isSome
  modify (·.ensureTarget target)
  let added ← (extender.filter (!·.isUseless)).mapM fun c =>
    addRule (.written c extenderSpan target span media optional)
  if !reached then return ()
  match added.filterMap id with
  | [] => return ()
  | rules =>
    let new ← settle (dependents.getD []) (mapOfRules rules)
    extendSelectors new (((← get).bySimple.get? target).getD [])

/-! ## Other style sheets -/

/-- What an import has found so far: extensions that reach something here, and what they reach. -/
structure Import where
  new : ExtensionMap
  rules : List ExtendRule
  ids : List Nat

/-- Adds the extensions of one target from another store. -/
def importTarget (found : Import) (entry : Simple × OrderedMap Complex Extension) :
    Storing Import := do
  let (target, sources) := entry
  if target.isPrivatePlaceholder then return found
  let s ← get
  let rules := s.byExtender.get? target
  let ids := s.bySimple.get? target
  modify (·.ensureTarget target)
  let added ← sources.entries.mapM fun (extender, e) => do
    let e ← match ((← get).extensions.get? target).bind (·.get? extender) with
      | some existing => Storing.ofExcept (Extension.merge existing e)
      | none => pure e
    modify (·.putExtension target extender e)
    return (extender, e)
  let reached := rules.isSome || ids.isSome
  return {
    new := if reached then
        added.foldl (fun m (extender, e) => setExtension m target extender e) found.new
      else found.new
    rules := found.rules ++ rules.getD []
    ids := (ids.getD []).foldl addDistinct found.ids }

/-- Adds the extensions of one other store. -/
def importStore (found : Import) (other : Store) : Storing Import := do
  if other.isEmpty then return found
  modify fun s => { s with sources := s.sources.insertAll other.sources.entries }
  other.extensions.entries.foldlM importTarget found

/-- Adds the extensions of other stores, apart from those of private placeholders, and applies
them. -/
def addExtensions (others : List Store) : Storing Unit := do
  let found ← others.foldlM importStore ⟨.empty, [], []⟩
  if found.new.isEmpty then return ()
  let new ← settle found.rules found.new
  extendSelectors new found.ids

end SelectorAlgebra.Store
