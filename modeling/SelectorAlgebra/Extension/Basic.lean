import SelectorAlgebra.Error
import SelectorAlgebra.Selector.Equivalence
import SelectorAlgebra.Specificity.Selector

/-!
# Extension/Basic — one selector extending another

An extension `extender` extends `target` asks that whatever matches the extender is styled as if it
matched the target.  The same pair may be asked for by several rules; such extensions are merged
into one that remembers each rule (`Extension.rules`) and counts as a single rule (`asRule`) where
it is applied.
-/

namespace SelectorAlgebra

/-- The media queries around a rule. -/
abbrev MediaContext := List String

/-- What one rule asks for. -/
structure ExtendRule where
  /-- The selector that extends `target`. -/
  extender : Complex
  /-- The condition that is extended. -/
  target : Simple
  /-- Where the rule stands. -/
  span : Span
  /-- Where the selector stands that `extender` comes from. -/
  extenderSpan : Span
  /-- The media queries around the rule, if it stands inside any. -/
  media : Option MediaContext
  /-- Whether the target need not occur anywhere. -/
  optional : Bool
  /-- Whether the extender belongs to the selector that is extended. -/
  inherent : Bool
  /-- The specificity of the selector that the extender was written in. -/
  specificity : Nat

namespace ExtendRule

instance : BEq ExtendRule where
  beq a b :=
    a.extender == b.extender && a.target == b.target && a.span == b.span &&
      a.extenderSpan == b.extenderSpan && a.media == b.media && a.optional == b.optional &&
      a.inherent == b.inherent && a.specificity == b.specificity

/-- A rule as written in a style sheet. -/
def written (extender : Complex) (extenderSpan : Span) (target : Simple) (span : Span)
    (media : Option MediaContext) (optional : Bool) : ExtendRule :=
  ⟨extender, target, span, extenderSpan, media, optional, false, extender.specificity.max⟩

/-- A rule that no style sheet holds. -/
def oneOff (extender : Complex) (target : Simple) (span : Span) (specificity : Nat)
    (inherent : Bool) : ExtendRule :=
  ⟨extender, target, span, span, none, true, inherent, specificity⟩

/-- The same rule with another extender, found by extending the first one. -/
def withExtender (r : ExtendRule) (extender : Complex) : ExtendRule :=
  { r with extender := extender }

/-- A rule inside media queries may only reach selectors inside the same ones. -/
def checkMedia (r : ExtendRule) (media : Option MediaContext) : Except SelectorError Unit :=
  match r.media with
  | none => .ok ()
  | some own => if media == some own then .ok () else .error (.crossMediaExtend r.span)

end ExtendRule

/-- A rule, or several with the same extender and target. -/
inductive Extension where
  | rule (r : ExtendRule)
  | merged (left right : Extension)

namespace Extension

/-- The rule an extension counts as: the leftmost of its rules, but optional if there are several,
and inside the first media queries that any of them has. -/
def asRule : Extension → ExtendRule
  | .rule r => r
  | .merged left right =>
    { left.asRule with media := left.asRule.media.or right.asRule.media, optional := true }

/-- All rules that ask for the extension. -/
def rules : Extension → List ExtendRule
  | .rule r => [r]
  | .merged left right => left.rules ++ right.rules

/-- Whether several rules ask for the extension. -/
def isMerged : Extension → Bool
  | .rule _ => false
  | .merged _ _ => true

/-- The selector that extends the target. -/
def extender (e : Extension) : Complex := e.asRule.extender

/-- The condition that is extended. -/
def target (e : Extension) : Simple := e.asRule.target

/-- Whether an extension adds nothing to another one for the same pair: it may go unmet and holds
everywhere. -/
def isIdle (e : Extension) : Bool := e.asRule.optional && e.asRule.media.isNone

/-- Whether both extensions stand inside media queries, and not the same ones. -/
def mediaConflict (left right : Extension) : Bool :=
  match left.asRule.media, right.asRule.media with
  | some m₁, some m₂ => m₁ != m₂
  | _, _ => false

end Extension

/-- Why an operation on extensions was given up. -/
inductive Failure where
  /-- The style sheet asks for something that is refused. -/
  | refused (cause : SelectorError)
  /-- A caller broke a promise. -/
  | broken (fault : Fault)
  /-- Extending extensions did not come to an end within a number of rounds. -/
  | unsettled (rounds : Nat)

/-- One extension for two with the same extender and target.  One that adds nothing gives way to
the other. -/
def Extension.merge (left right : Extension) : Except Failure Extension :=
  if !(left.extender == right.extender && left.target == right.target) then
    .error (.broken (.extensionMismatch left.extender right.extender))
  else if mediaConflict left right then
    .error (.refused (.nested left.asRule.span (.conflictingMedia right.asRule.span)))
  else if right.isIdle then .ok left
  else if left.isIdle then .ok right
  else .ok (.merged left right)

end SelectorAlgebra
