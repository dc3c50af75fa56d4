import SelectorAlgebra.Diagnostics.Span

/-!
# Error — what an author of style sheets can do wrong
-/

namespace SelectorAlgebra

/-- The reasons to refuse what a style sheet asks for. -/
inductive SelectorError where
  /-- The selector `&` outside every rule. -/
  | topLevelParent
  /-- The selector `&` joined to conditions, under a parent that ends in a combinator. -/
  | incompatibleParent (parent : Complex)
  /-- The selector `&suffix` under a parent whose last condition takes no suffix. -/
  | invalidSuffix (simple : Simple)
  /-- Something other than a single compound as the target of an extension. -/
  | complexTarget (target : Complex)
  /-- An extension made inside a media query reached a selector outside it. -/
  | crossMediaExtend (span : Span)
  /-- The same extension was made inside two different media queries. -/
  | conflictingMedia (span : Span)
  /-- The target of an extension occurs in no rule. -/
  | targetNotFound (target : Simple) (span : Span)
  /-- Something went wrong while the selector at `span` was extended. -/
  | nested (span : Span) (cause : SelectorError)

namespace SelectorError

/-- The wording of an error. -/
def message : SelectorError → String
  | .topLevelParent => "Top-level selectors may not contain the parent selector \"&\"."
  | .incompatibleParent parent =>
    "Parent \"" ++ parent.text ++ "\" is incompatible with this selector."
  | .invalidSuffix simple => "Invalid parent selector \"" ++ simple.text ++ "\""
  | .complexTarget target => "Can't extend complex selector " ++ target.text ++ "."
  | .crossMediaExtend _ => "You may not @extend selectors across media queries."
  | .conflictingMedia _ =>
    "You may not @extend the same selector from within different media queries."
  | .targetNotFound target _ =>
    "The target selector was not found.\nUse \"@extend " ++ target.text ++
      " !optional\" to avoid this error."
  | .nested span cause => "From " ++ span.text ++ "\n" ++ cause.message

/-- The place the error points at, if it has one. -/
def span? : SelectorError → Option Span
  | .crossMediaExtend span => some span
  | .conflictingMedia span => some span
  | .targetNotFound _ span => some span
  | .nested span _ => some span
  | _ => none

/-- The error at the bottom of all nesting. -/
def rootCause : SelectorError → SelectorError
  | .nested _ cause => cause.rootCause
  | e => e

end SelectorError

end SelectorAlgebra
