import SelectorAlgebra.Diagnostics.Span

/-!
# Diagnostics/Warning — warnings, in the order they are given
-/

namespace SelectorAlgebra

/-- Something an author should know. -/
structure Warning where
  message : String
  /-- Where it was found, if that is known. -/
  span : Option Span
  /-- Whether what it warns of will become an error. -/
  deprecation : Bool
  deriving DecidableEq, Repr, Inhabited

namespace Warning

/-- The warning as one text: a label, the message, and the place on a line of its own. -/
def text (w : Warning) : String :=
  let label := if w.deprecation then "Deprecation Warning" else "Warning"
  label ++ ": " ++ w.message ++
    (match w.span with
      | some span => "\n    " ++ span.text
      | none => "")

/-- The texts of the warnings, each the first time it is met. -/
def distinctTexts (warnings : List Warning) : List String :=
  (warnings.map text).foldl (fun shown t => if shown.contains t then shown else shown ++ [t]) []

end Warning

/-- All warnings given so far, the first one first. -/
abbrev WarningLog := List Warning

/-- The log after one more warning. -/
def WarningLog.record (log : WarningLog) (w : Warning) : WarningLog := log ++ [w]

end SelectorAlgebra
