import SelectorAlgebra.Diagnostics.Warning
import SelectorAlgebra.Text.Blank
import SelectorAlgebra.Validity

/-!
# Diagnostics/Bogus — warning of combinators out of place

One warning for every bogus choice of a list; its wording tells whether the selector will be
dropped from the output.
-/

namespace SelectorAlgebra

/-- What to say of a bogus selector. -/
def Complex.bogusMessage (c : Complex) : String :=
  let shown := "The selector \"" ++ Text.trim c.text ++ "\" is "
  let omitted := " It will be omitted from the generated CSS."
  let future := "\nThis will be an error in a future release."
  if c.isUseless then
    shown ++ "invalid CSS." ++ omitted ++ future
  else if !c.leadingCombinators.isEmpty then
    shown ++ "invalid CSS." ++ future
  else
    shown ++ "only valid for nesting and shouldn't\nhave children other than style rules." ++
      (if c.isBogusBeyondLeading then omitted else "") ++ future

/-- The warnings about the list of a rule found at `span`. -/
def SelectorList.bogusWarnings (l : SelectorList) (span : Span) : List Warning :=
  (l.filter Complex.isBogus).map fun c => ⟨c.bogusMessage, some span, true⟩

end SelectorAlgebra
