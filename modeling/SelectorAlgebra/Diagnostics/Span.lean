import SelectorAlgebra.Fault

/-!
# Diagnostics/Span — places in a style sheet

A span is carried along with selectors and extensions and only ever compared and shown.
-/

namespace SelectorAlgebra

/-- A range of bytes in a style sheet, with the line and column where it starts. -/
structure Span where
  url : String
  start : Nat
  stop : Nat
  line : Nat
  column : Nat
  deriving DecidableEq, Repr, Inhabited

namespace Span

/-- The bytes from `start` up to `stop`, at line 1 and column 1. -/
def range (url : String) (start stop : Nat) : Except Fault Span :=
  if start ≤ stop then .ok ⟨url, start, stop, 1, 1⟩ else .error (.spanReversed start stop)

/-- The place of a selector that no style sheet holds. -/
def synthetic (label : String) : Span := ⟨"<" ++ label ++ ">", 0, 0, 1, 1⟩

/-- The same bytes, said to start at a line and column. -/
def withLocation (span : Span) (line column : Nat) : Span :=
  { span with line := line, column := column }

/-- The number of bytes. -/
def length (span : Span) : Nat := span.stop - span.start

/-- Whether the span holds no text. -/
def isEmpty (span : Span) : Bool := span.start == span.stop

/-- The place as shown to an author. -/
def text (span : Span) : String :=
  span.url ++ " " ++ toString span.line ++ ":" ++ toString span.column

end Span

end SelectorAlgebra
