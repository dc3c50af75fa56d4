/-!
# CommandLine/Style — coloured text on a terminal

Each style switches itself on before the text and off after it.
-/

namespace SelectorAlgebra.Style

/-- The text between two terminal codes. -/
def between (on off : String) (text : String) : String :=
  "\x1b[" ++ on ++ "m" ++ text ++ "\x1b[" ++ off ++ "m"

/-- Bold text. -/
def bold : String → String := between "1" "0"

/-- Dimmed text. -/
def dimmed : String → String := between "2" "0"

/-- Red text. -/
def red : String → String := between "31" "39"

/-- Green text. -/
def green : String → String := between "32" "39"

/-- Yellow text. -/
def yellow : String → String := between "33" "39"

end SelectorAlgebra.Style
