import SelectorAlgebra.CommandLine.Arguments
import SelectorAlgebra.CommandLine.Style
import SelectorAlgebra.Diagnostics.Bogus
import SelectorAlgebra.Extension.OneShot
import SelectorAlgebra.Json.Parse
import SelectorAlgebra.Json.Text
import SelectorAlgebra.Nesting
import SelectorAlgebra.Selector.Decode

/-!
# CommandLine/Run — one operation on selectors, from arguments to output

`run` is all of the program but for reading files and printing: it is given the files, and its
outcome holds what is to be printed.
-/

namespace SelectorAlgebra

/-- What a run of the program leaves behind. -/
structure Outcome where
  code : Nat
  stdout : String
  stderr : String
  deriving DecidableEq, Repr

/-- Why a command could not be carried out. -/
inductive CommandError where
  /-- The file of an operand cannot be read. -/
  | unreadable (path : String)
  /-- An operand is not a selector list. -/
  | invalidSelector (operand : String)
  /-- The operation refuses its operands. -/
  | refused (cause : SelectorError)

/-- The wording of an error. -/
def CommandError.message : CommandError → String
  | .unreadable path => "failed to read " ++ path
  | .invalidSelector operand => "invalid selector list: " ++ operand
  | .refused cause => cause.message

/-- How many arrays and objects may stand one inside the other in the JSON form of an operand.
What an unknown field holds does not count. -/
def operandNesting : Nat := 127

/-- The texts of the files that can be read, by path. -/
abbrev Files := String → Option String

/-- The files of a system that nothing is stored on: only the null device can be read, and it is
empty. -/
def Files.bare : Files := fun path => if path = "/dev/null" then some "" else none

/-- The path of the file an operand names, if it names one. -/
def operandPath? (operand : String) : Option String :=
  match operand.toList with
  | '@' :: path => some (String.ofList path)
  | _ => none

/-- The list that a text holds. -/
def SelectorList.ofText? (text : String) : Option SelectorList :=
  (Json.parse? text).bind fun j =>
    match SelectorList.ofJson j with
    | .ok l => if (SelectorList.toJson l).nesting ≤ operandNesting then some l else none
    | .error _ => none

/-- The list an operand stands for. -/
def readOperand (files : Files) (operand : String) :
    Except CommandError SelectorList := do
  let text ← match operandPath? operand with
    | some path => match files path with
      | some text => .ok text
      | none => .error (.unreadable path)
    | none => .ok operand
  match SelectorList.ofText? text with
  | some l => return l
  | none => .error (.invalidSelector operand)

/-- A list as printed: its text, or its JSON form over several lines. -/
def SelectorList.shown (json : Bool) (l : SelectorList) : String :=
  if json then (SelectorList.toJson l).pretty else l.text

/-- A range of specificity as printed. -/
def Specificity.shown (json : Bool) (s : Specificity) : String :=
  if json then (Json.object [("max", .ofNat s.max), ("min", .ofNat s.min)]).compact
  else if s.min = s.max then Style.bold (toString s.min)
  else Style.bold (toString s.min) ++ ".." ++ Style.bold (toString s.max)

/-- A yes or no as printed. -/
def answerShown (json answer : Bool) : String :=
  match json, answer with
  | true, true => "true"
  | true, false => "false"
  | false, true => Style.green "true"
  | false, false => Style.red "false"

/-- The outcome that prints one line. -/
def Outcome.line (text : String) : Outcome := ⟨0, text ++ "\n", ""⟩

/-- The place that warnings about operands point at. -/
def operandSpan : Span := .synthetic "cli"

/-- The outcome of warning about the combinators of a list. -/
def bogusOutcome (json : Bool) (l : SelectorList) : Outcome :=
  let warnings := SelectorList.bogusWarnings l operandSpan
  let shown :=
    if json then toString warnings.length
    else if warnings.isEmpty then Style.green "no bogus selectors"
    else Style.yellow (toString warnings.length) ++ " bogus selector(s)"
  let printed := (Warning.distinctTexts warnings).map fun text => Style.yellow text ++ "\n"
  ⟨0, shown ++ "\n", String.join printed⟩

/-- What a command comes to. -/
def Command.run (files : Files) (json : Bool) :
    Command → Except CommandError Outcome
  | .specificity selector => do
    let l ← readOperand files selector
    return .line (l.specificity.shown json)
  | .superselector upper lower => do
    let upper ← readOperand files upper
    let lower ← readOperand files lower
    return .line (answerShown json (upper.isSuperselector lower))
  | .unify selector₁ selector₂ => do
    let l₁ ← readOperand files selector₁
    let l₂ ← readOperand files selector₂
    return .line (match l₁.unify l₂ with
      | some unified => SelectorList.shown json unified
      | none => if json then "null" else Style.dimmed "no element matches both selectors")
  | .extend selector source targets => do
    let l ← readOperand files selector
    let source ← readOperand files source
    let targets ← readOperand files targets
    let extended ← (l.extend source targets operandSpan).mapError .refused
    return .line (extended.shown json)
  | .replace selector source targets => do
    let l ← readOperand files selector
    let source ← readOperand files source
    let targets ← readOperand files targets
    let replaced ← (l.replace source targets operandSpan).mapError .refused
    return .line (replaced.shown json)
  | .resolve selector parent implicit => do
    let parent ← parent.mapM (readOperand files)
    let l ← readOperand files selector
    let resolved ← (l.resolveParents parent implicit).mapError .refused
    return .line (resolved.shown json)
  | .bogus selector => do
    let l ← readOperand files selector
    return bogusOutcome json l

/-- The whole program, but for reading files and printing. -/
def run (files : Files) (arguments : List String) : Outcome :=
  match Invocation.parse arguments with
  | .error e => ⟨2, "", "error: " ++ e.message ++ "\n"⟩
  | .ok i =>
    match i.command.run files i.json with
    | .error e => ⟨1, "", "Error: " ++ e.message ++ "\n"⟩
    | .ok outcome => outcome

end SelectorAlgebra
