/-!
# CommandLine/Arguments — reading the arguments of a command

    [--json] [-v…] COMMAND OPERAND… [--json] [-v…]

`--json` and `-v` may stand before or after the command, `--parent` and `--no-implicit-parent` only
after `resolve`.  An option other than `-v` stands once in each of the two places.  What follows
`--` is an operand whatever it looks like.
-/

namespace SelectorAlgebra

/-- The shape of one argument. -/
inductive Argument where
  /-- An operand, or the value of the option before it. -/
  | value (text : String)
  /-- Two dashes alone: only operands follow. -/
  | endOfOptions
  /-- An option by name: `--name` or `--name=value`. -/
  | long (name : String) (attached : Option String)
  /-- Options by letter: `-abc`. -/
  | short (letters : List Char)
  deriving DecidableEq, Repr

namespace Argument

/-- What stands after two dashes: `name` or `name=value`. -/
def ofLong (cs : List Char) : Argument :=
  match cs.dropWhile (· ≠ '=') with
  | [] => .long (String.ofList cs) none
  | _ :: attached =>
    .long (String.ofList (cs.takeWhile (· ≠ '='))) (some (String.ofList attached))

/-- The shape of an argument; a single dash is an operand. -/
def ofText (text : String) : Argument :=
  match text.toList with
  | '-' :: '-' :: [] => .endOfOptions
  | '-' :: '-' :: rest => ofLong rest
  | '-' :: c :: rest => .short (c :: rest)
  | _ => .value text

end Argument

/-- What the program can be asked to do; operands are selectors in JSON, or `@` and the path of a
file that holds one. -/
inductive Command where
  | specificity (selector : String)
  | superselector (upper lower : String)
  | unify (selector₁ selector₂ : String)
  | extend (selector source targets : String)
  | replace (selector source targets : String)
  | resolve (selector : String) (parent : Option String) (implicit : Bool)
  | bogus (selector : String)
  deriving DecidableEq, Repr

/-- The selectors a command is given. -/
def Command.operands : Command → List String
  | .specificity s => [s]
  | .superselector s t => [s, t]
  | .unify s t => [s, t]
  | .extend s t u => [s, t, u]
  | .replace s t u => [s, t, u]
  | .resolve s parent _ => s :: parent.toList
  | .bogus s => [s]

/-- One run of the program. -/
structure Invocation where
  /-- Whether results are printed as JSON. -/
  json : Bool
  command : Command
  deriving DecidableEq, Repr

/-- What is wrong with the arguments. -/
inductive UsageError where
  | unknownArgument (text : String)
  | repeatedOption (name : String)
  | missingValue (name : String)
  | missingCommand
  | unknownCommand (name : String)
  | wrongOperands (command : String)
  deriving DecidableEq, Repr

/-- The wording of a usage error. -/
def UsageError.message : UsageError → String
  | .unknownArgument text => "unexpected argument '" ++ text ++ "'"
  | .repeatedOption name => "the argument '--" ++ name ++ "' cannot be used multiple times"
  | .missingValue name => "a value is required for '--" ++ name ++ "'"
  | .missingCommand => "a command is required"
  | .unknownCommand name => "unrecognized command '" ++ name ++ "'"
  | .wrongOperands command => "wrong number of selectors for '" ++ command ++ "'"

/-- The options and operands met so far. -/
structure Options where
  json : Bool
  parent : Option String
  explicitParent : Bool
  operands : List String

namespace Options

/-- Nothing met yet. -/
def none : Options := ⟨false, .none, false, []⟩

/-- One of the options that go with every command. -/
def addShared (o : Options) (text : String) : Except UsageError Options :=
  match Argument.ofText text with
  | .long "json" .none =>
    if o.json then .error (.repeatedOption "json") else .ok { o with json := true }
  | .long "verbose" .none => .ok o
  | .short letters => if letters.all (· == 'v') then .ok o else .error (.unknownArgument text)
  | _ => .error (.unknownArgument text)

/-- The value of `--parent`. -/
def setParent (o : Options) (value : String) : Except UsageError Options :=
  match o.parent with
  | some _ => .error (.repeatedOption "parent")
  | .none => .ok { o with parent := some value }

/-- The options and operands after the name of a command; `nested` tells whether the options about
parents go with it. -/
def parse (nested : Bool) : Options → List String → Except UsageError Options
  | o, [] => .ok o
  | o, text :: rest =>
    match Argument.ofText text, nested with
    | .value value, _ => parse nested { o with operands := o.operands ++ [value] } rest
    | .endOfOptions, _ => .ok { o with operands := o.operands ++ rest }
    | .long "no-implicit-parent" .none, true =>
      if o.explicitParent then .error (.repeatedOption "no-implicit-parent")
      else parse nested { o with explicitParent := true } rest
    | .long "parent" (some value), true => do parse nested (← o.setParent value) rest
    | .long "parent" .none, true =>
      match rest with
      | [] => .error (.missingValue "parent")
      | next :: rest =>
        match Argument.ofText next with
        | .value value => do parse nested (← o.setParent value) rest
        | _ => .error (.missingValue "parent")
    | _, _ => do parse nested (← o.addShared text) rest

end Options

/-- The command with a given name and operands. -/
def Command.ofOptions (name : String) (o : Options) : Except UsageError Command :=
  match name, o.operands with
  | "specificity", [s] => .ok (.specificity s)
  | "superselector", [s, t] => .ok (.superselector s t)
  | "unify", [s, t] => .ok (.unify s t)
  | "extend", [s, t, u] => .ok (.extend s t u)
  | "replace", [s, t, u] => .ok (.replace s t u)
  | "resolve", [s] => .ok (.resolve s o.parent (!o.explicitParent))
  | "bogus", [s] => .ok (.bogus s)
  | _, _ => .error (.wrongOperands name)

/-- The names of all commands. -/
def Command.names : List String :=
  ["specificity", "superselector", "unify", "extend", "replace", "resolve", "bogus"]

/-- The run that the arguments ask for, given the options already met before the command. -/
def Invocation.parseAfter : Options → List String → Except UsageError Invocation
  | _, [] => .error .missingCommand
  | before, text :: rest =>
    match Argument.ofText text with
    | .value name =>
      if Command.names.contains name then do
        let after ← Options.parse (name == "resolve") .none rest
        return ⟨before.json || after.json, ← Command.ofOptions name after⟩
      else .error (.unknownCommand name)
    | _ => do parseAfter (← before.addShared text) rest

/-- The run that the arguments ask for. -/
def Invocation.parse (arguments : List String) : Except UsageError Invocation :=
  Invocation.parseAfter .none arguments

end SelectorAlgebra
