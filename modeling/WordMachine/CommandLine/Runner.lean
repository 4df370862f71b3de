import WordMachine.CommandLine.Arguments
import WordMachine.CommandLine.Plan
import WordMachine.CommandLine.Settings

/-!
# The runner

The command that runs a program, or assembles it into an image if it is given a second path.  It
takes settings from a file; a step limit among its arguments wins over the one there.
-/

namespace WordMachine.CommandLine.Runner

/-- What the arguments ask for. -/
structure Options where
  input : String
  output : Option String := none
  config : Option String := none
  maxSteps : Option Nat := none
  dumpJson : Bool := false
  deriving Repr

def known : List OptionSpec :=
  [{ name := "config" }, { name := "max-steps" }, { name := "dump-json", takesValue := false }]

/-- A count among the arguments; there is no result if it cannot be read. -/
def countArgument? : Option String → Option (Option Nat)
  | none => some none
  | some text => (Text.unsigned 10 0x10000000000000000 text.toList).toOption.map some

/-- What the arguments ask for, if they are in order. -/
def Options.parse? (args : List String) : Option Options := do
  let a ← Arguments.parse? known args
  let config ← nonEmpty? (a.value? "config")
  let maxSteps ← countArgument? (a.value? "max-steps")
  let dumpJson := (a.value? "dump-json").isSome
  if a.positional.contains "" then none
  match a.positional with
  | [input] => some { input, config, maxSteps, dumpJson }
  | [input, output] => some { input, output := some output, config, maxSteps, dumpJson }
  | _ => none

def diagnosed (path : String) (ds : List Assembly.Diagnostic) : Failure :=
  { diagnostics := ds
    summary := path ++ ": " ++ (Assembly.AssemblyError.diagnostics ds).message }

def loadConfig (path : String) (file : Except FileError (List UInt8)) : Except Failure Config :=
  match textOf file with
  | .error cause => .error { summary := "reading config " ++ path, causes := [cause] }
  | .ok text =>
    match parseConfig? text with
    | some c => .ok c
    | none => .error { summary := "parsing config " ++ path }

def Options.readConfig [Monad m] (o : Options) (read : ReadFile m) : m (Except Failure Config) := do
  match o.config with
  | none => return .ok {}
  | some path => return loadConfig path (← read path)

/-- What the runner does.  Settings are read only if a program is to be run, and before it. -/
def plan [Monad m] (o : Options) (read : ReadFile m) : m Plan := do
  match o.output with
  | some output =>
    match loadSource o.input (diagnosed o.input) (← read o.input) with
    | .error f => return .fail f
    | .ok p =>
      return .save output (Image.encode p) ("Executable written to: " ++ output ++ "\n")
  | none =>
    match ← o.readConfig read with
    | .error f => return .fail f
    | .ok c =>
      match loadProgram o.input (diagnosed o.input) (← read o.input) with
      | .error f => return .fail f
      | .ok p =>
        return .execute o.input { c with maxSteps := o.maxSteps.or c.maxSteps } p o.dumpJson

end WordMachine.CommandLine.Runner
