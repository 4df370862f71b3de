import WordMachine.CommandLine.Arguments
import WordMachine.CommandLine.Plan
import WordMachine.Flow.Render
import WordMachine.Text.Blank

/-!
# The inspector

The command that shows what a program consists of: `list` gives its listing, `analyze` a report on
its control flow from the entries that are asked for.
-/

namespace WordMachine.CommandLine.Inspector

/-- What the inspector shows. -/
inductive Task
  | list (showWords : Bool)
  | analyze (entries : List String) (budget : Nat) (asData : Bool)
  deriving Repr

/-- What the arguments ask for. -/
structure Options where
  input : String
  task : Task
  /-- The file to be written instead of the standard output. -/
  output : Option String
  deriving Repr

def listOptions : List OptionSpec :=
  [{ name := "show-words", takesValue := false }, { name := "out" }]

def analyzeOptions : List OptionSpec :=
  [{ name := "entry", repeatable := true }, { name := "max-instr" }, { name := "format" },
   { name := "out" }]

/-- How many instructions an analysis visits at most, unless another number is asked for. -/
def standardBudget : Nat := 100000

/-- The number of visits that no analysis exceeds. -/
def unlimitedBudget : Nat := 0xffffffffffffffff

/-- The budget that an argument states. -/
def budget? : Option String → Option Nat
  | none => some standardBudget
  | some text => (Text.unsigned 10 0x10000000000000000 text.toList).toOption

/-- Whether an argument asks for a data value and not for text. -/
def asData? : Option String → Option Bool
  | none => some false
  | some "text" => some false
  | some "json" => some true
  | some _ => none

/-- The task of a command word and its arguments. -/
def parseTask? (command : String) (args : List String) : Option (Task × Option String) :=
  match command with
  | "list" => do
    let a ← Arguments.parse? listOptions args
    let output ← nonEmpty? (a.value? "out")
    if !a.positional.isEmpty then none
    return (.list (a.value? "show-words").isSome, output)
  | "analyze" => do
    let a ← Arguments.parse? analyzeOptions args
    let output ← nonEmpty? (a.value? "out")
    let budget ← budget? (a.value? "max-instr")
    let asData ← asData? (a.value? "format")
    if !a.positional.isEmpty then none
    return (.analyze (a.values "entry") budget asData, output)
  | _ => none

/-- Whether a word is that of a task. -/
def isCommand (word : String) : Bool := word == "list" || word == "analyze"

/-- What the arguments ask for, if they are in order: a file, a command word and its options. -/
def Options.parse? : List String → Option Options
  | input :: command :: args =>
    if input.isEmpty || looksLikeOption input || isCommand input then none
    else (parseTask? command args).map fun (task, output) => { input, task, output }
  | _ => none

/-- The position that a text states: in decimal, or in hexadecimal after `0x` or `0X`. -/
def parseIndex (text : String) : Except Text.NumeralError Nat :=
  match Text.trim text.toList with
  | '0' :: 'x' :: digits => Text.unsigned 16 0x10000000000000000 digits
  | '0' :: 'X' :: digits => Text.unsigned 16 0x10000000000000000 digits
  | digits => Text.unsigned 10 0x10000000000000000 digits

/-- A list with its numbers in ascending order, each once. -/
def sortedUnique (numbers : List Nat) : List Nat := (numbers.mergeSort (· ≤ ·)).eraseReps

/-- The entries of an analysis, ascending; the first word, if none are asked for. -/
def parseEntries (entries : List String) : Except Text.NumeralError (List Nat) :=
  if entries.isEmpty then .ok [0] else (entries.mapM parseIndex).map sortedUnique

def Task.text (t : Task) (p : Program) : Except Failure String :=
  let c := Flow.CodeMap.ofProgram p
  match t with
  | .list showWords => .ok ((Flow.report c [0] unlimitedBudget).renderListing showWords)
  | .analyze entries budget asData =>
    match parseEntries entries with
    | .error e => .error { summary := e.message }
    | .ok entries =>
      let r := Flow.report c entries budget
      .ok (if asData then r.toJson.pretty ++ "\n" else r.renderText)

def diagnosed (path : String) (ds : List Assembly.Diagnostic) : Failure :=
  { summary := "assembling " ++ path, causes := [(Assembly.AssemblyError.diagnostics ds).message] }

def plan [Monad m] (o : Options) (read : ReadFile m) : m Plan := do
  match loadProgram o.input (diagnosed o.input) (← read o.input) with
  | .error f => return .fail f
  | .ok p =>
    match o.task.text p, o.output with
    | .error f, _ => return .fail f
    | .ok text, none => return .show text
    | .ok text, some path => return .save path text ""

end WordMachine.CommandLine.Inspector
