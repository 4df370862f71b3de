import WordMachine.Assembly.Assembler
import WordMachine.Host.Directory
import WordMachine.Json.Printer
import WordMachine.Machine.Run
import WordMachine.Program.Image
import WordMachine.Text.Utf8

/-!
# Plans

A command looks at its arguments and at the files that they name, and then knows what to do: report
a failure, show a text, save a file, or run a program.  That decision is a `Plan`.  How a plan ends
is an `Ending`, the text for the two output streams and the exit code.  Plans are formed over any
way of reading files, so that they can be carried out on real files and on a `Directory` alike.
-/

namespace WordMachine.CommandLine

/-- Why a command fails. -/
structure Failure where
  /-- The diagnostics of source text, which are shown first. -/
  diagnostics : List Assembly.Diagnostic := []
  /-- What the command was doing, or what went wrong. -/
  summary : String
  /-- The causes, each the cause of the one before it. -/
  causes : List String := []
  deriving Repr

/-- The lines of the causes of a failure: a single cause stands alone, several are numbered. -/
def causeLines : List String → String
  | [] => ""
  | [cause] => "\nCaused by:\n    " ++ cause ++ "\n"
  | causes =>
    "\nCaused by:\n" ++ String.join (causes.zipIdx.map fun (cause, i) =>
      "    " ++ toString i ++ ": " ++ cause ++ "\n")

def Failure.text (f : Failure) : String :=
  String.join (f.diagnostics.map fun d => "[ERROR] " ++ d.message ++ "\n") ++
    "Error: " ++ f.summary ++ "\n" ++ causeLines f.causes

/-- How a command ends. -/
structure Ending where
  output : String := ""
  errors : String := ""
  exitCode : UInt8 := 0
  deriving Repr, Inhabited

/-- The ending of a command that fails after it has shown some text. -/
def Failure.ending (f : Failure) (output : String) : Ending :=
  { output, errors := f.text, exitCode := 1 }

/-- What a command has decided to do. -/
inductive Plan
  | fail (f : Failure)
  | show (text : String)
  /-- Write a text to a file and then show another one. -/
  | save (path text message : String)
  /-- Run the program of a file; `asData` tells how the core dump is shown. -/
  | execute (path : String) (config : Config) (program : Program) (asData : Bool)

/-- The ending after a file was written, or was not. -/
def savedEnding (path message : String) : Except FileError Unit → Ending
  | .ok () => { output := message }
  | .error e => { summary := "writing " ++ path, causes := [e.message] : Failure }.ending ""

/-- A core dump as a command shows it. -/
def dumpText (d : CoreDump) (asData : Bool) : String :=
  if asData then d.toJson.pretty ++ "\n" else d.text

/-- The ending after a run with a result; `m` is the machine after it. -/
def executedEnding (path : String) (asData : Bool) (m : Machine) :
    Except MachineFault Exit → Ending
  | .ok exit =>
    { output := dumpText (CoreDump.capture m) asData ++
        "process finished with exit code " ++ toString exit.code.toInt ++ "\n"
      exitCode := (Word.bits exit.code).toUInt8 }
  | .error fault =>
    { summary := "running " ++ path, causes := "cpu fault" :: fault.trap.messages
      : Failure }.ending (dumpText fault.dump asData)

/-! ### Loading -/

/-- A way of reading files. -/
abbrev ReadFile (m : Type → Type) := String → m (Except FileError (List UInt8))

/-- The text of a file, or why there is none. -/
def textOf : Except FileError (List UInt8) → Except String String
  | .error e => .error e.message
  | .ok bytes =>
    match Text.Utf8.decode? bytes with
    | some text => .ok text
    | none => .error "stream did not contain valid UTF-8"

/-- Whether a path is that of source text, and not of an image. -/
def isSource (path : String) : Bool := (Path.parse path).extension? == some "vasm"

def loadImage (path : String) (file : Except FileError (List UInt8)) : Except Failure Program :=
  let failed (cause : String) : Except Failure Program :=
    .error { summary := "loading " ++ path, causes := [cause] }
  match textOf file with
  | .error cause => failed cause
  | .ok text =>
    match Image.decode text with
    | .ok p => .ok p
    | .error e => failed e.message

/-- The program of a source file; `diagnosed` says how diagnostics are reported. -/
def loadSource (path : String) (diagnosed : List Assembly.Diagnostic → Failure)
    (file : Except FileError (List UInt8)) : Except Failure Program :=
  match textOf file with
  | .error cause => .error { summary := "reading " ++ path, causes := [cause] }
  | .ok text =>
    match Assembly.assemble text with
    | .ok p => .ok p
    | .error (.diagnostics ds) => .error (diagnosed ds)
    | .error e => .error { summary := "assembling " ++ path, causes := [e.message] }

/-- The program of a file, which its extension tells to be source text or an image. -/
def loadProgram (path : String) (diagnosed : List Assembly.Diagnostic → Failure)
    (file : Except FileError (List UInt8)) : Except Failure Program :=
  if isSource path then loadSource path diagnosed file else loadImage path file

end WordMachine.CommandLine
