import WordMachine.CommandLine.Session

/-!
# The program

Carries out the commands on the real console and the real files: `run` is the runner and `inspect`
the inspector.  Everything that is decided is decided by the plans; this module reads, writes and
passes answers on.
-/

namespace WordMachine.CommandLine

/-- The reason of a system error with the given number, which may come with a minus sign. -/
def fileErrorOfCode (code : UInt32) (details : String) : FileError :=
  match if code < 0x80000000 then code else -code with
  | 2 => .notFound
  | 20 => .notDirectory
  | 21 => .isDirectory
  | 36 => .nameTooLong
  | n => .other (details ++ " (os error " ++ toString n ++ ")")

/-- The reason for which the system refuses a file. -/
def fileErrorOf : IO.Error → FileError
  | .noFileOrDirectory _ code details => fileErrorOfCode code details
  | .inappropriateType _ code details => fileErrorOfCode code details
  | .invalidArgument _ code details => fileErrorOfCode code details
  | .permissionDenied _ code details => fileErrorOfCode code details
  | e => .other (toString e)

def attempt (action : IO α) : IO (Except FileError α) := do
  match ← action.toBaseIO with
  | .ok a => return .ok a
  | .error e => return .error (fileErrorOf e)

def readBytes : ReadFile IO := fun path =>
  attempt (do return (← IO.FS.readBinFile path).toList)

def writeBytes (path : String) (bytes : List UInt8) : IO (Except FileError Unit) :=
  attempt (IO.FS.writeBinFile path ⟨bytes.toArray⟩)

/-- The failure or the success of a file operation as an answer. -/
def replyOf : Except FileError α → Except HostError α
  | .ok a => .ok a
  | .error e => .error (.failed e.message)

/-- Replaces a byte of a file, which is created if it does not exist. -/
def writeByteAt (path : String) (position : Nat) (value : UInt8) : IO (Except FileError Unit) := do
  match ← readBytes path with
  | .ok bytes =>
    writeBytes path ((FileContents.ofBytes bytes.toArray).write position value).toList
  | .error .notFound =>
    writeBytes path ((FileContents.ofBytes #[]).write position value).toList
  | .error e => return .error e

def sizeOfFile (path : String) : IO (Except FileError Nat) := do
  match ← readBytes path with
  | .ok bytes => return .ok bytes.length
  | .error .notFound => return .ok 0
  | .error .isDirectory => return .ok Directory.ownSize
  | .error e => return .error e

/-- The services of the real console and the real files. -/
def serveCall : (call : HostCall) → IO (Except HostError call.Answer)
  | .readLine prompt => do
    let out ← IO.getStdout
    out.putStr prompt
    out.flush
    let line ← (← IO.getStdin).getLine
    return .ok (String.ofList (stripLineEnd line.toList))
  | .writeLine text => do
    IO.println text
    return .ok ()
  | .readFileByte path position => do
    return replyOf ((← readBytes path).map fun bytes => bytes[position]?)
  | .writeFileByte path position value => do return replyOf (← writeByteAt path position value)
  | .fileSize path => do return replyOf (← sizeOfFile path)

/-- Steps a machine for as long as it is running. -/
partial def runLoop (p : Program) (m : Machine) : IO (Machine × Machine.Status) := do
  if !m.cpu.isRunning then return (m, .halted)
  match Machine.begin p m with
  | .finished m => runLoop p m
  | .trapped t m => return (m, .trapped t)
  | .waiting call m =>
    match Machine.resume call (← serveCall call) m with
    | (m, none) => runLoop p m
    | (m, some t) => return (m, .trapped t)

def carryOut (plan : Plan) : IO Ending := do
  match plan with
  | .fail f => return f.ending ""
  | .show text => return { output := text }
  | .save path text message =>
    return savedEnding path message (← writeBytes path (Text.Utf8.encode text))
  | .execute path config program asData =>
    let (m, status) ← runLoop program ((Machine.new config).start program)
    match m.settle status with
    | (m, some result) => return executedEnding path asData m result
    | (_, none) => return {}

def Tool.ofWord? : String → Option Tool
  | "run" => some .runner
  | "inspect" => some .inspector
  | _ => none

def usage : String :=
  "usage: run INPUT [OUTPUT] [--config FILE] [--max-steps N] [--dump-json]\n" ++
  "       inspect FILE list [--show-words] [--out FILE]\n" ++
  "       inspect FILE analyze [--entry INDEX]... [--max-instr N] [--format text|json] " ++
  "[--out FILE]\n"

def planOf? : List String → Option (IO Plan)
  | [] => none
  | word :: args => (Tool.ofWord? word).bind fun tool => tool.plan? args readBytes

end WordMachine.CommandLine

/-- Carries out the command that the arguments ask for. -/
def main (args : List String) : IO UInt32 := do
  match WordMachine.CommandLine.planOf? args with
  | none =>
    IO.eprint WordMachine.CommandLine.usage
    return 2
  | some plan =>
    let ending ← WordMachine.CommandLine.carryOut (← plan)
    IO.print ending.output
    IO.eprint ending.errors
    return ending.exitCode.toUInt32
