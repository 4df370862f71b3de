import WordMachine.CommandLine.Inspector
import WordMachine.CommandLine.Runner

/-!
# Sessions

A session is a command in a world of its own: a directory, a text to be read from the console and a
text that has been shown there.  It carries out plans without the real world, which makes what a
command does a function of its arguments and its files.
-/

namespace WordMachine.CommandLine

/-- The world of a command. -/
structure Session where
  directory : Directory := {}
  /-- The text on the console that is still to be read. -/
  input : List Char := []
  /-- The text shown so far. -/
  output : String := ""
  deriving Inhabited

/-- A line without the line feed at its end and a carriage return before that. -/
def stripLineEnd (line : List Char) : List Char :=
  match line.reverse with
  | '\n' :: '\r' :: rest => rest.reverse
  | '\n' :: rest => rest.reverse
  | _ => line

/-- The first line of a text, its line feed included, and the rest. -/
def splitLine (text : List Char) : List Char × List Char :=
  let (line, rest) := text.span (· != '\n')
  match rest with
  | [] => (line, [])
  | feed :: rest => (line ++ [feed], rest)

namespace Session

/-- The session after a text is shown. -/
def print (s : Session) (text : String) : Session := { s with output := s.output ++ text }

def fileBytes (s : Session) (path : String) : Except FileError (List UInt8) :=
  (s.directory.find path).map FileContents.toList

/-- The answer of a session to the failure or the success of a file operation. -/
def reply (s : Session) : Except FileError α → Except HostError α × Session
  | .ok a => (.ok a, s)
  | .error e => (.error (.failed e.message), s)

def host : Host Session
  | .readLine prompt, s =>
    let (line, rest) := splitLine s.input
    (.ok (String.ofList (stripLineEnd line)), { s.print prompt with input := rest })
  | .writeLine text, s => (.ok (), s.print (text ++ "\n"))
  | .readFileByte path position, s =>
    s.reply ((s.directory.find path).map fun f => f.byteAt? position)
  | .writeFileByte path position value, s =>
    match s.directory.update path fun f => f.write position value with
    | .ok directory => (.ok (), { s with directory })
    | .error e => s.reply (.error e)
  | .fileSize path, s => s.reply (s.directory.sizeOf path)

/-- Carries out a plan with up to `fuel` steps of a program; there is no ending if the program is
still running then. -/
def perform (fuel : Nat) (s : Session) : Plan → Session × Option Ending
  | .fail f => (s, some (f.ending ""))
  | .show text => (s, some { output := text })
  | .save path text message =>
    let contents := FileContents.ofBytes (Text.Utf8.encode text).toArray
    match s.directory.update path fun _ => contents with
    | .ok directory => ({ s with directory }, some (savedEnding path message (.ok ())))
    | .error e => (s, some (savedEnding path message (.error e)))
  | .execute path config program asData =>
    match Machine.run host program fuel (Machine.new config) s with
    | ((m, s), some result) => (s, some (executedEnding path asData m result))
    | ((_, s), none) => (s, none)

end Session

/-- The commands. -/
inductive Tool
  | runner | inspector
  deriving DecidableEq, Repr

/-- What a command does with its arguments, if they are in order. -/
def Tool.plan? [Monad m] (t : Tool) (args : List String) (read : ReadFile m) : Option (m Plan) :=
  match t with
  | .runner => (Runner.Options.parse? args).map fun o => Runner.plan o read
  | .inspector => (Inspector.Options.parse? args).map fun o => Inspector.plan o read

/-- What a command does in a session, if its arguments are in order. -/
def Session.plan? (s : Session) (t : Tool) (args : List String) : Option Plan :=
  (t.plan? args (fun path => (pure (s.fileBytes path) : Id _))).map Id.run

end WordMachine.CommandLine
