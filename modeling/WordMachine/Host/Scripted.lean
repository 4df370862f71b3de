import WordMachine.Host.Basic
import WordMachine.Host.File

/-!
# A scripted host

A host whose answers are laid down beforehand, for trying out programs.  It gives out lines from a
list, keeps files by their path, and records the prompts and the lines that it is shown.  Services
can be made to fail.
-/

namespace WordMachine

/-- The script of a host and what it has recorded. -/
structure ScriptedHost where
  /-- The lines still to be read; after them, all lines are empty. -/
  input : List String := []
  files : List (String × FileContents) := []
  /-- Sizes to be answered for paths, whatever their files hold. -/
  sizes : List (String × Nat) := []
  failing : List Service := []
  /-- The prompts shown, the latest first. -/
  prompts : List String := []
  /-- The lines written, the latest first. -/
  output : List String := []
  deriving Inhabited

namespace ScriptedHost

/-- The name of a service in the text of a failure. -/
def serviceName : Service → String
  | .readLine => "read_line"
  | .writeLine => "write_line"
  | .readFileByte => "read_file_byte"
  | .writeFileByte => "write_file_byte"
  | .fileSize => "file_size"
  | .memorySize => "memory_size"

/-- The length that a file cannot exceed. -/
def fileLimit : Nat := 4096

/-- The files with one of them replaced or added at the end. -/
def replaceFile (files : List (String × FileContents)) (path : String) (f : FileContents) :
    List (String × FileContents) :=
  match files with
  | [] => [(path, f)]
  | (name, g) :: rest =>
    if name = path then (path, f) :: rest else (name, g) :: replaceFile rest path f

/-- The answer to a call that is not made to fail. -/
def serve : Host ScriptedHost
  | .readLine _, s => (.ok (s.input.headD ""), { s with input := s.input.tail })
  | .writeLine text, s => (.ok (), { s with output := text :: s.output })
  | .readFileByte path position, s =>
    match s.files.lookup path with
    | some f => (.ok (f.byteAt? position), s)
    | none => (.error (.failed path), s)
  | .writeFileByte path position value, s =>
    if fileLimit ≤ position then (.error (.failed "position too large"), s)
    else
      let f := (s.files.lookup path).getD {}
      (.ok (), { s with files := replaceFile s.files path (f.write position value) })
  | .fileSize path, s =>
    let size := (s.sizes.lookup path).getD (((s.files.lookup path).map (·.size)).getD 0)
    (.ok size, s)

/-- Records the prompt of a call. -/
def notePrompt (call : HostCall) (s : ScriptedHost) : ScriptedHost :=
  match call with
  | .readLine prompt => { s with prompts := prompt :: s.prompts }
  | _ => s

/-- The answer to a call.  A prompt is recorded even if the call fails. -/
def answer : Host ScriptedHost := fun call s =>
  let s := notePrompt call s
  if s.failing.contains call.service then
    (.error (.failed ("scripted failure of " ++ serviceName call.service)), s)
  else serve call s

end ScriptedHost

end WordMachine
