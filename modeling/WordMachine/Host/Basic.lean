import WordMachine.Word

/-!
# The host

A program reaches the world outside the machine through services.  The machine never acts on the
world itself: it forms a `HostCall`, waits for the answer and goes on with it.  A `Host` is anything
that answers such calls and may change its own state by doing so, so that runs are functions of the
host's state too.
-/

namespace WordMachine

/-- The services that the `int` instruction offers. -/
inductive Service
  | readLine | writeLine | readFileByte | writeFileByte | fileSize | memorySize
  deriving DecidableEq, Repr

def Service.ofId? (id : Word) : Option Service :=
  (Word.toIndex? id).bind
    ([readLine, writeLine, readFileByte, writeFileByte, fileSize, memorySize][·]?)

def Service.name : Service → String
  | .readLine => "ReadLine"
  | .writeLine => "WriteLine"
  | .readFileByte => "ReadFileByte"
  | .writeFileByte => "WriteFileByte"
  | .fileSize => "FileSize"
  | .memorySize => "MemSize"

/-- What the machine asks of the host. -/
inductive HostCall
  /-- Show a prompt and read a line. -/
  | readLine (prompt : String)
  | writeLine (text : String)
  | readFileByte (path : String) (position : Nat)
  | writeFileByte (path : String) (position : Nat) (value : UInt8)
  | fileSize (path : String)
  deriving DecidableEq, Repr

namespace HostCall

def service : HostCall → Service
  | .readLine .. => .readLine
  | .writeLine .. => .writeLine
  | .readFileByte .. => .readFileByte
  | .writeFileByte .. => .writeFileByte
  | .fileSize .. => .fileSize

/-- What the host answers to a call that succeeds; a byte past the end of a file is none. -/
def Answer : HostCall → Type
  | .readLine .. => String
  | .writeLine .. => Unit
  | .readFileByte .. => Option UInt8
  | .writeFileByte .. => Unit
  | .fileSize .. => Nat

end HostCall

/-- Why a service fails. -/
inductive HostError
  /-- A file position is negative; the host is not asked. -/
  | negativePosition
  /-- The host failed and says why. -/
  | failed (reason : String)
  deriving DecidableEq, Repr

def HostError.message : HostError → String
  | .negativePosition => "negative file position"
  | .failed reason => reason

/-- Something with states `σ` that answers calls. -/
abbrev Host (σ : Type) := (call : HostCall) → σ → Except HostError call.Answer × σ

end WordMachine
