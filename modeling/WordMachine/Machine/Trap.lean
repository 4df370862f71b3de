import WordMachine.Host.Basic
import WordMachine.Memory
import WordMachine.Stack

/-!
# Traps

A trap ends a run.  It says what went wrong, and its cause where there is one further down.
-/

namespace WordMachine

/-- What ends a run before its time. -/
inductive Trap
  | invalidInstruction (position : Nat) (opcode : Word)
  /-- The instruction pointer, or the end of the instruction that it points to, lies outside the
  program. -/
  | outsideProgram (pointer : Word)
  | noRegister (index : Word)
  | bus (address : Word) (cause : BusError)
  /-- A value to be stored as a byte is above 127. -/
  | byteRange (value : Word)
  | stack (cause : StackError)
  | divideByZero
  | unknownService (id : Word)
  | service (service : Service) (cause : HostError)
  | stepLimit (limit : Nat)
  deriving DecidableEq, Repr

namespace Trap

def message : Trap → String
  | .invalidInstruction position opcode =>
    "invalid opcode " ++ toString opcode.toInt ++ " at word " ++ toString position
  | .outsideProgram pointer =>
    "instruction pointer " ++ toString pointer.toInt ++ " outside the program"
  | .noRegister index => "register index " ++ toString index.toInt ++ " out of range"
  | .bus address cause =>
    "bus error at " ++ Text.hexMarked (Word.bits address).toNat ++ ": " ++ cause.message
  | .byteRange value => "byte write of " ++ toString value.toInt ++ " exceeds 127"
  | .stack cause => cause.message
  | .divideByZero => "division by zero"
  | .unknownService id => "unknown system call " ++ toString id.toInt
  | .service s cause => "system call " ++ s.name ++ " failed: " ++ cause.message
  | .stepLimit limit => "step limit of " ++ toString limit ++ " reached"

/-- The wordings of the trap and of the cause that a report shows below it. -/
def messages (t : Trap) : List String :=
  t.message ::
    match t with
    | .bus _ cause => [cause.message]
    | .service _ cause => [cause.message]
    | _ => []

end Trap

end WordMachine
