import WordMachine.Json.Basic
import WordMachine.Machine.Basic
import WordMachine.Text.Numeral

/-!
# Core dumps

A core dump is a snapshot of a machine for a reader: the registers, the flags, the stack from the
top down, the first bytes of the memory and the number of steps.  It can be shown as text and as a
data value.
-/

namespace WordMachine

open Text

/-- A snapshot of a machine. -/
structure CoreDump where
  registers : Registers
  flags : Flags
  /-- The stack, the top first. -/
  stack : List Word
  /-- The first bytes of the memory. -/
  memory : List UInt8
  /-- The number of instructions executed; as in the machine, it stays below `2 ^ 64`. -/
  steps : Nat
  deriving DecidableEq, Repr

namespace CoreDump

/-- How many bytes a dump asks the memory for: as many as the settings want and the memory
announces, counted as a 32-bit number. -/
def span (c : Cpu) (m : Memory) : Nat := min c.config.dumpBytes m.announced % 0x100000000

/-- The snapshot of a machine.  The memory gives no more bytes than it has. -/
def capture (m : Machine) : CoreDump :=
  { registers := m.cpu.registers
    flags := m.cpu.flags
    stack := m.cpu.stack.entries
    memory := (m.memory.bytes.extract 0 (span m.cpu m.memory)).toList
    steps := m.cpu.steps }

/-! ### As text -/

/-- The line of one register: its name, its value and its bits. -/
def registerLine (r : Register) (w : Word) : String :=
  "  " ++ padRight 4 r.name ++ padLeft 12 ' ' (decimal w.toInt) ++
    " (0x" ++ hexPadded 8 (Word.bits w).toNat ++ ")\n"

def memoryLine (address : Nat) (bytes : List UInt8) : String :=
  "  " ++ hexPadded 4 address ++ ":" ++
    String.join (bytes.map fun b => " " ++ hexPadded 2 b.toNat) ++ "\n"

/-- How many bytes stand in a row. -/
def rowLength : Nat := 16

/-- The rows of bytes from an address on. -/
def memoryLines (address : Nat) (bytes : List UInt8) : List String :=
  match bytes with
  | [] => []
  | b :: rest =>
    memoryLine address ((b :: rest).take rowLength) ::
      memoryLines (address + rowLength) (rest.drop (rowLength - 1))
termination_by bytes.length
decreasing_by
  rw [List.length_drop, List.length_cons]
  omega

def text (d : CoreDump) : String :=
  "registers:\n" ++
    String.join (Register.all.map fun r => registerLine r (d.registers.get r)) ++
    "flags: " ++ d.flags.dumpText ++ "\n" ++
    "stack:" ++
    (if d.stack.isEmpty then " (empty)"
      else String.join (d.stack.map fun w => " " ++ decimal w.toInt)) ++ "\n" ++
    "memory:\n" ++ String.join (memoryLines 0 d.memory) ++
    "steps: " ++ toString d.steps ++ "\n"

/-! ### As data -/

def toJson (d : CoreDump) : Json :=
  .object
    [("registers", .array (Register.all.map fun r =>
        .object [("name", .string r.name), ("value", .integer (d.registers.get r).toInt)])),
     ("flags", .string d.flags.text),
     ("stack", .array (d.stack.map fun w => .integer w.toInt)),
     ("memory", .array (d.memory.map fun b => .integer b.toNat)),
     ("steps", .integer d.steps)]

end CoreDump

end WordMachine
