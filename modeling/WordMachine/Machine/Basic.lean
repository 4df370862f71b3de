import WordMachine.Machine.Flags
import WordMachine.Memory
import WordMachine.Program
import WordMachine.Register
import WordMachine.Stack

/-!
# The machine

The state of a machine: the processor with its registers, flags and stack, and the memory.  The
processor knows the length of the program it is to run but not the program itself.
-/

namespace WordMachine

/-- The settings of a machine. -/
structure Config where
  memorySize : Nat := 65536
  stackCapacity : Nat := 256
  /-- How many bytes of memory a core dump shows. -/
  dumpBytes : Nat := 256
  /-- After how many instructions a run is trapped; never, if there is no number.  The number is
  below `2 ^ 64`, as the counts are that it is compared with. -/
  maxSteps : Option Nat := none
  deriving DecidableEq, Repr, Inhabited

/-- The state of the processor. -/
structure Cpu where
  registers : Registers := {}
  flags : Flags := {}
  stack : Stack
  /-- The number of words of the program it is to run. -/
  programSize : Nat := 0
  /-- The number of instructions executed since the last reset.  It stands for a counter of 64 bits:
  counts stay below `2 ^ 64`, since no run goes on for as long as that. -/
  steps : Nat := 0
  config : Config
  deriving DecidableEq, Repr, Inhabited

namespace Cpu

def new (config : Config) : Cpu := { stack := Stack.empty config.stackCapacity, config }

/-- The processor at rest again; only its settings and its stack's capacity are kept. -/
def reset (c : Cpu) : Cpu := { stack := c.stack.clear, config := c.config }

/-- The processor at rest before the first word of a program. -/
def load (c : Cpu) (p : Program) : Cpu := { c.reset with programSize := p.size }

def pointer (c : Cpu) : Word := c.registers.rip

def goTo (c : Cpu) (w : Word) : Cpu := { c with registers := { c.registers with rip := w } }

/-- Whether the instruction pointer is below the length of the program.  A negative pointer counts
as running, so that the next step traps. -/
def isRunning (c : Cpu) : Bool := decide (c.pointer.toInt < c.programSize)

/-- The step limit, if there is one and it is reached. -/
def reachedLimit? (c : Cpu) : Option Nat := c.config.maxSteps.filter fun limit => limit ≤ c.steps

/-- The processor with its pointer at the end of the program. -/
def halt (c : Cpu) : Cpu := c.goTo (Word.clamp c.programSize)

@[simp] theorem pointer_goTo (c : Cpu) (w : Word) : (c.goTo w).pointer = w := rfl

@[simp] theorem goTo_goTo (c : Cpu) (v w : Word) : (c.goTo v).goTo w = c.goTo w := rfl

@[simp] theorem goTo_pointer (c : Cpu) : c.goTo c.pointer = c := rfl

theorem isRunning_halt (c : Cpu) (h : c.programSize < 0x80000000) : c.halt.isRunning = false := by
  simp only [halt, isRunning, pointer_goTo, Word.clamp_of_lt h, Word.toInt_ofCount h]
  exact decide_eq_false (Int.lt_irrefl _)

end Cpu

/-- A processor and its memory. -/
structure Machine where
  cpu : Cpu
  memory : Memory
  deriving DecidableEq, Repr, Inhabited

def Machine.new (config : Config) : Machine :=
  { cpu := Cpu.new config, memory := Memory.zeros config.memorySize }

end WordMachine
