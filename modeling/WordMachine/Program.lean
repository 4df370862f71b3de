import WordMachine.Instruction
import WordMachine.Program.Marks

/-!
# Programs

A program is a sequence of words.  Read from its first word on, it falls into instructions: `walk`
lists where they start, or names the word at which the reading fails.  `Program.check` accepts the
sequences that can be read to their end.  `Program.starts` marks the instruction starts of any
sequence, up to and including the first word that is no opcode.
-/

namespace WordMachine

/-- Why a sequence of words cannot be read as instructions. -/
inductive ProgramError
  | unknownOpcode (position : Nat) (opcode : Word)
  | truncated (position needed : Nat)
  deriving DecidableEq, Repr

def ProgramError.message : ProgramError → String
  | .unknownOpcode position opcode =>
    "unknown opcode " ++ toString opcode.toInt ++ " at word " ++ toString position
  | .truncated position needed =>
    "instruction at word " ++ toString position ++ " needs " ++ toString needed ++
      " operand(s) but the program ends"

/-- A sequence of words for the machine to run. -/
structure Program where
  words : Array Word
  deriving DecidableEq, Repr, Inhabited

/-- The starts of the instructions from position `i` on. -/
def walkFrom (words : Array Word) (i : Nat) : Except ProgramError (List Nat) :=
  if _ : i < words.size then
    match Op.ofOpcode? words[i] with
    | none => .error (.unknownOpcode i words[i])
    | some op =>
      if i + op.operandCount < words.size then
        (walkFrom words (i + 1 + op.operandCount)).map (i :: ·)
      else .error (.truncated i op.operandCount)
  else .ok []
termination_by words.size - i

/-- The starts of the instructions of a sequence of words. -/
def walk (words : Array Word) : Except ProgramError (List Nat) := walkFrom words 0

namespace Program

def size (p : Program) : Nat := p.words.size

/-- The program of a sequence of words that can be read to its end. -/
def check (words : Array Word) : Except ProgramError Program :=
  (walk words).map fun _ => ⟨words⟩

/-- The positions at which the reading from position `i` on finds an instruction to start; a word
that is no opcode is the last of them. -/
def startsFrom (words : Array Word) (i : Nat) : List Nat :=
  if _ : i < words.size then
    match Op.ofOpcode? words[i] with
    | none => [i]
    | some op => i :: startsFrom words (i + 1 + op.operandCount)
  else []
termination_by words.size - i

/-- The instruction starts of the program. -/
def starts (p : Program) : Marks := Marks.ofList p.size (startsFrom p.words 0)

@[simp] theorem size_starts (p : Program) : p.starts.size = p.size := Marks.size_ofList ..

end Program

end WordMachine
