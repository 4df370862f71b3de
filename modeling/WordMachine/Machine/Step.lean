import WordMachine.Machine.Execute

/-!
# Steps

One step fetches the instruction at the pointer, moves the pointer to the last word of the
instruction, executes it and moves the pointer one word on.  `begin` goes as far as the machine
alone can; if the instruction asks for the host, `resume` does the rest once the answer is there.
`step` puts the two together for a host that is given as a function.
-/

namespace WordMachine

namespace Machine

/-- The trap at a position where a word stands but no whole instruction starts. -/
def undecodable (i : Nat) (opcode : Word) : Trap :=
  match Op.ofOpcode? opcode with
  | some op => .outsideProgram (Word.ofCount (i + op.operandCount))
  | none => .invalidInstruction i opcode

/-- The instruction that the pointer stands on.  That the pointer lies in the program is checked
first, then the step limit, then that a whole instruction starts there. -/
def fetch (p : Program) (m : Machine) : Except Trap Instruction :=
  match Word.toIndex? m.cpu.pointer with
  | none => .error (.outsideProgram m.cpu.pointer)
  | some i =>
    match p.words[i]?, m.cpu.reachedLimit? with
    | none, _ => .error (.outsideProgram m.cpu.pointer)
    | some _, some limit => .error (.stepLimit limit)
    | some opcode, none =>
      match decode? p.words i with
      | some d => .ok d
      | none => .error (undecodable i opcode)

/-- The machine that is about to execute an instruction: the pointer stands on its last word, and
the step is counted. -/
def enter (m : Machine) (d : Instruction) : Machine :=
  let cpu := m.cpu.goTo (Word.ofCount (d.position + d.op.operandCount))
  { m with cpu := { cpu with steps := cpu.steps + 1 } }

/-- The machine with its pointer one word on. -/
def leave (m : Machine) : Machine := { m with cpu := m.cpu.goTo (m.cpu.pointer + 1) }

/-- What a step has come to when the machine has done its own part. -/
inductive Progress
  | finished (m : Machine)
  | waiting (call : HostCall) (m : Machine)
  | trapped (t : Trap) (m : Machine)

/-- Starts a step. -/
def begin (p : Program) (m : Machine) : Progress :=
  match fetch p m with
  | .error t => .trapped t m
  | .ok d =>
    match execute d (m.enter d) with
    | .error t m => .trapped t m
    | .ok (some call) m => .waiting call m
    | .ok none m => .finished m.leave

/-- Ends a step that has waited for the answer to a call. -/
def resume (call : HostCall) (answer : Except HostError call.Answer) (m : Machine) :
    Machine × Option Trap :=
  match receive call answer m with
  | .error t m => (m, some t)
  | .ok () m => (m.leave, none)

/-- One step of a machine and its host, with the trap if there is one. -/
def step (host : Host σ) (p : Program) (m : Machine) (s : σ) : (Machine × σ) × Option Trap :=
  match begin p m with
  | .finished m => ((m, s), none)
  | .trapped t m => ((m, s), some t)
  | .waiting call m =>
    let (answer, s) := host call s
    let (m, trap?) := resume call answer m
    ((m, s), trap?)

end Machine

end WordMachine
