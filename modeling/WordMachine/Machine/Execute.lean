import WordMachine.Machine.Basic
import WordMachine.Machine.Trap
import WordMachine.Text.Utf8

/-!
# What instructions do

The effect of one instruction on the machine, the instruction pointer standing on the last word of
the instruction.  An instruction is an `Action`: it changes the machine and may trap, and a trap
leaves the machine as it is at that moment.  All operands are checked before anything is changed.

A service that needs the host is done in two halves.  `request` reads the arguments from the machine
and forms the call, `receive` puts the host's answer into the machine.  No other instruction knows
of the host.
-/

namespace WordMachine

/-! ### Arithmetic -/

namespace BinaryOp

/-- The word that an operation leaves in its destination, from what is there and the operand.  Sums,
differences and products wrap around, quotients are truncated, and a shift takes the operand modulo
32 and keeps the sign when it goes to the right. -/
def value : BinaryOp → Word → Word → Word
  | mov, _, v => v
  | add, c, v => c + v
  | sub, c, v => c - v
  | mul, c, v => c * v
  | div, c, v => c / v
  | xor, c, v => c ^^^ v
  | and, c, v => c &&& v
  | or, c, v => c ||| v
  | shl, c, v => c <<< v
  | shr, c, v => c >>> v

/-- The flags after an operation.  The arithmetic operations set theirs anew, the others leave the
flags alone. -/
def flags (op : BinaryOp) (old : Flags) (c v : Word) : Flags :=
  match op with
  | add => { overflow := !Word.fits (c.toInt + v.toInt) }
  | sub => { underflow := !Word.fits (c.toInt - v.toInt) }
  | mul => { overflow := !Word.fits (c.toInt * v.toInt) }
  | div => {}
  | _ => old

end BinaryOp

def Condition.holds : Condition → Flags → Bool
  | always, _ => true
  | equal, f => f.equal
  | notEqual, f => !f.equal
  | greater, f => f.greater
  | lower, f => f.lower

/-! ### Actions -/

/-- A change of the machine that may trap. -/
abbrev Action := EStateM Trap Machine

namespace Machine

/-- The contents of the register that an operand word selects. -/
def register (index : Word) : Action Word := fun m =>
  match Register.ofIndex? index with
  | some r => .ok (m.cpu.registers.get r) m
  | none => .error (.noRegister index) m

def setRegister (r : Register) (v : Word) : Action Unit := fun m =>
  .ok () { m with cpu := { m.cpu with registers := m.cpu.registers.set r v } }

/-- Replaces the contents of the register that an operand word selects. -/
def assign (index v : Word) : Action Unit := fun m =>
  match Register.ofIndex? index with
  | some r => setRegister r v m
  | none => .error (.noRegister index) m

def modifyFlags (f : Flags → Flags) : Action Unit := fun m =>
  .ok () { m with cpu := { m.cpu with flags := f m.cpu.flags } }

def goTo (w : Word) : Action Unit := fun m => .ok () { m with cpu := m.cpu.goTo w }

def goBy (distance : Word) : Action Unit := fun m =>
  .ok () { m with cpu := m.cpu.goTo (m.cpu.pointer + distance) }

/-- Moves the instruction pointer to the end of the program. -/
def halt : Action Unit := fun m => .ok () { m with cpu := m.cpu.halt }

/-- The value of an instruction's last operand. -/
def operand (mode : Addressing) (d : Instruction) : Action Word :=
  match mode with
  | .immediate => pure d.second
  | .register => register d.second

def push (v : Word) : Action Unit := fun m =>
  match m.cpu.stack.push v with
  | .ok stack => .ok () { m with cpu := { m.cpu with stack } }
  | .error e => .error (.stack e) m

def pop : Action Word := fun m =>
  match m.cpu.stack.pop with
  | .ok (v, stack) => .ok v { m with cpu := { m.cpu with stack } }
  | .error e => .error (.stack e) m

/-- Reads memory at the address that a word states. -/
def readMemory (address : Word) (read : Memory → UInt32 → Except BusError α) : Action α := fun m =>
  match read m.memory (Word.bits address) with
  | .ok a => .ok a m
  | .error e => .error (.bus address e) m

/-- Changes memory at the address that a word states. -/
def writeMemory (address : Word) (write : UInt32 → Memory.Update Unit) : Action Unit :=
  fun ⟨cpu, memory⟩ =>
    match write (Word.bits address) memory with
    | .ok _ memory => .ok () ⟨cpu, memory⟩
    | .error e memory => .error (.bus address e) ⟨cpu, memory⟩

/-- Combines the destination register of an instruction with a value.  A division also leaves the
remainder in `r6`. -/
def combine (op : BinaryOp) (d : Instruction) (v : Word) : Action Unit := do
  let c ← register d.first
  modifyFlags fun f => op.flags f c v
  if op = .div then
    if v = 0 then throw .divideByZero
    assign d.first (c / v)
    setRegister .r6 (c % v)
  else assign d.first (op.value c v)

/-- Changes a register by one, which affects only the flag for going out of range. -/
def stepRegister (d : Instruction) (value : Word → Word) (flag : Word → Flags → Flags) :
    Action Unit := do
  let c ← register d.first
  modifyFlags (flag c)
  assign d.first (value c)

/-- Stores a value at an address.  As a byte it must not be above 127; of a negative value the
lowest eight bits are stored. -/
def store (width : Width) (address v : Word) : Action Unit :=
  match width with
  | .byte =>
    if 127 < v.toInt then throw (.byteRange v)
    else writeMemory address fun a => Memory.writeByte a (Word.bits v).toUInt8
  | .word => writeMemory address fun a => Memory.writeWord a (Word.bits v)

/-- The value at an address: a byte as a number from 0 to 255, or a word. -/
def load (width : Width) (address : Word) : Action Word :=
  match width with
  | .byte => return Word.ofBits (← readMemory address Memory.readByte).toUInt32
  | .word => return Word.ofBits (← readMemory address Memory.readWord)

/-- Executes an instruction.  Of `int` nothing is done here, see `execute`. -/
def perform (d : Instruction) : Action Unit :=
  match d.op with
  | .binary op mode => do combine op d (← operand mode d)
  | .compare .immediate => do
    let c ← register d.first
    modifyFlags fun f => f.compare d.second c
  | .compare .register => do
    let a ← register d.first
    let b ← register d.second
    modifyFlags fun f => f.compare a b
  | .not => do assign d.first (~~~ (← register d.first))
  | .increment =>
    stepRegister d (· + 1) fun c f => { f with overflow := !Word.fits (c.toInt + 1) }
  | .decrement =>
    stepRegister d (· - 1) fun c f => { f with underflow := !Word.fits (c.toInt - 1) }
  | .label => pure ()
  | .jump condition => fun m =>
    if condition.holds m.cpu.flags then goBy d.first m else .ok () m
  | .store width .immediate => store width d.first d.second
  | .store width .register => do
    let address ← register d.first
    let v ← register d.second
    store width address v
  | .load width mode => do
    let address ← operand mode d
    let _ ← register d.first
    assign d.first (← load width address)
  | .push => do push (← register d.first)
  | .pop => do
    let _ ← register d.first
    assign d.first (← pop)
  | .call => do
    push ((← get).cpu.pointer - 1)
    goTo d.first
  | .retn => do
    if (← get).cpu.stack.isEmpty then halt
    else goTo ((← pop) + 1)
  | .halt => halt
  | .interrupt => pure ()

/-! ### Services -/

/-- The text at the address in `r1`. -/
def stringArgument : Action String := do
  let address := (← get).cpu.registers.r1
  return Text.Utf8.decodeLossy (← readMemory address Memory.readString)

/-- The file position in `r2`. -/
def positionArgument (service : Service) : Action Nat := fun m =>
  match Word.toIndex? m.cpu.registers.r2 with
  | some n => .ok n m
  | none => .error (.service service .negativePosition) m

/-- Forms the call of a service.  The size of the memory is known without a call. -/
def request : Service → Action (Option HostCall)
  | .readLine => return some (.readLine (← stringArgument))
  | .writeLine => return some (.writeLine (← stringArgument))
  | .readFileByte => do
    let path ← stringArgument
    return some (.readFileByte path (← positionArgument .readFileByte))
  | .writeFileByte => do
    let path ← stringArgument
    let position ← positionArgument .writeFileByte
    return some (.writeFileByte path position (Word.bits (← get).cpu.registers.r3).toUInt8)
  | .fileSize => return some (.fileSize (← stringArgument))
  | .memorySize => do
    setRegister .r1 (Word.clamp (← get).memory.announced)
    return none

/-- Stores a line and a zero byte at the address in `r2`, and the length of the line in `r1`. -/
def storeLine (line : String) : Action Unit := do
  let bytes := Text.Utf8.encode line
  let address := (← get).cpu.registers.r2
  writeMemory address fun a => Memory.writeBytes a (bytes ++ [0])
  setRegister .r1 (Word.ofCount bytes.length)

/-- Puts the answer of a successful call into the machine. -/
def accept : (call : HostCall) → call.Answer → Action Unit
  | .readLine _, line => storeLine line
  | .writeLine _, _ => pure ()
  | .readFileByte _ _, byte? =>
    setRegister .r1 (match byte? with | some b => Word.ofBits b.toUInt32 | none => -1)
  | .writeFileByte _ _ _, _ => pure ()
  | .fileSize _, size => setRegister .r1 (Word.clamp size)

/-- Goes on with the answer to a call. -/
def receive (call : HostCall) : Except HostError call.Answer → Action Unit
  | .ok answer => accept call answer
  | .error e => throw (.service call.service e)

/-- Executes an instruction up to the point where it needs the host, if it does. -/
def execute (d : Instruction) : Action (Option HostCall) :=
  match d.op with
  | .interrupt =>
    match Service.ofId? d.first with
    | some service => request service
    | none => throw (.unknownService d.first)
  | _ => do
    perform d
    return none

end Machine

end WordMachine
