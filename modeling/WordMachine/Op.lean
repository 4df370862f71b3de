import WordMachine.Word

/-!
# The instruction set

An operation is described by what it does.  The binary operations, the comparison, the stores and
the loads each exist in two addressings: one takes a word that stands in the code, the other goes
through a register.  Every operation has an opcode, a mnemonic and a form, and the form alone fixes
how many operand words follow the opcode.

Opcodes and mnemonics are read back by search in `Op.all`.  `Op.ofOpcode?_eq_some` and
`Op.ofMnemonic?_mnemonic` say that the searches find what was written.
-/

namespace WordMachine

/-- Where an instruction finds its value or its address: in the code, or in a register. -/
inductive Addressing
  | immediate | register
  deriving DecidableEq, Repr

/-- The operations that combine a destination register with a value. -/
inductive BinaryOp
  | mov | add | sub | mul | div | xor | and | or | shl | shr
  deriving DecidableEq, Repr

/-- When a jump is taken. -/
inductive Condition
  | always | equal | notEqual | greater | lower
  deriving DecidableEq, Repr

/-- What a store or a load moves. -/
inductive Width
  | byte | word
  deriving DecidableEq, Repr

/-- The layout of the operand words after an opcode. -/
inductive Form
  | bare
  | register
  /-- A register, then a value or an address. -/
  | registerValue
  | registerPair
  /-- An address, then a value. -/
  | addressValue
  | value
  /-- The id of a label that stands here. -/
  | marker
  /-- A reference to a label: in finished code, the distance from the opcode to the label. -/
  | relative
  /-- A reference to a label: in finished code, the position just before the label. -/
  | absolute
  deriving DecidableEq, Repr

def Form.operandCount : Form → Nat
  | .bare => 0
  | .register | .value | .marker | .relative | .absolute => 1
  | .registerValue | .registerPair | .addressValue => 2

theorem Form.operandCount_le (f : Form) : f.operandCount ≤ 2 := by cases f <;> decide

/-- The operations of the machine. -/
inductive Op
  | binary (op : BinaryOp) (mode : Addressing)
  | compare (mode : Addressing)
  | not | increment | decrement
  | label
  | jump (condition : Condition)
  | store (width : Width) (mode : Addressing)
  | load (width : Width) (mode : Addressing)
  | push | pop
  | call | retn
  | halt
  | interrupt
  deriving DecidableEq, Repr

namespace Op

/-- Every operation, in the order of the reference table. -/
def all : List Op :=
  [.binary .mov .immediate, .binary .add .immediate, .binary .sub .immediate,
   .binary .mul .immediate, .binary .div .immediate, .binary .xor .immediate,
   .binary .and .immediate, .binary .or .immediate, .compare .immediate,
   .binary .shl .immediate, .binary .shr .immediate,
   .binary .mov .register, .binary .add .register, .binary .sub .register,
   .binary .mul .register, .binary .div .register, .binary .xor .register,
   .binary .and .register, .binary .or .register, .compare .register,
   .binary .shl .register, .binary .shr .register,
   .not, .increment, .decrement,
   .label, .jump .always, .jump .equal, .jump .notEqual, .jump .greater, .jump .lower,
   .store .byte .immediate, .store .word .immediate,
   .load .byte .immediate, .load .word .immediate,
   .store .byte .register, .store .word .register,
   .load .byte .register, .load .word .register,
   .push, .pop, .call, .retn, .halt, .interrupt]

/-- The word that stands for an operation in code. -/
def opcode : Op → Word
  | .binary .mov .immediate => 1
  | .binary .add .immediate => 2
  | .binary .sub .immediate => 3
  | .binary .xor .immediate => 4
  | .binary .and .immediate => 5
  | .binary .or .immediate => 6
  | .compare .immediate => 7
  | .binary .mov .register => 8
  | .binary .add .register => 9
  | .binary .sub .register => 10
  | .binary .xor .register => 11
  | .binary .and .register => 12
  | .not => 13
  | .binary .or .register => 14
  | .compare .register => 15
  | .increment => 16
  | .decrement => 17
  | .label => 18
  | .jump .always => 19
  | .jump .equal => 20
  | .jump .notEqual => 21
  | .jump .greater => 22
  | .jump .lower => 23
  | .store .byte .immediate => 24
  | .store .word .immediate => 25
  | .load .byte .immediate => 26
  | .load .word .immediate => 27
  | .push => 28
  | .pop => 29
  | .call => 30
  | .retn => 31
  | .halt => 32
  | .binary .mul .immediate => 33
  | .binary .div .immediate => 34
  | .binary .mul .register => 35
  | .binary .div .register => 36
  | .binary .shl .immediate => 51
  | .binary .shr .immediate => 52
  | .binary .shl .register => 53
  | .binary .shr .register => 54
  | .store .byte .register => 60
  | .store .word .register => 61
  | .load .byte .register => 62
  | .load .word .register => 63
  | .interrupt => 80

/-- The name of an operation in source text and in listings. -/
def mnemonic : Op → String
  | .binary .mov .immediate => "movd"
  | .binary .add .immediate => "addd"
  | .binary .sub .immediate => "subd"
  | .binary .mul .immediate => "muld"
  | .binary .div .immediate => "divd"
  | .binary .xor .immediate => "xord"
  | .binary .and .immediate => "andd"
  | .binary .or .immediate => "ord"
  | .compare .immediate => "cmpd"
  | .binary .shl .immediate => "shld"
  | .binary .shr .immediate => "shrd"
  | .binary .mov .register => "movr"
  | .binary .add .register => "addr"
  | .binary .sub .register => "subr"
  | .binary .mul .register => "mulr"
  | .binary .div .register => "divr"
  | .binary .xor .register => "xorr"
  | .binary .and .register => "andr"
  | .binary .or .register => "orr"
  | .compare .register => "cmpr"
  | .binary .shl .register => "shlr"
  | .binary .shr .register => "shrr"
  | .not => "notr"
  | .increment => "incr"
  | .decrement => "decr"
  | .label => "label"
  | .jump .always => "jmp"
  | .jump .equal => "je"
  | .jump .notEqual => "jne"
  | .jump .greater => "jg"
  | .jump .lower => "jb"
  | .store .byte .immediate => "wmbd"
  | .store .word .immediate => "wmid"
  | .load .byte .immediate => "rmbd"
  | .load .word .immediate => "rmid"
  | .store .byte .register => "wmbr"
  | .store .word .register => "wmir"
  | .load .byte .register => "rmbr"
  | .load .word .register => "rmir"
  | .push => "push"
  | .pop => "pop"
  | .call => "call"
  | .retn => "retn"
  | .halt => "hlt"
  | .interrupt => "int"

def form : Op → Form
  | .binary _ .immediate | .compare .immediate | .load _ .immediate => .registerValue
  | .binary _ .register | .compare .register | .store _ .register | .load _ .register =>
    .registerPair
  | .store _ .immediate => .addressValue
  | .not | .increment | .decrement | .push | .pop => .register
  | .label => .marker
  | .jump _ => .relative
  | .call => .absolute
  | .retn | .halt => .bare
  | .interrupt => .value

def operandCount (op : Op) : Nat := op.form.operandCount

/-- Whether the operand is a distance from the instruction to a label. -/
def isRelativeJump (op : Op) : Bool := op.form == .relative

/-- Whether the operand refers to a label that stands elsewhere. -/
def refersToLabel (op : Op) : Bool := op.form == .relative || op.form == .absolute

/-- Whether the single operand is a label name in source text. -/
def takesLabel (op : Op) : Bool := op.refersToLabel || op.form == .marker

def ofOpcode? (w : Word) : Option Op :=
  all.find? (fun op => op.opcode == w)

/-- Further spellings that source text may use. -/
def aliases : List (String × Op) :=
  [("@", .label), ("function", .label), ("proc", .label),
   ("end_function", .retn), ("end_proc", .retn)]

/-- The operation of a mnemonic or an alias; the case of ASCII letters does not matter. -/
def ofMnemonic? (name : String) : Option Op :=
  let lower := name.toLower
  (all.find? (fun op => op.mnemonic == lower)).or (aliases.lookup lower)

/-! ### What the searches find -/

theorem mem_all (op : Op) : op ∈ all := by
  cases op with
  | binary op mode => cases op <;> cases mode <;> decide
  | compare mode => cases mode <;> decide
  | jump c => cases c <;> decide
  | store w mode => cases w <;> cases mode <;> decide
  | load w mode => cases w <;> cases mode <;> decide
  | _ => decide

@[simp] theorem ofOpcode?_opcode (op : Op) : ofOpcode? op.opcode = some op := by
  have h : ∀ op ∈ all, ofOpcode? op.opcode = some op := by decide
  exact h op (mem_all op)

theorem ofOpcode?_eq_some {w : Word} {op : Op} : ofOpcode? w = some op ↔ op.opcode = w := by
  constructor
  · intro h
    simpa using List.find?_some h
  · rintro rfl
    exact ofOpcode?_opcode op

theorem opcode_injective {a b : Op} (h : a.opcode = b.opcode) : a = b := by
  have := ofOpcode?_opcode a
  rw [h, ofOpcode?_opcode b] at this
  exact (Option.some.inj this).symm

theorem ofMnemonic?_mnemonic (op : Op) : ofMnemonic? op.mnemonic = some op := by
  have h : (all.all fun op => ofMnemonic? op.mnemonic == some op) = true := by decide +kernel
  exact eq_of_beq (List.all_eq_true.1 h op (mem_all op))

theorem operandCount_le (op : Op) : op.operandCount ≤ 2 := op.form.operandCount_le

end Op

end WordMachine
