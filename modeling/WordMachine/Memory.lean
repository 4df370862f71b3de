import WordMachine.Text.Numeral

/-!
# Memory

A memory is an array of bytes with 32-bit addresses; words in it are big-endian.  An access that
does not lie inside the array fails and changes nothing.  Writing is a `Memory.Update`, which also
says what memory a failure leaves behind.

A memory also announces a size, by default its real one.  The search for the end of a string, core
dumps and programs that ask for the size go by the announced one.
-/

namespace WordMachine

/-- Why a memory access fails. -/
inductive BusError
  /-- `count` bytes at `address` do not lie inside a memory of `size` bytes. -/
  | outside (address : UInt32) (count size : Nat)
  /-- A string cannot start at `address` in a memory that announces `size` bytes. -/
  | noString (address : UInt32) (size : Nat)
  deriving DecidableEq, Repr

def BusError.message : BusError → String
  | .outside address count size =>
    "address " ++ Text.hexMarked address.toNat ++ " (+" ++ toString count ++
      ") outside memory of " ++ toString size ++ " bytes"
  | .noString address size =>
    "string at " ++ Text.hexMarked address.toNat ++ " outside memory of " ++ toString size ++
      " bytes"

/-- The bytes of a memory and the size that it announces. -/
structure Memory where
  bytes : Array UInt8
  announced : Nat := bytes.size
  deriving DecidableEq, Repr, Inhabited

namespace Memory

/-- A memory of `n` zero bytes. -/
def zeros (n : Nat) : Memory := { bytes := Array.replicate n 0 }

/-- The number of bytes that the memory really has. -/
def size (m : Memory) : Nat := m.bytes.size

/-- The memory with every byte zero. -/
def reset (m : Memory) : Memory := { m with bytes := Array.replicate m.bytes.size 0 }

/-- Whether `count` bytes at an address lie inside the memory. -/
def holds (m : Memory) (address : UInt32) (count : Nat) : Bool :=
  decide (address.toNat + count ≤ m.size)

/-- The failure of an access to `count` bytes at an address. -/
def outside (m : Memory) (address : UInt32) (count : Nat) : BusError :=
  .outside address count m.size

/-- The byte at a position, 0 beyond the end. -/
def byteAt (m : Memory) (i : Nat) : UInt8 := m.bytes[i]?.getD 0

/-- The memory with the byte at a position replaced. -/
def setByte (m : Memory) (i : Nat) (v : UInt8) : Memory :=
  { m with bytes := m.bytes.setIfInBounds i v }

/-- Four bytes as a number, the first of them the most significant. -/
def joinBytes (a b c d : UInt8) : UInt32 :=
  a.toUInt32 <<< 24 ||| b.toUInt32 <<< 16 ||| c.toUInt32 <<< 8 ||| d.toUInt32

/-- The byte of a number that stands `k` places above the least significant one. -/
def byteOf (v : UInt32) (k : UInt32) : UInt8 := (v >>> (8 * k)).toUInt8

def readByte (m : Memory) (address : UInt32) : Except BusError UInt8 :=
  if m.holds address 1 then .ok (m.byteAt address.toNat) else .error (m.outside address 1)

/-- Reads the four bytes of a word. -/
def readWord (m : Memory) (address : UInt32) : Except BusError UInt32 :=
  let i := address.toNat
  if m.holds address 4 then
    .ok (joinBytes (m.byteAt i) (m.byteAt (i + 1)) (m.byteAt (i + 2)) (m.byteAt (i + 3)))
  else .error (m.outside address 4)

/-- A change of a memory that may fail. -/
abbrev Update := EStateM BusError Memory

def writeByte (address : UInt32) (v : UInt8) : Update Unit := fun m =>
  if m.holds address 1 then .ok () (m.setByte address.toNat v)
  else .error (m.outside address 1) m

/-- The memory with the four bytes at a position replaced by those of a word. -/
def setWord (m : Memory) (i : Nat) (v : UInt32) : Memory :=
  (((m.setByte i (byteOf v 3)).setByte (i + 1) (byteOf v 2)).setByte (i + 2)
    (byteOf v 1)).setByte (i + 3) (byteOf v 0)

/-- Writes the four bytes of a word. -/
def writeWord (address : UInt32) (v : UInt32) : Update Unit := fun m =>
  if m.holds address 4 then .ok () (m.setWord address.toNat v)
  else .error (m.outside address 4) m

/-- Writes bytes from an address on; the bytes before one that fails stay written. -/
def writeBytes (address : UInt32) : List UInt8 → Update Unit
  | [] => pure ()
  | v :: rest => do
    writeByte address v
    writeBytes (address + 1) rest

/-- The bytes from position `i` up to a zero byte or the announced end, after those in `rev`, which
are in reverse. -/
def stringFrom (m : Memory) (i : Nat) (rev : List UInt8) : Except BusError (List UInt8) :=
  if i < m.announced then
    match m.readByte (UInt32.ofNat i) with
    | .error e => .error e
    | .ok b => if b = 0 then .ok rev.reverse else m.stringFrom (i + 1) (b :: rev)
  else .ok rev.reverse
termination_by m.announced - i

/-- The bytes of the string that starts at an address: up to a zero byte or the announced end. -/
def readString (m : Memory) (address : UInt32) : Except BusError (List UInt8) :=
  if address.toNat < m.announced then m.stringFrom address.toNat []
  else .error (.noString address m.announced)

/-! ### What the operations keep -/

@[simp] theorem size_zeros (n : Nat) : (zeros n).size = n := by simp [size, zeros]

@[simp] theorem announced_zeros (n : Nat) : (zeros n).announced = n := by simp [zeros]

@[simp] theorem size_reset (m : Memory) : m.reset.size = m.size := by simp [size, reset]

@[simp] theorem announced_reset (m : Memory) : m.reset.announced = m.announced := rfl

@[simp] theorem size_setByte (m : Memory) (i : Nat) (v : UInt8) :
    (m.setByte i v).size = m.size := by
  simp [size, setByte]

@[simp] theorem announced_setByte (m : Memory) (i : Nat) (v : UInt8) :
    (m.setByte i v).announced = m.announced := rfl

theorem byteAt_setByte (m : Memory) (i j : Nat) (v : UInt8) :
    (m.setByte i v).byteAt j = if i = j ∧ i < m.size then v else m.byteAt j := by
  by_cases h : i = j
  · subst h
    by_cases lt : i < m.bytes.size <;> simp [byteAt, setByte, size, lt]
  · simp [byteAt, setByte, h]

@[simp] theorem size_setWord (m : Memory) (i : Nat) (v : UInt32) :
    (m.setWord i v).size = m.size := by
  simp [setWord]

@[simp] theorem announced_setWord (m : Memory) (i : Nat) (v : UInt32) :
    (m.setWord i v).announced = m.announced := rfl

theorem byteAt_zeros (n i : Nat) : (zeros n).byteAt i = 0 := by
  simp only [byteAt, zeros, Array.getElem?_replicate]
  split <;> rfl

@[simp] theorem byteAt_reset (m : Memory) (i : Nat) : m.reset.byteAt i = 0 := byteAt_zeros _ i

/-! ### Inside and outside -/

variable {m : Memory} {address : UInt32}

theorem holds_iff {count : Nat} :
    m.holds address count = true ↔ address.toNat + count ≤ m.size := decide_eq_true_iff

theorem readByte_of_holds (h : m.holds address 1 = true) :
    m.readByte address = .ok (m.byteAt address.toNat) := if_pos h

theorem readByte_of_not_holds (h : m.holds address 1 = false) :
    m.readByte address = .error (m.outside address 1) := by
  simp [readByte, h]

theorem writeByte_of_holds (v : UInt8) (hin : address.toNat + 1 ≤ m.size) :
    writeByte address v m = .ok () (m.setByte address.toNat v) := by
  rw [writeByte, if_pos (holds_iff.mpr hin)]

theorem writeByte_of_outside (v : UInt8) (hout : m.size ≤ address.toNat) :
    writeByte address v m = .error (m.outside address 1) m := by
  rw [writeByte, if_neg fun h => Nat.not_lt_of_le hout (holds_iff.mp h)]

theorem writeWord_of_holds (v : UInt32) (hin : address.toNat + 4 ≤ m.size) :
    writeWord address v m = .ok () (m.setWord address.toNat v) := by
  rw [writeWord, if_pos (holds_iff.mpr hin)]

theorem writeWord_of_outside (v : UInt32) (hout : m.size < address.toNat + 4) :
    writeWord address v m = .error (m.outside address 4) m := by
  rw [writeWord, if_neg fun h => Nat.not_le_of_lt hout (holds_iff.mp h)]

theorem writeBytes_cons_of_lt (v : UInt8) (bytes : List UInt8) (hin : address.toNat < m.size) :
    writeBytes address (v :: bytes) m =
      writeBytes (address + 1) bytes (m.setByte address.toNat v) := by
  change EStateM.bind (writeByte address v) (fun _ => writeBytes (address + 1) bytes) m = _
  rw [EStateM.bind, writeByte_of_holds v hin]

theorem writeBytes_cons_of_le (v : UInt8) (bytes : List UInt8) (hout : m.size ≤ address.toNat) :
    writeBytes address (v :: bytes) m = .error (m.outside address 1) m := by
  change EStateM.bind (writeByte address v) (fun _ => writeBytes (address + 1) bytes) m = _
  rw [EStateM.bind, writeByte_of_outside v hout]

end Memory

end WordMachine
