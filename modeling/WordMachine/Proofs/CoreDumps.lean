import WordMachine.Proofs.Endings

/-!
# What a core dump shows of the memory

A core dump shows the memory from its first byte on.  How many bytes it is to show has four bounds
(`promised`): what the settings want, what the memory announces, what the memory has, and what a
32-bit address reaches.  But the first two are counted together as a 32-bit number (`span`) before
any byte is read.  Below `2 ^ 32` bytes this makes no difference.  From there on the count starts
again at 0, and the dump falls short of the promise unless the remainder still covers the memory
(`length_capture_eq_promised_iff`).

`CoreDump.take` is a dump that is taken byte by byte, through the reads of the memory.  It gives the
same snapshot and leaves the machine as it was.
-/

namespace WordMachine

namespace Memory

/-- Reads the bytes from position `i` on, at most `n` of them and one after the other, up to the
first that cannot be read. -/
def readRow (i : Nat) : Nat → StateM Memory (List UInt8)
  | 0 => pure []
  | n + 1 => do
    match (← get).readByte (UInt32.ofNat i) with
    | .ok b => return b :: (← readRow (i + 1) n)
    | .error _ => return []

variable {m : Memory} {i n : Nat}

theorem holds_ofNat (hi : i < 0x100000000) :
    m.holds (UInt32.ofNat i) 1 = true ↔ i < m.bytes.size := by
  rw [holds_iff, UInt32.toNat_ofNat_of_lt' hi]
  exact Nat.succ_le_iff

theorem readByte_ofNat (hi : i < 0x100000000) (hlt : i < m.bytes.size) :
    m.readByte (UInt32.ofNat i) = .ok m.bytes[i] := by
  rw [readByte_of_holds ((holds_ofNat hi).mpr hlt), UInt32.toNat_ofNat_of_lt' hi, byteAt,
    Array.getElem?_eq_getElem hlt, Option.getD_some]

theorem run_readRow_zero (i : Nat) (m : Memory) : (readRow i 0).run m = ([], m) := rfl

theorem run_readRow_succ (i n : Nat) (m : Memory) :
    (readRow i (n + 1)).run m =
      match m.readByte (UInt32.ofNat i) with
      | .ok b => (b :: ((readRow (i + 1) n).run m).1, ((readRow (i + 1) n).run m).2)
      | .error _ => ([], m) := by
  simp only [readRow]
  cases hread : m.readByte (UInt32.ofNat i) with
  | ok b => simp only [StateT.run_bind, StateT.run_get, pure_bind, hread]; rfl
  | error e => simp only [StateT.run_bind, StateT.run_get, pure_bind, hread]; rfl

/-- As far as addresses reach, reading a row gives the bytes that are there and changes none. -/
theorem run_readRow (h : i + n ≤ 0x100000000) :
    (readRow i n).run m = ((m.bytes.toList.drop i).take n, m) := by
  induction n generalizing i with
  | zero => rw [run_readRow_zero, List.take_zero]
  | succ n ih =>
      rw [run_readRow_succ]
      by_cases hlt : i < m.bytes.size
      · have hdrop : m.bytes.toList.drop i = m.bytes[i] :: m.bytes.toList.drop (i + 1) := by
          rw [List.drop_eq_getElem_cons (by simpa using hlt), Array.getElem_toList]
        rw [readByte_ofNat (by omega) hlt, ih (by omega), hdrop, List.take_succ_cons]
      · have hholds : m.holds (UInt32.ofNat i) 1 = false :=
          Bool.eq_false_iff.mpr fun hheld => hlt ((holds_ofNat (by omega)).mp hheld)
        have hdrop : m.bytes.toList.drop i = [] :=
          List.drop_eq_nil_of_le (by simpa using Nat.le_of_not_lt hlt)
        rw [readByte_of_not_holds hholds, hdrop, List.take_nil]

end Memory

namespace CoreDump

open Machine

variable {m : Machine} {i : Nat}

/-- How many bytes a dump is to show: no more than the settings want, than the memory announces,
than it has, and than addresses reach. -/
def promised (m : Machine) : Nat :=
  min (min m.cpu.config.dumpBytes m.memory.announced) (min m.memory.size 0x100000000)

/-- Takes the snapshot of a machine, the memory being read byte by byte. -/
def take : StateM Machine CoreDump := do
  let m ← get
  let (bytes, memory) := (Memory.readRow 0 (span m.cpu m.memory)).run m.memory
  set { m with memory }
  return { registers := m.cpu.registers
           flags := m.cpu.flags
           stack := m.cpu.stack.entries
           memory := bytes
           steps := m.cpu.steps }

theorem span_lt (m : Machine) : span m.cpu m.memory < 0x100000000 :=
  Nat.mod_lt _ (by decide)

theorem memory_capture (m : Machine) :
    (capture m).memory = m.memory.bytes.toList.take (span m.cpu m.memory) := by
  show (m.memory.bytes.extract 0 _).toList = _
  rw [Array.toList_extract, List.extract_eq_take_drop, List.drop_zero, Nat.sub_zero]

/-- Reading byte by byte gives the snapshot and changes nothing. -/
theorem run_take (m : Machine) : take.run m = (capture m, m) := by
  have hrow : (Memory.readRow 0 (span m.cpu m.memory)).run m.memory =
      ((capture m).memory, m.memory) := by
    have hspan := span_lt m
    rw [Memory.run_readRow (by omega), List.drop_zero, memory_capture]
  simp only [take, StateT.run_bind, StateT.run_get, pure_bind, hrow]
  rfl

theorem length_capture (m : Machine) :
    (capture m).memory.length = min (span m.cpu m.memory) m.memory.size := by
  rw [memory_capture, List.length_take]
  rfl

/-- Every byte that a dump shows is what its address reads as. -/
theorem readByte_of_capture (hi : i < (capture m).memory.length) :
    m.memory.readByte (UInt32.ofNat i) = .ok (capture m).memory[i] := by
  have hspan := span_lt m
  have hlength := length_capture m
  unfold Memory.size at hlength
  rw [Memory.readByte_ofNat (by omega) (by omega)]
  congr 1
  simp only [memory_capture, List.getElem_take, Array.getElem_toList]

/-- The bytes of a dump are what the addresses 0, 1, 2 and so on read as. -/
theorem map_ok_memory_capture (m : Machine) :
    (capture m).memory.map .ok =
      (List.range (capture m).memory.length).map fun i =>
        m.memory.readByte (UInt32.ofNat i) := by
  refine List.ext_getElem (by simp) fun i hi _ => ?_
  rw [List.length_map] at hi
  rw [List.getElem_map, List.getElem_map, List.getElem_range, readByte_of_capture hi]

/-- A dump shows what is promised as long as less than `2 ^ 32` bytes are wanted and announced, and
beyond that only if the whole memory fits into what remains of the count. -/
theorem length_capture_eq_promised_iff (m : Machine) :
    (capture m).memory.length = promised m ↔
      min m.cpu.config.dumpBytes m.memory.announced < 0x100000000 ∨
        m.memory.size ≤ span m.cpu m.memory := by
  rw [length_capture, promised, span]
  omega

/-- Taking a core dump changes nothing, and the dump shows the machine it is taken of.  Its bytes
are what the memory reads as from address 0 on.  Their number is that of the bytes that are wanted
and announced, taken modulo `2 ^ 32`, as far as the memory has so many.  It is the promised number
exactly if nothing is lost by the modulus, or nothing that the memory has. -/
theorem capture_shows_prefix (m : Machine) :
    take.run m = (capture m, m) ∧ IsDump (capture m) m ∧
      (capture m).memory.map .ok =
        ((List.range (capture m).memory.length).map fun i =>
          m.memory.readByte (UInt32.ofNat i)) ∧
      (capture m).memory.length =
        min (min m.cpu.config.dumpBytes m.memory.announced % 0x100000000) m.memory.size ∧
      ((capture m).memory.length = promised m ↔
        min m.cpu.config.dumpBytes m.memory.announced < 0x100000000 ∨
          m.memory.size ≤ min m.cpu.config.dumpBytes m.memory.announced % 0x100000000) :=
  ⟨run_take m, isDump_capture m, map_ok_memory_capture m, length_capture m,
    length_capture_eq_promised_iff m⟩

/-- A memory of two bytes that announces `2 ^ 32` of them.  They are all wanted, and not even the
two are shown. -/
theorem not_length_capture_promised :
    ¬ ∀ m : Machine, (capture m).memory.length = promised m := by
  intro hpromised
  have hshown := hpromised
    { cpu := Cpu.new { memorySize := 2, dumpBytes := 0x100000000 }
      memory := { bytes := #[7, 8], announced := 0x100000000 } }
  rw [length_capture_eq_promised_iff] at hshown
  exact absurd hshown (by decide)

end CoreDump

end WordMachine
