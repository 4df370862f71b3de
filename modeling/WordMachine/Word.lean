/-!
# Machine words

Everything the machine holds is a signed 32-bit word in two's complement: code, operands,
register contents, stack entries.  A word is read in three ways, and each has a name here: as the
integer it denotes (`Int32.toInt`), as its bit pattern (`Word.bits`), and as a position in the
code, which a negative word is not (`Word.toIndex?`).
-/

namespace WordMachine

/-- The unit of the code stream, of the registers and of the stack. -/
abbrev Word := Int32

namespace Word

/-- The 32 bits of a word, read as an unsigned number. -/
def bits (w : Word) : UInt32 := w.toUInt32

/-- The word with the given 32 bits. -/
def ofBits (b : UInt32) : Word := b.toInt32

/-- The word congruent to an integer modulo `2 ^ 32`. -/
def wrap (i : Int) : Word := Int32.ofInt i

/-- The word congruent to a count modulo `2 ^ 32`. -/
def ofCount (n : Nat) : Word := Int32.ofNat n

/-- A count as a word; the largest word stands for every count above it. -/
def clamp (n : Nat) : Word := if n < 0x80000000 then ofCount n else Int32.maxValue

/-- A word as a position; a negative word is none. -/
def toIndex? (w : Word) : Option Nat :=
  if 0 ≤ w.toInt then some w.toInt.toNat else none

/-- Whether an integer is the value of a word. -/
def fits (i : Int) : Bool := decide (-0x80000000 ≤ i) && decide (i < 0x80000000)

@[simp] theorem bits_ofBits (b : UInt32) : bits (ofBits b) = b := rfl

@[simp] theorem ofBits_bits (w : Word) : ofBits (bits w) = w := rfl

theorem toIndex?_of_nonneg {w : Word} (h : 0 ≤ w.toInt) : toIndex? w = some w.toInt.toNat :=
  if_pos h

theorem toIndex?_eq_some {w : Word} {n : Nat} : toIndex? w = some n ↔ w.toInt = n := by
  unfold toIndex?
  split
  · rw [Option.some.injEq]; omega
  · constructor
    · intro h; cases h
    · intro h; omega

theorem toInt_ofCount {n : Nat} (h : n < 0x80000000) : (ofCount n).toInt = n :=
  Int32.toInt_ofNat_of_lt h

theorem toIndex?_ofCount {n : Nat} (h : n < 0x80000000) : toIndex? (ofCount n) = some n :=
  toIndex?_eq_some.2 (toInt_ofCount h)

theorem clamp_of_lt {n : Nat} (h : n < 0x80000000) : clamp n = ofCount n := if_pos h

theorem fits_iff {i : Int} : fits i = true ↔ -0x80000000 ≤ i ∧ i < 0x80000000 := by
  simp [fits]

end Word

end WordMachine
