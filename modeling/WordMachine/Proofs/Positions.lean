import WordMachine.Instruction

/-!
# Positions as words

The machine keeps positions of the code in words and computes with them modulo `2 ^ 32`.  As long as
code is shorter than `2 ^ 31` words, a position and its word determine each other.  The sums that
the machine forms on the way may leave that range, so they are compared as words: a jump to `t`
carries the word that makes its own position into `t`, and a call the word just before `t`.
-/

namespace WordMachine

namespace Word

theorem ofCount_eq_ofInt (n : Nat) : ofCount n = Int32.ofInt n := Int32.ofInt_eq_ofNat.symm

theorem ofCount_add (a b : Nat) : ofCount (a + b) = ofCount a + ofCount b := Int32.ofNat_add a b

theorem ofCount_succ (n : Nat) : ofCount (n + 1) = ofCount n + 1 := ofCount_add n 1

theorem add_one_add_one (w : Word) : w + 1 + 1 = w + 2 := by
  rw [Int32.add_assoc]
  rfl

theorem ofCount_add_two (n : Nat) : ofCount (n + 2) = ofCount n + 2 := ofCount_add n 2

/-- The bias of a distance that is added at the second word of an instruction and not at its
first. -/
theorem ofCount_succ_add_add_one (n : Nat) (w : Word) :
    ofCount (n + 1) + w + 1 = ofCount n + w + 2 := by
  calc ofCount (n + 1) + w + 1
      = ofCount n + (1 + w) + 1 := by rw [ofCount_succ, Int32.add_assoc (ofCount n)]
    _ = ofCount n + w + 1 + 1 := by rw [Int32.add_comm 1, ← Int32.add_assoc (ofCount n)]
    _ = ofCount n + w + 2 := add_one_add_one _

theorem eq_ofCount_of_toInt {w : Word} {n : Nat} (htoInt : w.toInt = n) : w = ofCount n := by
  rw [ofCount_eq_ofInt, ← htoInt, Int32.ofInt_toInt]

/-- The distance between two positions is the value of its word. -/
theorem toInt_ofCount_sub {a b : Nat} (ha : a < 0x80000000) (hb : b < 0x80000000) :
    (ofCount a - ofCount b).toInt = (a : Int) - b := by
  rw [Int32.toInt_sub, toInt_ofCount ha, toInt_ofCount hb]
  exact Int.bmod_eq_of_le (by omega) (by omega)

theorem toInt_ofCount_sub_one {n : Nat} (hn : n < 0x80000000) :
    (ofCount n - 1).toInt = (n : Int) - 1 :=
  toInt_ofCount_sub hn (by decide)

end Word

namespace Instruction

/-- Two words behind the opcode of an instruction with one operand is the next instruction. -/
theorem ofCount_position_add_two {d : Instruction} (hcount : d.op.operandCount = 1) :
    Word.ofCount d.position + 2 = Word.ofCount d.next := by
  rw [next, width, hcount, Word.ofCount_add_two]

/-- A jump to `t` carries the word that makes its own position into `t`. -/
theorem position_add_first {d : Instruction} {t : Nat} (hform : d.op.form ≠ .absolute)
    (hsmall : d.position < 0x80000000) (hdestination : d.destination = t) :
    Word.ofCount d.position + d.first = Word.ofCount t := by
  have hsum : (d.position : Int) + d.first.toInt = t := by
    rw [← destination_eq_add hform (by omega), hdestination]
  calc Word.ofCount d.position + d.first
      = Int32.ofInt d.position + Int32.ofInt d.first.toInt := by
        rw [Word.ofCount_eq_ofInt, Int32.ofInt_toInt]
    _ = Int32.ofInt (d.position + d.first.toInt) := (Int32.ofInt_add ..).symm
    _ = Word.ofCount t := by rw [hsum, Word.ofCount_eq_ofInt]

/-- A call to `t` carries the word just before `t`. -/
theorem first_add_one {d : Instruction} {t : Nat} (hop : d.op = .call)
    (hdestination : d.destination = t) : d.first + 1 = Word.ofCount t := by
  have hsum : d.first.toInt + 1 = t := by
    rw [← hdestination, destination, hop]
    rfl
  calc d.first + 1
      = Int32.ofInt d.first.toInt + Int32.ofInt 1 := by
        rw [Int32.ofInt_toInt]
        rfl
    _ = Int32.ofInt (d.first.toInt + 1) := (Int32.ofInt_add ..).symm
    _ = Word.ofCount t := by rw [hsum, Word.ofCount_eq_ofInt]

end Instruction

end WordMachine
