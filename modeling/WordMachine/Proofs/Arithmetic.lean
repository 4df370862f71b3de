import Mathlib.Data.Int.ModEq
import WordMachine.Proofs.RegisterForms

/-!
# Arithmetic on words is arithmetic on integers

Registers hold words, and the arithmetic instructions compute with words.  Here it is said in terms
of the integers that the words denote what they compute: the exact result, reduced modulo `2 ^ 32`
to the range of words, and in the flags whether it had to be reduced.  A division that leaves the
range is not reported.  It has one case, the least word divided by −1.

* `Word.OutOfRange`: an integer that no word denotes.
* `Instruction.Takes`: the value of the last operand, which does not depend on the form.
* `Machine.put`: the machine with its flags and registers replaced, and nothing else.  All that an
  arithmetic instruction does is said in this way, so no other register changes than the one that is
  seen to be set.
-/

namespace WordMachine

/-! ## Words and integers -/

namespace Word

variable {c v : Word}

/-- An integer that is not the value of a word. -/
def OutOfRange (x : Int) : Prop := x < -0x80000000 ∨ 0x7fffffff < x

instance (x : Int) : Decidable (OutOfRange x) := inferInstanceAs (Decidable (_ ∨ _))

theorem not_fits (x : Int) : (!fits x) = decide (OutOfRange x) := by
  rw [Bool.eq_iff_iff, Bool.not_eq_true', ← Bool.not_eq_true, fits_iff, decide_eq_true_iff,
    OutOfRange]
  omega

/-- What the operations on words reduce an integer to is congruent to it. -/
theorem bmod_modEq (x : Int) : x.bmod (2 ^ 32) ≡ x [ZMOD 0x100000000] := Int.bmod_emod

/-- Words that are the quotient and the remainder of two words.  The quotient is rounded towards
zero and may have to be reduced, the remainder has the sign of the dividend. -/
structure Divides (c v quotient remainder : Word) : Prop where
  truncated : quotient.toInt ≡ c.toInt.tdiv v.toInt [ZMOD 0x100000000]
  sum : c.toInt ≡ v.toInt * quotient.toInt + remainder.toInt [ZMOD 0x100000000]
  lt : remainder.toInt.natAbs < v.toInt.natAbs
  sign : remainder.toInt = 0 ∨ remainder.toInt.sign = c.toInt.sign

theorem divides (c : Word) (hv : v ≠ 0) : Divides c v (c / v) (c % v) := by
  have hquotient : (c / v).toInt ≡ c.toInt.tdiv v.toInt [ZMOD 0x100000000] :=
    Int32.toInt_div c v ▸ bmod_modEq _
  have hremainder : (c % v).toInt = c.toInt.tmod v.toInt := Int32.toInt_mod ..
  refine ⟨hquotient, ?_, ?_, ?_⟩
  · have hexact : v.toInt * c.toInt.tdiv v.toInt + c.toInt.tmod v.toInt = c.toInt :=
      Int.mul_tdiv_add_tmod ..
    have hreduced := (hquotient.mul_left v.toInt).add_right (c.toInt.tmod v.toInt)
    rw [hexact] at hreduced
    rw [hremainder]
    exact hreduced.symm
  · have hpos : 0 < v.toInt.natAbs :=
      Int.natAbs_pos.mpr fun hzero => hv (Int32.toInt_inj.mp hzero)
    rw [hremainder, Int.natAbs_tmod]
    exact Nat.mod_lt _ hpos
  · rw [hremainder]
    by_cases hdvd : v.toInt ∣ c.toInt
    · exact Or.inl (Int.tmod_eq_zero_of_dvd hdvd)
    · exact Or.inr (by rw [Int.sign_tmod, if_neg hdvd])

/-- How far a shift by a word goes: the value modulo 32, from 0 to 31 also if it is negative. -/
def places (v : Word) : Nat := (v.toInt % 32).toNat

theorem toNat_smod_eq_places (v : Word) : (v.toBitVec.smod 32).toNat = v.places := by
  have hvalue : (v.toBitVec.smod 32).toInt = v.toInt % 32 := by
    rw [BitVec.toInt_smod]
    exact Int.fmod_eq_emod_of_nonneg _ (by decide)
  have hnonneg : 0 ≤ (v.toBitVec.smod 32).toInt := hvalue ▸ Int.emod_nonneg _ (by decide)
  rw [places, ← hvalue]
  exact (BitVec.toNat_toInt_of_sle (BitVec.sle_iff_toInt_le.mpr hnonneg)).symm

theorem toInt_shiftLeft_modEq (c v : Word) :
    (c <<< v).toInt ≡ c.toInt * 2 ^ v.places [ZMOD 0x100000000] := by
  have hbits : (c.toBitVec.toNat : Int) ≡ c.toInt [ZMOD 0x100000000] := by
    rw [← Int32.toInt_toBitVec, BitVec.toInt_eq_toNat_bmod]
    exact (bmod_modEq _).symm
  rw [← Int32.toInt_toBitVec, Int32.toBitVec_shiftLeft, BitVec.shiftLeft_eq', toNat_smod_eq_places,
    BitVec.toInt_shiftLeft, Nat.shiftLeft_eq, Int.natCast_mul, Int.natCast_pow]
  exact (bmod_modEq _).trans (hbits.mul_right _)

/-- A shift to the right rounds down. -/
theorem toInt_shiftRight (c v : Word) : (c >>> v).toInt = c.toInt / 2 ^ v.places := by
  rw [← Int32.toInt_toBitVec, Int32.toBitVec_shiftRight, BitVec.toInt_sshiftRight',
    Int.shiftRight_eq_div_pow, toNat_smod_eq_places, Int32.toInt_toBitVec]
  norm_cast

end Word

/-! ## The instructions -/

/-- The value of an instruction's last operand: the operand itself, or the contents of the register
that it selects. -/
inductive Instruction.Takes (d : Instruction) (f : Registers) : Addressing → Word → Prop
  | immediate : Takes d f .immediate d.second
  | register {r : Register} (hr : Register.ofIndex? d.second = some r) :
      Takes d f .register (f.get r)

namespace BinaryOp

variable {op : BinaryOp} {c v : Word} {x : Int}

/-- The exact result of a sum, a difference or a product. -/
def exactValue? : BinaryOp → Int → Int → Option Int
  | add, c, v => some (c + v)
  | sub, c, v => some (c - v)
  | mul, c, v => some (c * v)
  | _, _, _ => none

/-- The flags by which a sum, a difference or a product says whether it is out of range. -/
def rangeFlags (op : BinaryOp) (out : Bool) : Flags :=
  match op with
  | sub => { underflow := out }
  | _ => { overflow := out }

theorem toInt_value_modEq (hexact : op.exactValue? c.toInt v.toInt = some x) :
    (op.value c v).toInt ≡ x [ZMOD 0x100000000] := by
  cases op with
  | add => cases hexact; exact Int32.toInt_add c v ▸ Word.bmod_modEq _
  | sub => cases hexact; exact Int32.toInt_sub c v ▸ Word.bmod_modEq _
  | mul => cases hexact; exact Int32.toInt_mul c v ▸ Word.bmod_modEq _
  | _ => cases hexact

theorem flags_eq_rangeFlags (hexact : op.exactValue? c.toInt v.toInt = some x) (old : Flags) :
    op.flags old c v = op.rangeFlags (decide (Word.OutOfRange x)) := by
  rw [← Word.not_fits]
  cases op with
  | add | sub | mul => cases hexact; rfl
  | _ => cases hexact

theorem ne_div_of_exactValue? (hexact : op.exactValue? c.toInt v.toInt = some x) : op ≠ .div := by
  rintro rfl
  cases hexact

end BinaryOp

namespace Machine

variable {d : Instruction} {m : Machine} {q : Register} {op : BinaryOp} {mode : Addressing}
  {v : Word}

/-- The machine with its flags and its registers replaced. -/
def put (m : Machine) (flags : Flags) (registers : Registers) : Machine :=
  { m with cpu := { m.cpu with flags, registers } }

theorem perform_binary (hop : d.op = .binary op mode) (htakes : d.Takes m.cpu.registers mode v) :
    perform d m = combine op d v m := by
  simp only [perform, hop]
  cases htakes with
  | immediate => rfl
  | register hr => exact register_bind hr fun v => combine op d v

theorem assign_eq (hq : Register.ofIndex? d.first = some q) (w : Word) (m : Machine) :
    assign d.first w m = .ok () (m.put m.cpu.flags (m.cpu.registers.set q w)) := by
  simp only [assign, hq]
  rfl

theorem combine_of_ne_div (hq : Register.ofIndex? d.first = some q) (hop : op ≠ .div) :
    combine op d v m =
      .ok () (m.put (op.flags m.cpu.flags (m.cpu.registers.get q) v)
        (m.cpu.registers.set q (op.value (m.cpu.registers.get q) v))) := by
  refine (register_bind hq _).trans ?_
  rw [if_neg hop]
  exact assign_eq hq _ (m.put _ m.cpu.registers)

/-- The remainder is written after the quotient. -/
theorem combine_div (hq : Register.ofIndex? d.first = some q) (hv : v ≠ 0) :
    combine .div d v m =
      .ok () (m.put {} ((m.cpu.registers.set q (m.cpu.registers.get q / v)).set .r6
        (m.cpu.registers.get q % v))) := by
  refine (register_bind hq _).trans ?_
  rw [if_pos rfl, if_neg hv]
  change EStateM.bind (assign d.first _) (fun _ => setRegister .r6 _) (m.put {} m.cpu.registers) = _
  rw [EStateM.bind, assign_eq hq]
  rfl

theorem stepRegister_eq (hq : Register.ofIndex? d.first = some q) (value : Word → Word)
    (flag : Word → Flags → Flags) :
    stepRegister d value flag m =
      .ok () (m.put (flag (m.cpu.registers.get q) m.cpu.flags)
        (m.cpu.registers.set q (value (m.cpu.registers.get q)))) := by
  refine (register_bind hq _).trans ?_
  exact assign_eq hq _ (m.put _ m.cpu.registers)

/-- Arithmetic instructions compute with integers.  With any register for the destination, in both
forms and for all values, a sum, a difference or a product is the exact result reduced to a word,
and the flags say only whether it was out of range; counting up and down changes only one flag; a
division by another number than zero clears the flags and leaves the quotient, and then the
remainder in `r6`; and a shift multiplies by a power of two, or divides by one and rounds down. -/
theorem arithmetic_exact (m : Machine) (d : Instruction) (hfirst : Register.IsIndex d.first) :
    ∃ q c, Register.ofIndex? d.first = some q ∧ m.cpu.registers.get q = c ∧
      (∀ mode v, d.Takes m.cpu.registers mode v →
        (∀ op x, d.op = .binary op mode → op.exactValue? c.toInt v.toInt = some x →
          ∃ w : Word, w.toInt ≡ x [ZMOD 0x100000000] ∧
            perform d m = .ok () (m.put (op.rangeFlags (decide (Word.OutOfRange x)))
              (m.cpu.registers.set q w))) ∧
        (d.op = .binary .div mode → v ≠ 0 →
          ∃ quotient remainder : Word, c.Divides v quotient remainder ∧
            perform d m =
              .ok () (m.put {} ((m.cpu.registers.set q quotient).set .r6 remainder))) ∧
        (d.op = .binary .shl mode →
          ∃ w : Word, w.toInt ≡ c.toInt * 2 ^ v.places [ZMOD 0x100000000] ∧
            perform d m = .ok () (m.put m.cpu.flags (m.cpu.registers.set q w))) ∧
        (d.op = .binary .shr mode →
          ∃ w : Word, w.toInt = c.toInt / 2 ^ v.places ∧
            perform d m = .ok () (m.put m.cpu.flags (m.cpu.registers.set q w)))) ∧
      (d.op = .increment →
        ∃ w : Word, w.toInt ≡ c.toInt + 1 [ZMOD 0x100000000] ∧
          perform d m = .ok () (m.put
            { m.cpu.flags with overflow := decide (Word.OutOfRange (c.toInt + 1)) }
            (m.cpu.registers.set q w))) ∧
      (d.op = .decrement →
        ∃ w : Word, w.toInt ≡ c.toInt - 1 [ZMOD 0x100000000] ∧
          perform d m = .ok () (m.put
            { m.cpu.flags with underflow := decide (Word.OutOfRange (c.toInt - 1)) }
            (m.cpu.registers.set q w))) := by
  obtain ⟨q, hq⟩ := Register.exists_ofIndex?_iff.mpr hfirst
  refine ⟨q, m.cpu.registers.get q, hq, rfl, fun mode v htakes => ⟨?_, ?_, ?_, ?_⟩, ?_, ?_⟩
  · intro op x hop hexact
    refine ⟨_, BinaryOp.toInt_value_modEq hexact, ?_⟩
    rw [perform_binary hop htakes, combine_of_ne_div hq (BinaryOp.ne_div_of_exactValue? hexact),
      BinaryOp.flags_eq_rangeFlags hexact]
  · intro hop hv
    exact ⟨_, _, Word.divides _ hv, by rw [perform_binary hop htakes, combine_div hq hv]⟩
  · intro hop
    refine ⟨_, Word.toInt_shiftLeft_modEq _ v, ?_⟩
    rw [perform_binary hop htakes, combine_of_ne_div hq (by decide)]
    rfl
  · intro hop
    refine ⟨_, Word.toInt_shiftRight _ v, ?_⟩
    rw [perform_binary hop htakes, combine_of_ne_div hq (by decide)]
    rfl
  · intro hop
    refine ⟨m.cpu.registers.get q + 1, Int32.toInt_add _ 1 ▸ Word.bmod_modEq _, ?_⟩
    simp only [perform, hop, stepRegister_eq hq, Word.not_fits]
  · intro hop
    refine ⟨m.cpu.registers.get q - 1, Int32.toInt_sub _ 1 ▸ Word.bmod_modEq _, ?_⟩
    simp only [perform, hop, stepRegister_eq hq, Word.not_fits]

/-- The least word divided by −1 is itself, with no flag set. -/
theorem arithmetic_exact_of_least :
    Register.IsIndex 0 ∧ ∃ m : Machine, m.cpu.registers = { r1 := Int32.minValue } ∧
      perform ⟨.binary .div .immediate, 0, 0, -1⟩ m =
        .ok () (m.put {} { r1 := Int32.minValue, r6 := 0 }) := by
  refine ⟨by decide, { Machine.new {} with
    cpu := { Cpu.new {} with registers := { r1 := Int32.minValue } } }, rfl, ?_⟩
  obtain ⟨q, c, hq, rfl, hbinary, -⟩ := arithmetic_exact { Machine.new {} with
    cpu := { Cpu.new {} with registers := { r1 := Int32.minValue } } }
    ⟨.binary .div .immediate, 0, 0, -1⟩ (by decide)
  obtain rfl : .r1 = q := Option.some.inj hq
  obtain ⟨quotient, remainder, hdivides, hperform⟩ :=
    (hbinary .immediate (-1) .immediate).2.1 rfl (by decide)
  have hquotient : quotient = Int32.minValue := by
    have hvalue : quotient.toInt ≡ 0x80000000 [ZMOD 0x100000000] := hdivides.truncated
    have := quotient.le_toInt
    have := quotient.toInt_lt
    refine Int32.toInt_inj.mp ?_
    have hleast : Int32.minValue.toInt = -0x80000000 := by decide
    unfold Int.ModEq at hvalue
    omega
  have hremainder : remainder = 0 := by
    have hlt : remainder.toInt.natAbs < 1 := hdivides.lt
    exact Int32.toInt_inj.mp (Int.natAbs_eq_zero.mp (Nat.lt_one_iff.mp hlt))
  rw [hperform, hquotient, hremainder]
  rfl

end Machine

end WordMachine
