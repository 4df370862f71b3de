import Mathlib.Algebra.Field.ZMod
import Mathlib.RingTheory.AdjoinRoot
import WordMachine.Proofs.Checksums

/-!
# The checksum as a remainder

A checksum of 32 bits is defined by a division of polynomials whose coefficients are bits.  The bits
of a message, each byte from its least significant bit on, are the coefficients of a polynomial, the
first of them at the highest power.  The message is followed by 32 zeros, its first 32 bits are
complemented, and the whole is divided by the generator.  The remainder, its highest power in the
lowest place of a word, is complemented once more (`checksum`).

The running checksum makes no division.  It keeps a state of 32 bits, and read as a polynomial the
state is congruent to what has to be divided, as far as it has been fed: a step multiplies by `X`
(`residue_shift`), and a byte is added at the power 32 (`residue_feed`).  No state has the power 32
itself, so in the end it is the remainder (`finish_feedAll`).
-/

namespace WordMachine.Crc32

open Polynomial

variable {k n : Nat}

/-! ## Bits as coefficients -/

/-- The lowest bits of a number, the least significant first. -/
def bits (count n : Nat) : List Bool := (List.range count).map n.testBit

/-- The polynomial that has the given bits as its coefficients, the first of them at the highest
power. -/
noncomputable def ofBits : List Bool → (ZMod 2)[X]
  | [] => 0
  | b :: bs => (if b then X ^ bs.length else 0) + ofBits bs

/-- The word that has the coefficients below the power 32 as its bits, that of the highest power in
the lowest place. -/
noncomputable def word (p : (ZMod 2)[X]) : UInt32 :=
  UInt32.ofNat (Nat.ofBits fun i : Fin 32 => decide (p.coeff (31 - i) = 1))

/-- The polynomial by which messages are divided. -/
noncomputable def generator : (ZMod 2)[X] :=
  X ^ 32 + (X ^ 26 + X ^ 23 + X ^ 22 + X ^ 16 + X ^ 12 + X ^ 11 + X ^ 10 + X ^ 8 + X ^ 7 + X ^ 5 +
    X ^ 4 + X ^ 2 + X + 1)

/-- The bits of a message, those of each byte from the least significant one on. -/
def messageBits (bytes : List UInt8) : List Bool := bytes.flatMap fun b => bits 8 b.toNat

/-- What is left of a message with 32 zeros behind it, the first 32 bits being complemented, when it
is divided by the generator. -/
noncomputable def remainder (bytes : List UInt8) : (ZMod 2)[X] :=
  (X ^ 32 * ofBits (messageBits bytes) +
    X ^ (messageBits bytes).length * ofBits (List.replicate 32 true)) %ₘ generator

/-- The checksum of a message, by division. -/
noncomputable def checksum (bytes : List UInt8) : UInt32 := ~~~ word (remainder bytes)

/-! ### Lists of bits -/

theorem bits_succ (k n : Nat) : bits (k + 1) n = bits k n ++ [n.testBit k] := by
  rw [bits, List.range_succ, List.map_append]
  rfl

theorem bits_succ_eq_cons (k n : Nat) : bits (k + 1) n = n.testBit 0 :: bits k (n / 2) := by
  rw [bits, List.range_succ_eq_map, List.map_cons, List.map_map]
  refine congrArg _ (List.map_congr_left fun i _ => ?_)
  exact Nat.testBit_succ n i

theorem length_bits (k n : Nat) : (bits k n).length = k := by
  rw [bits, List.length_map, List.length_range]

/-- Above the highest bit of a number there are zeros. -/
theorem bits_add_of_lt (hn : n < 2 ^ k) (j : Nat) :
    bits (k + j) n = bits k n ++ List.replicate j false := by
  induction j with
  | zero => simp
  | succ j ih =>
      have hle : 2 ^ k ≤ 2 ^ (k + j) :=
        Nat.pow_le_pow_right (by decide) (Nat.le_add_right k j)
      have hbit : n.testBit (k + j) = false := Nat.testBit_lt_two_pow (hn.trans_le hle)
      rw [← Nat.add_assoc, bits_succ, ih, hbit, List.append_assoc, List.replicate_succ']

/-! ### Polynomials of bits -/

theorem ofBits_append (xs ys : List Bool) :
    ofBits (xs ++ ys) = X ^ ys.length * ofBits xs + ofBits ys := by
  induction xs with
  | nil => simp [ofBits]
  | cons b xs ih =>
      rw [List.cons_append, ofBits, ih, ofBits, List.length_append]
      split
      · ring
      · ring

theorem ofBits_replicate_false (k : Nat) : ofBits (List.replicate k false) = 0 := by
  induction k with
  | zero => rfl
  | succ k ih => simp [List.replicate_succ, ofBits, ih]

/-- Bits in front of others stand at higher powers, and zeros behind them are a factor. -/
theorem ofBits_append_zeros (xs : List Bool) (k : Nat) :
    ofBits (xs ++ List.replicate k false) = X ^ k * ofBits xs := by
  rw [ofBits_append, ofBits_replicate_false, List.length_replicate, add_zero]

theorem coeff_ofBits (bs : List Bool) (i : Nat) :
    (ofBits bs).coeff i = if bs.reverse[i]? = some true then 1 else 0 := by
  induction bs with
  | nil => simp [ofBits]
  | cons b bs ih =>
      rw [ofBits, coeff_add, ih, List.reverse_cons]
      rcases Nat.lt_trichotomy i bs.length with hlt | rfl | hgt
      · cases b <;> simp [coeff_X_pow, Nat.ne_of_lt hlt, List.getElem?_append_left, hlt]
      · cases b <;> simp
      · have hnone : bs.reverse[i]? = none := List.getElem?_eq_none (by simp; omega)
        have hnone' : (bs.reverse ++ [b])[i]? = none := List.getElem?_eq_none (by simp; omega)
        cases b <;> simp [coeff_X_pow, Nat.ne_of_gt hgt, hnone, hnone']

/-! ### Words as polynomials -/

/-- The state as a polynomial. -/
noncomputable def ofWord (w : UInt32) : (ZMod 2)[X] := ofBits (bits 32 w.toNat)

theorem coeff_ofWord (w : UInt32) (i : Nat) :
    (ofWord w).coeff i = if i < 32 ∧ w.toNat.testBit (31 - i) = true then 1 else 0 := by
  rw [ofWord, coeff_ofBits]
  by_cases hi : i < 32
  · have hbit : (bits 32 w.toNat).reverse[i]? = some (w.toNat.testBit (31 - i)) := by
      rw [List.getElem?_reverse (by rwa [length_bits]), length_bits, bits, List.getElem?_map,
        List.getElem?_range (by omega)]
      rfl
    rw [hbit]
    simp [hi]
  · have hnone : (bits 32 w.toNat).reverse[i]? = none :=
      List.getElem?_eq_none (by rw [List.length_reverse, length_bits]; omega)
    rw [hnone]
    simp [hi]

theorem degree_ofWord_lt (w : UInt32) : (ofWord w).degree < 32 := by
  refine (degree_lt_iff_coeff_zero _ 32).mpr fun i hi => ?_
  rw [coeff_ofWord, if_neg fun h => Nat.not_lt_of_le hi h.1]

theorem ofWord_xor (a b : UInt32) : ofWord (a ^^^ b) = ofWord a + ofWord b := by
  ext i
  rw [coeff_add, coeff_ofWord, coeff_ofWord, coeff_ofWord, UInt32.toNat_xor, Nat.testBit_xor]
  by_cases hi : i < 32
  · -- two bits that are set cancel
    cases a.toNat.testBit (31 - i) <;> cases b.toNat.testBit (31 - i) <;> simp [hi]
    rfl
  · simp [hi]

theorem ofWord_zero : ofWord 0 = 0 := by
  ext i
  rw [coeff_ofWord, UInt32.toNat_zero, Nat.zero_testBit, if_neg (by simp), coeff_zero]

/-- A word can be read off its polynomial. -/
theorem word_ofWord (w : UInt32) : word (ofWord w) = w := by
  have hbits : Nat.ofBits (fun i : Fin 32 => decide ((ofWord w).coeff (31 - i) = 1)) = w.toNat := by
    refine Nat.eq_of_testBit_eq fun i => ?_
    by_cases hi : i < 32
    · have hin : 31 - i < 32 := by omega
      have hback : 31 - (31 - i) = i := by omega
      rw [Nat.testBit_ofBits_lt _ _ hi, coeff_ofWord, hback]
      cases w.toNat.testBit i with
      | false => simp
      | true => simp [hin]
    · have hle : 2 ^ 32 ≤ 2 ^ i := Nat.pow_le_pow_right (by decide) (by omega)
      rw [Nat.testBit_ofBits_ge _ _ (by omega), Nat.testBit_lt_two_pow (w.toNat_lt.trans_le hle)]
  rw [word, hbits, UInt32.ofNat_toNat]

/-- A byte stands at the highest powers. -/
theorem ofWord_byte (b : UInt8) : ofWord b.toUInt32 = X ^ 24 * ofBits (bits 8 b.toNat) := by
  have hlt : b.toNat < 2 ^ 8 := b.toNat_lt
  rw [ofWord, UInt8.toNat_toUInt32, show 32 = 8 + 24 from rfl, bits_add_of_lt hlt,
    ofBits_append_zeros]

theorem ofWord_polynomial : X ^ 32 + ofWord polynomial = generator := by
  have hbits : bits 32 polynomial.toNat =
      [false, false, false, false, false, true, false, false, true, true, false, false, false,
        false, false, true, false, false, false, true, true, true, false, true, true, false, true,
        true, false, true, true, true] := by decide
  rw [ofWord, hbits, generator]
  simp [ofBits, add_assoc]

/-- To move a word down by one bit is to multiply by `X`, the bit that falls out being at the power
32. -/
theorem X_mul_ofWord (w : UInt32) :
    X * ofWord w = (if w.toNat.testBit 0 then X ^ 32 else 0) + ofWord (w >>> 1) := by
  have hhigh : (w.toNat / 2).testBit 31 = false := by
    rw [← Nat.testBit_succ]
    exact Nat.testBit_lt_two_pow w.toNat_lt
  rw [ofWord, ofWord, toNat_shiftRight_one, bits_succ_eq_cons, bits_succ 31, hhigh, ofBits,
    length_bits, show [false] = List.replicate 1 false from rfl, ofBits_append_zeros]
  split
  · ring
  · ring

/-- A step multiplies by `X` and, if the power 32 comes up, takes the generator away. -/
theorem X_mul_ofWord_eq_shift (w : UInt32) :
    X * ofWord w = ofWord (shift w) + if w.toNat.testBit 0 then generator else 0 := by
  rw [X_mul_ofWord, shift_eq, ofWord_xor, carry]
  split
  · -- both the constant and the generator hold the lower powers, which are gone when added
    calc X ^ 32 + ofWord (w >>> 1)
        = ofWord (w >>> 1) + X ^ 32 + (ofWord polynomial + ofWord polynomial) := by
          rw [CharTwo.add_self_eq_zero, add_zero, add_comm]
      _ = ofWord (w >>> 1) + ofWord polynomial + generator := by
          rw [← ofWord_polynomial]
          ring
  · rw [ofWord_zero, add_zero, add_zero, zero_add]

/-! ## The state as a residue -/

/-- What the state is, when multiples of the generator do not count. -/
noncomputable def residue (w : UInt32) : AdjoinRoot generator := AdjoinRoot.mk generator (ofWord w)

theorem residue_xor (a b : UInt32) : residue (a ^^^ b) = residue a + residue b := by
  rw [residue, ofWord_xor, map_add, residue, residue]

/-- A step multiplies by `X`. -/
theorem residue_shift (w : UInt32) :
    residue (shift w) = AdjoinRoot.root generator * residue w := by
  have hstep := congrArg (AdjoinRoot.mk generator) (X_mul_ofWord_eq_shift w)
  rw [map_mul, AdjoinRoot.mk_X, map_add, apply_ite (AdjoinRoot.mk generator), AdjoinRoot.mk_self,
    map_zero, ite_self, add_zero] at hstep
  exact hstep.symm

theorem residue_shiftBy (n : Nat) (w : UInt32) :
    residue (shiftBy n w) = AdjoinRoot.root generator ^ n * residue w := by
  induction n generalizing w with
  | zero => rw [shiftBy, pow_zero, one_mul]
  | succ n ih => rw [shiftBy, ih, residue_shift, pow_succ, mul_assoc]

/-- A byte is added at the power 32. -/
theorem residue_feed (state : UInt32) (b : UInt8) :
    residue (feed state b) =
      AdjoinRoot.root generator ^ 8 * residue state +
        AdjoinRoot.mk generator (X ^ 32 * ofBits (bits 8 b.toNat)) := by
  calc residue (feed state b)
      = AdjoinRoot.root generator ^ 8 * (residue state + residue b.toUInt32) := by
        rw [feed, residue_shiftBy, residue_xor]
    _ = AdjoinRoot.root generator ^ 8 * residue state +
          AdjoinRoot.mk generator (X ^ 8 * (X ^ 24 * ofBits (bits 8 b.toNat))) := by
        rw [mul_add, residue, residue, ofWord_byte, map_mul _ (X ^ 8), map_pow, AdjoinRoot.mk_X]
    _ = _ := by rw [← mul_assoc, ← pow_add]

/-- What the state has come to after a message. -/
theorem residue_feedAll (state : UInt32) (bytes : List UInt8) :
    residue (feedAll state bytes) =
      AdjoinRoot.mk generator (X ^ 32 * ofBits (messageBits bytes) +
        X ^ (messageBits bytes).length * ofWord state) := by
  induction bytes generalizing state with
  | nil => simp [feedAll, messageBits, ofBits, residue]
  | cons b bytes ih =>
      have hsplit : messageBits (b :: bytes) = bits 8 b.toNat ++ messageBits bytes := rfl
      calc residue (feedAll (feed state b) bytes)
          = AdjoinRoot.mk generator (X ^ 32 * ofBits (messageBits bytes)) +
              AdjoinRoot.root generator ^ (messageBits bytes).length * residue (feed state b) := by
            rw [ih, map_add, map_mul _ (X ^ _) (ofWord _), map_pow _ X, AdjoinRoot.mk_X, residue]
        _ = AdjoinRoot.mk generator (X ^ 32 * ofBits (messageBits bytes) +
              X ^ (messageBits bytes).length *
                (X ^ 8 * ofWord state + X ^ 32 * ofBits (bits 8 b.toNat))) := by
            rw [residue_feed, residue]
            simp only [map_add, map_mul, map_pow, AdjoinRoot.mk_X]
        _ = _ := by
            rw [hsplit, ofBits_append, List.length_append, length_bits]
            ring_nf

/-! ## The remainder -/

theorem degree_lower_lt :
    (X ^ 26 + X ^ 23 + X ^ 22 + X ^ 16 + X ^ 12 + X ^ 11 + X ^ 10 + X ^ 8 + X ^ 7 + X ^ 5 + X ^ 4 +
      X ^ 2 + X + 1 : (ZMod 2)[X]).degree < 32 := by
  compute_degree!

theorem monic_generator : generator.Monic := monic_X_pow_add degree_lower_lt

theorem degree_generator : generator.degree = 32 := by
  have hpow : (X ^ 32 : (ZMod 2)[X]).degree = 32 := degree_X_pow 32
  have hlower := degree_lower_lt
  rw [← hpow] at hlower
  rw [generator, degree_add_eq_left_of_degree_lt hlower, hpow]

theorem bits_initial : bits 32 initial.toNat = List.replicate 32 true := by
  rw [List.eq_replicate_iff]
  refine ⟨length_bits 32 _, fun b hb => ?_⟩
  obtain ⟨i, hi, rfl⟩ := List.mem_map.mp hb
  exact (Nat.testBit_two_pow_sub_one 32 i).trans (decide_eq_true (List.mem_range.mp hi))

/-- The state is a residue that is a remainder. -/
theorem ofWord_feedAll (bytes : List UInt8) : ofWord (feedAll initial bytes) = remainder bytes := by
  have hsmall : (ofWord (feedAll initial bytes)).degree < generator.degree := by
    rw [degree_generator]
    exact degree_ofWord_lt _
  calc ofWord (feedAll initial bytes)
      = ofWord (feedAll initial bytes) %ₘ generator :=
        ((modByMonic_eq_self_iff monic_generator).mpr hsmall).symm
    _ = remainder bytes := by
        refine modByMonic_eq_of_dvd_sub monic_generator (AdjoinRoot.mk_eq_mk.mp ?_)
        rw [← residue, residue_feedAll, ofWord, bits_initial]

/-- The running checksum of a message is the one that is defined by division. -/
theorem finish_feedAll (bytes : List UInt8) :
    finish (feedAll initial bytes) = checksum bytes := by
  rw [finish, checksum, ← ofWord_feedAll, word_ofWord]

/-- The usual check: the digits from 1 to 9. -/
example : finish (feedAll initial [0x31, 0x32, 0x33, 0x34, 0x35, 0x36, 0x37, 0x38, 0x39]) =
    0xcbf43926 := by
  decide +kernel

end WordMachine.Crc32
