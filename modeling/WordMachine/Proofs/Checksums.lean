import Mathlib.Data.Nat.Digits.Lemmas
import WordMachine.Label.Id

/-!
# What the checksum keeps apart

One step of the checksum is linear in exclusive or (`shift_xor`) and loses nothing of the state
(`shift_injective`).  As long as no set bit falls out at the low end, it only moves the state down.
So up to four bytes may be put into the state at once, each at its place, before any step is made
(`feedAll_eq`), and from one state two messages of the same length of up to four bytes never lead to
the same state (`feedAll_injective`).
-/

namespace WordMachine.Crc32

variable {a b state : UInt32} {xs ys : List UInt8} {n : Nat}

/-! ## One step -/

/-- What a step adds to the state that it has moved down: the polynomial, if the bit that falls out
is set. -/
def carry (state : UInt32) : UInt32 := if state.toNat.testBit 0 then polynomial else 0

theorem and_one_eq_one_iff : state &&& 1 = 1 ↔ state.toNat.testBit 0 = true := by
  rw [← UInt32.toNat_inj, UInt32.toNat_and, Nat.testBit_zero, decide_eq_true_eq]
  exact Nat.and_one_is_mod state.toNat ▸ Iff.rfl

theorem shift_eq (state : UInt32) : shift state = state >>> 1 ^^^ carry state := by
  unfold shift carry
  by_cases hbit : state.toNat.testBit 0 = true
  · rw [if_pos (and_one_eq_one_iff.mpr hbit), if_pos hbit]
  · rw [if_neg (mt and_one_eq_one_iff.mp hbit), if_neg hbit, UInt32.xor_zero]

theorem carry_xor (a b : UInt32) : carry (a ^^^ b) = carry a ^^^ carry b := by
  unfold carry
  rw [UInt32.toNat_xor, Nat.testBit_xor]
  cases a.toNat.testBit 0 <;> cases b.toNat.testBit 0 <;> rfl

/-- A step is linear. -/
theorem shift_xor (a b : UInt32) : shift (a ^^^ b) = shift a ^^^ shift b := by
  rw [shift_eq, shift_eq, shift_eq, carry_xor, UInt32.shiftRight_xor]
  ac_rfl

theorem toNat_shiftRight_one (state : UInt32) : (state >>> 1).toNat = state.toNat / 2 := by
  rw [UInt32.toNat_shiftRight]
  exact Nat.shiftRight_one _

/-- Only the state 0 is moved to 0, because the polynomial has the highest bit, which a state that
is moved down has not. -/
theorem eq_zero_of_shift (hshift : shift state = 0) : state = 0 := by
  have hlt := state.toNat_lt
  rw [shift_eq, UInt32.xor_eq_zero_iff] at hshift
  have hhalf : state.toNat / 2 = (carry state).toNat := by
    rw [← hshift, toNat_shiftRight_one]
  unfold carry at hhalf
  split at hhalf
  · have hpolynomial : polynomial.toNat = 0xedb88320 := rfl
    omega
  · next hbit =>
    rw [Nat.testBit_zero, decide_eq_true_eq] at hbit
    have hzero : (0 : UInt32).toNat = 0 := rfl
    rw [← UInt32.toNat_inj]
    omega

/-- No two states are moved to the same one. -/
theorem shift_injective : Function.Injective shift := by
  intro a b hab
  rw [← UInt32.xor_eq_zero_iff]
  apply eq_zero_of_shift
  rw [shift_xor, hab, UInt32.xor_self]

/-! ## Several steps -/

theorem shiftBy_injective (n : Nat) : Function.Injective (shiftBy n) := by
  induction n with
  | zero => exact Function.injective_id
  | succ n ih => exact ih.comp shift_injective

theorem shiftBy_xor (n : Nat) (a b : UInt32) :
    shiftBy n (a ^^^ b) = shiftBy n a ^^^ shiftBy n b := by
  induction n generalizing a b with
  | zero => rfl
  | succ n ih => rw [shiftBy, shift_xor, ih, shiftBy, shiftBy]

theorem shiftBy_add (m n : Nat) (state : UInt32) :
    shiftBy (m + n) state = shiftBy n (shiftBy m state) := by
  induction m generalizing state with
  | zero => rw [Nat.zero_add, shiftBy]
  | succ m ih => rw [Nat.succ_add, shiftBy, ih, shiftBy]

/-- An even state is halved. -/
theorem shift_double (hn : 2 * n < 0x100000000) :
    shift (UInt32.ofNat (2 * n)) = UInt32.ofNat n := by
  have hvalue : (UInt32.ofNat (2 * n)).toNat = 2 * n := UInt32.toNat_ofNat_of_lt' hn
  have hcarry : carry (UInt32.ofNat (2 * n)) = 0 := by
    rw [carry, hvalue, Nat.testBit_zero, if_neg (by simp)]
  rw [shift_eq, hcarry, UInt32.xor_zero, ← UInt32.toNat_inj, toNat_shiftRight_one, hvalue,
    UInt32.toNat_ofNat_of_lt' (show n < 0x100000000 by omega)]
  omega

/-- Bits that do not reach the low end are only moved down. -/
theorem shiftBy_two_pow_mul (k : Nat) (hn : 2 ^ k * n < 0x100000000) :
    shiftBy k (UInt32.ofNat (2 ^ k * n)) = UInt32.ofNat n := by
  induction k with
  | zero => rw [shiftBy, Nat.pow_zero, Nat.one_mul]
  | succ k ih =>
      rw [Nat.pow_succ, Nat.mul_comm (2 ^ k), Nat.mul_assoc] at hn ⊢
      rw [shiftBy, shift_double hn, ih (by omega)]

/-! ## Bytes -/

/-- The number that has the given bytes, the first of them in the lowest place. -/
def pack (bytes : List UInt8) : Nat := Nat.ofDigits 256 (bytes.map UInt8.toNat)

theorem pack_cons (b : UInt8) (bytes : List UInt8) :
    pack (b :: bytes) = b.toNat + 256 * pack bytes :=
  Nat.ofDigits_cons ..

theorem lt_of_mem_map_toNat {d : Nat} (hd : d ∈ xs.map UInt8.toNat) : d < 256 := by
  obtain ⟨b, -, rfl⟩ := List.mem_map.mp hd
  exact b.toNat_lt

theorem pack_lt (bytes : List UInt8) : pack bytes < 256 ^ bytes.length := by
  have hsmall : ∀ d ∈ bytes.map UInt8.toNat, d < 256 := fun _ => lt_of_mem_map_toNat
  rw [pack, ← List.length_map UInt8.toNat]
  exact Nat.ofDigits_lt_base_pow_length (by decide) hsmall

theorem pack_injective (hlength : xs.length = ys.length) (hpack : pack xs = pack ys) : xs = ys := by
  have hdigits : xs.map UInt8.toNat = ys.map UInt8.toNat :=
    Nat.ofDigits_inj_of_len_eq (b := 256) (by decide) (by simpa using hlength)
      (fun _ => lt_of_mem_map_toNat) (fun _ => lt_of_mem_map_toNat) hpack
  exact List.map_injective_iff.mpr (fun _ _ => UInt8.toNat_inj.mp) hdigits

/-- Below a multiple of 256 there is room for a byte. -/
theorem ofNat_byte_add (b : UInt8) {n : Nat} (hn : b.toNat + 256 * n < 0x100000000) :
    UInt32.ofNat (b.toNat + 256 * n) = b.toUInt32 ^^^ UInt32.ofNat (2 ^ 8 * n) := by
  rw [← UInt32.toNat_inj, UInt32.toNat_xor, UInt8.toNat_toUInt32,
    UInt32.toNat_ofNat_of_lt' hn,
    UInt32.toNat_ofNat_of_lt' (show 2 ^ 8 * n < 0x100000000 by omega)]
  refine Nat.eq_of_testBit_eq fun i => ?_
  have hb : b.toNat < 2 ^ 8 := b.toNat_lt
  rw [Nat.add_comm, show (256 : Nat) = 2 ^ 8 from rfl, Nat.testBit_two_pow_mul_add n hb,
    Nat.testBit_xor, Nat.testBit_two_pow_mul]
  by_cases hi : i < 8
  · simp [hi, Nat.not_le_of_lt hi]
  · have hhigh : b.toNat.testBit i = false :=
      Nat.testBit_lt_two_pow (hb.trans_le (Nat.pow_le_pow_right (by decide) (by omega)))
    simp [hi, hhigh, Nat.le_of_not_lt hi]

/-- Up to four bytes can be put into the state all at once. -/
theorem feedAll_eq (state : UInt32) (hxs : xs.length ≤ 4) :
    feedAll state xs = shiftBy (8 * xs.length) (state ^^^ UInt32.ofNat (pack xs)) := by
  induction xs generalizing state with
  | nil => exact (UInt32.xor_zero).symm
  | cons b xs ih =>
      rw [List.length_cons] at hxs
      have hrest := pack_lt xs
      have hpow : 256 ^ xs.length ≤ 256 ^ 3 := Nat.pow_le_pow_right (by decide) (by omega)
      have hb := b.toNat_lt
      -- the rest is fed after eight steps, so it stands eight places higher before them
      calc feedAll (feed state b) xs
          = shiftBy (8 * xs.length) (feed state b ^^^ UInt32.ofNat (pack xs)) :=
            ih _ (by omega)
        _ = shiftBy (8 * xs.length)
              (shiftBy 8 (state ^^^ b.toUInt32) ^^^
                shiftBy 8 (UInt32.ofNat (2 ^ 8 * pack xs))) := by
            rw [feed, shiftBy_two_pow_mul 8 (by omega)]
        _ = shiftBy (8 + 8 * xs.length)
              (state ^^^ b.toUInt32 ^^^ UInt32.ofNat (2 ^ 8 * pack xs)) := by
            rw [← shiftBy_xor, ← shiftBy_add]
        _ = shiftBy (8 * (b :: xs).length) (state ^^^ UInt32.ofNat (pack (b :: xs))) := by
            rw [pack_cons, ofNat_byte_add b (by omega), UInt32.xor_assoc, List.length_cons,
              Nat.mul_succ, Nat.add_comm 8]

/-- Messages of one length of up to four bytes do not lead to the same state. -/
theorem feedAll_injective (hlength : xs.length = ys.length) (hxs : xs.length ≤ 4)
    (hstate : feedAll state xs = feedAll state ys) : xs = ys := by
  have hsmall : ∀ bytes : List UInt8, bytes.length ≤ 4 →
      (UInt32.ofNat (pack bytes)).toNat = pack bytes := fun bytes hbytes =>
    UInt32.toNat_ofNat_of_lt' ((pack_lt bytes).trans_le
      (Nat.pow_le_pow_right (n := 256) (by decide) hbytes))
  rw [feedAll_eq state hxs, feedAll_eq state (hlength ▸ hxs), hlength] at hstate
  have hword := (UInt32.xor_right_inj state).mp (shiftBy_injective _ hstate)
  rw [← UInt32.toNat_inj, hsmall xs hxs, hsmall ys (hlength ▸ hxs)] at hword
  exact pack_injective hlength hword

theorem finish_injective : Function.Injective finish := fun _ _ => UInt32.not_inj.mp

end WordMachine.Crc32
