import Mathlib.Algebra.Group.Nat.Defs
import Mathlib.Data.List.Induction
import Mathlib.Data.Set.Lattice
import Mathlib.Order.CompletePartialOrder
import Mathlib.Order.Interval.Set.Defs
import WordMachine.Proofs.Frames
import WordMachine.Proofs.Stores

/-!
# Memory as the bytes last written

Bytes, words and blocks are written to a memory in any order, over one another and across its end,
and it is set to zero from time to time.  All that ever counts is one map from positions to bytes,
which says for each position what has been written there last (`lastByte`).

Calls that change a memory are data here (`Change`), and so a sequence of calls is a list.  A call
puts a byte at some positions (`Change.put?`): a word is put as a whole or not at all, a block up to
the first address outside the memory.  Each position of the memory after a call has the byte put
there, or else the one that it had before (`Change.byteAt_after`).

`IsByteMap` is what a memory with a certain map does: which calls succeed, what is read, and what
becomes of the memory.  It holds after every sequence of calls (`isByteMap_of_changes`).
-/

namespace WordMachine.Memory

variable {n x : Nat} {m m' : Memory} {a v : UInt32} {bytes : List UInt8} {e : BusError}

/-! ## Words -/

theorem toNat_shiftLeft_or {high low places : UInt32} (hplaces : places.toNat < 32)
    (hhigh : high.toNat * 2 ^ places.toNat < 2 ^ 32) (hlow : low.toNat < 2 ^ places.toNat) :
    (high <<< places ||| low).toNat = high.toNat * 2 ^ places.toNat + low.toNat := by
  rw [UInt32.toNat_or, UInt32.toNat_shiftLeft, Nat.mod_eq_of_lt hplaces, Nat.shiftLeft_eq,
    Nat.mod_eq_of_lt hhigh, ← Nat.shiftLeft_eq, ← Nat.shiftLeft_add_eq_or_of_lt hlow]

/-- The number that has four bytes as its digits, the first of them the most significant. -/
def bigEndian (a b c d : UInt8) : Nat :=
  256 ^ 3 * a.toNat + 256 ^ 2 * b.toNat + 256 * c.toNat + d.toNat

/-- The bytes that make up a word are its digits. -/
theorem toNat_joinBytes (a b c d : UInt8) : (joinBytes a b c d).toNat = bigEndian a b c d := by
  have ha := a.toNat_lt
  have hb := b.toNat_lt
  have hc := c.toNat_lt
  have hd := d.toNat_lt
  have h8 : (8 : UInt32).toNat = 8 := rfl
  have h16 : (16 : UInt32).toNat = 16 := rfl
  have h24 : (24 : UInt32).toNat = 24 := rfl
  have hlow : (c.toUInt32 <<< 8 ||| d.toUInt32).toNat = c.toNat * 2 ^ 8 + d.toNat :=
    toNat_shiftLeft_or (by decide) (by rw [UInt8.toNat_toUInt32, h8]; omega) hd
  have hmiddle : (b.toUInt32 <<< 16 ||| (c.toUInt32 <<< 8 ||| d.toUInt32)).toNat =
      b.toNat * 2 ^ 16 + (c.toNat * 2 ^ 8 + d.toNat) := by
    rw [toNat_shiftLeft_or (by decide) (by rw [UInt8.toNat_toUInt32, h16]; omega)
      (by rw [hlow, h16]; omega), hlow]
    rfl
  rw [joinBytes, UInt32.or_assoc, UInt32.or_assoc,
    toNat_shiftLeft_or (by decide) (by rw [UInt8.toNat_toUInt32, h24]; omega)
      (by rw [hmiddle, h24]; omega), hmiddle, UInt8.toNat_toUInt32, h24, bigEndian]
  omega

theorem byteOf_eq (v : UInt32) {k : Nat} (hk : k < 4) :
    byteOf v (UInt32.ofNat k) = UInt8.ofNat (v.toNat / 256 ^ k) := by
  have hshift : (8 * UInt32.ofNat k).toNat = 8 * k := by
    rw [UInt32.toNat_mul, UInt32.toNat_ofNat_of_lt' (show k < 0x100000000 by omega)]
    exact Nat.mod_eq_of_lt (by simp; omega)
  rw [← UInt8.toNat_inj, byteOf, UInt32.toNat_toUInt8, UInt32.toNat_shiftRight, hshift,
    Nat.mod_eq_of_lt (show 8 * k < 32 by omega), Nat.shiftRight_eq_div_pow, Nat.pow_mul,
    UInt8.toNat_ofNat']

/-- The digit of a word that stands at a position, the first of the four standing at `i`. -/
def digitAt (v : UInt32) (i x : Nat) : UInt8 := UInt8.ofNat (v.toNat / 256 ^ (i + 3 - x))

/-- A word is stored digit by digit. -/
theorem setWord_eq (m : Memory) (i : Nat) (v : UInt32) :
    m.setWord i v =
      (((m.setByte i (digitAt v i i)).setByte (i + 1) (digitAt v i (i + 1))).setByte (i + 2)
        (digitAt v i (i + 2))).setByte (i + 3) (digitAt v i (i + 3)) := by
  have hdigit : ∀ j k, j + k = 3 → digitAt v i (i + j) = byteOf v (UInt32.ofNat k) := by
    intro j k hjk
    rw [byteOf_eq v (by omega), digitAt, show i + 3 - (i + j) = k by omega]
  have hfirst : digitAt v i i = byteOf v 3 := hdigit 0 3 rfl
  rw [hfirst, hdigit 1 2 rfl, hdigit 2 1 rfl, hdigit 3 0 rfl]
  rfl

theorem byteAt_setWord {i : Nat} (hin : i + 4 ≤ m.size) (v : UInt32) (x : Nat) :
    (m.setWord i v).byteAt x = if i ≤ x ∧ x < i + 4 then digitAt v i x else m.byteAt x := by
  -- at each of the four positions stands the digit that belongs there
  have hput : ∀ (m' : Memory) (j : Nat), j < m'.size →
      (m'.setByte j (digitAt v i j)).byteAt x = if x = j then digitAt v i x else m'.byteAt x := by
    intro m' j hj
    rw [byteAt_setByte]
    by_cases hx : x = j
    · rw [hx, if_pos ⟨rfl, hj⟩, if_pos rfl]
    · rw [if_neg fun h => hx h.1.symm, if_neg hx]
  rw [setWord_eq, hput _ _ (by simp; omega), hput _ _ (by simp; omega), hput _ _ (by simp; omega),
    hput _ _ (by omega)]
  by_cases hx : i ≤ x ∧ x < i + 4
  · rw [if_pos hx]
    obtain rfl | rfl | rfl | rfl : x = i ∨ x = i + 1 ∨ x = i + 2 ∨ x = i + 3 := by omega
    all_goals simp
  · rw [if_neg hx]
    repeat rw [if_neg (by omega)]

/-- Memories with the same bytes are equal. -/
theorem ext_byteAt (hsize : m'.size = m.size) (hannounced : m'.announced = m.announced)
    (hbytes : ∀ x, m'.byteAt x = m.byteAt x) : m' = m := by
  obtain ⟨array, announced⟩ := m
  obtain ⟨array', announced'⟩ := m'
  obtain rfl : announced' = announced := hannounced
  have harray : array' = array := by
    refine Array.ext hsize fun i hi hi' => ?_
    simpa [byteAt, hi, hi'] using hbytes i
  rw [harray]

/-! ## Blocks -/

/-- The address of a byte of a block.  After the last address comes 0. -/
def blockAddress (a : UInt32) (j : Nat) : Nat := (a + UInt32.ofNat j).toNat

theorem blockAddress_zero (a : UInt32) : blockAddress a 0 = a.toNat := by
  exact congrArg UInt32.toNat (UInt32.add_zero a)

theorem blockAddress_succ (a : UInt32) (j : Nat) :
    blockAddress a (j + 1) = blockAddress (a + 1) j := by
  rw [blockAddress, blockAddress, UInt32.ofNat_add, UInt32.add_comm (UInt32.ofNat j),
    UInt32.add_assoc]
  rfl

/-- A block is written if all its addresses are inside the memory. -/
theorem exists_writeBytes_iff :
    (∃ m', writeBytes a bytes m = .ok () m') ↔ ∀ j < bytes.length, blockAddress a j < m.size := by
  induction bytes generalizing a m with
  | nil => exact iff_of_true ⟨m, rfl⟩ fun j hj => absurd hj (Nat.not_lt_zero j)
  | cons v bytes ih =>
      rw [List.length_cons, Nat.forall_lt_succ_left, blockAddress_zero]
      simp only [blockAddress_succ]
      by_cases hin : a.toNat < m.size
      · rw [writeBytes_cons_of_lt v bytes hin, ih, size_setByte, and_iff_right hin]
      · rw [writeBytes_cons_of_le v bytes (Nat.le_of_not_lt hin)]
        refine iff_of_false ?_ fun h => hin h.1
        rintro ⟨m', h⟩
        cases h

/-- If not, the bytes before the first address outside it have been written. -/
theorem exists_of_writeBytes_eq_error (hwrite : writeBytes a bytes m = .error e m') :
    ∃ k < bytes.length, (∀ j < k, blockAddress a j < m.size) ∧ m.size ≤ blockAddress a k ∧
      writeBytes a (bytes.take k) m = .ok () m' := by
  induction bytes generalizing a m with
  | nil => cases hwrite
  | cons v bytes ih =>
      by_cases hin : a.toNat < m.size
      · rw [writeBytes_cons_of_lt v bytes hin] at hwrite
        obtain ⟨k, hk, hbefore, hout, hwritten⟩ := ih hwrite
        rw [size_setByte] at hbefore hout
        refine ⟨k + 1, Nat.succ_lt_succ hk, ?_, blockAddress_succ a k ▸ hout, ?_⟩
        · rw [Nat.forall_lt_succ_left, blockAddress_zero]
          exact ⟨hin, fun j hj => blockAddress_succ a j ▸ hbefore j hj⟩
        · rw [List.take_succ_cons, writeBytes_cons_of_lt v _ hin, hwritten]
      · have hout := Nat.le_of_not_lt hin
        rw [writeBytes_cons_of_le v bytes hout] at hwrite
        cases hwrite
        exact ⟨0, Nat.succ_pos _, fun j hj => absurd hj (Nat.not_lt_zero j),
          (blockAddress_zero a).symm ▸ hout, rfl⟩

/-! ## Calls that change a memory -/

/-- A call that changes a memory. -/
inductive Change
  | byte (address : UInt32) (v : UInt8)
  | word (address v : UInt32)
  | block (address : UInt32) (bytes : List UInt8)
  | reset

namespace Change

def update : Change → Update Unit
  | byte a v => writeByte a v
  | word a v => writeWord a v
  | block a bytes => writeBytes a bytes
  | reset => fun m => .ok () m.reset

/-- Whether everything that a call is to write is inside a memory of `n` bytes. -/
def Fits (n : Nat) : Change → Prop
  | byte a _ => a.toNat < n
  | word a _ => a.toNat + 4 ≤ n
  | block a bytes => ∀ j < bytes.length, blockAddress a j < n
  | reset => True

/-- The positions that a call is to write. -/
def range : Change → Set Nat
  | byte a _ => {a.toNat}
  | word a _ => Set.Ico a.toNat (a.toNat + 4)
  | block a bytes => Set.Ico a.toNat (a.toNat + bytes.length)
  | reset => Set.univ

/-- The byte that a call puts at a position of a memory of `n` bytes, if it puts one there. -/
def put? (n x : Nat) : Change → Option UInt8
  | byte a v => if x = a.toNat ∧ x < n then some v else none
  | word a v =>
    if a.toNat + 4 ≤ n ∧ a.toNat ≤ x ∧ x < a.toNat + 4 then some (digitAt v a.toNat x) else none
  | block a bytes => if a.toNat ≤ x ∧ x < n then bytes[x - a.toNat]? else none
  | reset => some 0

/-- The memory after a call, whether the call succeeds or fails. -/
def after (m : Memory) (c : Change) : Memory :=
  match c.update m with
  | .ok _ m' => m'
  | .error _ m' => m'

variable {c d : Change}

theorem keepsSize (c : Change) : KeepsSize c.update := by
  cases c with
  | byte a v => exact .writeByte a v
  | word a v => exact .writeWord a v
  | block a bytes => exact .writeBytes a bytes
  | reset =>
      refine ⟨fun h => ?_, fun h => by cases h⟩
      cases h
      exact ⟨size_reset _, announced_reset _⟩

@[simp] theorem size_after (m : Memory) (c : Change) : (c.after m).size = m.size := by
  unfold after
  split
  · next h => exact (c.keepsSize.ok h).1
  · next h => exact (c.keepsSize.error h).1

@[simp] theorem announced_after (m : Memory) (c : Change) :
    (c.after m).announced = m.announced := by
  unfold after
  split
  · next h => exact (c.keepsSize.ok h).2
  · next h => exact (c.keepsSize.error h).2

/-- A call succeeds if it fits. -/
theorem exists_update_iff : (∃ m', c.update m = .ok () m') ↔ c.Fits m.size := by
  cases c with
  | byte a v =>
      refine ⟨?_, fun hin => ⟨_, writeByte_of_holds v hin⟩⟩
      rintro ⟨m', h⟩
      by_contra hout
      rw [update, writeByte_of_outside v (Nat.le_of_not_lt hout)] at h
      cases h
  | word a v =>
      refine ⟨?_, fun hin => ⟨_, writeWord_of_holds v hin⟩⟩
      rintro ⟨m', h⟩
      by_contra hout
      rw [update, writeWord_of_outside v (Nat.lt_of_not_le hout)] at h
      cases h
  | block a bytes => exact exists_writeBytes_iff
  | reset => exact iff_of_true ⟨m.reset, rfl⟩ trivial

theorem after_byte_of_lt (v : UInt8) (hin : a.toNat < m.size) :
    (byte a v).after m = m.setByte a.toNat v := by
  rw [after, update, writeByte_of_holds v hin]

theorem after_byte_of_le (v : UInt8) (hout : m.size ≤ a.toNat) : (byte a v).after m = m := by
  rw [after, update, writeByte_of_outside v hout]

theorem after_word_of_le (v : UInt32) (hin : a.toNat + 4 ≤ m.size) :
    (word a v).after m = m.setWord a.toNat v := by
  rw [after, update, writeWord_of_holds v hin]

theorem after_word_of_lt (v : UInt32) (hout : m.size < a.toNat + 4) : (word a v).after m = m := by
  rw [after, update, writeWord_of_outside v hout]

theorem after_block_cons_of_lt (v : UInt8) (bytes : List UInt8) (hin : a.toNat < m.size) :
    (block a (v :: bytes)).after m = (block (a + 1) bytes).after (m.setByte a.toNat v) := by
  rw [after, update, writeBytes_cons_of_lt v bytes hin]
  rfl

theorem after_block_cons_of_le (v : UInt8) (bytes : List UInt8) (hout : m.size ≤ a.toNat) :
    (block a (v :: bytes)).after m = m := by
  rw [after, update, writeBytes_cons_of_le v bytes hout]

/-- In a memory that is too small for addresses to start again inside it, the bytes of a block stand
one behind the other up to the end. -/
theorem byteAt_after_block (hsmall : m.size < 0x100000000) (a : UInt32) (bytes : List UInt8)
    (x : Nat) :
    ((block a bytes).after m).byteAt x = ((block a bytes).put? m.size x).getD (m.byteAt x) := by
  induction bytes generalizing a m with
  | nil =>
      rw [put?, List.getElem?_nil, ite_self]
      rfl
  | cons v bytes ih =>
      by_cases hin : a.toNat < m.size
      · have hnext : (a + 1).toNat = a.toNat + 1 := by
          rw [UInt32.toNat_add]
          exact Nat.mod_eq_of_lt (by simp; omega)
        rw [after_block_cons_of_lt v bytes hin, ih (by rwa [size_setByte]), put?, put?,
          size_setByte, hnext, byteAt_setByte]
        rcases Nat.lt_trichotomy x a.toNat with hbefore | rfl | hbehind
        · rw [if_neg (by omega), if_neg (by omega), if_neg (by omega)]
        · rw [if_neg (by omega), if_pos ⟨rfl, hin⟩, if_pos ⟨Nat.le_refl _, hin⟩, Nat.sub_self]
          rfl
        · obtain ⟨j, rfl⟩ := Nat.exists_eq_add_of_lt hbehind
          have hrest : a.toNat + j + 1 - (a.toNat + 1) = j := by omega
          have hwhole : a.toNat + j + 1 - a.toNat = j + 1 := by omega
          have hiff : (a.toNat + 1 ≤ a.toNat + j + 1 ∧ a.toNat + j + 1 < m.size) ↔
              (a.toNat ≤ a.toNat + j + 1 ∧ a.toNat + j + 1 < m.size) := by omega
          rw [hrest, hwhole, List.getElem?_cons_succ, if_congr hiff rfl rfl,
            if_neg fun h : a.toNat = _ ∧ _ => Nat.ne_of_lt hbehind h.1]
      · rw [after_block_cons_of_le v bytes (Nat.le_of_not_lt hin), put?, if_neg (by omega)]
        rfl

/-- After a call each position has the byte that the call has put there, or the one that it had
before. -/
theorem byteAt_after (hsmall : m.size < 0x100000000) (c : Change) (x : Nat) :
    (c.after m).byteAt x = (c.put? m.size x).getD (m.byteAt x) := by
  cases c with
  | byte a v =>
      by_cases hin : a.toNat < m.size
      · rw [after_byte_of_lt v hin, byteAt_setByte, put?]
        by_cases hx : x = a.toNat
        · rw [if_pos ⟨hx.symm, hin⟩, if_pos ⟨hx, hx ▸ hin⟩]
          rfl
        · rw [if_neg fun h => hx h.1.symm, if_neg fun h => hx h.1]
          rfl
      · rw [after_byte_of_le v (Nat.le_of_not_lt hin), put?, if_neg (by omega)]
        rfl
  | word a v =>
      by_cases hin : a.toNat + 4 ≤ m.size
      · rw [after_word_of_le v hin, byteAt_setWord hin, put?]
        simp only [hin, true_and]
        split <;> rfl
      · rw [after_word_of_lt v (Nat.lt_of_not_le hin), put?, if_neg fun h => hin h.1]
        rfl
  | block a bytes => exact byteAt_after_block hsmall a bytes x
  | reset => exact byteAt_reset m x

/-- A call puts bytes only where it is to write. -/
theorem mem_range_of_put? {v : UInt8} (hput : c.put? n x = some v) : x ∈ c.range := by
  cases c with
  | byte a v =>
      rw [put?, Option.ite_none_right_eq_some] at hput
      exact hput.1.1
  | word a v =>
      rw [put?, Option.ite_none_right_eq_some] at hput
      exact hput.1.2
  | block a bytes =>
      rw [put?, Option.ite_none_right_eq_some] at hput
      obtain ⟨⟨hle, -⟩, hget⟩ := hput
      have hlt := (List.getElem?_eq_some_iff.mp hget).1
      exact ⟨hle, by omega⟩
  | reset => exact Set.mem_univ x

/-- Calls that write different positions may change places. -/
theorem after_comm (hsmall : m.size < 0x100000000) (hdisjoint : Disjoint c.range d.range) :
    d.after (c.after m) = c.after (d.after m) := by
  refine ext_byteAt (by simp) (by simp) fun x => ?_
  have hboth : ∀ c d : Change, (d.after (c.after m)).byteAt x =
      (d.put? m.size x).getD ((c.put? m.size x).getD (m.byteAt x)) := by
    intro c d
    rw [byteAt_after (by rwa [size_after]), byteAt_after hsmall, size_after]
  rw [hboth, hboth]
  cases hc : c.put? m.size x with
  | none => rfl
  | some v =>
      cases hd : d.put? m.size x with
      | none => rfl
      | some w =>
          exact absurd (mem_range_of_put? hd)
            (Set.disjoint_left.mp hdisjoint (mem_range_of_put? hc))

end Change

/-! ## Sequences of calls -/

/-- The byte that a sequence of calls has put last at a position of a memory of `n` bytes. -/
def lastByte (n : Nat) (cs : List Change) (x : Nat) : UInt8 :=
  (cs.reverse.findSome? (Change.put? n x)).getD 0

theorem lastByte_append (cs : List Change) (c : Change) :
    lastByte n (cs ++ [c]) x = (c.put? n x).getD (lastByte n cs x) := by
  rw [lastByte, List.reverse_append, List.reverse_singleton, List.singleton_append,
    List.findSome?_cons]
  cases c.put? n x <;> rfl

/-- The memory of `n` bytes after a sequence of calls. -/
def changed (n : Nat) (cs : List Change) : Memory := cs.foldl (fun m c => c.after m) (zeros n)

theorem changed_append (cs : List Change) (c : Change) :
    changed n (cs ++ [c]) = c.after (changed n cs) := by
  rw [changed, List.foldl_append, List.foldl_cons, List.foldl_nil, changed]

theorem size_changed (n : Nat) (cs : List Change) : (changed n cs).size = n := by
  induction cs using List.reverseRecOn with
  | nil => exact size_zeros n
  | append_singleton cs c ih => rw [changed_append, Change.size_after, ih]

/-- Each position has the byte that has been put there last. -/
theorem byteAt_changed (hn : n < 0x100000000) (cs : List Change) (x : Nat) :
    (changed n cs).byteAt x = lastByte n cs x := by
  induction cs using List.reverseRecOn with
  | nil => exact byteAt_zeros n x
  | append_singleton cs c ih =>
      have hsize := size_changed n cs
      rw [changed_append, lastByte_append, Change.byteAt_after (hsize.trans_lt hn), hsize, ih]

/-! ## What a memory does -/

/-- A word is the number that its digits stand for. -/
theorem bigEndian_digitAt (v : UInt32) (i : Nat) :
    bigEndian (digitAt v i i) (digitAt v i (i + 1)) (digitAt v i (i + 2)) (digitAt v i (i + 3)) =
      v.toNat := by
  have hv := v.toNat_lt
  have h3 : i + 3 - i = 3 := by omega
  have h2 : i + 3 - (i + 1) = 2 := by omega
  have h1 : i + 3 - (i + 2) = 1 := by omega
  have h0 : i + 3 - (i + 3) = 0 := by omega
  simp only [bigEndian, digitAt, h3, h2, h1, h0, UInt8.toNat_ofNat']
  omega

theorem readByte_eq (m : Memory) (a : UInt32) :
    m.readByte a =
      if a.toNat < m.size then .ok (m.byteAt a.toNat) else .error (.outside a 1 m.size) := by
  rw [readByte]
  exact if_congr holds_iff rfl rfl

/-- A word is read byte by byte. -/
theorem exists_readWord_of_le (hin : a.toNat + 4 ≤ m.size) :
    ∃ w, m.readWord a = .ok w ∧
      w.toNat = bigEndian (m.byteAt a.toNat) (m.byteAt (a.toNat + 1)) (m.byteAt (a.toNat + 2))
        (m.byteAt (a.toNat + 3)) := by
  refine ⟨_, if_pos (holds_iff.mpr hin), toNat_joinBytes ..⟩

theorem readWord_of_lt (hout : m.size < a.toNat + 4) :
    m.readWord a = .error (.outside a 4 m.size) :=
  if_neg fun h => Nat.not_le_of_lt hout (holds_iff.mp h)

/-- A word that has been written can be read. -/
theorem readWord_of_writeWord (hwrite : writeWord a v m = .ok () m') : m'.readWord a = .ok v := by
  have hin : a.toNat + 4 ≤ m.size := (Change.exists_update_iff (c := .word a v)).mp ⟨m', hwrite⟩
  rw [writeWord_of_holds v hin] at hwrite
  cases hwrite
  obtain ⟨w, hread, hw⟩ := exists_readWord_of_le (m := m.setWord a.toNat v) (a := a) (by simpa)
  have hdigit : ∀ j < 4, (m.setWord a.toNat v).byteAt (a.toNat + j) =
      digitAt v a.toNat (a.toNat + j) := by
    intro j hj
    rw [byteAt_setWord hin, if_pos ⟨Nat.le_add_right _ _, Nat.add_lt_add_left hj _⟩]
  rw [hdigit 1 (by decide), hdigit 2 (by decide), hdigit 3 (by decide),
    show (m.setWord a.toNat v).byteAt a.toNat = _ from hdigit 0 (by decide),
    Nat.add_zero, bigEndian_digitAt, UInt32.toNat_inj] at hw
  rw [hread, hw]

/-- A byte or a word that is not written leaves the memory as it was. -/
theorem eq_of_writeByte_eq_error {v : UInt8} (hwrite : writeByte a v m = .error e m') : m' = m := by
  unfold writeByte at hwrite
  split at hwrite <;> cases hwrite
  rfl

theorem eq_of_writeWord_eq_error (hwrite : writeWord a v m = .error e m') : m' = m := by
  unfold writeWord at hwrite
  split at hwrite <;> cases hwrite
  rfl

/-- What a memory does that has `n` bytes, one for each position from 0 on. -/
structure IsByteMap (n : Nat) (content : Nat → UInt8) (m : Memory) : Prop where
  /-- A call succeeds if all that it is to write is inside the memory. -/
  update : ∀ c : Change, (∃ m', c.update m = .ok () m') ↔ c.Fits n
  byte : ∀ a v e m', writeByte a v m = .error e m' → m' = m
  word : ∀ a v e m', writeWord a v m = .error e m' → m' = m
  /-- A block that fails has been written up to the first address outside the memory. -/
  block : ∀ a bytes e m', writeBytes a bytes m = .error e m' →
    ∃ k < bytes.length, (∀ j < k, blockAddress a j < n) ∧ n ≤ blockAddress a k ∧
      writeBytes a (bytes.take k) m = .ok () m'
  readByte : ∀ a, m.readByte a =
    if a.toNat < n then .ok (content a.toNat) else .error (.outside a 1 n)
  readWord : ∀ a, if a.toNat + 4 ≤ n then
      ∃ w, m.readWord a = .ok w ∧
        w.toNat = bigEndian (content a.toNat) (content (a.toNat + 1)) (content (a.toNat + 2))
          (content (a.toNat + 3))
    else m.readWord a = .error (.outside a 4 n)
  readBack : ∀ a v m', writeWord a v m = .ok () m' → m'.readWord a = .ok v
  /-- Calls that write different positions may change places. -/
  comm : ∀ c d : Change, Disjoint c.range d.range → d.after (c.after m) = c.after (d.after m)

/-- A memory is the map of its bytes, if there are addresses that lie outside it. -/
theorem isByteMap (hsmall : m.size < 0x100000000) : IsByteMap m.size m.byteAt m where
  update _ := Change.exists_update_iff
  byte _ _ _ _ := eq_of_writeByte_eq_error
  word _ _ _ _ := eq_of_writeWord_eq_error
  block _ _ _ _ := exists_of_writeBytes_eq_error
  readByte := readByte_eq m
  readWord a := by
    split
    · next hin => exact exists_readWord_of_le hin
    · next hout => exact readWord_of_lt (Nat.lt_of_not_le hout)
  readBack _ _ _ := readWord_of_writeWord
  comm _ _ := Change.after_comm hsmall

/-- Whatever has been written to a memory that was all zero, and in whatever order, the memory is
the map of the bytes that have been written last. -/
theorem isByteMap_of_changes (n : Nat) (hn : n < 0x100000000) (cs : List Change) :
    IsByteMap n (lastByte n cs) (changed n cs) := by
  have hsize := size_changed n cs
  have hmap := isByteMap (hsize.trans_lt hn)
  rwa [hsize, funext (byteAt_changed hn cs)] at hmap

/-- The last byte of a word is overwritten by a block that does not fit. -/
theorem isByteMap_of_changes_of_overlap :
    ∃ w, (changed 8 [.word 3 0x11223344, .block 6 [7, 8, 9]]).readWord 3 = .ok w ∧
      w.toNat = 0x11223307 := by
  have hmap := isByteMap_of_changes 8 (by decide) [.word 3 0x11223344, .block 6 [7, 8, 9]]
  have hread := hmap.readWord 3
  rw [if_pos (by decide)] at hread
  obtain ⟨w, hread, hw⟩ := hread
  exact ⟨w, hread, hw.trans (by decide)⟩

end WordMachine.Memory
