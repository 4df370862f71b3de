import WordMachine.Proofs.Stores

/-!
# Memory that is filled from its start

Stores to one address after the other, from address 0 on, fill a memory that was all zero: it starts
with the bytes that have been stored, and there are zeros behind them (`Memory.StartsWith`).  A text
that has been stored in this way with a zero byte behind it is the string that is read at its
address.
-/

namespace WordMachine

namespace Memory

variable {m : Memory} {bytes : List UInt8}

/-- The memory holds the given bytes from address 0 on, and zeros behind them. -/
def StartsWith (m : Memory) (bytes : List UInt8) : Prop :=
  ∃ free, m.bytes.toList = bytes ++ List.replicate free 0

/-- The four bytes of a word, the most significant one first. -/
def bytesOf (v : UInt32) : List UInt8 := [byteOf v 3, byteOf v 2, byteOf v 1, byteOf v 0]

theorem startsWith_reset (m : Memory) : m.reset.StartsWith [] :=
  ⟨m.bytes.size, by simp [reset]⟩

namespace StartsWith

theorem toList_eq (hm : m.StartsWith bytes) :
    m.bytes.toList = bytes ++ List.replicate (m.size - bytes.length) 0 := by
  obtain ⟨free, hfree⟩ := hm
  have hsize : m.size = bytes.length + free := by
    rw [size, ← Array.length_toList, hfree, List.length_append, List.length_replicate]
  rw [hfree, hsize, Nat.add_sub_cancel_left]

/-- While there is room, the next byte is a zero. -/
theorem exists_toList_eq (hm : m.StartsWith bytes) (hroom : bytes.length < m.size) :
    ∃ rest, m.bytes.toList = bytes ++ 0 :: List.replicate rest 0 := by
  obtain ⟨rest, hrest⟩ := Nat.exists_eq_add_of_lt hroom
  refine ⟨rest, ?_⟩
  rw [hm.toList_eq, ← List.replicate_succ]
  congr 2
  omega

theorem setByte (hm : m.StartsWith bytes) (hroom : bytes.length < m.size) (v : UInt8) :
    (m.setByte bytes.length v).StartsWith (bytes ++ [v]) := by
  obtain ⟨rest, hlist⟩ := hm.exists_toList_eq hroom
  exact ⟨rest, by simp [Memory.setByte, hlist]⟩

/-- A zero counts as stored where nothing else has been stored. -/
theorem zero (hm : m.StartsWith bytes) (hroom : bytes.length < m.size) :
    m.StartsWith (bytes ++ [0]) := by
  obtain ⟨rest, hlist⟩ := hm.exists_toList_eq hroom
  exact ⟨rest, by rw [hlist, List.append_assoc, List.singleton_append]⟩

theorem setWord (hm : m.StartsWith bytes) (hroom : bytes.length + 4 ≤ m.size) (v : UInt32) :
    (m.setWord bytes.length v).StartsWith (bytes ++ bytesOf v) := by
  have h₀ := hm.setByte (by omega) (byteOf v 3)
  have h₁ := h₀.setByte (by simp; omega) (byteOf v 2)
  have h₂ := h₁.setByte (by simp; omega) (byteOf v 1)
  have h₃ := h₂.setByte (by simp; omega) (byteOf v 0)
  simpa [Memory.setWord, bytesOf] using h₃

end StartsWith

/-! ## Strings -/

variable {before text after : List UInt8} {v : UInt8}

theorem length_lt_size_of_toList (hbytes : m.bytes.toList = before ++ after) (hafter : after ≠ []) :
    before.length < m.size := by
  rw [size, ← Array.length_toList, hbytes, List.length_append]
  have := List.length_pos_iff.mpr hafter
  omega

theorem readByte_of_toList (hbytes : m.bytes.toList = before ++ v :: after)
    (hsmall : before.length < 0x100000000) :
    m.readByte (UInt32.ofNat before.length) = .ok v := by
  have htoNat : (UInt32.ofNat before.length).toNat = before.length :=
    UInt32.toNat_ofNat_of_lt' hsmall
  have hin := length_lt_size_of_toList hbytes (List.cons_ne_nil v after)
  rw [readByte_of_holds (holds_iff.mpr (by rwa [htoNat])), htoNat, byteAt, ← Array.getElem?_toList,
    hbytes, List.getElem?_append_right (Nat.le_refl _), Nat.sub_self]
  rfl

/-- Reading goes on to the zero byte behind the text. -/
theorem stringFrom_of_toList (hbytes : m.bytes.toList = before ++ (text ++ 0 :: after))
    (hannounced : m.announced = m.size) (hsmall : before.length + text.length < 0x100000000)
    (hzero : 0 ∉ text) (rev : List UInt8) :
    m.stringFrom before.length rev = .ok (rev.reverse ++ text) := by
  have hin := length_lt_size_of_toList hbytes (by simp)
  rw [← hannounced] at hin
  induction text generalizing before rev with
  | nil =>
      rw [stringFrom, if_pos hin, readByte_of_toList hbytes (by simpa using hsmall)]
      simp
  | cons v text ih =>
      rw [List.mem_cons, not_or] at hzero
      have hsplit : m.bytes.toList = (before ++ [v]) ++ (text ++ 0 :: after) := by
        rw [hbytes]
        simp
      have hlength : (before ++ [v]).length = before.length + 1 := List.length_append
      have hnext := length_lt_size_of_toList hsplit (by simp)
      rw [List.length_cons] at hsmall
      have hrest := ih hsplit (by rw [hlength]; omega) hzero.2 (v :: rev) (by rwa [hannounced])
      rw [hlength] at hrest
      rw [stringFrom, if_pos hin, readByte_of_toList hbytes (by omega)]
      simp only [if_neg (Ne.symm hzero.1), hrest]
      simp

/-- A text without zero bytes that stands before a zero byte is the string at its address. -/
theorem readString_of_toList (hbytes : m.bytes.toList = before ++ (text ++ 0 :: after))
    (hannounced : m.announced = m.size) (hsmall : before.length + text.length < 0x100000000)
    (hzero : 0 ∉ text) : m.readString (UInt32.ofNat before.length) = .ok text := by
  have htoNat : (UInt32.ofNat before.length).toNat = before.length :=
    UInt32.toNat_ofNat_of_lt' (by omega : before.length < 0x100000000)
  have hin := length_lt_size_of_toList hbytes (by simp)
  rw [readString, htoNat, if_pos (by rwa [hannounced]),
    stringFrom_of_toList hbytes hannounced hsmall hzero]
  rfl

end Memory

/-! ## Stores of bytes -/

theorem Word.toNat_bits_ofCount {n : Nat} (hn : n < 0x80000000) : (bits (ofCount n)).toNat = n :=
  UInt32.toNat_ofNat_of_lt' (by omega : n < 0x100000000)

namespace Store

/-- The stores of the lowest bytes of some values to one address after the other. -/
def bytesFrom (start : Nat) : List Word → List Store
  | [] => []
  | v :: rest => ⟨.byte, Word.ofCount start, v⟩ :: bytesFrom (start + 1) rest

variable {m : Memory} {bytes : List UInt8} {values : List Word} {start size : Nat}

theorem length_bytesFrom (start : Nat) (values : List Word) :
    (bytesFrom start values).length = values.length := by
  induction values generalizing start with
  | nil => rfl
  | cons v values ih => rw [bytesFrom, List.length_cons, ih, List.length_cons]

theorem fits_of_mem_bytesFrom (hvalues : ∀ v ∈ values, v.toInt ≤ 127)
    (hroom : start + values.length ≤ size) (hsmall : start + values.length < 0x80000000) :
    ∀ w ∈ bytesFrom start values, w.Fits size := by
  induction values generalizing start with
  | nil =>
      intro w hw
      cases hw
  | cons v values ih =>
      rw [List.length_cons] at hroom hsmall
      intro w hw
      rcases List.mem_cons.mp hw with rfl | hw
      · refine ⟨hvalues v (List.mem_cons_self ..), ?_⟩
        change (Word.bits (Word.ofCount start)).toNat + 1 ≤ size
        rw [Word.toNat_bits_ofCount (by omega)]
        omega
      · exact ih (fun u hu => hvalues u (List.mem_cons_of_mem _ hu)) (by omega) (by omega) w hw

/-- Stores behind the bytes that have been stored so far add to them. -/
theorem startsWith_foldl_bytesFrom (hm : m.StartsWith bytes)
    (hroom : bytes.length + values.length ≤ m.size)
    (hsmall : bytes.length + values.length < 0x80000000) :
    ((bytesFrom bytes.length values).foldl apply m).StartsWith
      (bytes ++ values.map fun v => (Word.bits v).toUInt8) := by
  induction values generalizing bytes m with
  | nil => simpa [bytesFrom] using hm
  | cons v values ih =>
      rw [List.length_cons] at hroom hsmall
      have hfirst := hm.setByte (by omega) (Word.bits v).toUInt8
      have hlength : (bytes ++ [(Word.bits v).toUInt8]).length = bytes.length + 1 :=
        List.length_append
      have hrest := ih hfirst (by rw [hlength, Memory.size_setByte]; omega) (by rw [hlength]; omega)
      rw [hlength, List.append_assoc] at hrest
      have happly : apply m ⟨.byte, Word.ofCount bytes.length, v⟩ =
          m.setByte bytes.length (Word.bits v).toUInt8 := by
        simp only [apply, Word.toNat_bits_ofCount (by omega : bytes.length < 0x80000000)]
      rw [bytesFrom, List.foldl_cons, happly]
      exact hrest

end Store

end WordMachine
