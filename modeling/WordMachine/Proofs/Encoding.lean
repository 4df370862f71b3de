import WordMachine.Text.Utf8

/-!
# Text survives its encoding

The reading of bytes as UTF-8 gives back every text that has been encoded (`decodeLossy_encode`).
Only the character with the code point 0 has a zero byte in its encoding, so a text without it can
be stored with a zero byte behind it and found again.
-/

namespace WordMachine.Text.Utf8

/-- A byte that follows the first one of a character, with the lowest six bits of a number. -/
def trailing (k : Nat) : UInt8 := UInt8.ofNat (k % 64 + 128)

theorem toNat_trailing (k : Nat) : (trailing k).toNat = k % 64 + 128 :=
  UInt8.toNat_ofNat_of_lt' (by omega : k % 64 + 128 < 256)

theorem continuation_trailing {low high : UInt8} {k : Nat} (hlow : low.toNat ≤ k % 64 + 128)
    (hhigh : k % 64 + 128 ≤ high.toNat) (n code : Nat) (rest : List UInt8) :
    continuation (n + 1) low high code (trailing k :: rest) =
      continuation n 0x80 0xbf (code * 64 + k % 64) rest := by
  rw [continuation, if_pos, toNat_trailing, Nat.add_sub_cancel]
  rw [UInt8.le_iff_toNat_le, UInt8.le_iff_toNat_le, toNat_trailing]
  exact ⟨hlow, hhigh⟩

/-- Where nothing narrows the range, every trailing byte is as expected. -/
theorem continuation_trailing_wide (n code k : Nat) (rest : List UInt8) :
    continuation (n + 1) 0x80 0xbf code (trailing k :: rest) =
      continuation n 0x80 0xbf (code * 64 + k % 64) rest :=
  continuation_trailing (Nat.le_add_left ..) (Nat.add_le_add_right (Nat.le_of_lt_succ
    (Nat.mod_lt k (by decide))) 128) n code rest

/-! ## First bytes -/

theorem lead?_one : ∀ k < 0x80, lead? (UInt8.ofNat k) = some (0, 0, 0, k) := by decide

theorem lead?_two {k : Nat} (hk : 2 ≤ k) (hlt : k < 32) :
    lead? (UInt8.ofNat (k + 192)) = some (1, 0x80, 0xbf, k) := by
  have hall : ∀ i < 30, lead? (UInt8.ofNat (i + 2 + 192)) = some (1, 0x80, 0xbf, i + 2) := by
    decide
  have heq := hall (k - 2) (by omega)
  rwa [Nat.sub_add_cancel hk] at heq

theorem lead?_three : ∀ k < 16, lead? (UInt8.ofNat (k + 224)) =
    some (2, if k = 0 then 0xa0 else 0x80, if k = 13 then 0x9f else 0xbf, k) := by
  decide

theorem lead?_four : ∀ k < 5, lead? (UInt8.ofNat (k + 240)) =
    some (3, if k = 0 then 0x90 else 0x80, if k = 4 then 0x8f else 0xbf, k) := by
  decide

/-! ## Characters and texts -/

theorem next_of_continuation {b low high : UInt8} {count code v : Nat} {bytes rest : List UInt8}
    (hlead : lead? b = some (count, low, high, code))
    (hrest : continuation count low high code bytes = (some v, rest)) :
    next b bytes = (some (Char.ofNat v), rest) := by
  simp only [next, hlead, hrest, Option.map_some]

/-- The first piece of some bytes that start with an encoded character is the character. -/
theorem exists_next_utf8EncodeChar (c : Char) (rest : List UInt8) :
    ∃ b bytes, String.utf8EncodeChar c = b :: bytes ∧ next b (bytes ++ rest) = (some c, rest) := by
  have hvalid : c.val.toNat.isValidChar := c.valid
  have hchar : Char.ofNat c.val.toNat = c := Char.ofNat_toNat c
  unfold String.utf8EncodeChar
  generalize c.val.toNat = v at hvalid hchar
  rw [← hchar]
  simp only
  split
  · exact ⟨_, _, rfl, next_of_continuation (lead?_one v (by omega)) rfl⟩
  split
  · refine ⟨_, _, rfl, next_of_continuation (lead?_two (by omega) (Nat.mod_lt _ (by decide))) ?_⟩
    refine (continuation_trailing_wide 0 _ v rest).trans ?_
    rw [continuation, show v / 64 % 32 * 64 + v % 64 = v by omega]
  split
  · refine ⟨_, _, rfl, next_of_continuation (lead?_three _ (Nat.mod_lt _ (by decide))) ?_⟩
    refine (continuation_trailing ?_ ?_ 1 _ (trailing v :: rest)).trans ?_
    · split
      · simp
        omega
      · exact Nat.le_add_left ..
    · split
      · simp
        omega
      · simp
        omega
    · rw [continuation_trailing_wide, continuation,
        show (v / 4096 % 16 * 64 + v / 64 % 64) * 64 + v % 64 = v by omega]
  · refine ⟨_, _, rfl, next_of_continuation (lead?_four (v / 262144 % 8) (by omega)) ?_⟩
    refine (continuation_trailing ?_ ?_ 2 _ (trailing (v / 64) :: trailing v :: rest)).trans ?_
    · split
      · simp
        omega
      · exact Nat.le_add_left ..
    · split
      · simp
        omega
      · simp
        omega
    · rw [continuation_trailing_wide, continuation_trailing_wide, continuation,
        show ((v / 262144 % 8 * 64 + v / 4096 % 64) * 64 + v / 64 % 64) * 64 + v % 64 = v by
          omega]

theorem pieces_encode (cs : List Char) :
    pieces (cs.flatMap String.utf8EncodeChar) = cs.map some := by
  induction cs with
  | nil => exact pieces_nil
  | cons c cs ih =>
      obtain ⟨b, bytes, hbytes, hnext⟩ :=
        exists_next_utf8EncodeChar c (cs.flatMap String.utf8EncodeChar)
      rw [List.flatMap_cons, hbytes, List.cons_append, pieces_cons, hnext, ih, List.map_cons]

/-- A text that has been encoded is read back. -/
@[simp] theorem decodeLossy_encode (s : String) : decodeLossy (encode s) = s := by
  rw [decodeLossy, encode, pieces_encode, List.map_map]
  change String.ofList (s.toList.map id) = s
  rw [List.map_id, String.ofList_toList]

theorem ofNat_ne_zero {n : Nat} (hpos : 0 < n) (hlt : n < 256) : (0 : UInt8) ≠ UInt8.ofNat n := by
  intro heq
  have hzero : 0 = (UInt8.ofNat n).toNat := congrArg UInt8.toNat heq
  rw [UInt8.toNat_ofNat_of_lt' hlt] at hzero
  omega

theorem zero_notMem_utf8EncodeChar {c : Char} (hc : c ≠ '\x00') :
    0 ∉ String.utf8EncodeChar c := by
  have hpos : 0 < c.val.toNat := by
    refine Nat.pos_of_ne_zero fun hzero => hc ?_
    rw [← Char.ofNat_toNat c, Char.toNat, hzero]
  unfold String.utf8EncodeChar
  generalize c.val.toNat = v at hpos
  simp only
  split
  · exact fun hmem => ofNat_ne_zero hpos (by omega) (List.mem_singleton.mp hmem)
  · -- every byte of a longer encoding has its highest bit set
    split
    · simp only [List.mem_cons, List.not_mem_nil, or_false, not_or]
      exact ⟨ofNat_ne_zero (by omega) (by omega), ofNat_ne_zero (by omega) (by omega)⟩
    split
    · simp only [List.mem_cons, List.not_mem_nil, or_false, not_or]
      exact ⟨ofNat_ne_zero (by omega) (by omega), ofNat_ne_zero (by omega) (by omega),
        ofNat_ne_zero (by omega) (by omega)⟩
    · simp only [List.mem_cons, List.not_mem_nil, or_false, not_or]
      exact ⟨ofNat_ne_zero (by omega) (by omega), ofNat_ne_zero (by omega) (by omega),
        ofNat_ne_zero (by omega) (by omega), ofNat_ne_zero (by omega) (by omega)⟩

/-- The encoding of a text without the character 0 has no zero byte. -/
theorem zero_notMem_encode {s : String} (hs : '\x00' ∉ s.toList) : 0 ∉ encode s := by
  intro hmem
  obtain ⟨c, hc, hzero⟩ := List.mem_flatMap.mp hmem
  refine zero_notMem_utf8EncodeChar ?_ hzero
  rintro rfl
  exact hs hc

end WordMachine.Text.Utf8
