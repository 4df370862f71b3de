import WordMachine.Op

/-!
# Instructions in a word stream

An instruction is an operation together with the position of its opcode and the operand words that
follow.  `decode?` reads the instruction at a position.  It succeeds exactly where an opcode stands
with all its operands (`isSome_decode?`), and what it gives back are the words that stand there
(`getElem?_of_decode?`).
-/

namespace WordMachine

/-- An instruction read at a position of the code.  An operand that the operation does not have
is 0. -/
structure Instruction where
  op : Op
  position : Nat
  first : Word := 0
  second : Word := 0
  deriving DecidableEq, Repr

namespace Instruction

/-- How many words the instruction takes up, its opcode included. -/
def width (d : Instruction) : Nat := 1 + d.op.operandCount

/-- The position of the word after the instruction. -/
def next (d : Instruction) : Nat := d.position + d.width

def words (d : Instruction) : List Word :=
  d.op.opcode :: [d.first, d.second].take d.op.operandCount

/-- Where a jump or a call leads, the code being finished.  Positions are 64-bit numbers, and the
sum wraps around like they do. -/
def destination (d : Instruction) : Int :=
  match d.op.form with
  | .absolute => d.first.toInt + 1
  | _ => ((d.position : Int) + d.first.toInt).bmod 0x10000000000000000

/-- The position that a jump or a call leads to, if it is one. -/
def target? (d : Instruction) : Option Nat :=
  if d.op.refersToLabel && decide (0 ≤ d.destination) then some d.destination.toNat else none

@[simp] theorem length_words (d : Instruction) : d.words.length = d.width := by
  have := d.op.operandCount_le
  simp [words, width]
  omega

theorem width_pos (d : Instruction) : 0 < d.width := by
  unfold width; omega

theorem destination_eq_add {d : Instruction} (h : d.op.form ≠ .absolute)
    (small : d.position < 0x4000000000000000) : d.destination = d.position + d.first.toInt := by
  have lower := d.first.le_toInt
  have upper := d.first.toInt_lt
  unfold destination
  split
  · contradiction
  · apply Int.bmod_eq_of_le <;> omega

end Instruction

/-- The instruction whose opcode stands at `i`, if the word there is an opcode and all its operands
are present. -/
def decode? (words : Array Word) (i : Nat) : Option Instruction :=
  match words[i]?.bind Op.ofOpcode? with
  | none => none
  | some op =>
    match op.operandCount with
    | 0 => some { op, position := i }
    | 1 => words[i + 1]?.map fun a => { op, position := i, first := a }
    | _ =>
      words[i + 1]?.bind fun a =>
        words[i + 2]?.map fun b => { op, position := i, first := a, second := b }

/-! ### What decoding finds -/

theorem decode?_of_not_opcode {words : Array Word} {i : Nat}
    (h : words[i]?.bind Op.ofOpcode? = none) : decode? words i = none := by
  simp [decode?, h]

/-- Decoding succeeds exactly where an opcode stands with all its operands. -/
theorem isSome_decode? {words : Array Word} {i : Nat} :
    (decode? words i).isSome = true ↔
      ∃ op, words[i]?.bind Op.ofOpcode? = some op ∧ i + op.operandCount < words.size := by
  cases h : words[i]?.bind Op.ofOpcode? with
  | none => simp [decode?_of_not_opcode h]
  | some op =>
    obtain ⟨w, hw, -⟩ := Option.bind_eq_some_iff.1 h
    have lt : i < words.size := (Array.getElem?_eq_some_iff.1 hw).1
    have le := op.operandCount_le
    have count : op.operandCount = 0 ∨ op.operandCount = 1 ∨ op.operandCount = 2 := by omega
    simp only [decode?, h, Option.some.injEq, exists_eq_left']
    rcases count with count | count | count
    · simp [count, lt]
    · simp [count]
    · by_cases whole : i + 2 < words.size
      · have : i + 1 < words.size := by omega
        simp [count, whole, this]
      · simp [count, whole]

/-- The instruction that is found at a position stands there, word by word. -/
theorem getElem?_of_decode? {words : Array Word} {i : Nat} {d : Instruction}
    (h : decode? words i = some d) :
    d.position = i ∧ ∀ k < d.width, words[i + k]? = d.words[k]? := by
  cases hop : words[i]?.bind Op.ofOpcode? with
  | none => rw [decode?_of_not_opcode hop] at h; cases h
  | some op =>
    obtain ⟨w, hw, hword⟩ := Option.bind_eq_some_iff.1 hop
    rw [Op.ofOpcode?_eq_some] at hword
    have le := op.operandCount_le
    have count : op.operandCount = 0 ∨ op.operandCount = 1 ∨ op.operandCount = 2 := by omega
    simp only [decode?, hop] at h
    rcases count with count | count | count
    · simp only [count, Option.some.injEq] at h
      subst h
      refine ⟨rfl, fun k hk => ?_⟩
      obtain rfl : k = 0 := by simp only [Instruction.width, count] at hk; omega
      simp [Instruction.words, hw, hword]
    · simp only [count, Option.map_eq_some_iff] at h
      obtain ⟨a, ha, rfl⟩ := h
      refine ⟨rfl, fun k hk => ?_⟩
      simp only [Instruction.width, count] at hk
      obtain rfl | rfl : k = 0 ∨ k = 1 := by omega
      · simp [Instruction.words, hw, hword]
      · simp [Instruction.words, ha, count]
    · simp only [count, Option.bind_eq_some_iff, Option.map_eq_some_iff] at h
      obtain ⟨a, ha, b, hb, rfl⟩ := h
      refine ⟨rfl, fun k hk => ?_⟩
      simp only [Instruction.width, count] at hk
      obtain rfl | rfl | rfl : k = 0 ∨ k = 1 ∨ k = 2 := by omega
      · simp [Instruction.words, hw, hword]
      · simp [Instruction.words, ha, count]
      · simp [Instruction.words, hb, count]

end WordMachine
