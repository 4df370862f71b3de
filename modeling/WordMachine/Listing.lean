import WordMachine.Program
import WordMachine.Register
import WordMachine.Text.Numeral

/-!
# Listings

The text of an instruction and the listing of a program.  Registers are shown by name, values and
addresses in hexadecimal as 32-bit patterns, distances in decimal with their sign, and jumps and
calls with the position they lead to.  A word at which no whole instruction starts is shown by
itself, and the listing goes on with the next word.
-/

namespace WordMachine

open Text

/-- The text of a register operand; an index without a register is shown as such. -/
def registerText (w : Word) : String :=
  match Register.ofIndex? w with
  | some r => r.name
  | none => "r?" ++ decimal w.toInt

/-- A word as a marked hexadecimal pattern. -/
def wordText (w : Word) : String := hexMarked (Word.bits w).toNat

/-- The text of a word at which no whole instruction starts. -/
def strayText (w : Word) : String := ".word " ++ wordText w

/-- The end of a jump's or a call's text: an arrow to the position it leads to. -/
def Instruction.arrowText (d : Instruction) : Option String :=
  d.target?.map fun t => " -> " ++ toString t

def Instruction.text (d : Instruction) : String :=
  d.op.mnemonic ++
    match d.op.form with
    | .bare => ""
    | .register => " " ++ registerText d.first
    | .registerValue => " " ++ registerText d.first ++ ", " ++ wordText d.second
    | .registerPair => " " ++ registerText d.first ++ ", " ++ registerText d.second
    | .addressValue => " [" ++ wordText d.first ++ "], " ++ wordText d.second
    | .value => " " ++ wordText d.first
    | .marker => " #" ++ hexPadded 8 (Word.bits d.first).toNat
    | .relative => " " ++ decimalSigned d.first.toInt ++ d.arrowText.getD ""
    | .absolute => d.arrowText.getD (" " ++ wordText d.first)

/-- A line of a listing: an instruction, or a word at which none starts. -/
inductive Item
  | instruction (d : Instruction)
  | stray (position : Nat) (word : Word)
  deriving DecidableEq, Repr

namespace Item

def position : Item → Nat
  | .instruction d => d.position
  | .stray i _ => i

def text : Item → String
  | .instruction d => d.text
  | .stray _ w => strayText w

def words : Item → List Word
  | .instruction d => d.words
  | .stray _ w => [w]

/-- The number of words that the line is about. -/
def width : Item → Nat
  | .instruction d => d.width
  | .stray _ _ => 1

theorem width_pos (x : Item) : 0 < x.width := by
  cases x with
  | instruction d => exact d.width_pos
  | stray => exact Nat.one_pos

@[simp] theorem length_words (x : Item) : x.words.length = x.width := by
  cases x with
  | instruction d => exact d.length_words
  | stray => rfl

end Item

/-- The line of a listing for a position and the word there. -/
def itemAt (words : Array Word) (i : Nat) (w : Word) : Item :=
  match decode? words i with
  | some d => .instruction d
  | none => .stray i w

/-- The lines of a listing from a position on. -/
def itemsFrom (words : Array Word) (i : Nat) : List Item :=
  if _ : i < words.size then
    let x := itemAt words i words[i]
    x :: itemsFrom words (i + x.width)
  else []
termination_by words.size - i
decreasing_by
  have := (itemAt words i words[i]).width_pos
  omega

namespace Program

def items (p : Program) : List Item := itemsFrom p.words 0

/-- The listing of the program: positions and texts. -/
def listing (p : Program) : List (Nat × String) := p.items.map fun x => (x.position, x.text)

end Program

end WordMachine
