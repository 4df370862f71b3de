import WordMachine.Text.Blank
import WordMachine.Text.Numeral

/-!
# Literals

A literal is a signed decimal numeral, or a hexadecimal one that is marked by `0x` or `0X` and
states the 32 bits of the word.  Blanks around it do not count.
-/

namespace WordMachine.Assembly

open WordMachine.Text

/-- The digits after a hexadecimal mark, if the text has one. -/
def hexDigits? : List Char → Option (List Char)
  | '0' :: 'x' :: digits => some digits
  | '0' :: 'X' :: digits => some digits
  | _ => none

def literal? (s : List Char) : Option Word :=
  match hexDigits? (trim s) with
  | some digits =>
    (unsigned 16 0x100000000 digits).toOption.map fun n => Word.ofBits (UInt32.ofNat n)
  | none => signedWord? 10 (trim s)

end WordMachine.Assembly
