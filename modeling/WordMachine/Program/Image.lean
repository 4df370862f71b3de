import WordMachine.Program
import WordMachine.Text.Quoted
import WordMachine.Text.Split

/-!
# Program images

An image is the text in which a program is kept: every word in hexadecimal with a sign in front of
a negative one, a semicolon after each word, and a line feed at the end.  Reading is more liberal:
the text falls into pieces between semicolons, blanks around a piece do not count, and empty pieces
are passed over.  The first piece that is no numeral is reported before any fault of the program.
-/

namespace WordMachine.Image

open WordMachine.Text

/-- Why a text is not the image of a program. -/
inductive ImageError
  /-- A piece, counted from 0 among those that are not empty, is no word in hexadecimal. -/
  | badWord (index : Nat) (text : String)
  | program (cause : ProgramError)
  deriving DecidableEq, Repr

def ImageError.message : ImageError → String
  | .badWord index text => "word " ++ toString index ++ " is not hexadecimal: " ++ quote text
  | .program cause => cause.message

/-- The character after every word. -/
def separator : Char := ';'

/-- A word in hexadecimal: its magnitude, after a minus sign if it is negative. -/
def encodeWord (w : Word) : List Char :=
  if w.toInt < 0 then '-' :: Nat.toDigits 16 w.toInt.natAbs else Nat.toDigits 16 w.toInt.natAbs

def encode (p : Program) : String :=
  String.ofList (p.words.toList.flatMap (fun w => encodeWord w ++ [separator]) ++ ['\n'])

/-- The pieces of a text that should be words. -/
def pieces (text : List Char) : List (List Char) :=
  ((Text.pieces (· == separator) text).map trim).filter fun s => !s.isEmpty

/-- The words of a list of pieces, the first of which has number `index`. -/
def readWords (index : Nat) : List (List Char) → Except ImageError (List Word)
  | [] => .ok []
  | s :: rest =>
    match signedWord? 16 s with
    | none => .error (.badWord index (String.ofList s))
    | some w => (readWords (index + 1) rest).map (w :: ·)

def decode (text : String) : Except ImageError Program :=
  match readWords 0 (pieces text.toList) with
  | .error e => .error e
  | .ok words =>
    match Program.check words.toArray with
    | .error e => .error (.program e)
    | .ok p => .ok p

end WordMachine.Image
