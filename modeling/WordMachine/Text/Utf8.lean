/-!
# UTF-8

A byte string is read as a sequence of characters and of ill-formed pieces.  An ill-formed piece is
as long as possible: the longest start of a character's encoding that the bytes agree with, or a
single byte that starts none.  Two readings are built on it: `decodeLossy` puts the replacement
character for every ill-formed piece, and `decode?` accepts no such piece.
-/

namespace WordMachine.Text.Utf8

/-- What a first byte announces: how many bytes follow, the range of the first of them, and the
bits of the code point that it carries itself.  The narrowed ranges exclude overlong forms,
surrogates and code points that are too large. -/
def lead? (b : UInt8) : Option (Nat × UInt8 × UInt8 × Nat) :=
  if b < 0x80 then some (0, 0, 0, b.toNat)
  else if b < 0xc2 then none
  else if b < 0xe0 then some (1, 0x80, 0xbf, b.toNat - 0xc0)
  else if b = 0xe0 then some (2, 0xa0, 0xbf, 0)
  else if b = 0xed then some (2, 0x80, 0x9f, 0xd)
  else if b < 0xf0 then some (2, 0x80, 0xbf, b.toNat - 0xe0)
  else if b = 0xf0 then some (3, 0x90, 0xbf, 0)
  else if b < 0xf4 then some (3, 0x80, 0xbf, b.toNat - 0xf0)
  else if b = 0xf4 then some (3, 0x80, 0x8f, 4)
  else none

/-- Reads the bytes that should follow: the code point, if they are all there, and the bytes that
are left. -/
def continuation (count : Nat) (low high : UInt8) (code : Nat) (bytes : List UInt8) :
    Option Nat × List UInt8 :=
  match count, bytes with
  | 0, rest => (some code, rest)
  | _ + 1, [] => (none, [])
  | n + 1, b :: rest =>
    if low ≤ b ∧ b ≤ high then continuation n 0x80 0xbf (code * 64 + (b.toNat - 0x80)) rest
    else (none, b :: rest)

theorem length_continuation_le (count : Nat) (low high : UInt8) (code : Nat)
    (bytes : List UInt8) :
    (continuation count low high code bytes).2.length ≤ bytes.length := by
  induction count generalizing low high code bytes with
  | zero => cases bytes <;> simp [continuation]
  | succ n ih =>
    cases bytes with
    | nil => simp [continuation]
    | cons b rest =>
      unfold continuation
      split
      · exact Nat.le_succ_of_le (ih ..)
      · exact Nat.le_refl _

/-- The first piece of a byte string that starts with `b`, and the bytes after it. -/
def next (b : UInt8) (rest : List UInt8) : Option Char × List UInt8 :=
  match lead? b with
  | none => (none, rest)
  | some (count, low, high, code) =>
    ((continuation count low high code rest).1.map Char.ofNat,
      (continuation count low high code rest).2)

theorem length_next_le (b : UInt8) (rest : List UInt8) :
    (next b rest).2.length ≤ rest.length := by
  unfold next
  split
  · exact Nat.le_refl _
  · exact length_continuation_le ..

/-- The characters of a byte string; `none` stands for an ill-formed piece. -/
def pieces : List UInt8 → List (Option Char)
  | [] => []
  | b :: rest => (next b rest).1 :: pieces (next b rest).2
termination_by bytes => bytes.length
decreasing_by exact Nat.lt_succ_of_le (length_next_le b rest)

/-- The character that stands for an ill-formed piece. -/
def replacement : Char := '\ufffd'

/-- The text of a byte string, with the replacement character for each ill-formed piece. -/
def decodeLossy (bytes : List UInt8) : String :=
  String.ofList ((pieces bytes).map fun p => p.getD replacement)

/-- The text of a byte string that holds no ill-formed piece. -/
def decode? (bytes : List UInt8) : Option String :=
  ((pieces bytes).mapM id).map String.ofList

def encode (s : String) : List UInt8 := s.toList.flatMap String.utf8EncodeChar

@[simp] theorem pieces_nil : pieces [] = [] := by simp [pieces]

theorem pieces_cons (b : UInt8) (rest : List UInt8) :
    pieces (b :: rest) = (next b rest).1 :: pieces (next b rest).2 := by
  rw [pieces]

end WordMachine.Text.Utf8
