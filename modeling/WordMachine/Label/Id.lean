import WordMachine.Word

/-!
# Label ids

Code names a label by a word that is computed from its name.  A running CRC-32 is fed the UTF-8
bytes of the name four characters at a time, and the checksums after every group of four, and after
what is left at the end, are combined by exclusive or.  Different names may have the same id.
-/

namespace WordMachine

namespace Crc32

/-- The state of the checksum before any byte. -/
def initial : UInt32 := 0xffffffff

/-- The generator polynomial, its bits reversed. -/
def polynomial : UInt32 := 0xedb88320

/-- Moves the state on by one bit. -/
def shift (state : UInt32) : UInt32 :=
  if state &&& 1 = 1 then (state >>> 1) ^^^ polynomial else state >>> 1

def shiftBy : Nat → UInt32 → UInt32
  | 0, state => state
  | n + 1, state => shiftBy n (shift state)

def feed (state : UInt32) (byte : UInt8) : UInt32 := shiftBy 8 (state ^^^ byte.toUInt32)

def feedAll (state : UInt32) (bytes : List UInt8) : UInt32 := bytes.foldl feed state

/-- The checksum of the bytes fed so far. -/
def finish (state : UInt32) : UInt32 := ~~~ state

theorem feedAll_append (state : UInt32) (xs ys : List UInt8) :
    feedAll state (xs ++ ys) = feedAll (feedAll state xs) ys :=
  List.foldl_append

end Crc32

namespace Label

/-- How many characters are fed to the checksum between two readings of it. -/
def groupSize : Nat := 4

/-- The exclusive or of `acc` and the checksums after every group of the characters, the checksum
being in the given state before them. -/
def idBits (state acc : UInt32) : List Char → UInt32
  | [] => acc
  | c :: cs =>
    let group := (c :: cs).take groupSize
    let state := Crc32.feedAll state (group.flatMap String.utf8EncodeChar)
    idBits state (acc ^^^ Crc32.finish state) (cs.drop (groupSize - 1))
termination_by cs => cs.length
decreasing_by
  rw [List.length_drop, List.length_cons]
  omega

def id (name : String) : Word := Word.ofBits (idBits Crc32.initial 0 name.toList)

end Label

end WordMachine
