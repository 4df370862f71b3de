/-!
# Files

The contents of a file that is written byte by byte.  A write beyond the end makes the file longer,
and the bytes in between are zero.  The writes are kept beside the contents that the file had
before, so a byte far beyond the end costs no more than any other.
-/

namespace WordMachine

/-- The contents of a file. -/
structure FileContents where
  /-- The bytes before any write. -/
  base : Array UInt8 := #[]
  /-- The writes, the latest first. -/
  writes : List (Nat × UInt8) := []
  size : Nat := base.size
  deriving DecidableEq, Repr, Inhabited

namespace FileContents

def ofBytes (bytes : Array UInt8) : FileContents := { base := bytes }

/-- The byte at a position; none at and beyond the end. -/
def byteAt? (f : FileContents) (i : Nat) : Option UInt8 :=
  if i < f.size then some ((f.writes.lookup i).getD (f.base[i]?.getD 0)) else none

/-- The file with the byte at a position replaced. -/
def write (f : FileContents) (i : Nat) (v : UInt8) : FileContents :=
  { f with writes := (i, v) :: f.writes, size := max f.size (i + 1) }

def toList (f : FileContents) : List UInt8 := (List.range f.size).filterMap f.byteAt?

end FileContents

end WordMachine
