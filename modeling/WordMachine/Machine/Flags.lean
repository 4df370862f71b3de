import WordMachine.Word

/-!
# Flags

The arithmetic operations report overflow and underflow, a comparison reports exactly one of
greater, lower and equal.
-/

namespace WordMachine

/-- The flags of the machine. -/
structure Flags where
  overflow : Bool := false
  underflow : Bool := false
  greater : Bool := false
  lower : Bool := false
  equal : Bool := false
  deriving DecidableEq, Repr, Inhabited

namespace Flags

/-- The names of the flags that are set, in a fixed order. -/
def names (f : Flags) : List String :=
  [(f.overflow, "OVERFLOW"), (f.underflow, "UNDERFLOW"), (f.greater, "GREATER"),
   (f.lower, "LOWER"), (f.equal, "EQUAL")].filterMap
    fun (isSet, name) => if isSet then some name else none

/-- The names of the flags that are set, with a bar between them. -/
def text (f : Flags) : String := " | ".intercalate f.names

/-- The flags as a core dump shows them. -/
def dumpText (f : Flags) : String :=
  "Flags(" ++ (if f.names.isEmpty then "0x0" else f.text) ++ ")"

/-- The flags whose bits are set in a number; other bits have no meaning. -/
def ofBits (n : Nat) : Flags :=
  { overflow := n.testBit 0, underflow := n.testBit 1, greater := n.testBit 2,
    lower := n.testBit 3, equal := n.testBit 4 }

/-- The flags after a comparison of two words.  `greater` means that the second is the greater
one. -/
def compare (f : Flags) (first second : Word) : Flags :=
  { f with
    equal := decide (second.toInt = first.toInt)
    greater := decide (first.toInt < second.toInt)
    lower := decide (second.toInt < first.toInt) }

end Flags

end WordMachine
