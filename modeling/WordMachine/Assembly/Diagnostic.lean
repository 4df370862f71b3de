/-!
# Diagnostics

A source line that the assembler cannot use is reported and left out.  The report names the line by
its number, the kind of the fault, and the text at fault: one token, or the whole line.
-/

namespace WordMachine.Assembly

/-- What can be wrong with a source line. -/
inductive FaultKind
  /-- A directive that is not a directive word, a name and a value. -/
  | wrongSyntax
  | unknownDirective
  | unknownMnemonic
  | wrongOperandCount
  /-- An operand that is no literal, register, constant or variable. -/
  | unknownOperand
  /-- A label, a jump or a call without exactly one label name. -/
  | malformedLabel
  /-- A constant or a variable that is declared already. -/
  | redefined
  | invalidValue
  | byteOutOfRange
  /-- A string value that does not stand between single quotes. -/
  | malformedString
  deriving DecidableEq, Repr

def FaultKind.message : FaultKind → String
  | .wrongSyntax => "ignored wrong syntax"
  | .unknownDirective => "unknown directive"
  | .unknownMnemonic => "wrong operation code"
  | .wrongOperandCount => "wrong number of operands"
  | .unknownOperand => "wrong register or not defined"
  | .malformedLabel => "wrong formatted label"
  | .redefined => "already defined, ignored"
  | .invalidValue => "invalid value"
  | .byteOutOfRange => "byte value out of range"
  | .malformedString => "wrong string format, ' missing?"

/-- A fault of a source line and the text that is at fault. -/
structure Fault where
  kind : FaultKind
  text : String
  deriving DecidableEq, Repr

/-- A fault together with the number of its line, counted from 1. -/
structure Diagnostic where
  line : Nat
  fault : Fault
  deriving DecidableEq, Repr

def Diagnostic.message (d : Diagnostic) : String :=
  "line " ++ toString d.line ++ ": " ++ d.fault.kind.message ++ ": " ++ d.fault.text

end WordMachine.Assembly
