import WordMachine.Assembly.Diagnostic
import WordMachine.Assembly.Symbols
import WordMachine.Label.Id
import WordMachine.Op
import WordMachine.Text.Split

/-!
# Source lines

A source line, after its comment is cut off, is blank, a directive or an instruction.  `readLine`
turns it into an `Effect` against the symbols known so far, or into the one fault that is reported
for it.  A line that is at fault has no effect at all, which keeps the code after it aligned.

A directive declares a constant or a variable.  The code for a variable is the stores that write
its initial bytes.  An instruction becomes its opcode and operands; a name that refers to a label
becomes the id of the label.
-/

namespace WordMachine.Assembly

open WordMachine.Text

/-- What a line does to the assembly. -/
inductive Effect
  | skip
  | emit (words : List Word)
  | define (name : String) (value : Word)
  /-- Declares a variable and adds the stores of its initial bytes to the code. -/
  | declare (variable_ : Variable) (words : List Word)
  deriving DecidableEq, Repr

/-- The directives. -/
inductive Directive
  | const | dword | bytes | string
  deriving DecidableEq, Repr

def Directive.word : Directive → String
  | .const => ".const"
  | .dword => ".dword"
  | .bytes => ".bytes"
  | .string => ".string"

def Directive.ofWord? (word : String) : Option Directive :=
  [const, dword, bytes, string].find? fun d => d.word == word

/-- Whether the name of a new declaration is taken: constants and variables do not clash with each
other. -/
def Directive.isTaken (d : Directive) (t : Symbols) (name : String) : Bool :=
  match d with
  | .const => t.hasConstant name
  | _ => t.hasVariable name

/-- A line up to its comment. -/
def stripComment (s : List Char) : List Char := s.takeWhile (· != '#')

/-- The first token of a text and the rest after it. -/
def splitToken? (s : List Char) : Option (List Char × List Char) :=
  match trimStart s with
  | [] => none
  | s => some (s.span fun c => !isBlank c)

/-- The directive word, the name and the value of a directive line.  The value of a string directive
is everything after the name, any other value holds no blanks. -/
def splitDirective? (line : List Char) : Option (String × String × List Char) := do
  let (word, rest) ← splitToken? line
  let (name, rest) ← splitToken? rest
  let value := trim rest
  if value.isEmpty then none
  else if String.ofList word != Directive.string.word && value.any isBlank then none
  else some (String.ofList word, String.ofList name, value)

/-- The stores of bytes to consecutive addresses, the first of which is `base + index`. -/
def byteStores (base : Word) (index : Nat) : List Word → List Word
  | [] => []
  | v :: rest =>
    [(Op.store .byte .immediate).opcode, base + Word.ofCount index, v] ++
      byteStores base (index + 1) rest

/-- The items of a list of bytes without those at its end that are blank; the first item stays. -/
def dropBlankEnd (items : List (List Char)) : List (List Char) :=
  match items with
  | [] => []
  | first :: rest => first :: (rest.reverse.dropWhile isBlankText).reverse

/-- The value of one item in a list of bytes. -/
def byteItem (item : List Char) : Except Fault Word :=
  match literal? item with
  | none => .error ⟨.invalidValue, String.ofList item⟩
  | some v =>
    if 0 ≤ v.toInt ∧ v.toInt ≤ 127 then .ok v
    else .error ⟨.byteOutOfRange, String.ofList item⟩

/-- The text between single quotes. -/
def unquote? (value : List Char) : Option (List Char) :=
  match value with
  | '\'' :: rest => if rest.getLast? = some '\'' then some rest.dropLast else none
  | _ => none

/-- A byte as a word, its highest bit taken as a sign. -/
def signedByte (b : UInt8) : Word := b.toInt8.toInt32

/-- The effect of a directive, its name not being taken. -/
def Directive.read (d : Directive) (t : Symbols) (name : String) (value : List Char) :
    Except Fault Effect :=
  let base := Word.ofCount t.usedSpace
  match d with
  | .const =>
    match t.literalOrOffset? (String.ofList value) with
    | some v => .ok (.define name v)
    | none => .error ⟨.invalidValue, String.ofList value⟩
  | .dword =>
    match literal? value with
    | some v =>
      .ok (.declare ⟨name, 4⟩ [(Op.store .word .immediate).opcode, base, v])
    | none => .error ⟨.invalidValue, String.ofList value⟩
  | .bytes =>
    ((dropBlankEnd (pieces (· == ',') value)).mapM byteItem).map fun values =>
      .declare ⟨name, values.length⟩ (byteStores base 0 values)
  | .string =>
    match unquote? value with
    | some text =>
      let bytes := text.flatMap String.utf8EncodeChar
      .ok (.declare ⟨name, bytes.length + 1⟩ (byteStores base 0 (bytes.map signedByte)))
    | none => .error ⟨.malformedString, String.ofList value⟩

/-- The effect of a line that starts with a dot. -/
def readDirective (t : Symbols) (line : List Char) : Except Fault Effect :=
  match splitDirective? line with
  | none => .error ⟨.wrongSyntax, String.ofList line⟩
  | some (word, name, value) =>
    match Directive.ofWord? word with
    | none => .error ⟨.unknownDirective, word⟩
    | some d =>
      if d.isTaken t name then .error ⟨.redefined, name⟩ else d.read t name value

/-- The label name of a line that ends with a colon. -/
def markerName? (line : List Char) : Option (List Char) :=
  if line.getLast? = some ':' then some (trim line.dropLast) else none

/-- Whether a character separates the tokens of an instruction. -/
def isTokenEnd (c : Char) : Bool := isBlank c || c == ','

def readOperand (t : Symbols) (token : String) : Except Fault Word :=
  match t.operand? token with
  | some v => .ok v
  | none => .error ⟨.unknownOperand, token⟩

/-- The words of an operation with the given operand tokens; `line` is the whole line. -/
def readOperands (t : Symbols) (line : List Char) (op : Op) (operands : List String) :
    Except Fault Effect :=
  if op.takesLabel then
    match operands with
    | [name] => .ok (.emit [op.opcode, Label.id name])
    | _ => .error ⟨.malformedLabel, String.ofList line⟩
  else if operands.length ≠ op.operandCount then
    .error ⟨.wrongOperandCount, String.ofList line⟩
  else
    (operands.mapM (readOperand t)).map fun values => .emit (op.opcode :: values)

/-- The effect of a line that is neither blank nor a directive. -/
def readInstruction (t : Symbols) (line : List Char) : Except Fault Effect :=
  match markerName? line with
  | some name =>
    if name.isEmpty || name.any isBlank then .error ⟨.malformedLabel, String.ofList line⟩
    else .ok (.emit [Op.label.opcode, Label.id (String.ofList name)])
  | none =>
    match (tokens isTokenEnd line).map String.ofList with
    | [] => .error ⟨.wrongSyntax, String.ofList line⟩
    | mnemonic :: operands =>
      match Op.ofMnemonic? mnemonic with
      | none => .error ⟨.unknownMnemonic, String.ofList line⟩
      | some op => readOperands t line op operands

def readLine (t : Symbols) (raw : List Char) : Except Fault Effect :=
  match trim (stripComment raw) with
  | [] => .ok .skip
  | '.' :: rest => readDirective t ('.' :: rest)
  | line => readInstruction t line

end WordMachine.Assembly
