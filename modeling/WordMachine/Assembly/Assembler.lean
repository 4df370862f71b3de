import WordMachine.Assembly.Line
import WordMachine.Label.Resolve

/-!
# The assembler

Source text is assembled line by line.  A line either has its effect or adds one diagnostic
(`feed_of_ok`, `feed_of_error`), and once all lines are read the labels are resolved, unless there
are diagnostics.
-/

namespace WordMachine

namespace Assembly

/-- Why source text has no program. -/
inductive AssemblyError
  | diagnostics (list : List Diagnostic)
  | label (cause : LabelError)
  deriving DecidableEq, Repr

def AssemblyError.message : AssemblyError → String
  | .diagnostics list => "assembly failed with " ++ toString list.length ++ " diagnostic(s)"
  | .label cause => cause.message

/-- What the assembler knows after some lines. -/
structure Assembler where
  symbols : Symbols := {}
  diagnostics : Array Diagnostic := #[]
  /-- The code so far, its labels unresolved. -/
  words : Array Word := #[]
  line : Nat := 0
  deriving Inhabited

namespace Assembler

def apply (a : Assembler) : Effect → Assembler
  | .skip => a
  | .emit words => { a with words := a.words ++ words }
  | .define name value => { a with symbols := a.symbols.addConstant name value }
  | .declare v words =>
    { a with symbols := a.symbols.addVariable v, words := a.words ++ words }

/-- Adds a diagnostic for the line read last. -/
def report (a : Assembler) (fault : Fault) : Assembler :=
  { a with diagnostics := a.diagnostics.push ⟨a.line, fault⟩ }

def feed (a : Assembler) (raw : List Char) : Assembler :=
  let a := { a with line := a.line + 1 }
  match readLine a.symbols raw with
  | .ok effect => a.apply effect
  | .error fault => a.report fault

/-- Reads one more line, given as a string; a line break in it does not end the line. -/
def feedLine (a : Assembler) (raw : String) : Assembler := a.feed raw.toList

def finish (a : Assembler) : Except AssemblyError Program :=
  if a.diagnostics.isEmpty then
    match Label.resolve a.words with
    | .ok p => .ok p
    | .error e => .error (.label e)
  else .error (.diagnostics a.diagnostics.toList)

theorem feed_of_ok {a : Assembler} {raw : List Char} {effect : Effect}
    (h : readLine a.symbols raw = .ok effect) :
    a.feed raw = { a with line := a.line + 1 }.apply effect := by
  simp only [feed]
  rw [show readLine a.symbols raw = .ok effect from h]

theorem feed_of_error {a : Assembler} {raw : List Char} {fault : Fault}
    (h : readLine a.symbols raw = .error fault) :
    a.feed raw = { a with line := a.line + 1 }.report fault := by
  simp only [feed]
  rw [show readLine a.symbols raw = .error fault from h]

@[simp] theorem line_feed (a : Assembler) (raw : List Char) : (a.feed raw).line = a.line + 1 := by
  unfold feed
  dsimp only
  split
  · next effect _ => cases effect <;> rfl
  · rfl

end Assembler

def assemble (source : String) : Except AssemblyError Program :=
  ((Text.lines source.toList).foldl Assembler.feed {}).finish

end Assembly

end WordMachine
