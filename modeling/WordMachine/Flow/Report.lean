import WordMachine.Flow.Labels
import WordMachine.Listing

/-!
# Flow reports

A report on a program joins its listing with what the analysis of its control flow has found: lines
carry the labels of their positions, jumps and calls the labels of their targets, and instructions
that are never reached are marked.
-/

namespace WordMachine.Flow

/-- A line of a report. -/
structure ReportLine where
  position : Nat
  words : List Word
  text : String
  label : Option String
  deriving DecidableEq, Repr

/-- What is reported on a program. -/
structure Report where
  entries : List Nat
  listing : List ReportLine
  edges : List Edge
  /-- The positions that have a name, ascending, with their names. -/
  labels : List (Nat × String)
  /-- The jumps and calls to positions at which no instruction starts. -/
  badTargets : List Edge
  /-- The instruction starts that were not visited, ascending. -/
  unreachable : List Nat
  deriving DecidableEq, Repr

/-- Whether a position is an instruction start that was not visited. -/
def Analysis.misses (a : Analysis) (c : CodeMap) (i : Nat) : Bool :=
  c.starts.has i && !a.visited.has i

/-- The remark that names the target of a jump or a call, if the target has a name. -/
def targetRemark (labels : LabelMap) (d : Instruction) : String :=
  match d.target?.bind labels.name? with
  | some name => " <" ++ name ++ ">"
  | none => ""

/-- The remark on an instruction that is never reached. -/
def unreachableRemark : String := "  ; unreachable"

/-- How many words the line of a report at a position is about, and what it says of them: an
instruction with the name of its target, or a word at which none starts. -/
def shownAt (labels : LabelMap) (words : Array Word) (i : Nat) (w : Word) : Nat × String :=
  match decode? words i with
  | some d => (d.width, d.text ++ targetRemark labels d)
  | none => (1, strayText w)

theorem shownAt_pos (labels : LabelMap) (words : Array Word) (i : Nat) (w : Word) :
    0 < (shownAt labels words i w).1 := by
  unfold shownAt
  split
  · exact Instruction.width_pos _
  · exact Nat.one_pos

/-- The lines of a report from a position on. -/
def reportLinesFrom (c : CodeMap) (a : Analysis) (labels : LabelMap) (i : Nat) : List ReportLine :=
  if _ : i < c.program.words.size then
    let shown := shownAt labels c.program.words i c.program.words[i]
    let stop := min (i + shown.1) c.program.words.size
    { position := i
      words := (c.program.words.extract i stop).toList
      text := shown.2 ++ if a.misses c i then unreachableRemark else ""
      label := labels.name? i } :: reportLinesFrom c a labels stop
  else []
termination_by c.program.words.size - i
decreasing_by
  have := shownAt_pos labels c.program.words i c.program.words[i]
  omega

/-- Whether an edge is a jump or a call to a position at which no instruction starts. -/
def isBadTarget (c : CodeMap) (e : Edge) : Bool :=
  e.kind != .fallthrough && (c.landing? e).isNone

/-- The report on a program, its analysis starting from the entries with the given budget. -/
def report (c : CodeMap) (entries : List Nat) (budget : Nat) : Report :=
  let a := analyze c entries budget
  let edges := a.edges.toList
  let labels := LabelMap.ofEdges c edges entries
  { entries
    listing := reportLinesFrom c a labels 0
    edges
    labels := labels.named
    badTargets := edges.filter (isBadTarget c)
    unreachable := (List.range c.program.size).filter (a.misses c) }

end WordMachine.Flow
