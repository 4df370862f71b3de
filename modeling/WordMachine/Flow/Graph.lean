import WordMachine.Instruction
import WordMachine.Program

/-!
# Control flow

Which instructions of a program can follow which.  An instruction has edges to the positions that
control may go to after it; a position at which no instruction starts is recorded as an edge but
not followed.  `explore` walks the graph from a list of entries, breadth first, and visits at most
as many instructions as its budget allows.
-/

namespace WordMachine.Flow

/-- A program together with its instruction starts. -/
structure CodeMap where
  program : Program
  starts : Marks := program.starts
  starts_eq : starts = program.starts := by rfl

def CodeMap.ofProgram (p : Program) : CodeMap := { program := p }

/-- How control goes from one instruction to another. -/
inductive EdgeKind
  | fallthrough | branch | condBranch | call
  deriving DecidableEq, Repr

/-- Control may go from an instruction to a position. -/
structure Edge where
  source : Nat
  /-- A jump may lead to a position before the program. -/
  target : Int
  kind : EdgeKind
  deriving DecidableEq, Repr

/-- The edges of an instruction in a program of `size` words.  A jump or a call comes first, then
what follows in the code; after the last instruction nothing follows by itself. -/
def edgesOf (size : Nat) (d : Instruction) : List Edge :=
  let leap (kind : EdgeKind) : Edge := ⟨d.position, d.destination, kind⟩
  let next : Edge := ⟨d.position, d.next, .fallthrough⟩
  match d.op with
  | .jump .always => [leap .branch]
  | .jump _ => [leap .condBranch, next]
  | .call => [leap .call, next]
  | .halt | .retn => []
  | _ => if d.next < size then [next] else []

/-- Whether a program may end at an operation. -/
def isExit : Op → Bool
  | .halt | .retn => true
  | _ => false

/-- The position that an edge leads to, if an instruction starts there. -/
def CodeMap.landing? (c : CodeMap) (e : Edge) : Option Nat :=
  if 0 ≤ e.target ∧ c.starts.has e.target.toNat = true then some e.target.toNat else none

/-- What a walk over the graph has found. -/
structure Analysis where
  /-- The instruction starts that were visited. -/
  visited : Marks
  /-- The edges of the visited instructions, in the order of discovery. -/
  edges : Array Edge := #[]
  /-- The visited instructions that end the program. -/
  exits : Marks
  deriving DecidableEq, Repr

def Analysis.start (c : CodeMap) : Analysis :=
  { visited := Marks.none c.program.size, exits := Marks.none c.program.size }

/-- The edges of the instruction at a position, if there is a whole instruction. -/
def CodeMap.edgesAt (c : CodeMap) (i : Nat) : List Edge :=
  match decode? c.program.words i with
  | some d => edgesOf c.program.size d
  | none => []

/-- Whether the instruction at a position ends the program. -/
def CodeMap.isExitAt (c : CodeMap) (i : Nat) : Bool :=
  (decode? c.program.words i).any fun d => isExit d.op

/-- The findings after one more position is visited. -/
def Analysis.visit (a : Analysis) (c : CodeMap) (i : Nat) : Analysis :=
  { visited := a.visited.mark i
    edges := a.edges ++ c.edgesAt i
    exits := if c.isExitAt i then a.exits.mark i else a.exits }

/-- Walks the graph: visits the first position of the queue that is not visited yet and queues the
positions after it, until the budget of visits or the queue is used up. -/
def explore (c : CodeMap) (budget : Nat) (queue : List Nat) (a : Analysis) : Analysis :=
  match budget, queue with
  | 0, _ => a
  | _ + 1, [] => a
  | budget + 1, i :: rest =>
    if a.visited.has i then explore c (budget + 1) rest a
    else explore c budget (rest ++ (c.edgesAt i).filterMap c.landing?) (a.visit c i)
termination_by (budget, queue.length)

@[simp] theorem explore_zero (c : CodeMap) (queue : List Nat) (a : Analysis) :
    explore c 0 queue a = a := by
  rw [explore]

@[simp] theorem explore_nil (c : CodeMap) (budget : Nat) (a : Analysis) :
    explore c budget [] a = a := by
  cases budget <;> rw [explore]

/-- A position that was visited before is passed over. -/
theorem explore_of_visited {c : CodeMap} {i : Nat} {a : Analysis} (h : a.visited.has i = true)
    (budget : Nat) (rest : List Nat) :
    explore c (budget + 1) (i :: rest) a = explore c (budget + 1) rest a := by
  rw [explore, if_pos h]

/-- A new position is visited, and those after it are queued. -/
theorem explore_of_new {c : CodeMap} {i : Nat} {a : Analysis} (h : a.visited.has i = false)
    (budget : Nat) (rest : List Nat) :
    explore c (budget + 1) (i :: rest) a =
      explore c budget (rest ++ (c.edgesAt i).filterMap c.landing?) (a.visit c i) := by
  rw [explore, if_neg (by simp [h])]

/-- The part of the graph that can be reached from the entries with at most `budget` visits. -/
def analyze (c : CodeMap) (entries : List Nat) (budget : Nat) : Analysis :=
  explore c budget (entries.filter c.starts.has) (Analysis.start c)

end WordMachine.Flow
