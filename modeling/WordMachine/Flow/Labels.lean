import Std.Data.TreeMap.Basic
import WordMachine.Flow.Graph
import WordMachine.Text.Numeral

/-!
# Label names

Finished code no longer holds the names of its labels, so a report makes up names for the positions
that control goes to.  The name tells how a position is reached: by a call, or else by a jump, or
else as an entry.  Entries get a name wherever they lie, other positions only if an instruction
starts there.
-/

namespace WordMachine.Flow

/-- How a position with a name is reached. -/
inductive LabelKind
  | sub | loc | entry
  deriving DecidableEq, Repr

def LabelKind.stem : LabelKind → String
  | .sub => "sub_"
  | .loc => "loc_"
  | .entry => "entry_"

def labelName (kind : LabelKind) (position : Nat) : String :=
  kind.stem ++ Text.hexPadded 4 position

/-- The positions that have a name. -/
abbrev LabelMap := Std.TreeMap Nat LabelKind

namespace LabelMap

/-- The name of a position, if it has one. -/
def name? (labels : LabelMap) (position : Nat) : Option String :=
  labels[position]?.map fun kind => labelName kind position

/-- The positions that have a name, ascending, with their names. -/
def named (labels : LabelMap) : List (Nat × String) :=
  labels.toList.map fun (position, kind) => (position, labelName kind position)

/-- Adds what an edge says about its target.  A call overrides a jump. -/
def addEdge (c : CodeMap) (labels : LabelMap) (e : Edge) : LabelMap :=
  match c.landing? e with
  | none => labels
  | some t =>
    match e.kind with
    | .call => labels.insert t .sub
    | .branch | .condBranch => labels.insertIfNew t .loc
    | .fallthrough => labels

def addEntry (labels : LabelMap) (entry : Nat) : LabelMap := labels.insertIfNew entry .entry

/-- The labels that edges and entries call for. -/
def ofEdges (c : CodeMap) (edges : List Edge) (entries : List Nat) : LabelMap :=
  entries.foldl addEntry (edges.foldl (addEdge c) ∅)

end LabelMap

end WordMachine.Flow
