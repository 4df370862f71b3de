import WordMachine.Json.Reader
import WordMachine.Machine.Basic

/-!
# Settings files

The settings of a machine are kept as JSON: an object, or an array of the values in a fixed order.
A setting that is left out has its standard value.  Members with other names do not count, but a
setting must not stand twice.
-/

namespace WordMachine.CommandLine

/-- A 64-bit count. -/
def count? : Json → Option Nat
  | .integer i => if 0 ≤ i ∧ i < 0x10000000000000000 then some i.toNat else none
  | _ => none

/-- A 64-bit count that may be left open. -/
def openCount? : Json → Option (Option Nat)
  | .null => some none
  | x => (count? x).map some

/-- The settings. -/
inductive Setting
  | memorySize | stackCapacity | dumpBytes | maxSteps
  deriving DecidableEq, Repr

/-- The settings in the order in which an array states them. -/
def Setting.all : List Setting := [memorySize, stackCapacity, dumpBytes, maxSteps]

def Setting.name : Setting → String
  | .memorySize => "memory_size"
  | .stackCapacity => "stack_capacity"
  | .dumpBytes => "dump_bytes"
  | .maxSteps => "max_steps"

def Setting.ofName? (name : String) : Option Setting := all.find? fun s => s.name == name

def Setting.assign? (s : Setting) (c : Config) (x : Json) : Option Config :=
  match s with
  | .memorySize => (count? x).map fun n => { c with memorySize := n }
  | .stackCapacity => (count? x).map fun n => { c with stackCapacity := n }
  | .dumpBytes => (count? x).map fun n => { c with dumpBytes := n }
  | .maxSteps => (openCount? x).map fun n => { c with maxSteps := n }

/-- Applies the members of an object, of which those in `seen` stood before. -/
def applyMembers? (c : Config) (seen : List Setting) : List (String × Json) → Option Config
  | [] => some c
  | (name, x) :: rest =>
    match Setting.ofName? name with
    | none => applyMembers? c seen rest
    | some s =>
      if seen.contains s then none
      else (s.assign? c x).bind fun c => applyMembers? c (s :: seen) rest

/-- Applies the items of an array to settings in order. -/
def applyItems? (c : Config) : List Setting → List Json → Option Config
  | _, [] => some c
  | [], _ :: _ => none
  | s :: settings, x :: rest => (s.assign? c x).bind fun c => applyItems? c settings rest

def configOfJson? : Json → Option Config
  | .object members => applyMembers? {} [] members
  | .array items => applyItems? {} Setting.all items
  | _ => none

def parseConfig? (text : String) : Option Config := (Json.parse? text).bind configOfJson?

end WordMachine.CommandLine
