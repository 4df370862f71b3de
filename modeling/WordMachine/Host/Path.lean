import WordMachine.Text.Split

/-!
# Paths

A path is a text whose parts stand between slashes.  Several slashes in a row count as one, so no
part is empty (`Path.ne_empty_of_mem_parts`).  A path that starts with a slash starts at the root,
and one that ends with a slash asks for a directory.

The part `.` stays where it is, and `..` goes to the directory above.  For that reason a path that
asks for a directory can be read as one that has a `.` in place of its last slash: there is no way
on from a file.
-/

namespace WordMachine

/-- A path, taken apart. -/
structure Path where
  /-- Whether the path starts at the root. -/
  isAbsolute : Bool := false
  /-- The parts between the slashes. -/
  parts : List String := []
  /-- Whether a slash stands at the end. -/
  endsInSlash : Bool := false
  deriving DecidableEq, Repr, Inhabited

namespace Path

/-- The part that stays where it is. -/
def here : String := "."

/-- The part that goes to the directory above. -/
def above : String := ".."

def parse (text : String) : Path :=
  { isAbsolute := text.toList.head? == some '/'
    parts := (Text.tokens (· == '/') text.toList).map String.ofList
    endsInSlash := text.toList.getLast? == some '/' }

/-- The parts to follow to what a path names and what has to exist already. -/
def stepsToExisting (p : Path) : List String :=
  if p.endsInSlash then p.parts ++ [here] else p.parts

/-- The parts to follow to the place at which a file is to be written.  That a path asks for a
directory is found out before its last part is looked at, whatever stands there. -/
def stepsToWrite (p : Path) : List String :=
  if p.endsInSlash then p.parts.dropLast ++ [here] else p.parts

/-- The last part of a path, if it is the name of something. -/
def fileName? (p : Path) : Option String :=
  (p.parts.filter (· != here)).getLast?.filter (· != above)

/-- The part of a file name after its last dot, unless only the first character is a dot. -/
def extension? (p : Path) : Option String :=
  p.fileName?.bind fun name =>
    let reversed := name.toList.reverse
    let extension := (reversed.takeWhile (· != '.')).reverse
    let stem := (reversed.dropWhile (· != '.')).drop 1
    if stem.isEmpty then none else some (String.ofList extension)

theorem ne_empty_of_mem_parts {text part : String} (h : part ∈ (parse text).parts) :
    part ≠ "" := by
  obtain ⟨piece, hpiece, rfl⟩ := List.mem_map.1 h
  have := (List.mem_filter.1 hpiece).2
  intro hempty
  simp_all

end Path

end WordMachine
