import WordMachine.Host.File
import WordMachine.Host.Path

/-!
# A directory of files

A model of the files that a program can reach: a directory with files in it and in its
subdirectories.  The directories above it and the root exist, and nothing else is in them.  A path
is followed part by part, and it ends at a directory, at a file, or at a name that does not exist
yet.
-/

namespace WordMachine

/-- Why a file cannot be used. -/
inductive FileError
  | notFound | notDirectory | isDirectory | nameTooLong
  /-- Any other reason, as the system states it. -/
  | other (reason : String)
  deriving DecidableEq, Repr

def FileError.message : FileError → String
  | .notFound => "No such file or directory (os error 2)"
  | .notDirectory => "Not a directory (os error 20)"
  | .isDirectory => "Is a directory (os error 21)"
  | .nameTooLong => "File name too long (os error 36)"
  | .other reason => reason

/-- The files of a directory.  A file is named by the parts of the path that leads to it from the
directory, or from the root, which then stands as the first part. -/
structure Directory where
  files : List (List String × FileContents) := []
  deriving Inhabited

/-- Where a path leads. -/
inductive Place
  | directory
  | file (name : List String) (contents : FileContents)
  /-- A name that does not exist in a directory that does. -/
  | absent (name : List String)

namespace Directory

/-- The longest name of a file, in bytes. -/
def longestName : Nat := 255

/-- The longest path, in bytes. -/
def longestPath : Nat := 4095

/-- The size that a directory itself is said to have. -/
def ownSize : Nat := 4096

/-- The first part of the names of what lies below the root. -/
def root : String := "/"

/-- The directory with a file replaced or added. -/
def put (d : Directory) (name : List String) (f : FileContents) : Directory :=
  { files := (name, f) :: d.files.filter fun g => g.1 != name }

/-- Whether a name is that of the directory itself, of one above it or of the root. -/
def isAncestor (name : List String) : Bool :=
  name.all fun part => part == Path.above || part == root

/-- The name of the directory above; the root is above itself. -/
def parent (name : List String) : List String :=
  if name.getLast? = some root then name
  else if isAncestor name then name ++ [Path.above]
  else name.dropLast

def nodeAt (d : Directory) (name : List String) : Place :=
  match d.files.lookup name with
  | some f => .file name f
  | none =>
    if isAncestor name || d.files.any (fun g => name.isPrefixOf g.1) then .directory
    else .absent name

/-- Follows the parts of a path from the place with the given name on. -/
def follow (d : Directory) (name : List String) : List String → Except FileError Place
  | [] => .ok (d.nodeAt name)
  | part :: rest =>
    match d.nodeAt name with
    | .file _ _ => .error .notDirectory
    | .absent _ => .error .notFound
    | .directory =>
      if part = Path.here then d.follow name rest
      else if part = Path.above then d.follow (parent name) rest
      else if longestName < part.utf8ByteSize then .error .nameTooLong
      else d.follow (name ++ [part]) rest

/-- Where a path leads; `steps` says which of its parts are to be followed. -/
def locate (d : Directory) (steps : Path → List String) (path : String) :
    Except FileError Place :=
  if path.isEmpty then .error .notFound
  else if longestPath < path.utf8ByteSize then .error .nameTooLong
  else
    let p := Path.parse path
    d.follow (if p.isAbsolute then [root] else []) (steps p)

def find (d : Directory) (path : String) : Except FileError FileContents :=
  match d.locate Path.stepsToExisting path with
  | .error e => .error e
  | .ok .directory => .error .isDirectory
  | .ok (.file _ f) => .ok f
  | .ok (.absent _) => .error .notFound

/-- Changes the file that a path leads to, which is created empty if it does not exist. -/
def update (d : Directory) (path : String) (change : FileContents → FileContents) :
    Except FileError Directory :=
  match d.locate Path.stepsToWrite path with
  | .error e => .error e
  | .ok .directory => .error .isDirectory
  | .ok (.file name f) => .ok (d.put name (change f))
  | .ok (.absent name) => .ok (d.put name (change {}))

/-- The size of the file or the directory that a path leads to; 0 if there is nothing. -/
def sizeOf (d : Directory) (path : String) : Except FileError Nat :=
  match d.locate Path.stepsToExisting path with
  | .error .notFound => .ok 0
  | .error e => .error e
  | .ok .directory => .ok ownSize
  | .ok (.file _ f) => .ok f.size
  | .ok (.absent _) => .ok 0

end Directory

end WordMachine
