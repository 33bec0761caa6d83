/-!
# Files

The files that a command can read, by path.  A path is walked piece by piece from the working
directory, or from the root if it starts with a slash, and the first piece that cannot be entered
decides what is wrong with it.

* `Path.pieces` are the pieces to walk, `Path.isSource` tells files of program text by their name;
* `Directory.enter` takes one step of a walk and `Directory.walk` all of them;
* `Directory.read` gives the bytes of the file at the end of a path.
-/

namespace TapeMachine

namespace Command

/-- Why a file could not be read. -/
inductive FileError
  | notFound
  | isDirectory
  | notDirectory
  /-- A name or a whole path is longer than the system takes. -/
  | nameTooLong
  /-- A text was expected, and the bytes are not UTF-8. -/
  | notText
  /-- Any other reason, in the words of the system. -/
  | other (text : String)
  deriving DecidableEq, Repr

/-- The wording of a reason. -/
def FileError.message : FileError → String
  | notFound => "No such file or directory (os error 2)"
  | isDirectory => "Is a directory (os error 21)"
  | notDirectory => "Not a directory (os error 20)"
  | nameTooLong => "File name too long (os error 36)"
  | notText => "stream did not contain valid UTF-8"
  | other text => text

namespace Path

/-- The pieces of a path between slashes. -/
def pieces : List Char → List (List Char)
  | [] => [[]]
  | c :: cs =>
    if c = '/' then [] :: pieces cs
    else
      match pieces cs with
      | piece :: rest => (c :: piece) :: rest
      | [] => [[c]]

/-- The names a path goes through.  Empty pieces and single dots lead nowhere. -/
def names (path : String) : List (List Char) :=
  (pieces path.toList).filter fun piece => piece ≠ [] ∧ piece ≠ ['.']

/-- The part of a name behind its last dot, unless that dot is its first character. -/
def extension? (name : List Char) : Option (List Char) :=
  let tail := name.reverse.takeWhile (· ≠ '.')
  if tail.length + 1 < name.length then some tail.reverse else none

/-- Whether a path names a file of program text: one with the extension `asm` in any case. -/
def isSource (path : String) : Bool :=
  match (names path).getLast? with
  | some name =>
    name ≠ ['.', '.'] && (extension? name).any fun e => e.map Char.toLower == "asm".toList
  | none => false

/-- The most bytes that a name has. -/
def longestName : Nat := 255

/-- The most bytes that a path has. -/
def longestPath : Nat := 4095

end Path

/-- A working directory and the files in it, by path. -/
structure Directory where
  files : List (String × Array UInt8) := []
  deriving DecidableEq, Repr

/-- Where a walk stands. -/
inductive Place
  /-- At or below the working directory, with the names that lead there, the last one first. -/
  | within (names : List (List Char))
  /-- In a directory around the working directory, of which no other entries are known. -/
  | around
  deriving DecidableEq, Repr

namespace Place

/-- Where the walk along a path starts. -/
def start (path : String) : Place :=
  if path.toList.head? = some '/' then .around else .within []

/-- The directory that holds a place.  The outermost one holds itself. -/
def parent : Place → Place
  | within (_ :: names) => .within names
  | within [] => .around
  | around => .around

end Place

namespace Directory

/-- The bytes of the file at a place, if there is a file. -/
def file? (d : Directory) : Place → Option (Array UInt8)
  | .within names =>
    (d.files.find? fun file => Path.names file.1 == names.reverse).map Prod.snd
  | .around => none

/-- Whether something is at a place: the working directory and those around it, a file, or a
directory on the way to one. -/
def holds (d : Directory) : Place → Bool
  | .within names =>
    names.isEmpty || d.files.any fun file => names.reverse.isPrefixOf (Path.names file.1)
  | .around => true

/-- Take one piece of a path.  Every piece, also an empty one or a dot, needs a directory to be
taken in, and a name is measured before it is looked up. -/
def enter (d : Directory) (place : Place) (piece : List Char) : Except FileError Place :=
  if (d.file? place).isSome then .error .notDirectory
  else if piece = [] ∨ piece = ['.'] then .ok place
  else if piece = ['.', '.'] then .ok place.parent
  else if Path.longestName < (String.ofList piece).utf8ByteSize then .error .nameTooLong
  else
    match place with
    | .around => .error .notFound
    | .within names =>
      if d.holds (.within (piece :: names)) then .ok (.within (piece :: names))
      else .error .notFound

/-- Walk along the pieces of a path. -/
def walk (d : Directory) (place : Place) : List (List Char) → Except FileError Place
  | [] => .ok place
  | piece :: rest => do d.walk (← d.enter place piece) rest

/-- The bytes of a file. -/
def read (d : Directory) (path : String) : Except FileError (Array UInt8) := do
  if path = "" then .error .notFound
  else if Path.longestPath < path.utf8ByteSize then .error .nameTooLong
  else
    match d.file? (← d.walk (Place.start path) (Path.pieces path.toList)) with
    | some bytes => .ok bytes
    | none => .error .isDirectory

end Directory

end Command

end TapeMachine
