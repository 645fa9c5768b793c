/-!
# Files

A program is read from a file that a path names.  All the emulator needs to know of a file system is
what reading a path gives, so `Files` is that function; a file that is read as text has to be valid
UTF-8.

`Directory` is a file system small enough to write down: the files and directories that lie below a
working directory.  `Directory.read` follows a path through it, name by name.  Empty names and `.`
stay where they are and `..` goes up, but only a directory can be left, and nothing is known of the
directories above except that they are there.

Names and paths are bounded in the bytes of their UTF-8 form, and no path holds a null character.
The whole path is judged first.  A name is judged when it is looked up, so that an obstacle earlier
on the path comes before a name that is too long.
-/

namespace LS8

/-- Why a file could not be read. -/
inductive FileError
  | notFound
  | isADirectory
  | notADirectory
  /-- The path, or a name on it, is too long. -/
  | nameTooLong
  /-- The path holds a null character. -/
  | nullInPath
  | invalidData
  /-- Some other obstacle, in the words of the operating system. -/
  | other (text : String)
  deriving DecidableEq, Repr

def FileError.message : FileError → String
  | .notFound => "No such file or directory (os error 2)"
  | .isADirectory => "Is a directory (os error 21)"
  | .notADirectory => "Not a directory (os error 20)"
  | .nameTooLong => "File name too long (os error 36)"
  | .nullInPath => "file name contained an unexpected NUL byte"
  | .invalidData => "stream did not contain valid UTF-8"
  | .other text => text

/-- What reading a path gives. -/
abbrev Files : Type := String → Except FileError ByteArray

/-- The file that a path names, as a text. -/
def Files.text (files : Files) (path : String) : Except FileError String :=
  match files path with
  | .error e => .error e
  | .ok contents =>
    match String.fromUTF8? contents with
    | some text => .ok text
    | none => .error .invalidData

/-! ## A working directory -/

/-- What a directory holds under a name. -/
inductive Entry
  | file (contents : ByteArray)
  | directory

/-- A working directory, with all that lies below it.  The place of an entry is the list of names
that leads to it, the last name of the path first. -/
structure Directory where
  /-- The entries by their places. -/
  entries : List (List String × Entry)

namespace Directory

/-- The names on a path: the stretches between the slashes. -/
def names (path : String) : List String :=
  (path.toList.splitOn '/').map String.ofList

/-- Whether a name stands for the directory that it is looked up in. -/
def isSelf (name : String) : Bool := name == "" || name == "."

/-- The working directory with the given entries, each under its path. -/
def ofList (entries : List (String × Entry)) : Directory :=
  ⟨entries.map fun (path, entry) => (((names path).filter (!isSelf ·)).reverse, entry)⟩

/-- The entry at a place.  Whatever has entries below it is a directory. -/
def entry? (d : Directory) (place : List String) : Option Entry :=
  match d.entries.lookup place with
  | some entry => some entry
  | none => if d.entries.any fun (below, _) => place.isSuffixOf below then some .directory else none

/-! ## Following a path -/

/-- The length of the longest name, in bytes. -/
def longestName : Nat := 255

/-- The length of the longest path, in bytes. -/
def longestPath : Nat := 4095

/-- Where a path has led to so far. -/
inductive Position
  /-- The working directory or a directory below it, by its place. -/
  | inside (place : List String)
  /-- A directory above the working directory. -/
  | above
  | file (contents : ByteArray)

/-- The directory that holds a directory. -/
def Position.parent : Position → Position
  | .inside (_ :: place) => .inside place
  | .inside [] => .above
  | .above => .above
  | .file contents => .file contents

/-- Where a name leads to. -/
def child (d : Directory) (name : String) : Position → Except FileError Position
  | .inside place =>
    match d.entry? (name :: place) with
    | some (.file contents) => .ok (.file contents)
    | some .directory => .ok (.inside (name :: place))
    | none => .error .notFound
  | .above => .error .notFound
  | .file _ => .error .notADirectory

/-- Follows one name of a path. -/
def follow (d : Directory) (name : String) : Position → Except FileError Position
  | .file _ => .error .notADirectory
  | position =>
    if isSelf name then .ok position
    else if name = ".." then .ok position.parent
    else if longestName < name.utf8ByteSize then .error .nameTooLong
    else d.child name position

/-- Reads the file that a path names.  A path that starts with a slash starts above the working
directory, and the empty path leads nowhere. -/
def read (d : Directory) : Files := fun path => do
  if path.toList.contains '\u0000' then throw .nullInPath
  if path = "" then throw .notFound
  if longestPath < path.utf8ByteSize then throw .nameTooLong
  let start : Position := if path.startsWith "/" then .above else .inside []
  match ← (names path).foldlM (fun position name => d.follow name position) start with
  | .file contents => return contents
  | _ => throw .isADirectory

end Directory

end LS8
