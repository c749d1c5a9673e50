/-!
# Directories

A directory as a value: the files that are below it, each with the names on the way to it. A path is
followed name by name, from the directory itself or, where the path starts with a slash, from the
top of all directories. Of what lies around the directory nothing is known but that it consists of
directories, so that a path which leaves the directory finds no file.

`Directory.read` gives the contents of the file that a path leads to, or the first reason why there
are none.
-/
namespace Refactory

/-- Why a file cannot be read. -/
inductive ReadFailure where
  /-- Nothing has this name. -/
  | missing
  /-- Reading is not allowed. -/
  | denied
  /-- A name on the way is that of a file. -/
  | notDirectory
  /-- The path leads to a directory. -/
  | isDirectory
  /-- The path or a name in it is too long. -/
  | tooLong
  /-- The contents are no text. -/
  | notText
  /-- Anything else, in words. -/
  | other (reason : String)
deriving DecidableEq, Inhabited

/-- The text shown for the failure. -/
def ReadFailure.message : ReadFailure → String
  | missing => "No such file or directory (os error 2)"
  | denied => "Permission denied (os error 13)"
  | notDirectory => "Not a directory (os error 20)"
  | isDirectory => "Is a directory (os error 21)"
  | tooLong => "File name too long (os error 36)"
  | notText => "stream did not contain valid UTF-8"
  | other reason => reason

/-- A directory with the files below it. -/
structure Directory where
  /-- The files, each with the names on the way to it and its contents. -/
  files : List (List String × String)

/-- Where a path has led so far. -/
inductive Location where
  /-- Around the directory. -/
  | around
  /-- In the directory, by these names. -/
  | within (names : List String)
deriving DecidableEq, Inhabited

namespace Directory

/-- What separates the names of a path. -/
def separator : String := "/"

/-- The number of bytes of the longest name. -/
def longestName : Nat := 255

/-- The number of bytes of the longest path. -/
def longestPath : Nat := 4095

/-- The directory of files that are given with their paths. -/
def ofFiles (files : List (String × String)) : Directory :=
  ⟨files.map fun (path, contents) => (path.splitOn separator, contents)⟩

/-- The contents of the file at a location. -/
def contents? (directory : Directory) : Location → Option String
  | .around => none
  | .within names => directory.files.lookup names

/-- Whether there is a file or directory at the end of a way through names. -/
def holds (directory : Directory) (names : List String) : Bool :=
  directory.files.any fun file => names.isPrefixOf file.1

/-- Follows one name of a path. An empty name and a dot stay where they are, and two dots lead up;
even these can only be followed from a directory. -/
def follow (directory : Directory) (location : Location) (name : String) :
    Except ReadFailure Location :=
  if (directory.contents? location).isSome then .error .notDirectory
  else if longestName < name.utf8ByteSize then .error .tooLong
  else if name = "" || name = "." then .ok location
  else
    match location with
    | .around => if name = ".." then .ok .around else .error .missing
    | .within names =>
      if name = ".." then .ok (if names.isEmpty then .around else .within names.dropLast)
      else if directory.holds (names ++ [name]) then .ok (.within (names ++ [name]))
      else .error .missing

/-- Where the names of a path start from: a path that starts with a separator starts with an empty
name. -/
def start (names : List String) : Location := if names.head? = some "" then .around else .within []

/-- Where a path leads. The empty path leads nowhere. -/
def locate (directory : Directory) (path : String) : Except ReadFailure Location :=
  if path.isEmpty then .error .missing
  else if longestPath < path.utf8ByteSize then .error .tooLong
  else
    let names := path.splitOn separator
    names.foldlM directory.follow (start names)

/-- The contents of the file that a path leads to. -/
def read (directory : Directory) (path : String) : Except ReadFailure String := do
  match directory.contents? (← directory.locate path) with
  | some contents => return contents
  | none => throw .isDirectory

end Directory

end Refactory
