/-
  ProgramQuery.Command.Files

  Paths, and the ways in which a path leads to no text.

  A path is followed name by name from the working folder.  Empty names and `.`
  stay where they are and `..` goes up, but only from a folder that is there; so
  a path is not simplified before it is followed.  What becomes of a path is
  decided by the first name that leads nowhere.

  `FileSet` is a fixed set of files around which nothing is known: above the
  working folder, and below the root of all folders, there is nothing to read.
-/

import ProgramQuery.Text.Blank

namespace ProgramQuery

/-- Why a path leads to no text. -/
inductive FileFault where
  | missing
  | isFolder
  | notAFolder
  | nameTooLong
  | badName
  | forbidden
  | notText
  deriving DecidableEq, Repr

namespace FileFault

/-- The wording of a fault. -/
def message : FileFault → String
  | .missing => "No such file or directory (os error 2)"
  | .isFolder => "Is a directory (os error 21)"
  | .notAFolder => "Not a directory (os error 20)"
  | .nameTooLong => "File name too long (os error 36)"
  | .badName => "file name contained an unexpected NUL byte"
  | .forbidden => "Permission denied (os error 13)"
  | .notText => "stream did not contain valid UTF-8"

/-- There is something at the end of the path, although it cannot be read. -/
def isPresent : FileFault → Bool
  | .isFolder | .forbidden | .notText => true
  | .missing | .notAFolder | .nameTooLong | .badName => false

end FileFault

/-! ## Limits -/

/-- The greatest number of bytes of a name. -/
def nameLimit : Nat := 255

/-- The greatest number of bytes of a path. -/
def pathLimit : Nat := 4095

/-- The parts of a path between its slashes. -/
def pathParts (path : String) : List String :=
  (Text.pieces (· == '/') path.toList).map String.ofList

/-! ## Places -/

/-- A folder: the names on the way to it from the working folder or, below `/`,
    from the root of all folders. -/
abbrev Folder := List String

namespace Folder

/-- The root of all folders. -/
def root : Folder := ["/"]

/-- The folder that contains a folder.  The root is contained in itself, and
    above the working folder every step is a step further up. -/
def parent (folder : Folder) : Folder :=
  match folder.getLast? with
  | none | some ".." => folder ++ [".."]
  | some "/" => folder
  | some _ => folder.dropLast

end Folder

/-- A fixed set of files: the names on the way to each of them, and its text. -/
abbrev FileSet := List (List String × String)

namespace FileSet

/-- The set of the files with the given paths from the working folder. -/
def ofPaths (files : List (String × String)) : FileSet :=
  files.map fun (path, text) =>
    ((pathParts path).filter fun part => part != "" && part != ".", text)

/-- There is a folder: some file lies below it. -/
def hasFolder (files : FileSet) (folder : Folder) : Bool :=
  files.any fun (names, _) => folder.isPrefixOf names

/-- The text at the end of a path whose parts are followed from a folder on. -/
def follow (files : FileSet) : Folder → List String → Except FileFault String
  | _, [] => .error .isFolder
  | folder, part :: rest =>
    if part = "" ∨ part = "." then
      files.follow folder rest
    else if part = ".." then
      files.follow folder.parent rest
    else if nameLimit < part.utf8ByteSize then
      .error .nameTooLong
    else
      let place := folder ++ [part]
      match files.lookup place with
      | some text => if rest.isEmpty then .ok text else .error .notAFolder
      | none => if files.hasFolder place then files.follow place rest else .error .missing

/-- The text at the end of a path. -/
def contentOf (files : FileSet) (path : String) : Except FileFault String :=
  if path.isEmpty then
    .error .missing
  else if path.contains '\x00' then
    .error .badName
  else if pathLimit < path.utf8ByteSize then
    .error .nameTooLong
  else
    files.follow (if path.startsWith "/" then .root else []) (pathParts path)

end FileSet

end ProgramQuery
