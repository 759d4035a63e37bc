import ComboTree.Host.Basic

/-!
# Hosts with known files

A `Disk` is a set of files with their contents, and `Disk.entry` says what a file name leads to on
it, with the reasons that a file system gives.  A name is walked from the top or from the working
directory, one component at a time; `.` stays and `..` goes back up.
-/

namespace ComboTree

/-- The components of a place in the file system, from the top. -/
abbrev Place := List String

/-- Files and directories, and the directory in which relative names start. -/
structure Disk where
  files : List (Place × String)
  directories : List Place := []
  workingDirectory : Place := []
deriving Repr, Inhabited

namespace Disk

/-- The place that an absolute file name names. -/
def placeOf (path : String) : Place :=
  (Text.pieces '/' path).filter (· ≠ "")

/-- Whether a place is a directory: one that is listed, or one on the way to something listed. -/
def isDirectory (disk : Disk) (place : Place) : Bool :=
  let listed := disk.directories ++ [disk.workingDirectory] ++ disk.files.map (·.1.dropLast)
  listed.any place.isPrefixOf

/-- What is found by walking from the directory `here`. -/
def walk (disk : Disk) (here : Place) : List String → FileEntry
  | [] => .unreadable "Is a directory (os error 21)"
  | name :: rest =>
    if name = "" ∨ name = "." then disk.walk here rest
    else if name = ".." then disk.walk here.dropLast rest
    else if 255 < name.utf8ByteSize then .absent "File name too long (os error 36)"
    else
      let next := here ++ [name]
      match disk.files.lookup next with
      | some text =>
        if rest = [] then .contents text else .absent "Not a directory (os error 20)"
      | none =>
        if disk.isDirectory next then disk.walk next rest
        else .absent "No such file or directory (os error 2)"

/-- What a file name leads to. -/
def entry (disk : Disk) (path : String) : FileEntry :=
  if '\x00' ∈ path.toList then .absent "file name contained an unexpected NUL byte"
  else if path = "" then .absent "No such file or directory (os error 2)"
  else if 4096 ≤ path.utf8ByteSize then .absent "File name too long (os error 36)"
  else
    let start := if Host.isAbsolute path then [] else disk.workingDirectory
    disk.walk start (Text.pieces '/' path)

/-- A host with these files. -/
def host (disk : Disk) (environment : List (String × String)) : Host :=
  { environment, file := disk.entry }

end Disk

end ComboTree
