/-
A working directory as data, and what reading a path below it gives.
-/

import CodeTree.Command.Basic

namespace CodeTree

/-- What stands at a path of a folder. -/
inductive FolderEntry where
  | directory
  | file (content : ByteArray)

/-- A folder: the entries at the paths below it. -/
structure Folder where
  entries : List (List String × FolderEntry)

namespace Folder

/-- What stands at a place. The folder itself is a directory, and so is every place on the way to an
entry. -/
def entry? (folder : Folder) (place : List String) : Option FolderEntry :=
  match Entries.lookup place folder.entries with
  | some entry => some entry
  | none => if folder.entries.any (fun entry => place.isPrefixOf entry.1) || place.isEmpty
    then some .directory else none

/-- The greatest number of bytes in one part of a path. -/
def partLimit : Nat := 255

/-- The greatest number of bytes in a whole path, plus one. -/
def pathLimit : Nat := 4096

def tooLong : FileContent := .unreadable "File name too long (os error 36)"

/-- Follows the parts of a path from a place. Only a directory can be gone through. -/
def follow (folder : Folder) : List String → List String → Except FileContent (List String)
  | place, [] => .ok place
  | place, part :: rest =>
    match folder.entry? place with
    | none => .error .missing
    | some (.file _) => .error (.unreadable "Not a directory (os error 20)")
    | some .directory =>
      if part = "" || part = "." then folder.follow place rest
      else if part = ".." then folder.follow place.dropLast rest
      else if partLimit < part.utf8ByteSize then .error tooLong
      else folder.follow (place ++ [part]) rest

/-- What reading a path gives. -/
def read (folder : Folder) (path : String) : FileContent :=
  if path = "" then .missing
  else if path.toList.contains '\x00' then
    .unreadable "file name contained an unexpected NUL byte"
  else if pathLimit ≤ path.utf8ByteSize then tooLong
  else match folder.follow [] (path.splitOn "/") with
    | .error content => content
    | .ok place =>
      match folder.entry? place with
      | none => .missing
      | some .directory => .unreadable "Is a directory (os error 21)"
      | some (.file content) => .bytes content

end Folder

end CodeTree
