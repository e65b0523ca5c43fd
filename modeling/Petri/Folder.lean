import Petri.CommandLine

/-! A folder in memory, as a disk for the command line. -/

namespace Petri

structure Folder where
  files : List (List String × ByteArray) := []
  directories : List (List String) := [[]]
  home : List String := []

namespace Folder

open CommandLine

def file? (F : Folder) (place : List String) : Option ByteArray :=
  (F.files.find? fun file => file.1 = place).map Prod.snd

def longestName : Nat :=
  255

def longestPath : Nat :=
  4095

def enter (here : List String) (part : String) : List String :=
  if part = "" || part = "." then here
  else if part = ".." then here.dropLast
  else here ++ [part]

/-- Follows the parts of a path from `here`. What has a part after it has to be a directory. -/
def follow (F : Folder) (here : List String) : List String → Except FileFault (List String)
  | [] => .ok here
  | part :: rest =>
    if F.directories.contains here then
      if longestName < part.utf8ByteSize then .error .nameTooLong
      else F.follow (enter here part) rest
    else if (F.file? here).isSome then .error .notADirectory
    else .error .notFound

def locate (F : Folder) (path : String) : Except FileFault (List String) :=
  if path.isEmpty then .error .notFound
  else if longestPath < path.utf8ByteSize then .error .nameTooLong
  else F.follow (if path.toList.head? = some '/' then [] else F.home) (parts path)

def read (F : Folder) (path : String) : Except FileFault ByteArray := do
  let place ← F.locate path
  if F.directories.contains place then .error .isADirectory
  else
    match F.file? place with
    | some bytes => .ok bytes
    | none => .error .notFound

def write (F : Folder) (path : String) (bytes : ByteArray) : Except FileFault Folder := do
  let place ← F.locate path
  if F.directories.contains place then .error .isADirectory
  else .ok { F with files := (place, bytes) :: F.files.filter fun file => file.1 ≠ place }

def disk : Disk (StateM Folder) where
  read path := return (← get).read path
  write path content := do
    match (← get).write path content.toUTF8 with
    | .error fault => return .error fault
    | .ok F =>
      set F
      return .ok ()

def listing (F : Folder) (directory : List String) : List (String × ByteArray) :=
  F.files.filterMap fun file =>
    if file.1.dropLast = directory then file.1.getLast?.map (·, file.2) else none

end Folder

end Petri
