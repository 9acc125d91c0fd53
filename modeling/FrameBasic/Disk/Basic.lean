import FrameBasic.Disk.Path
import FrameBasic.Source.Library

/-!
# Disks

A disk holds files below one directory, the one that a command is given in.  A directory is there
when a file lies in it.  Paths keep their case, and only slashes separate their segments.

A path may lead out of the disk, to a directory above it or to the root.  Such a directory is there
and can be written to, but no file of it is known.

## Main definitions

* `Disk` — files by the segments of their paths.
* `DiskFault` — why a path cannot be read or written.
* `Place` — a directory of the disk, or one outside it.
* `Disk.walk` — the directory that segments lead to.
* `Disk.read`, `Disk.write` — read and write a file.
* `Disk.library` — the files that a program in a directory may include.
* `Disk.changesSince` — the files that are new or changed.
-/

namespace FrameBasic

/-- Files by the segments of their paths. -/
structure Disk where
  /-- The contents by path. -/
  files : List (List String × String)
deriving DecidableEq, Repr, Inhabited

/-- Why a path cannot be read or written. -/
inductive DiskFault where
  /-- Nothing is there. -/
  | notFound
  /-- A file stands where a directory is wanted. -/
  | notDirectory
  /-- A directory stands where a file is wanted. -/
  | isDirectory
  /-- A name or the whole path is too long. -/
  | tooLong
  /-- The path has a null character. -/
  | nullCharacter
deriving DecidableEq, Repr, Inhabited

/-- The wording of a fault. -/
def DiskFault.message : DiskFault → String
  | .notFound => "No such file or directory (os error 2)"
  | .notDirectory => "Not a directory (os error 20)"
  | .isDirectory => "Is a directory (os error 21)"
  | .tooLong => "File name too long (os error 36)"
  | .nullCharacter => "file name contained an unexpected NUL byte"

/-- A directory of the disk, or one outside it. -/
inductive Place where
  /-- The directory with the given segments. -/
  | inside (directory : List String)
  /-- A directory outside the disk. -/
  | outside
deriving DecidableEq, Repr, Inhabited

namespace Place

/-- The place that a path starts from. -/
def start (path : String) : Place :=
  if Path.isAbsolute path then .outside else .inside []

/-- The place above a place. -/
def parent : Place → Place
  | .inside [] | .outside => .outside
  | .inside directory => .inside directory.dropLast

end Place

namespace Disk

/-- The contents of a file. -/
def get? (disk : Disk) (path : List String) : Option String :=
  (disk.files.find? fun file => file.1 = path).map Prod.snd

/-- Whether a directory is there. -/
def isDirectory (disk : Disk) (path : List String) : Bool :=
  path = [] || disk.files.any fun file => path.isPrefixOf file.1 && path ≠ file.1

/-- The disk with contents stored in a file. -/
def insert (disk : Disk) (path : List String) (contents : String) : Disk :=
  ⟨disk.files.filter (fun file => file.1 ≠ path) ++ [(path, contents)]⟩

/-- The disk with the given files. -/
def ofFiles (files : List (String × String)) : Disk :=
  files.foldl
    (fun disk file => disk.insert ((Path.segments file.1).filter (!Path.isIdle ·)) file.2) ⟨[]⟩

/-- The place that segments lead to from a place. -/
def walk (disk : Disk) (place : Place) : List String → Except DiskFault Place
  | [] => .ok place
  | segment :: rest =>
    if Path.isIdle segment then disk.walk place rest
    else if segment = ".." then disk.walk place.parent rest
    else if Path.isLongName segment then .error .tooLong
    else
      match place with
      | .outside => .error .notFound
      | .inside directory =>
        let next := directory ++ [segment]
        if disk.isDirectory next then disk.walk (.inside next) rest
        else if (disk.get? next).isSome then .error .notDirectory
        else .error .notFound

/-- Refuses a path that cannot lead anywhere. -/
def checkPath (path : String) : Except DiskFault Unit :=
  if path.toList.contains '\x00' then .error .nullCharacter
  else if path = "" then .error .notFound
  else if Path.isLong path then .error .tooLong
  else .ok ()

/-- The contents of the file that a path leads to. -/
def read (disk : Disk) (path : String) : Except DiskFault String := do
  checkPath path
  let segments := Path.segments path
  let place ← disk.walk (.start path) segments.dropLast
  let name := segments.getLast?.getD ""
  if Path.isIdle name ∨ name = ".." then
    throw .isDirectory
  if Path.isLongName name then
    throw .tooLong
  match place with
  | .outside => throw .notFound
  | .inside directory =>
    match disk.get? (directory ++ [name]) with
    | some contents => return contents
    | none => throw (if disk.isDirectory (directory ++ [name]) then .isDirectory else .notFound)

/-- The disk with contents written to the file that a path leads to.  A file outside the disk is
written without a trace on it. -/
def write (disk : Disk) (path contents : String) : Except DiskFault Disk := do
  checkPath path
  let all := Path.segments path
  let named := (all.reverse.dropWhile (· == "")).reverse
  let place ← disk.walk (.start path) named.dropLast
  let name := named.getLast?.getD ""
  if named.length < all.length ∨ name = "." ∨ name = ".." then
    throw .isDirectory
  if Path.isLongName name then
    throw .tooLong
  match place with
  | .outside => return disk
  | .inside directory =>
    if disk.isDirectory (directory ++ [name]) then
      throw .isDirectory
    return disk.insert (directory ++ [name]) contents

/-- The files that a program in a directory may include. -/
def library (disk : Disk) (directory : String) : Library :=
  { read := fun path =>
      match disk.read (Path.join directory path) with
      | .ok contents => .ok contents
      | .error fault => .error fault.message
    texts := disk.files.map Prod.snd }

/-- The files that are new or changed since another state of the disk, with their paths. -/
def changesSince (disk before : Disk) : List (String × String) :=
  (disk.files.filter fun file => before.get? file.1 ≠ some file.2).map fun file =>
    (Path.ofSegments file.1, file.2)

end Disk

end FrameBasic
