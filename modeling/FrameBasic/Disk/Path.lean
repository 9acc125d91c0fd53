import FrameBasic.Text.Lines

/-!
# Paths

A path is a text with slashes between its segments.

## Main definitions

* `Path.segments` — the segments of a path.
* `Path.parent` — the directory that a path lies in.
* `Path.join` — a path taken from a directory.
* `Path.withExtension` — a path with another extension.
-/

namespace FrameBasic.Path

/-- The segments between the slashes of a path. -/
def segments (path : String) : List String :=
  (Text.split '/' path.toList).map String.ofList

/-- The path with given segments. -/
def ofSegments (segments : List String) : String :=
  String.intercalate "/" segments

/-- Whether a path starts at the root. -/
def isAbsolute (path : String) : Bool :=
  path.toList.head? = some '/'

/-- Whether a segment stays where it is. -/
def isIdle (segment : String) : Bool :=
  segment = "" || segment = "."

/-- Whether a segment is longer than the name of a file may be. -/
def isLongName (segment : String) : Bool :=
  segment.utf8ByteSize > 255

/-- Whether a path is longer than a path may be. -/
def isLong (path : String) : Bool :=
  path.utf8ByteSize > 4095

/-- The segments, last one first, without those at the end that stay where they are; the first one
is kept. -/
def dropIdle : List String → List String
  | [] => []
  | [first] => [first]
  | last :: before => if isIdle last then dropIdle before else last :: before

/-- The directory that a path lies in. -/
def parent (path : String) : String :=
  match (segments path).reverse.dropWhile isIdle with
  | [] => ""
  | _ :: before =>
    let directory := ofSegments (dropIdle before).reverse
    if directory = "" ∧ isAbsolute path then "/" else directory

/-- A path taken from a directory. -/
def join (directory path : String) : String :=
  if isAbsolute path then path
  else if directory = "" ∨ directory.toList.getLast? = some '/' then directory ++ path
  else directory ++ "/" ++ path

/-- A file name without what follows its last point, unless nothing stands before the point. -/
def stem (name : String) : String :=
  match (name.toList.reverse.dropWhile (· != '.')) with
  | [] => name
  | _ :: before => if before = [] then name else String.ofList before.reverse

/-- The path with another extension of its file name.  A path without a file name stays.  A name
that is `..` without its extension loses that extension only: no file name is left to extend. -/
def withExtension (path extension : String) : String :=
  match (segments path).reverse.dropWhile isIdle with
  | [] => path
  | name :: before =>
    if name = ".." then path
    else if stem name = "." then ofSegments (before.reverse ++ [".."])
    else ofSegments (before.reverse ++ [stem name ++ "." ++ extension])

end FrameBasic.Path
