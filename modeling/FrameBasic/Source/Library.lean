import FrameBasic.Dict
import FrameBasic.Text.Letters

/-!
# Libraries of source files

A library holds the files that a program may include.  How the name in an `Include` line leads to a
file is part of the library: files in memory are found in any case and with either slash.

## Main definitions

* `Library` — what is found under a path: contents, or the reason why there are none.
* `foldPath` — a path in small letters and with slashes.
* `Library.memory` — a library of files in memory.
-/

namespace FrameBasic

/-- A path in small letters, with slashes for backslashes. -/
def foldPath (path : String) : String :=
  Text.lower (String.ofList (path.toList.map fun c => if c = '\\' then '/' else c))

/-- What is found under the paths of `Include` lines. -/
structure Library where
  /-- The contents of a file, or the reason why there are none. -/
  read : String → Except String String
  /-- All texts that can be read. -/
  texts : List String

namespace Library

/-- Files stored one after the other under their folded paths. -/
def store (files : List (String × String)) : Dict String :=
  files.foldl (fun stored file => Dict.insert (foldPath file.1) file.2 stored) []

/-- Files in memory.  A path that leads to none of them is its own reason. -/
def memory (files : List (String × String)) : Library :=
  let stored := store files
  { read := fun path =>
      match Dict.get? (foldPath path) stored with
      | some contents => .ok contents
      | none => .error path
    texts := stored.map Prod.snd }

end Library

end FrameBasic
