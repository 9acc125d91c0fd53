import FrameBasic.Script.Fragment

/-!
# The frame of a script

Every script begins with the capabilities of the host and a few helpers, and ends by handing its
three routines to the host.

## Main definitions

* `Script.language`, `Script.extension` — the language of scripts and the extension of their files.
* `Script.capabilities`, `Script.helpers` — the lines at the start.
* `Script.preamble` — the text at the start.
* `Script.handover` — the line at the end.
-/

namespace FrameBasic.Script

/-- The language of the script. -/
def language : String := "JavaScript"

/-- The extension of the file that holds a script. -/
def extension : String := "js"

/-- The capabilities of the host. -/
def capabilities : List String :=
  [ "\"use strict\";",
    "const $rt = globalThis.BlitzRuntime;",
    "const $graphics = $rt.graphics;",
    "const $input = $rt.input;",
    "const $audio = $rt.audio;",
    "const $files = $rt.files;",
    "const $math = $rt.math;",
    "const $strings = $rt.strings;" ]

/-- The helpers for arrays, the data pool, the lists of objects and the end of a program. -/
def helpers : List String :=
  [ "const $HALT = Symbol(\"halt\");",
    "function $end() \x7b $rt.stop(); throw $HALT; \x7d",
    "function $guard(f) \x7b",
    "    return async () => \x7b",
    "        try \x7b await f(); \x7d catch (e) \x7b if (e !== $HALT) throw e; \x7d",
    "    \x7d;",
    "\x7d",
    "function $dim(sizes, init) \x7b",
    "    const [n, ...rest] = sizes;",
    "    return Array.from(\x7b length: n \x7d, () => (rest.length ? $dim(rest, init) : init));",
    "\x7d",
    "function $read() \x7b return $dataPtr < $data.length ? $data[$dataPtr++] : 0; \x7d",
    "function $delete(o) \x7b",
    "    if (!o) return;",
    "    const all = o.constructor.$all;",
    "    const i = all.indexOf(o);",
    "    if (i >= 0) all.splice(i, 1);",
    "\x7d",
    "function $deleteEach(T) \x7b T.$all.length = 0; \x7d",
    "function $first(T) \x7b return T.$all.length ? T.$all[0] : null; \x7d",
    "function $last(T) \x7b return T.$all.length ? T.$all[T.$all.length - 1] : null; \x7d",
    "function $after(o) \x7b",
    "    if (!o) return null;",
    "    const all = o.constructor.$all;",
    "    const i = all.indexOf(o);",
    "    return i >= 0 && i + 1 < all.length ? all[i + 1] : null;",
    "\x7d",
    "function $before(o) \x7b",
    "    if (!o) return null;",
    "    const all = o.constructor.$all;",
    "    const i = all.indexOf(o);",
    "    return i > 0 ? all[i - 1] : null;",
    "\x7d",
    "function $insert(o, anchor, after) \x7b",
    "    if (!o || !anchor || o === anchor) return;",
    "    const all = o.constructor.$all;",
    "    const i = all.indexOf(o);",
    "    if (i >= 0) all.splice(i, 1);",
    "    const j = all.indexOf(anchor);",
    "    if (j < 0) \x7b all.push(o); return; \x7d",
    "    all.splice(after ? j + 1 : j, 0, o);",
    "\x7d" ]

/-- Lines of text, each with its line feed. -/
def unlines (lines : List String) : String :=
  lines.foldl (fun out line => out ++ line ++ "\n") ""

/-- The text at the start of every script. -/
def preamble : String :=
  unlines capabilities ++ "\n" ++ unlines helpers ++ "\n"

/-- The line at the end of every script. -/
def handover : String :=
  "$rt.run(\x7b init: $guard($init), update: $guard($update), " ++
    "shutdown: $guard($shutdown) \x7d);\n"

end FrameBasic.Script
