import FrameBasic.Command.Table

/-!
# The standard commands

Targets name a capability of the host (`graphics`, `input`, `audio`, `files`, `math`, `strings`) or
its root (`rt`) for timing and program control.  Images, sounds, files and timers are handles of the
host, and their type is unknown.

## Main definitions

* `CommandTable.standard` — the table of all standard commands.
-/

namespace FrameBasic

namespace Descriptor

/-- The call of a host method. -/
def call (target : String) (params : List ValueType) : Descriptor :=
  { category := .call, target, params }

/-- The call of a host method that gives a result. -/
def compute (target : String) (params : List ValueType) (returns : ValueType) : Descriptor :=
  { category := .call, target, params, returns }

/-- A template. -/
def inline (target : String) (params : List ValueType) (returns : ValueType) : Descriptor :=
  { category := .inline, target, params, returns }

/-- The reading of a host property. -/
def property (target : String) (returns : ValueType) : Descriptor :=
  { category := .property, target, returns }

/-- The command with its arguments adjusted. -/
def adjust (transforms : List Transform) (d : Descriptor) : Descriptor :=
  { d with transforms }

/-- The command, whose call must be awaited. -/
def await (d : Descriptor) : Descriptor :=
  { d with suspends := true }

end Descriptor

namespace CommandTable

/-- Numeric parameters. -/
def numbers (count : Nat) : List ValueType :=
  List.replicate count .number

/-- Drawing, text and the frame. -/
def graphicsCommands : List (String × Descriptor) :=
  [ ("graphics", .call "graphics.setMode" (numbers 4)),
    ("endgraphics", .call "graphics.endGraphics" []),
    ("cls", .call "graphics.cls" []),
    ("clscolor", .call "graphics.clsColor" (numbers 3)),
    ("color", .call "graphics.color" (numbers 3)),
    ("flip", .await (.adjust [.default 0 "1", .flag 0] (.call "graphics.flip" [.number]))),
    ("setbuffer", .call "graphics.setBuffer" [.unknown]),
    ("backbuffer", .call "graphics.backBuffer" []),
    ("frontbuffer", .call "graphics.frontBuffer" []),
    ("plot", .call "graphics.plot" (numbers 2)),
    ("line", .call "graphics.line" (numbers 4)),
    ("rect", .adjust [.default 4 "1", .flag 4] (.call "graphics.rect" (numbers 5))),
    ("oval", .adjust [.default 4 "1", .flag 4] (.call "graphics.oval" (numbers 5))),
    ("text", .adjust [.default 3 "0", .default 4 "0", .flag 3, .flag 4]
      (.call "graphics.text" [.number, .number, .unknown, .number, .number])),
    ("print", .call "graphics.print" [.unknown]),
    ("write", .call "graphics.write" [.unknown]),
    ("locate", .call "graphics.locate" (numbers 2)),
    ("origin", .call "graphics.origin" (numbers 2)),
    ("viewport", .call "graphics.viewport" (numbers 4)),
    ("graphicswidth", .property "graphics.width" .number),
    ("graphicsheight", .property "graphics.height" .number),
    ("colorred", .compute "graphics.colorRed" [] .number),
    ("colorgreen", .compute "graphics.colorGreen" [] .number),
    ("colorblue", .compute "graphics.colorBlue" [] .number),
    ("lockbuffer", { category := .unsupported }),
    ("unlockbuffer", { category := .unsupported }) ]

/-- Images and collisions. -/
def imageCommands : List (String × Descriptor) :=
  [ ("loadimage", .await (.call "graphics.loadImage" [.string])),
    ("loadanimimage", .await (.call "graphics.loadAnimImage" (.string :: numbers 4))),
    ("createimage", .call "graphics.createImage" (numbers 3)),
    ("freeimage", .call "graphics.freeImage" [.unknown]),
    ("drawimage", .adjust [.default 3 "0"] (.call "graphics.drawImage" (.unknown :: numbers 3))),
    ("drawblock", .adjust [.default 3 "0"] (.call "graphics.drawBlock" (.unknown :: numbers 3))),
    ("tileimage", .adjust [.default 1 "0", .default 2 "0", .default 3 "0"]
      (.call "graphics.tileImage" (.unknown :: numbers 3))),
    ("maskimage", .call "graphics.maskImage" (.unknown :: numbers 3)),
    ("midhandle", .call "graphics.midHandle" [.unknown]),
    ("handleimage", .call "graphics.handleImage" [.unknown, .number, .number]),
    ("automidhandle", .adjust [.flag 0] (.call "graphics.autoMidHandle" [.number])),
    ("imagewidth", .compute "graphics.imageWidth" [.unknown] .number),
    ("imageheight", .compute "graphics.imageHeight" [.unknown] .number),
    ("imagescollide", .compute "graphics.imagesCollide"
      (.unknown :: numbers 3 ++ .unknown :: numbers 3) .boolean),
    ("rectsoverlap", .compute "graphics.rectsOverlap" (numbers 8) .boolean) ]

/-- Fonts. -/
def fontCommands : List (String × Descriptor) :=
  [ ("loadfont", .await (.call "graphics.loadFont" (.string :: numbers 4))),
    ("setfont", .call "graphics.setFont" [.unknown]),
    ("stringwidth", .compute "graphics.stringWidth" [.string] .number),
    ("stringheight", .compute "graphics.stringHeight" [.string] .number) ]

/-- Keyboard and mouse. -/
def inputCommands : List (String × Descriptor) :=
  [ ("keydown", .adjust [.code 0 .keyboard] (.compute "input.keyDown" [.number] .boolean)),
    ("keyhit", .adjust [.code 0 .keyboard] (.compute "input.keyHit" [.number] .number)),
    ("getkey", .compute "input.getKey" [] .number),
    ("waitkey", .await (.compute "input.waitKey" [] .number)),
    ("flushkeys", .call "input.flushKeys" []),
    ("mousex", .property "input.mouseX" .number),
    ("mousey", .property "input.mouseY" .number),
    ("mousez", .property "input.mouseZ" .number),
    ("mousedown", .adjust [.code 0 .mouse] (.compute "input.mouseDown" [.number] .boolean)),
    ("mousehit", .adjust [.code 0 .mouse] (.compute "input.mouseHit" [.number] .number)),
    ("waitmouse", .await (.compute "input.waitMouse" [] .number)),
    ("flushmouse", .call "input.flushMouse" []),
    ("movemouse", .call "input.moveMouse" (numbers 2)),
    ("hidepointer", .call "input.hidePointer" []),
    ("showpointer", .call "input.showPointer" []),
    ("input", .await (.adjust [.default 0 "\"\""] (.compute "input.readLine" [.string] .string))) ]

/-- Sounds and music. -/
def audioCommands : List (String × Descriptor) :=
  [ ("loadsound", .await (.call "audio.loadSound" [.string])),
    ("playsound", .call "audio.playSound" [.unknown]),
    ("playmusic", .call "audio.playMusic" [.string]),
    ("stopchannel", .call "audio.stopChannel" [.unknown]),
    ("pausechannel", .call "audio.pauseChannel" [.unknown]),
    ("resumechannel", .call "audio.resumeChannel" [.unknown]),
    ("channelplaying", .compute "audio.channelPlaying" [.unknown] .boolean),
    ("channelvolume", .call "audio.channelVolume" [.unknown, .number]),
    ("soundvolume", .call "audio.soundVolume" [.unknown, .number]),
    ("loopsound", .call "audio.loopSound" [.unknown]),
    ("freesound", .call "audio.freeSound" [.unknown]) ]

/-- Files. -/
def fileCommands : List (String × Descriptor) :=
  [ ("readfile", .await (.call "files.readFile" [.string])),
    ("openfile", .await (.call "files.openFile" [.string])),
    ("writefile", .call "files.writeFile" [.string]),
    ("closefile", .call "files.closeFile" [.unknown]),
    ("readline", .compute "files.readLine" [.unknown] .string),
    ("readint", .compute "files.readInt" [.unknown] .number),
    ("readfloat", .compute "files.readFloat" [.unknown] .number),
    ("readstring", .compute "files.readString" [.unknown] .string),
    ("writeline", .call "files.writeLine" [.unknown, .string]),
    ("writeint", .call "files.writeInt" [.unknown, .number]),
    ("writefloat", .call "files.writeFloat" [.unknown, .number]),
    ("writestring", .call "files.writeString" [.unknown, .string]),
    ("eof", .compute "files.eof" [.unknown] .boolean),
    ("filetype", .compute "files.fileType" [.string] .number) ]

/-- Numbers; angles are in degrees. -/
def mathCommands : List (String × Descriptor) :=
  [ ("abs", .inline "Math.abs(\x7b0\x7d)" [.number] .number),
    ("sgn", .inline "Math.sign(\x7b0\x7d)" [.number] .number),
    ("sqr", .inline "Math.sqrt(\x7b0\x7d)" [.number] .number),
    ("floor", .inline "Math.floor(\x7b0\x7d)" [.number] .number),
    ("ceil", .inline "Math.ceil(\x7b0\x7d)" [.number] .number),
    ("int", .inline "Math.round(\x7b0\x7d)" [.unknown] .number),
    ("float", .inline "Number(\x7b0\x7d)" [.unknown] .number),
    ("exp", .inline "Math.exp(\x7b0\x7d)" [.number] .number),
    ("log", .inline "Math.log(\x7b0\x7d)" [.number] .number),
    ("log10", .inline "Math.log10(\x7b0\x7d)" [.number] .number),
    ("pi", .property "math.pi" .number),
    ("sin", .compute "math.sin" [.number] .number),
    ("cos", .compute "math.cos" [.number] .number),
    ("tan", .compute "math.tan" [.number] .number),
    ("asin", .compute "math.asin" [.number] .number),
    ("acos", .compute "math.acos" [.number] .number),
    ("atan", .compute "math.atan" [.number] .number),
    ("atan2", .compute "math.atan2" (numbers 2) .number),
    ("rnd", .compute "math.rnd" (numbers 2) .number),
    ("rand", .compute "math.rand" (numbers 2) .number),
    ("seedrnd", .call "math.seed" [.number]) ]

/-- Texts. -/
def stringCommands : List (String × Descriptor) :=
  [ ("str", .inline "String(\x7b0\x7d)" [.unknown] .string),
    ("len", .inline "String(\x7b0\x7d).length" [.string] .number),
    ("upper", .inline "String(\x7b0\x7d).toUpperCase()" [.string] .string),
    ("lower", .inline "String(\x7b0\x7d).toLowerCase()" [.string] .string),
    ("trim", .inline "String(\x7b0\x7d).trim()" [.string] .string),
    ("chr", .inline "String.fromCharCode(\x7b0\x7d)" [.number] .string),
    ("string", .inline "String(\x7b0\x7d).repeat(\x7b1\x7d)" [.unknown, .number] .string),
    ("left", .compute "strings.left" [.string, .number] .string),
    ("right", .compute "strings.right" [.string, .number] .string),
    ("mid", .adjust [.default 2 "-1"] (.compute "strings.mid" [.string, .number, .number] .string)),
    ("instr", .adjust [.default 2 "1"]
      (.compute "strings.instr" [.string, .string, .number] .number)),
    ("replace", .compute "strings.replace" [.string, .string, .string] .string),
    ("asc", .compute "strings.asc" [.string] .number),
    ("hex", .compute "strings.hex" [.number] .string),
    ("bin", .compute "strings.bin" [.number] .string),
    ("lset", .compute "strings.lset" [.string, .number] .string),
    ("rset", .compute "strings.rset" [.string, .number] .string) ]

/-- Clocks and timers. -/
def timingCommands : List (String × Descriptor) :=
  [ ("millisecs", .compute "rt.millisecs" [] .number),
    ("delay", .await (.call "rt.delay" [.number])),
    ("createtimer", .call "rt.createTimer" [.number]),
    ("waittimer", .await (.compute "rt.waitTimer" [.unknown] .number)),
    ("freetimer", .call "rt.freeTimer" [.unknown]),
    ("currentdate", .compute "rt.currentDate" [] .string),
    ("currenttime", .compute "rt.currentTime" [] .string) ]

/-- The program itself. -/
def programCommands : List (String × Descriptor) :=
  [ ("apptitle", .call "rt.setTitle" [.string, .string]),
    ("runtimeerror", .call "rt.error" [.string]),
    ("debuglog", .inline "console.log(\x7b0\x7d)" [.unknown] .unknown),
    ("stop", { category := .unsupported }) ]

/-- The table of all standard commands. -/
def standard : CommandTable :=
  ofList
    (graphicsCommands ++ imageCommands ++ fontCommands ++ inputCommands ++ audioCommands ++
      fileCommands ++ mathCommands ++ stringCommands ++ timingCommands ++ programCommands)

end CommandTable

end FrameBasic
