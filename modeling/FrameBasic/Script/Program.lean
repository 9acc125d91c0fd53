import FrameBasic.Program.Binding
import FrameBasic.Script.Frame
import FrameBasic.Script.Stmt

/-!
# Scripts

A script holds the constants, variables, data, types and functions of a program and three routines:
one for the start, one for every frame and one for the end.

A constant whose value suspends cannot be computed while the script is loaded, and neither can one
that reads such a constant.  These constants are variables that the first routine assigns before
anything else.

## Main definitions

* `Script` — the parts of a script.
* `Script.postponed` — the constants that the first routine assigns.
* `Script.Plan` — what is known about a program before it is written down.
* `Script.ofPlan` — the script of a program.
* `Script.render` — the text of a script.
-/

namespace FrameBasic

namespace Script

/-- A constant in the script. -/
inductive ConstantCode where
  /-- Computed when the script is loaded. -/
  | fixed (name : String) (value : Fragment)
  /-- Assigned by the first routine. -/
  | later (name : String) (initial : Initial)
deriving Inhabited

/-- A user type in the script. -/
structure ClassCode where
  /-- The name in the script. -/
  name : String
  /-- The fields with their first values. -/
  fields : List (String × Initial)
deriving Inhabited

/-- A parameter in the script. -/
structure ParamCode where
  /-- The name in the script. -/
  name : String
  /-- The value of a missing argument. -/
  default : Option Fragment
deriving Inhabited

/-- A function in the script. -/
structure FunctionCode where
  /-- Whether calls are awaited. -/
  suspends : Bool
  /-- The folded name. -/
  name : String
  /-- The parameters. -/
  params : List ParamCode
  /-- The variables bound at the start. -/
  bindings : Dict Initial
  /-- The body. -/
  body : List Code
  /-- The result at the end of the body. -/
  result : Initial

end Script

open Script

/-- The parts of a script. -/
structure Script where
  /-- The constants. -/
  constants : List ConstantCode
  /-- The variables bound for the whole script. -/
  bindings : Dict Initial
  /-- The values of the data pool. -/
  data : List String
  /-- The user types. -/
  classes : List ClassCode
  /-- The functions. -/
  functions : List FunctionCode
  /-- What runs once at the start. -/
  init : List Code
  /-- What runs in every frame. -/
  update : List Code
  /-- What runs once at the end. -/
  shutdown : List Code

namespace Script

/-! ### What is known beforehand -/

/-- Whether the value of a constant cannot be computed while the script is loaded: it suspends, or
it reads one of the postponed names. -/
def mustWait (ctx : Context) (names : List String) (value : Expr) : Bool :=
  value.subterms.any fun e =>
    match e with
    | .command _ name _ => ctx.commandSuspends name
    | .call _ name _ => ctx.functionSuspends name
    | .var _ name _ => names.contains (identifier name)
    | _ => false

/-- The names of the postponed constants, when some are known already. -/
def postponedFrom (ctx : Context) (names : List String) : List Constant → List String
  | [] => names
  | c :: rest =>
    let name := identifier c.name
    let names :=
      if mustWait ctx names c.value ∧ ¬ names.contains name then names ++ [name] else names
    postponedFrom ctx names rest

/-- The names of the constants that the first routine assigns. -/
def postponed (ctx : Context) (constants : List Constant) : List String :=
  postponedFrom ctx [] constants

/-- What is known about a program before it is written down. -/
structure Plan where
  /-- The call graph. -/
  graph : CallGraph
  /-- The functions that suspend. -/
  suspending : Reach
  /-- The parts of the program. -/
  schedule : Schedule
  /-- The commands, the functions that suspend, and the data pool. -/
  context : Context
  /-- The names of the constants that the first routine assigns. -/
  postponed : List String
  /-- The names that every function sees as global. -/
  globals : List String

/-- What is known about a program, given the commands. -/
def Plan.ofProgram (commands : CommandTable) (p : Program) : Plan :=
  let graph := CallGraph.ofProgram p
  let suspending := graph.reach commands.suspendingNames
  let schedule := Schedule.ofProgram (graph.reach [framePrimitive]).marked p
  let context : Context := ⟨commands, suspending.marked, DataPool.ofProgram p⟩
  { graph, suspending, schedule, context
    postponed := Script.postponed context schedule.constants
    globals := globalNames p }

/-- Whether the first routine assigns a constant. -/
def Plan.isPostponed (plan : Plan) (c : Constant) : Bool :=
  plan.postponed.contains (identifier c.name)

/-! ### The parts of a script -/

/-- A constant in the script. -/
def constantCode (plan : Plan) (c : Constant) : ConstantCode :=
  let name := identifier c.name
  if plan.isPostponed c then .later name (.ofName c.name none)
  else .fixed name (exprCode plan.context c.value)

/-- A value of the data pool. -/
def dataCode : DataValue → String
  | .integer n => toString n
  | .float x => float x
  | .string s => quoted s

/-- A user type in the script. -/
def classCode? : Stmt → Option ClassCode
  | .type _ name fields =>
    some ⟨className name, fields.map fun f => (identifier f.name, .ofName f.name f.typeName)⟩
  | _ => none

/-- A parameter in the script. -/
def paramCode (ctx : Context) (p : Param) : ParamCode :=
  ⟨identifier p.name, p.default.map (exprCode ctx)⟩

/-- A function in the script. -/
def functionCode? (plan : Plan) : Stmt → Option FunctionCode
  | .function _ name returns params body =>
    let result := Initial.ofName name returns
    some
      { suspends := plan.context.functionSuspends name
        name := Name.fold name
        params := params.map (paramCode plan.context)
        bindings := localBindings (params.map fun p => identifier p.name) plan.globals body
        body := blockCode plan.context (.function result) none 0 body
        result }
  | _ => none

/-- The assignments of the postponed constants. -/
def postponedCode (plan : Plan) : List Code :=
  (plan.schedule.constants.filter plan.isPostponed).map fun c =>
    .line (assignCode [.name (identifier c.name)] (exprCode plan.context c.value))

/-- The routine for the start.  A program without a main loop ends after it. -/
def initCode (plan : Plan) : List Code :=
  postponedCode plan ++ blockCode plan.context .once none 0 plan.schedule.init ++
    if plan.schedule.mainLoop.isNone then [.line (.await :: plain "$shutdown();")] else []

/-- One round of the main loop. -/
def updateCode (plan : Plan) : List Code :=
  let ctx := plan.context
  match plan.schedule.mainLoop with
  | some (.while_ _ condition body) =>
    .line (plain "if (!(" ++ exprCode ctx condition ++ plain ")) " ++ stopCode) ::
      blockCode ctx .frame none 0 body
  | some (.repeat_ _ body condition) =>
    blockCode ctx .frame none 0 body ++
      condition.toList.map fun e =>
        .line (plain "if (" ++ exprCode ctx e ++ plain ") " ++ stopCode)
  | _ => []

/-- The routine for the end. -/
def shutdownCode (plan : Plan) : List Code :=
  blockCode plan.context .once none 0 plan.schedule.shutdown ++ [.line (plain "$rt.stop();")]

/-- The script of a program. -/
def ofPlan (plan : Plan) : Script :=
  { constants := plan.schedule.constants.map (constantCode plan)
    bindings := scriptBindings plan.schedule
    data := plan.context.pool.values.map dataCode
    classes := plan.schedule.types.filterMap classCode?
    functions := plan.schedule.functions.filterMap (functionCode? plan)
    init := initCode plan
    update := updateCode plan
    shutdown := shutdownCode plan }

/-- The script of a program, given the commands. -/
def ofProgram (commands : CommandTable) (p : Program) : Script :=
  ofPlan (Plan.ofProgram commands p)

/-! ### Its text -/

/-- The line of a constant. -/
def ConstantCode.render : ConstantCode → String
  | .fixed name value => "const " ++ name ++ " = " ++ Fragment.render value ++ ";\n"
  | .later name initial => "let " ++ name ++ " = " ++ initial.spelling ++ ";\n"

/-- The line of a variable. -/
def renderBinding (entry : String × Initial) : String :=
  "let " ++ entry.1 ++ " = " ++ entry.2.spelling ++ ";\n"

/-- Texts one after the other. -/
def concat (texts : List String) : String :=
  texts.foldl (· ++ ·) ""

/-- The texts of a paragraph, with an empty line after them if there are any. -/
def paragraph (texts : List String) : String :=
  if texts.isEmpty then "" else concat texts ++ "\n"

/-- The text of a user type. -/
def ClassCode.render (c : ClassCode) : String :=
  unlines
    (["class " ++ c.name ++ " \x7b", "    static $all = [];", "    constructor() \x7b"] ++
      (c.fields.map fun f => "        this." ++ f.1 ++ " = " ++ f.2.spelling ++ ";") ++
      ["        " ++ c.name ++ ".$all.push(this);", "    \x7d", "\x7d", ""])

/-- The text of a parameter. -/
def ParamCode.render (p : ParamCode) : String :=
  match p.default with
  | some value => p.name ++ " = " ++ Fragment.render value
  | none => p.name

/-- The text of a function. -/
def FunctionCode.render (f : FunctionCode) : String :=
  (if f.suspends then "async function " else "function ") ++ functionName f.name ++ "(" ++
    String.intercalate ", " (f.params.map ParamCode.render) ++ ") \x7b\n" ++
    concat (f.bindings.map fun b => indent 1 ++ renderBinding b) ++
    renderLines (codeLines 1 f.body) ++ indent 1 ++ "return " ++ f.result.spelling ++ ";\n\x7d\n\n"

/-- The text of a routine. -/
def renderRoutine (name : String) (body : List Code) : String :=
  "async function " ++ name ++ "() \x7b\n" ++ renderLines (codeLines 1 body) ++ "\x7d\n\n"

/-- The text of a script after its preamble. -/
def body (s : Script) : String :=
  paragraph (s.constants.map ConstantCode.render) ++ paragraph (s.bindings.map renderBinding) ++
    "const $data = [" ++ String.intercalate ", " s.data ++ "];\nlet $dataPtr = 0;\n\n" ++
    concat (s.classes.map ClassCode.render) ++ concat (s.functions.map FunctionCode.render) ++
    renderRoutine "$init" s.init ++ renderRoutine "$update" s.update ++
    renderRoutine "$shutdown" s.shutdown ++ handover

/-- The text of a script. -/
def render (s : Script) : String :=
  preamble ++ s.body

end Script

end FrameBasic
