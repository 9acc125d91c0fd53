import FrameBasic.Proofs.Program.Binding
import FrameBasic.Proofs.Program.Reach
import FrameBasic.Proofs.Script.Pieces

/-!
# What is awaited in a script

The analysis that finds the functions that suspend and the writing of the script are two walks over
the same program.  They agree: a word that waits stands in a function only if the analysis found
that the function suspends, and a call is awaited exactly if the called function suspends.

## Main definitions

* `Script.linePieces`, `Script.pieces` — all pieces of a routine and of a script.
* `Script.Piece.AwaitsAs` — a call is awaited exactly if its function is among some names.

## Main results

* `Script.mem_suspending_of_waits` — a function whose body waits was found to suspend.
* `Script.pieces_all` — what holds of the pieces of expressions and statements holds of the script.
* `Script.awaits_exactly_what_suspends` — **the two walks agree**.
-/

namespace FrameBasic.Script

open Fragment

/-! ### The pieces of a script -/

/-- The pieces of the lines of trees. -/
def linePieces (codes : List Code) : List Piece :=
  (codeLines 1 codes).flatMap Prod.snd

/-- The pieces of a constant. -/
def ConstantCode.pieces : ConstantCode → List Piece
  | .fixed _ value => value
  | .later .. => []

/-- The pieces of a function: of the values of missing arguments, and of the body. -/
def FunctionCode.pieces (f : FunctionCode) : List Piece :=
  (f.params.flatMap fun p => p.default.getD []) ++ linePieces f.body

/-- The pieces of a script. -/
def pieces (script : Script) : List Piece :=
  script.constants.flatMap ConstantCode.pieces ++ script.functions.flatMap FunctionCode.pieces ++
    linePieces script.init ++ linePieces script.update ++ linePieces script.shutdown

variable {P : Piece → Prop}

theorem CodeAll.linePieces {codes : List Code} (h : CodeAll P codes) :
    ∀ piece ∈ linePieces codes, P piece := by
  intro piece hpiece
  obtain ⟨line, hline, hmem⟩ := List.mem_flatMap.mp hpiece
  exact h.lines hline piece hmem

section Plan

variable {plan : Plan}

/-- What the code of a function is made from. -/
theorem functionCode?_eq_some {s : Stmt} {f : FunctionCode} (h : functionCode? plan s = some f) :
    ∃ span name returns params body, s = .function span name returns params body ∧
      f.suspends = plan.context.functionSuspends name ∧ f.name = Name.fold name ∧
      f.params = params.map (paramCode plan.context) ∧
      f.body = blockCode plan.context (.function (.ofName name returns)) none 0 body := by
  unfold functionCode? at h
  split at h
  · cases h
    exact ⟨_, _, _, _, _, rfl, rfl, rfl, rfl, rfl⟩
  · cases h

variable (h : ∀ calls names, Admits plan.context calls names P) (hawait : P .await)
include h

theorem constantCode_all (c : Constant) : ∀ piece ∈ (constantCode plan c).pieces, P piece := by
  unfold constantCode
  split
  · exact all_nil
  · exact exprCode_all (h _ _)

theorem postponedCode_all : CodeAll P (postponedCode plan) := by
  intro code hcode
  obtain ⟨c, _, rfl⟩ := List.mem_map.mp hcode
  have hname : P (.name (identifier c.name)) := (h [] [identifier c.name]).name _ List.mem_cons_self
  simp [assignCode, hname, (h [] []).text, exprCode_all (h _ _)]

include hawait

theorem functionCode_all {s : Stmt} {f : FunctionCode} (hf : functionCode? plan s = some f) :
    ∀ piece ∈ f.pieces, P piece := by
  obtain ⟨span, name, returns, params, body, -, -, -, hparams, hbody⟩ := functionCode?_eq_some hf
  intro piece hpiece
  rcases List.mem_append.mp hpiece with hpiece | hpiece
  · rw [hparams] at hpiece
    obtain ⟨param, hparam, hmem⟩ := List.mem_flatMap.mp hpiece
    obtain ⟨p, _, rfl⟩ := List.mem_map.mp hparam
    unfold paramCode at hmem
    cases hp : p.default with
    | none =>
      rw [hp] at hmem
      exact absurd hmem List.not_mem_nil
    | some e =>
      rw [hp] at hmem
      exact exprCode_all (h _ _) piece hmem
  · rw [hbody] at hpiece
    exact (blockCode_all (h _ _) (fun _ => hawait) none 0).linePieces piece hpiece

theorem initCode_all : CodeAll P (initCode plan) := by
  have hinit : CodeAll P (blockCode plan.context .once none 0 plan.schedule.init) :=
    blockCode_all (h _ _) (fun _ => hawait) none 0
  refine codeAll_append.mpr ⟨codeAll_append.mpr ⟨postponedCode_all h, hinit⟩, ?_⟩
  split
  · simp [(h [] []).text, hawait]
  · exact codeAll_nil

theorem updateCode_all : CodeAll P (updateCode plan) := by
  have hstop : All P stopCode := by simp [stopCode, (h [] []).text, hawait]
  have hbody : ∀ body, CodeAll P (blockCode plan.context .frame none 0 body) :=
    fun body => blockCode_all (h _ _) (fun _ => hawait) none 0
  unfold updateCode
  extract_lets ctx
  split
  · next condition body _ =>
    have hcondition : All P (exprCode plan.context condition) := exprCode_all (h _ _)
    simp [(h [] []).text, hcondition, hstop, hbody, ctx]
  · next body condition _ =>
    refine codeAll_append.mpr ⟨hbody body, fun code hcode => ?_⟩
    obtain ⟨e, _, rfl⟩ := List.mem_map.mp hcode
    have he : All P (exprCode plan.context e) := exprCode_all (h _ _)
    simp [(h [] []).text, he, hstop, ctx]
  · exact codeAll_nil

theorem shutdownCode_all : CodeAll P (shutdownCode plan) := by
  refine codeAll_append.mpr ⟨blockCode_all (h _ _) (fun _ => hawait) none 0, ?_⟩
  simp [(h [] []).text]

/-- What holds of the pieces of expressions and statements holds of those of the script. -/
theorem pieces_all : ∀ piece ∈ (ofPlan plan).pieces, P piece := by
  intro piece hpiece
  simp only [pieces, List.mem_append] at hpiece
  obtain (((hpiece | hpiece) | hpiece) | hpiece) | hpiece := hpiece
  · obtain ⟨code, hcode, hmem⟩ := List.mem_flatMap.mp hpiece
    obtain ⟨c, _, rfl⟩ := List.mem_map.mp hcode
    exact constantCode_all h c piece hmem
  · obtain ⟨f, hf, hmem⟩ := List.mem_flatMap.mp hpiece
    obtain ⟨s, _, hs⟩ := List.mem_filterMap.mp hf
    exact functionCode_all h hawait hs piece hmem
  · exact (initCode_all h hawait).linePieces piece hpiece
  · exact (updateCode_all h hawait).linePieces piece hpiece
  · exact (shutdownCode_all h hawait).linePieces piece hpiece

end Plan

/-! ### Functions that wait -/

/-- A function whose body waits was found to suspend. -/
theorem mem_suspending_of_waits {commands : CommandTable} {p : Program} {span : Span}
    {name : String} {returns : Option String} {params : List Param} {body : List Stmt}
    {result : Initial} (hdecl : Stmt.function span name returns params body ∈ p.functions)
    {piece : Piece} (hpiece : piece ∈ linePieces
      (blockCode (Plan.ofProgram commands p).context (.function result) none 0 body))
    (hwaits : piece.waits = true) :
    (Plan.ofProgram commands p).context.functionSuspends name = true := by
  let graph := CallGraph.ofProgram p
  let marked := (graph.reach commands.suspendingNames).marked
  have hend : graph.pass commands.suspendingNames marked = [] :=
    (CallGraph.pass_reach graph commands.suspendingNames).1
  have hcalls : ∀ {callee}, callee ∈ callees body → graph.Calls (Name.fold name) callee :=
    fun hc => CallGraph.calls_ofProgram.mpr ⟨span, name, returns, params, body, hdecl, rfl, hc⟩
  -- each call in the body that is awaited marks the function
  have hadmits : Admits (Plan.ofProgram commands p).context (callees body) (namesIn body)
      fun piece => piece.waits = true → Name.fold name ∈ marked := by
    refine ⟨fun _ => nofun, fun _ _ => nofun, fun command hc hsuspends _ => ?_, fun next hc hw => ?_⟩
    · have hseed := List.contains_iff_mem.mp hsuspends
      exact CallGraph.mem_marked_of_calls hend (.inl ⟨command, hseed, hcalls hc⟩)
    · have hnext := List.contains_iff_mem.mp hw
      exact CallGraph.mem_marked_of_calls hend (.inr ⟨next, hnext, hcalls hc⟩)
  have hbody := blockCode_all hadmits (fun h : Routine.function result = .frame => nomatch h) none 0
  exact List.contains_iff_mem.mpr (hbody.linePieces piece hpiece hwaits)

/-! ### The text of functions -/

/-- The text of the function declares it as one that suspends. -/
def FunctionCode.DeclaredAsync (f : FunctionCode) : Prop :=
  "async function ".toList <+: f.render.toList

theorem declaredAsync_iff (f : FunctionCode) : f.DeclaredAsync ↔ f.suspends = true := by
  have hrender : ∃ rest, f.render.toList =
      (if f.suspends then "async function " else "function ").toList ++ rest := by
    unfold FunctionCode.render
    simp only [String.toList_append, List.append_assoc]
    exact ⟨_, rfl⟩
  obtain ⟨rest, hrest⟩ := hrender
  unfold FunctionCode.DeclaredAsync
  rw [hrest]
  -- the two words differ in their first letter
  cases f.suspends <;> simp

/-- The text of a call waits for its result exactly if the call is awaited. -/
theorem render_call (awaited : Bool) (function : String) :
    "await ".toList <+: (Piece.call awaited function).render.toList ↔ awaited = true := by
  cases awaited <;> simp [Piece.render, functionName]

/-! ### Calls -/

/-- The call is awaited exactly if its function is among the names. -/
def Piece.AwaitsAs (names : List String) : Piece → Prop
  | .call awaited function => awaited = names.contains function
  | _ => True

theorem admits_awaitsAs (ctx : Context) (calls : List Callee) (names : List String) :
    Admits ctx calls names (Piece.AwaitsAs ctx.suspending) :=
  ⟨fun _ => trivial, fun _ _ => trivial, fun _ _ _ => trivial, fun _ _ => rfl⟩

/-- The functions of a script are those of the program. -/
theorem functions_ofProgram (commands : CommandTable) (p : Program) :
    (Script.ofProgram commands p).functions =
      p.functions.filterMap (functionCode? (Plan.ofProgram commands p)) :=
  congrArg (List.filterMap _) (Schedule.functions_ofProgram ..)

/-- The script of any program has every function of it.  A function whose body waits is declared as
one that suspends, and every call of a function is awaited exactly if the function is declared
so. -/
theorem awaits_exactly_what_suspends (commands : CommandTable) (p : Program) :
    let script := Script.ofProgram commands p
    (∀ span name returns params body, Stmt.function span name returns params body ∈ p.functions →
      ∃ f ∈ script.functions, f.name = Name.fold name) ∧
    (∀ f ∈ script.functions, ∀ piece ∈ linePieces f.body, piece.waits = true →
      f.DeclaredAsync) ∧
    (∀ awaited function, .call awaited function ∈ script.pieces →
      ∀ f ∈ script.functions, f.name = function → (awaited = true ↔ f.DeclaredAsync)) := by
  intro script
  rw [show script.functions = _ from functions_ofProgram commands p]
  refine ⟨fun span name returns params body hdecl => ?_, fun f hf piece hpiece hwaits => ?_,
    fun awaited function hcall f hf hname => ?_⟩
  · exact ⟨_, List.mem_filterMap.mpr ⟨_, hdecl, rfl⟩, rfl⟩
  · obtain ⟨s, hs, hcode⟩ := List.mem_filterMap.mp hf
    obtain ⟨span, name, returns, params, body, rfl, hsuspends, -, -, hbody⟩ :=
      functionCode?_eq_some hcode
    rw [declaredAsync_iff, hsuspends]
    exact mem_suspending_of_waits hs (hbody ▸ hpiece) hwaits
  · obtain ⟨s, -, hcode⟩ := List.mem_filterMap.mp hf
    obtain ⟨span, name, returns, params, body, -, hsuspends, hfold, -, -⟩ :=
      functionCode?_eq_some hcode
    have hawaits : awaited = (Plan.ofProgram commands p).context.suspending.contains function :=
      pieces_all (admits_awaitsAs _) trivial _ hcall
    rw [declaredAsync_iff, hawaits, hsuspends, ← hname, hfold]
    rfl

/-- A function that waits for a key, and a function that returns what the first one does: both are
declared as functions that suspend, and the call of the first one is awaited. -/
theorem awaits_exactly_what_suspends_chain :
    let commands := CommandTable.ofList [("WaitKey", { category := .call, suspends := true })]
    let p : Program := ⟨[
      .function .unknown "Pause" none [] [.expr .unknown (.command default "WaitKey" [])],
      .function .unknown "Ask" none [] [.return_ .unknown (some (.call default "pause" []))]]⟩
    let script := Script.ofProgram commands p
    script.functions.map FunctionCode.name = ["pause", "ask"] ∧
    (∀ f ∈ script.functions, ∃ piece ∈ linePieces f.body, piece.waits = true) ∧
    (∀ f ∈ script.functions, f.DeclaredAsync) ∧
    .call true "pause" ∈ script.pieces := by
  intro commands p script
  have hwaits : ∀ f ∈ script.functions, ∃ piece ∈ linePieces f.body, piece.waits = true := by
    decide +kernel
  refine ⟨by decide +kernel, hwaits, fun f hf => ?_, by decide +kernel⟩
  obtain ⟨piece, hpiece, hw⟩ := hwaits f hf
  exact (awaits_exactly_what_suspends commands p).2.1 f hf piece hpiece hw

end FrameBasic.Script
