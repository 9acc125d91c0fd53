import FrameBasic.Program.DataPool
import FrameBasic.Proofs.Program.Binding
import FrameBasic.Proofs.Tree.Lower

/-!
# Analyses in any case

What a program calls, in which parts it runs, which variables it binds and where its labels stand is
found by names without their case.  So the analyses give the same when all names are spelled in
another case.  They walk through a program in the same way whatever its labels are.

## Main definitions

* `Program.relabel`, `Schedule.relabel` — a program and its parts with other labels.

## Main results

* `Expr.subterms_relabel`, `Stmt.within_relabel` — a walk meets the same with other labels.
* `CallGraph.ofProgram_relabel` — the call graph.
* `Schedule.ofProgram_relabel` — the parts of a program.
* `scriptBindings_relabel`, `localBindings_relabel` — the variables.
* `DataPool.ofProgram_relabel` — the data pool.
-/

namespace FrameBasic

open Script (identifier)

/-! ### Walks -/

section Walks

variable (r : Relabel)

namespace Expr

theorem parts_relabel (e : Expr) : (e.relabel r).parts = e.parts.map (Expr.relabel r) := by
  cases e <;> simp [relabel, parts, relabelAll_eq_map]

theorem subterms_relabel (e : Expr) : (e.relabel r).subterms = e.subterms.map (Expr.relabel r) := by
  induction e using induction_on_parts with
  | h e ih =>
    rw [subterms_eq, subterms_eq, parts_relabel, List.map_cons, List.flatMap_map, List.map_flatMap]
    congr 1
    exact congrArg List.flatten (List.map_congr_left ih)

end Expr

theorem relabelElseIfs_eq_map (branches : List ElseIf) :
    relabelElseIfs r branches =
      branches.map fun branch => .mk (branch.condition.relabel r) (relabelStmts r branch.body) := by
  induction branches with
  | nil => rfl
  | cons branch rest ih =>
    obtain ⟨condition, body⟩ := branch
    rw [relabelElseIfs, ih]
    rfl

theorem relabelCases_eq_map (clauses : List CaseClause) :
    relabelCases r clauses = clauses.map fun clause =>
      .mk (clause.values.map (Expr.relabel r)) (relabelStmts r clause.body) (r.span clause.span) := by
  induction clauses with
  | nil => rfl
  | cons clause rest ih =>
    obtain ⟨values, body, span⟩ := clause
    rw [relabelCases, ih, relabelAll_eq_map]
    rfl

namespace Stmt

theorem ownExprs_relabel (s : Stmt) :
    (s.relabel r).ownExprs = s.ownExprs.map (Expr.relabel r) := by
  cases s with
  | if_ =>
    simp only [relabel_if, ownExprs, relabelElseIfs_eq_map, List.map_cons, List.map_map]
    rfl
  | select =>
    simp only [relabel_select, ownExprs, relabelCases_eq_map, List.map_cons, List.flatMap_map,
      List.map_flatMap]
    rfl
  | declare _ _ vars | function _ _ _ params =>
    simp only [relabel, ownExprs, List.filterMap_map, List.map_filterMap]
    rfl
  | dim _ arrays =>
    simp only [relabel, ownExprs, List.flatMap_map, List.map_flatMap]
    rfl
  | repeat_ | for_ | return_ => simp [relabel, ownExprs, Option.toList_map]
  | _ => simp [relabel, ownExprs]

theorem blocks_relabel (s : Stmt) : (s.relabel r).blocks = s.blocks.map (relabelStmts r) := by
  cases s with
  | if_ =>
    simp [relabel_if, blocks, relabelElseIfs_eq_map, Option.toList_map, Function.comp_def,
      ElseIf.body]
  | select =>
    simp [relabel_select, blocks, relabelCases_eq_map, Option.toList_map, Function.comp_def,
      CaseClause.body]
  | _ => rfl

theorem routines_relabel (s : Stmt) :
    (s.relabel r).routines = s.routines.map (relabelStmts r) := by
  cases s with
  | if_ => rw [relabel_if]; rfl
  | select => rw [relabel_select]; rfl
  | _ => rfl

/-- A walk meets the same statements with other labels. -/
theorem within_relabel (into : Bool) (s : Stmt) :
    (s.relabel r).within into = (s.within into).map (Stmt.relabel r) := by
  induction s using induction_on_inner with
  | h s ih =>
    have hblock : ∀ block ∈ s.blocks ++ s.routines,
        stmtsWithin into (relabelStmts r block) = (stmtsWithin into block).map (Stmt.relabel r) := by
      intro block hblock
      rw [stmtsWithin_eq_flatMap, stmtsWithin_eq_flatMap, relabelStmts_eq_map, List.flatMap_map,
        List.map_flatMap, List.flatMap_def, List.flatMap_def]
      exact congrArg List.flatten (List.map_congr_left (ih block hblock))
    cases into with
    | false =>
      rw [within_false_eq, within_false_eq, blocks_relabel, List.map_cons, List.flatMap_map,
        List.map_flatMap, List.flatMap_def, List.flatMap_def]
      congr 2
      exact List.map_congr_left fun block hmem => hblock block (List.mem_append_left _ hmem)
    | true =>
      rw [within_true_eq, within_true_eq, blocks_relabel, routines_relabel, ← List.map_append,
        List.map_cons, List.flatMap_map, List.map_flatMap, List.flatMap_def, List.flatMap_def]
      congr 2
      exact List.map_congr_left hblock

end Stmt

theorem stmtsWithin_relabel (into : Bool) (stmts : List Stmt) :
    stmtsWithin into (relabelStmts r stmts) = (stmtsWithin into stmts).map (Stmt.relabel r) := by
  rw [stmtsWithin_eq_flatMap, stmtsWithin_eq_flatMap, relabelStmts_eq_map, List.flatMap_map,
    List.map_flatMap]
  exact congrArg (List.flatMap · stmts) (funext (Stmt.within_relabel r into))

theorem exprsWithin_relabel (into : Bool) (stmts : List Stmt) :
    exprsWithin into (relabelStmts r stmts) = (exprsWithin into stmts).map (Expr.relabel r) := by
  unfold exprsWithin
  rw [stmtsWithin_relabel, List.flatMap_map, List.map_flatMap]
  congr 1
  funext s
  rw [Stmt.ownExprs_relabel, List.flatMap_map, List.map_flatMap]
  exact congrArg (List.flatMap · _) (funext (Expr.subterms_relabel r))

/-- What is asked of each statement alone is the same for all of them. -/
theorem flatMap_relabel {α : Type} {f : Stmt → List α}
    (hf : ∀ s : Stmt, f (s.relabel r) = f s) (into : Bool) (stmts : List Stmt) :
    (stmtsWithin into (relabelStmts r stmts)).flatMap f =
      (stmtsWithin into stmts).flatMap f := by
  rw [stmtsWithin_relabel, List.flatMap_map]
  exact congrArg (List.flatMap · _) (funext hf)

/-! ### Programs with other labels -/

theorem Stmt.isFunction_relabel (s : Stmt) : (s.relabel r).isFunction = s.isFunction := by
  cases s with
  | if_ => rw [relabel_if]; rfl
  | select => rw [relabel_select]; rfl
  | _ => rfl

theorem Stmt.isType_relabel (s : Stmt) : (s.relabel r).isType = s.isType := by
  cases s with
  | if_ => rw [relabel_if]; rfl
  | select => rw [relabel_select]; rfl
  | _ => rfl

/-- A program with other labels. -/
def Program.relabel (p : Program) : Program :=
  ⟨relabelStmts r p.stmts⟩

theorem Program.functions_relabel (p : Program) :
    (p.relabel r).functions = p.functions.map (Stmt.relabel r) := by
  unfold functions relabel
  rw [relabelStmts_eq_map, List.filter_map]
  exact congrArg (fun f => List.map _ (List.filter f _)) (funext (Stmt.isFunction_relabel r))

/-- A constant with other labels. -/
def Constant.relabel (c : Constant) : Constant :=
  ⟨r.name c.name, c.value.relabel r⟩

theorem Stmt.constant?_relabel (s : Stmt) :
    (s.relabel r).constant? = s.constant?.map (Constant.relabel r) := by
  cases s with
  | if_ => rw [relabel_if]; rfl
  | select => rw [relabel_select]; rfl
  | _ => rfl

theorem constants_relabel (into : Bool) (stmts : List Stmt) :
    (stmtsWithin into (relabelStmts r stmts)).filterMap Stmt.constant? =
      ((stmtsWithin into stmts).filterMap Stmt.constant?).map (Constant.relabel r) := by
  rw [stmtsWithin_relabel, List.filterMap_map, List.map_filterMap]
  exact congrArg (List.filterMap · _) (funext (Stmt.constant?_relabel r))

/-- The parts of a program with other labels. -/
def Schedule.relabel (s : Schedule) : Schedule :=
  { types := s.types.map (Stmt.relabel r)
    functions := s.functions.map (Stmt.relabel r)
    constants := s.constants.map (Constant.relabel r)
    init := s.init.map (Stmt.relabel r)
    mainLoop := s.mainLoop.map (Stmt.relabel r)
    shutdown := s.shutdown.map (Stmt.relabel r) }

theorem Schedule.ordinary_relabel (s : Schedule) :
    (s.relabel r).ordinary = s.ordinary.map (Stmt.relabel r) := by
  simp [ordinary, relabel, Option.toList_map]

theorem Stmt.dataValues_relabel (s : Stmt) :
    (s.relabel r).dataValues = s.dataValues.map r.data := by
  cases s with
  | if_ => rw [relabel_if]; rfl
  | select => rw [relabel_select]; rfl
  | _ => rfl

end Walks

/-! ### Calls -/

section Names

variable (r : Relabel) [r.Respells]

theorem Expr.callee?_relabel (e : Expr) : (e.relabel r).callee? = e.callee? := by
  cases e with
  | call | command => simp [relabel, callee?]
  | _ => rfl

theorem callees_relabel (stmts : List Stmt) :
    callees (relabelStmts r stmts) = callees stmts := by
  unfold callees
  rw [exprsWithin_relabel, List.filterMap_map]
  exact congrArg (List.filterMap · _) (funext (Expr.callee?_relabel r))

namespace CallGraph

theorem addStmt_relabel (graph : CallGraph) (s : Stmt) :
    graph.addStmt (s.relabel r) = graph.addStmt s := by
  cases s with
  | if_ => rw [Stmt.relabel_if]; rfl
  | select => rw [Stmt.relabel_select]; rfl
  | function => simp [Stmt.relabel, addStmt, callees_relabel]
  | _ => rfl

theorem ofProgram_relabel (p : Program) : ofProgram (p.relabel r) = ofProgram p := by
  unfold ofProgram
  rw [Program.functions_relabel, List.foldl_map]
  exact congrArg (List.foldl · _ _) (funext fun graph => funext fun s => addStmt_relabel r graph s)

end CallGraph

/-! ### The parts of a program -/

theorem presentsFrame_relabel (frameFunctions : List String) (stmts : List Stmt) :
    presentsFrame frameFunctions (relabelStmts r stmts) =
      presentsFrame frameFunctions stmts := by
  unfold presentsFrame
  rw [callees_relabel]

theorem Stmt.isFrameLoop_relabel (frameFunctions : List String) (s : Stmt) :
    (s.relabel r).isFrameLoop frameFunctions = s.isFrameLoop frameFunctions := by
  cases s with
  | if_ => rw [relabel_if]; rfl
  | select => rw [relabel_select]; rfl
  | while_ | repeat_ => exact presentsFrame_relabel ..
  | _ => rfl

/-- The parts of a program are the same in any case. -/
theorem Schedule.ofProgram_relabel (frameFunctions : List String) (p : Program) :
    ofProgram frameFunctions (p.relabel r) =
      (ofProgram frameFunctions p).relabel r := by
  have hordinary : (fun s : Stmt => !(s.isType || s.isFunction)) ∘ Stmt.relabel r =
      fun s => !(s.isType || s.isFunction) := by
    funext s
    simp only [Function.comp_apply, Stmt.isType_relabel, Stmt.isFunction_relabel]
  have hbefore : (fun s : Stmt => !s.isFrameLoop frameFunctions) ∘ Stmt.relabel r =
      fun s => !s.isFrameLoop frameFunctions := by
    funext s
    simp only [Function.comp_apply, Stmt.isFrameLoop_relabel]
  have htypes : Stmt.isType ∘ Stmt.relabel r = Stmt.isType :=
    funext (Stmt.isType_relabel _)
  have hconstants := constants_relabel r false p.stmts
  rw [relabelStmts_eq_map] at hconstants
  have hstmts : (p.relabel r).stmts = p.stmts.map (Stmt.relabel r) :=
    relabelStmts_eq_map ..
  rw [ofProgram_eq, ofProgram_eq, relabel]
  simp only [hstmts, hconstants, Program.functions_relabel, List.filter_map, List.dropWhile_map,
    List.takeWhile_map, List.head?_map, List.map_tail, hordinary, hbefore, htypes]

/-! ### Variables -/

@[simp] theorem Script.identifier_name (name : String) :
    identifier (r.name name) = identifier name := by
  unfold identifier
  rw [Relabel.fold_name]

@[simp] theorem Initial.ofName_relabel (name : String) (typeName : Option String) :
    ofName (r.name name) (typeName.map r.name) = ofName name typeName := by
  unfold ofName
  rw [Option.isSome_map, Relabel.markedType?_name]

theorem Stmt.uses_relabel (s : Stmt) : (s.relabel r).uses = s.uses := by
  cases s with
  | if_ => rw [relabel_if]; rfl
  | select => rw [relabel_select]; rfl
  | declare _ _ vars =>
    simp only [relabel, uses, List.map_map]
    refine List.map_congr_left fun v _ => ?_
    simp only [Function.comp_apply, VarDecl.relabel, Script.identifier_name, Initial.ofName_relabel]
  | dim _ arrays =>
    simp only [relabel, uses, List.map_map]
    refine List.map_congr_left fun a _ => ?_
    simp only [Function.comp_apply, ArrayDecl.relabel, Script.identifier_name]
  | for_ | forEach | const => simp [relabel, uses]
  | _ => rfl

theorem Stmt.globalUses_relabel (s : Stmt) :
    (s.relabel r).globalUses = s.globalUses := by
  cases s with
  | if_ => rw [relabel_if]; rfl
  | select => rw [relabel_select]; rfl
  | declare span scope vars =>
    cases scope with
    | inner => rfl
    | global => exact uses_relabel r (.declare span .global vars)
  | dim span arrays => exact uses_relabel r (.dim span arrays)
  | _ => rfl

theorem Stmt.localUses_relabel (s : Stmt) :
    (s.relabel r).localUses = s.localUses := by
  cases s with
  | if_ => rw [relabel_if]; rfl
  | select => rw [relabel_select]; rfl
  | declare span scope vars =>
    cases scope with
    | inner => exact uses_relabel r (.declare span .inner vars)
    | global => rfl
  | const span name value => exact uses_relabel r (.const span name value)
  | _ => rfl

theorem Expr.uses_relabel (e : Expr) : (e.relabel r).uses = e.uses := by
  cases e with
  | var info name typeName | element info name indices => simp [relabel, uses]
  | _ => rfl

theorem usesIn_relabel (stmts : List Stmt) :
    usesIn (relabelStmts r stmts) = usesIn stmts := by
  unfold usesIn
  rw [flatMap_relabel r (Stmt.uses_relabel r), exprsWithin_relabel, List.flatMap_map]
  exact congrArg (fun f => _ ++ List.flatMap f _) (funext (Expr.uses_relabel r))

theorem map_identifier_relabel (constants : List Constant) :
    (constants.map (Constant.relabel r)).map (fun c => identifier c.name) =
      constants.map fun c => identifier c.name := by
  rw [List.map_map]
  refine List.map_congr_left fun c _ => ?_
  simp only [Function.comp_apply, Constant.relabel, Script.identifier_name]

theorem globalNames_relabel (p : Program) :
    globalNames (p.relabel r) = globalNames p := by
  unfold globalNames Program.relabel
  rw [flatMap_relabel r (Stmt.globalUses_relabel r), constants_relabel, map_identifier_relabel]

/-- The variables of the script are the same in any case. -/
theorem scriptBindings_relabel (s : Schedule) :
    scriptBindings (s.relabel r) = scriptBindings s := by
  have houtside : (s.relabel r).ordinary.flatMap (fun stmt => usesIn [stmt]) =
      s.ordinary.flatMap fun stmt => usesIn [stmt] := by
    rw [Schedule.ordinary_relabel, List.flatMap_map]
    exact congrArg (List.flatMap · _) (funext fun stmt => usesIn_relabel r [stmt])
  have hinside := flatMap_relabel r (Stmt.globalUses_relabel r) true s.functions
  rw [relabelStmts_eq_map] at hinside
  unfold scriptBindings
  rw [houtside]
  simp only [Schedule.relabel, hinside, map_identifier_relabel]

/-- The variables of a function are the same in any case. -/
theorem localBindings_relabel (params globals : List String) (body : List Stmt) :
    localBindings params globals (relabelStmts r body) =
      localBindings params globals body := by
  unfold localBindings
  rw [flatMap_relabel r (Stmt.localUses_relabel r), usesIn_relabel]

/-! ### The data pool -/

theorem DataPool.labelsFrom_relabel (stmts : List Stmt) : ∀ count : Nat,
    labelsFrom count (stmts.map (Stmt.relabel r)) = labelsFrom count stmts := by
  induction stmts with
  | nil => exact fun _ => rfl
  | cons s rest ih =>
    intro count
    cases s with
    | label span name => simp [Stmt.relabel, labelsFrom, ih]
    | data span values => simp [Stmt.relabel, labelsFrom, Stmt.dataValues, ih]
    | if_ =>
      rw [List.map_cons, Stmt.relabel_if]
      exact ih count
    | select =>
      rw [List.map_cons, Stmt.relabel_select]
      exact ih count
    | _ => exact ih count

/-- The labels are the same in any case. -/
theorem DataPool.ofProgram_relabel (p : Program) :
    ofProgram (p.relabel r) =
      { ofProgram p with values := (ofProgram p).values.map r.data } := by
  unfold ofProgram Program.relabel
  simp only [stmtsWithin_relabel, labelsFrom_relabel, List.flatMap_map, List.map_flatMap,
    Stmt.dataValues_relabel]

end Names

end FrameBasic
