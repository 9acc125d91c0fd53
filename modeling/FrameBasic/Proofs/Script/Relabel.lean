import FrameBasic.Proofs.Program.Lower
import FrameBasic.Proofs.Program.Reach
import FrameBasic.Script.Program
import Mathlib.Data.List.Basic

/-!
# Scripts with other labels

Names of a program have no case in the script, so the script of a program is the same when its names
are spelled in another case.  Only a label is written down as it is spelled, by itself and by the
jumps to it, and the words of `Data` statements are values.  The table of commands is asked only for
the commands that the program calls, so it may be another one that says the same of these.

## Main definitions

* `Stmt.spellsLabel` — the statement is a label or a jump to one.
* `Expr.CallsOnly`, `Stmt.Fits` — what an expression and a statement by itself may hold.
* `Script.Context.Alike`, `Script.Plan.Alike` — two tables say the same of certain commands.

## Main results

* `Script.exprCode_relabel`, `Script.blockCode_relabel` — expressions and statements.
* `CallGraph.reach_congr` — the search depends on the commands that are called.
* `Script.ofProgram_relabel` — **the script of a program with other labels and another table**, up to
  its data.
-/

namespace FrameBasic

/-- Whether the statement is a label or a jump to one. -/
def Stmt.spellsLabel : Stmt → Bool
  | .label .. | .goto .. | .gosub .. => true
  | _ => false

/-- The commands that the expression calls, in it or below, are among certain keys. -/
def Expr.CallsOnly (K : String → Prop) (e : Expr) : Prop :=
  ∀ key, .command key ∈ e.calls → K key

/-- The expressions of the statement itself call only certain commands, and its label is kept if it
is spelled out. -/
structure Stmt.Fits (K : String → Prop) (r : Relabel) [r.Respells] (s : Stmt) : Prop where
  exprs : ∀ e ∈ s.ownExprs, e.CallsOnly K
  label : s.spellsLabel = true → r.name = id

namespace Script

/-- Another context says the same of functions, labels and certain commands. -/
structure Context.Alike (K : String → Prop) (ctx ctx' : Context) : Prop where
  suspending : ctx'.suspending = ctx.suspending
  labels : ctx'.pool.labels = ctx.pool.labels
  command : ∀ name, K (Text.lower name) → ctx'.commands.get? name = ctx.commands.get? name
  suspends : ∀ key, K key →
    ctx'.commands.suspendingNames.contains key = ctx.commands.suspendingNames.contains key

variable {K : String → Prop} {r : Relabel} [r.Respells] {ctx ctx' : Context}

@[simp] theorem className_name (typeName : String) :
    className (r.name typeName) = className typeName := by
  unfold className
  rw [Relabel.fold_name]

namespace Context.Alike

theorem functionSuspends (h : ctx.Alike K ctx') (name : String) :
    ctx'.functionSuspends (r.name name) = ctx.functionSuspends name := by
  unfold Context.functionSuspends
  rw [h.suspending, Relabel.fold_name]

theorem callCode (h : ctx.Alike K ctx') (name : String) (args : List Fragment) :
    callCode ctx' (r.name name) args = Script.callCode ctx name args := by
  unfold Script.callCode
  rw [h.functionSuspends, Relabel.fold_name]

theorem commandCode (h : ctx.Alike K ctx') {name : String} (hname : K (Text.lower name)) :
    commandCode ctx' name = Script.commandCode ctx name := by
  funext args
  unfold Script.commandCode
  rw [h.command name hname]

theorem commandSuspends (h : ctx.Alike K ctx') {name : String} (hname : K (Text.lower name)) :
    ctx'.commandSuspends name = ctx.commandSuspends name :=
  h.suspends _ hname

end Context.Alike

/-! ### Expressions -/

omit [r.Respells] in
theorem exprCodes_congr {es : List Expr}
    (h : ∀ e ∈ es, exprCode ctx' (e.relabel r) = exprCode ctx e) :
    exprCodes ctx' (relabelAll r es) = exprCodes ctx es := by
  rw [exprCodes_eq_map, exprCodes_eq_map, relabelAll_eq_map, List.map_map]
  exact List.map_congr_left h

omit [r.Respells] in
theorem indexCode_congr {indices : List Expr}
    (h : ∀ e ∈ indices, exprCode ctx' (e.relabel r) = exprCode ctx e) :
    indexCode ctx' (relabelAll r indices) = indexCode ctx indices := by
  induction indices with
  | nil => rfl
  | cons e rest ih =>
    obtain ⟨he, hrest⟩ := List.forall_mem_cons.mp h
    rw [relabelAll, indexCode, indexCode, he, ih hrest]

theorem callsOnly_part {e part : Expr} (h : e.CallsOnly K) (hpart : part ∈ e.parts) :
    part.CallsOnly K :=
  fun key hkey => h key (Expr.calls_subset_of_mem_parts hpart hkey)

theorem callsOnly_command {info : Info} {name : String} {args : List Expr}
    (h : (Expr.command info name args).CallsOnly K) : K (Text.lower name) :=
  h _ (List.mem_filterMap.mpr ⟨_, Expr.mem_subterms_self _, rfl⟩)

section Code

variable (h : ctx.Alike K ctx')
include h

/-- An expression is the same with other labels. -/
theorem exprCode_relabel {e : Expr} (he : e.CallsOnly K) :
    exprCode ctx' (e.relabel r) = exprCode ctx e := by
  induction e using Expr.induction_on_parts with
  | h e ih =>
    have hparts : ∀ part ∈ e.parts, exprCode ctx' (part.relabel r) = exprCode ctx part :=
      fun part hpart => ih part hpart (callsOnly_part he hpart)
    cases e with
    | integer | float | string | boolean | null | error => rfl
    | var | new | first | last => simp [Expr.relabel, exprCode]
    | binary info left op right =>
      have hleft := hparts left List.mem_cons_self
      have hright := hparts right (List.mem_cons_of_mem _ List.mem_cons_self)
      simp only [Expr.relabel, exprCode, hleft, hright]
    | unary info op inner | grouped info inner | after info inner | before info inner
    | field info inner name =>
      have hinner := hparts inner List.mem_cons_self
      simp only [Expr.relabel, exprCode, hinner, identifier_name]
    | element info name indices =>
      have hindices : indexCode ctx' (relabelAll r indices) = indexCode ctx indices :=
        indexCode_congr hparts
      simp only [Expr.relabel, exprCode, hindices, identifier_name]
    | call info name args =>
      have hargs : exprCodes ctx' (relabelAll r args) = exprCodes ctx args := exprCodes_congr hparts
      simp only [Expr.relabel, exprCode, hargs, h.callCode, h.functionSuspends]
    | command info name args =>
      have hname := callsOnly_command he
      have hargs : exprCodes ctx' (relabelAll r args) = exprCodes ctx args := exprCodes_congr hparts
      simp only [Expr.relabel, exprCode, hargs, Relabel.Respells.command_eq, h.commandCode hname,
        h.commandSuspends hname]

/-! ### Statements -/

theorem varCode_relabel {scope : DeclScope} {v : VarDecl} (hv : ∀ e ∈ v.value, e.CallsOnly K) :
    varCode ctx' scope (v.relabel r) = varCode ctx scope v := by
  obtain ⟨name, typeName, value, span⟩ := v
  cases value with
  | none => cases scope <;> simp [VarDecl.relabel, varCode]
  | some value => simp [VarDecl.relabel, varCode, exprCode_relabel h (hv value rfl)]

theorem arrayCode_relabel {a : ArrayDecl} (ha : ∀ e ∈ a.dimensions, e.CallsOnly K) :
    arrayCode ctx' (a.relabel r) = arrayCode ctx a := by
  have hsizes : a.dimensions.map (fun e => exprCode ctx' (e.relabel r) ++ plain " + 1") =
      a.dimensions.map fun e => exprCode ctx e ++ plain " + 1" :=
    List.map_congr_left fun e he => by rw [exprCode_relabel h (ha e he)]
  simp only [ArrayDecl.relabel, arrayCode, List.map_map, Function.comp_def, hsizes,
    identifier_name, Initial.ofName_relabel]

omit h [r.Respells] in
theorem isNegative?_relabel (e : Expr) : isNegative? (e.relabel r) = isNegative? e := by
  induction e using Expr.induction_on_parts with
  | h e ih =>
    cases e with
    | grouped info inner => exact ih inner List.mem_cons_self
    | unary info op operand =>
      have hoperand := ih operand List.mem_cons_self
      cases op with
      | negate => exact congrArg (Option.map not) hoperand
      | plus => exact hoperand
      | not => rfl
    | _ => rfl

theorem forHead_relabel {number : Nat} {name : String} {first last : Expr} {step : Option Expr}
    (hown : ∀ e ∈ [first, last] ++ step.toList, e.CallsOnly K) :
    forHead ctx' number (r.name name) (first.relabel r) (last.relabel r)
      (step.map (Expr.relabel r)) = forHead ctx number name first last step := by
  have hfirst := hown first List.mem_cons_self
  have hlast := hown last (List.mem_cons_of_mem _ List.mem_cons_self)
  cases step with
  | none =>
    simp only [forHead, Option.map_none, identifier_name, exprCode_relabel h hfirst,
      exprCode_relabel h hlast]
  | some step =>
    have hstep : step.CallsOnly K := hown step (by simp)
    simp only [forHead, Option.map_some, identifier_name, exprCode_relabel h hfirst,
      exprCode_relabel h hlast, exprCode_relabel h hstep, isNegative?_relabel]

theorem returnCode_relabel {routine : Routine} {value : Option Expr}
    (hown : ∀ e ∈ value.toList, e.CallsOnly K) :
    returnCode ctx' routine (value.map (Expr.relabel r)) = returnCode ctx routine value := by
  cases value with
  | none => cases routine <;> rfl
  | some value =>
    have hvalue := hown value List.mem_cons_self
    cases routine with
    | function => simp only [returnCode, Option.map_some, exprCode_relabel h hvalue]
    | _ => rfl

theorem callStmtCode_relabel {e : Expr} (he : e.CallsOnly K) :
    callStmtCode ctx' (e.relabel r) = callStmtCode ctx e := by
  have hcode : exprCode ctx' (e.relabel r) = exprCode ctx e := exprCode_relabel h he
  have hparts : exprCodes ctx' (relabelAll r e.parts) = exprCodes ctx e.parts :=
    exprCodes_congr fun part hpart => exprCode_relabel h (callsOnly_part he hpart)
  cases e with
  | command info name args =>
    have hname := callsOnly_command he
    have hargs : exprCodes ctx' (relabelAll r args) = exprCodes ctx args := hparts
    simp only [Expr.relabel, callStmtCode, Relabel.Respells.command_eq, hargs, h.commandCode hname,
      h.commandSuspends hname]
  | call info name args =>
    have hargs : exprCodes ctx' (relabelAll r args) = exprCodes ctx args := hparts
    simp only [Expr.relabel, callStmtCode, hargs, h.callCode]
  | error => rfl
  | _ => exact congrArg (fun code => [Code.line (code ++ plain ";")]) hcode

end Code

mutual

theorem loopCount_relabel (r : Relabel) : ∀ s : Stmt, loopCount (s.relabel r) = loopCount s
  | .if_ _ _ thenBranch elseIfs none => by
    rw [Stmt.relabel, loopCount, loopCount, loopCountAll_relabel r thenBranch,
      loopCountElseIfs_relabel r elseIfs]
  | .if_ _ _ thenBranch elseIfs (some elseBranch) => by
    rw [Stmt.relabel, loopCount, loopCount, loopCountAll_relabel r thenBranch,
      loopCountElseIfs_relabel r elseIfs, loopCountAll_relabel r elseBranch]
  | .while_ _ _ body | .repeat_ _ body _ | .for_ _ _ _ _ _ body | .forEach _ _ _ body => by
    rw [Stmt.relabel, loopCount, loopCount, loopCountAll_relabel r body]
  | .select _ _ cases none => by
    rw [Stmt.relabel, loopCount, loopCount, loopCountCases_relabel r cases]
  | .select _ _ cases (some default) => by
    rw [Stmt.relabel, loopCount, loopCount, loopCountCases_relabel r cases,
      loopCountAll_relabel r default]
  | .assign .. | .declare .. | .dim .. | .const .. | .function .. | .type .. | .return_ .. | .exit _
  | .end_ _ | .goto .. | .gosub .. | .label .. | .data .. | .read .. | .restore .. | .delete ..
  | .deleteEach .. | .insert .. | .expr .. => rfl

theorem loopCountElseIfs_relabel (r : Relabel) : ∀ branches : List ElseIf,
    loopCountElseIfs (relabelElseIfs r branches) = loopCountElseIfs branches
  | [] => rfl
  | .mk condition body :: rest => by
    rw [relabelElseIfs, loopCountElseIfs, loopCountElseIfs, loopCountAll_relabel r body,
      loopCountElseIfs_relabel r rest]

theorem loopCountCases_relabel (r : Relabel) : ∀ clauses : List CaseClause,
    loopCountCases (relabelCases r clauses) = loopCountCases clauses
  | [] => rfl
  | .mk values body span :: rest => by
    rw [relabelCases, loopCountCases, loopCountCases, loopCountAll_relabel r body,
      loopCountCases_relabel r rest]

theorem loopCountAll_relabel (r : Relabel) : ∀ stmts : List Stmt,
    loopCountAll (relabelStmts r stmts) = loopCountAll stmts
  | [] => rfl
  | s :: rest => by
    rw [relabelStmts, loopCountAll, loopCountAll, loopCount_relabel r s,
      loopCountAll_relabel r rest]

end

mutual

/-- A statement is the same with other labels if it fits, and all below it do. -/
theorem stmtCode_relabel (h : ctx.Alike K ctx') {routine : Routine} {enclosing : Option Nat}
    {number : Nat} : ∀ s : Stmt, (∀ t ∈ s.within true, t.Fits K r) →
    stmtCode ctx' routine enclosing number (s.relabel r) = stmtCode ctx routine enclosing number s
  | .assign _ target value, hfits => by
    have hown := (hfits _ List.mem_cons_self).exprs
    have htarget := hown target List.mem_cons_self
    have hvalue := hown value (List.mem_cons_of_mem _ List.mem_cons_self)
    simp only [Stmt.relabel, stmtCode, exprCode_relabel h htarget, exprCode_relabel h hvalue]
  | .declare _ scope vars, hfits => by
    have hown := (hfits _ List.mem_cons_self).exprs
    rw [Stmt.relabel, stmtCode, stmtCode, List.flatMap_map]
    refine List.flatMap_congr fun v hv => varCode_relabel h fun e he => ?_
    exact hown e (List.mem_filterMap.mpr ⟨v, hv, he⟩)
  | .dim _ arrays, hfits => by
    have hown := (hfits _ List.mem_cons_self).exprs
    rw [Stmt.relabel, stmtCode, stmtCode, List.map_map]
    refine List.map_congr_left fun a ha => arrayCode_relabel h fun e he => ?_
    exact hown e (List.mem_flatMap.mpr ⟨a, ha, he⟩)
  | .const _ name value, hfits => by
    have hvalue := (hfits _ List.mem_cons_self).exprs value List.mem_cons_self
    simp only [Stmt.relabel, stmtCode, identifier_name, exprCode_relabel h hvalue]
  | .if_ _ condition thenBranch elseIfs none, hfits => by
    simp only [Stmt.within, List.forall_mem_cons, List.forall_mem_append] at hfits
    obtain ⟨hown, hthen, helseIfs⟩ := hfits
    obtain ⟨hcondition, hconditions⟩ := List.forall_mem_cons.mp hown.exprs
    simp only [Stmt.relabel, stmtCode, exprCode_relabel h hcondition, loopCountAll_relabel,
      blockCode_relabel h thenBranch hthen, elseIfsCode_relabel h elseIfs hconditions helseIfs]
  | .if_ _ condition thenBranch elseIfs (some elseBranch), hfits => by
    simp only [Stmt.within, List.forall_mem_cons, List.forall_mem_append] at hfits
    obtain ⟨hown, ⟨hthen, helseIfs⟩, helse⟩ := hfits
    obtain ⟨hcondition, hconditions⟩ := List.forall_mem_cons.mp hown.exprs
    simp only [Stmt.relabel, stmtCode, exprCode_relabel h hcondition, loopCountAll_relabel,
      loopCountElseIfs_relabel, blockCode_relabel h thenBranch hthen,
      elseIfsCode_relabel h elseIfs hconditions helseIfs, blockCode_relabel h elseBranch helse]
  | .while_ _ condition body, hfits | .repeat_ _ body (some condition), hfits => by
    simp only [Stmt.within, List.forall_mem_cons] at hfits
    have hcondition := hfits.1.exprs condition List.mem_cons_self
    simp only [Stmt.relabel, stmtCode, Option.map_some, exprCode_relabel h hcondition,
      blockCode_relabel h body hfits.2]
  | .repeat_ _ body none, hfits => by
    simp only [Stmt.within, List.forall_mem_cons] at hfits
    simp only [Stmt.relabel, stmtCode, Option.map_none, blockCode_relabel h body hfits.2]
  | .for_ _ name first last step body, hfits => by
    simp only [Stmt.within, List.forall_mem_cons] at hfits
    simp only [Stmt.relabel, stmtCode, forHead_relabel h hfits.1.exprs,
      blockCode_relabel h body hfits.2]
  | .forEach _ name typeName body, hfits => by
    simp only [Stmt.within, List.forall_mem_cons] at hfits
    simp only [Stmt.relabel, stmtCode, identifier_name, className_name,
      blockCode_relabel h body hfits.2]
  | .select _ subject clauses none, hfits => by
    simp only [Stmt.within, List.forall_mem_cons] at hfits
    obtain ⟨hown, hclauses⟩ := hfits
    obtain ⟨hsubject, hvalues⟩ := List.forall_mem_cons.mp hown.exprs
    simp only [Stmt.relabel, stmtCode, exprCode_relabel h hsubject,
      casesCode_relabel h clauses hvalues hclauses]
  | .select _ subject clauses (some default), hfits => by
    simp only [Stmt.within, List.forall_mem_cons, List.forall_mem_append] at hfits
    obtain ⟨hown, hclauses, hdefault⟩ := hfits
    obtain ⟨hsubject, hvalues⟩ := List.forall_mem_cons.mp hown.exprs
    simp only [Stmt.relabel, stmtCode, exprCode_relabel h hsubject, loopCountCases_relabel,
      casesCode_relabel h clauses hvalues hclauses, blockCode_relabel h default hdefault]
  | .function .., _ | .type .., _ | .exit _, _ | .end_ _, _ | .data .., _ => rfl
  | .return_ _ value, hfits => by
    rw [Stmt.relabel, stmtCode, stmtCode,
      returnCode_relabel h (hfits _ List.mem_cons_self).exprs]
  | .goto .., hfits | .gosub .., hfits | .label .., hfits => by
    have hlabel := (hfits _ List.mem_cons_self).label rfl
    rw [Stmt.relabel, stmtCode, stmtCode, hlabel]
    rfl
  | .read _ targets, hfits => by
    have hown := (hfits _ List.mem_cons_self).exprs
    rw [Stmt.relabel, stmtCode, stmtCode, List.map_map]
    refine List.map_congr_left fun target htarget => ?_
    rw [Function.comp_apply, exprCode_relabel h (hown target htarget)]
  | .restore _ label, _ => by
    cases label with
    | none => rfl
    | some label =>
      simp only [Stmt.relabel, stmtCode, DataPool.offset, Option.map_some, Option.bind_some,
        Relabel.Respells.lower_name, h.labels]
  | .delete _ object, hfits => by
    have hobject := (hfits _ List.mem_cons_self).exprs object List.mem_cons_self
    simp only [Stmt.relabel, stmtCode, exprCode_relabel h hobject]
  | .deleteEach .., _ => by simp only [Stmt.relabel, stmtCode, className_name]
  | .insert _ object side anchor, hfits => by
    have hown := (hfits _ List.mem_cons_self).exprs
    have hobject := hown object List.mem_cons_self
    have hanchor := hown anchor (List.mem_cons_of_mem _ List.mem_cons_self)
    simp only [Stmt.relabel, stmtCode, exprCode_relabel h hobject, exprCode_relabel h hanchor]
  | .expr _ e, hfits => by
    have he := (hfits _ List.mem_cons_self).exprs e List.mem_cons_self
    rw [Stmt.relabel, stmtCode, stmtCode, callStmtCode_relabel h he]

theorem elseIfsCode_relabel (h : ctx.Alike K ctx') {routine : Routine} {enclosing : Option Nat}
    {number : Nat} : ∀ branches : List ElseIf,
    (∀ e ∈ branches.map ElseIf.condition, e.CallsOnly K) →
    (∀ t ∈ elseIfsWithin true branches, t.Fits K r) →
    elseIfsCode ctx' routine enclosing number (relabelElseIfs r branches) =
      elseIfsCode ctx routine enclosing number branches
  | [], _, _ => rfl
  | .mk condition body :: rest, hconditions, hfits => by
    simp only [elseIfsWithin, List.forall_mem_append] at hfits
    obtain ⟨hfirst, hrest⟩ := List.forall_mem_cons.mp hconditions
    have hcondition : condition.CallsOnly K := hfirst
    simp only [relabelElseIfs, elseIfsCode, exprCode_relabel h hcondition, loopCountAll_relabel,
      blockCode_relabel h body hfits.1, elseIfsCode_relabel h rest hrest hfits.2]

theorem casesCode_relabel (h : ctx.Alike K ctx') {routine : Routine} {enclosing : Option Nat}
    {number : Nat} : ∀ clauses : List CaseClause,
    (∀ e ∈ clauses.flatMap CaseClause.values, e.CallsOnly K) →
    (∀ t ∈ casesWithin true clauses, t.Fits K r) →
    casesCode ctx' routine enclosing number (relabelCases r clauses) =
      casesCode ctx routine enclosing number clauses
  | [], _, _ => rfl
  | .mk values body span :: rest, hvalues, hfits => by
    simp only [casesWithin, List.forall_mem_append] at hfits
    obtain ⟨hvalues, hrest⟩ := List.forall_mem_append.mp hvalues
    rw [relabelCases, casesCode, casesCode, blockCode_relabel h body hfits.1, loopCountAll_relabel,
      casesCode_relabel h rest hrest hfits.2, relabelAll_eq_map, List.map_map]
    refine congrArg (· ++ _) (List.map_congr_left fun value hvalue => ?_)
    rw [Function.comp_apply, exprCode_relabel h (hvalues value hvalue)]

theorem blockCode_relabel (h : ctx.Alike K ctx') {routine : Routine} {enclosing : Option Nat}
    {number : Nat} : ∀ stmts : List Stmt, (∀ t ∈ stmtsWithin true stmts, t.Fits K r) →
    blockCode ctx' routine enclosing number (relabelStmts r stmts) =
      blockCode ctx routine enclosing number stmts
  | [], _ => rfl
  | s :: rest, hfits => by
    simp only [stmtsWithin, List.forall_mem_append] at hfits
    simp only [relabelStmts, blockCode, loopCount_relabel, stmtCode_relabel h s hfits.1,
      blockCode_relabel h rest hfits.2]

end

/-! ### What is known beforehand -/

theorem mustWait_relabel (h : ctx.Alike K ctx') {names : List String} {value : Expr}
    (hvalue : value.CallsOnly K) :
    mustWait ctx' names (value.relabel r) = mustWait ctx names value := by
  unfold mustWait
  rw [Expr.subterms_relabel, List.any_map, Bool.eq_iff_iff, List.any_eq_true, List.any_eq_true]
  refine exists_congr fun e => and_congr_right fun he => ?_
  cases e with
  | call info name args => exact iff_of_eq (congrArg (· = true) (h.functionSuspends name))
  | var info name typeName => simp only [Function.comp_apply, Expr.relabel, identifier_name]
  | command info name args =>
    have hname : K (Text.lower name) := hvalue _ (List.mem_filterMap.mpr ⟨_, he, rfl⟩)
    simp only [Function.comp_apply, Expr.relabel, Relabel.Respells.command_eq,
      h.commandSuspends hname]
  | _ => exact Iff.rfl

theorem postponedFrom_relabel (h : ctx.Alike K ctx') {constants : List Constant}
    (hconstants : ∀ c ∈ constants, c.value.CallsOnly K) : ∀ names : List String,
    postponedFrom ctx' names (constants.map (Constant.relabel r)) =
      postponedFrom ctx names constants := by
  induction constants with
  | nil => exact fun _ => rfl
  | cons c rest ih =>
    intro names
    obtain ⟨hc, hrest⟩ := List.forall_mem_cons.mp hconstants
    simp only [List.map_cons, postponedFrom, Constant.relabel, identifier_name,
      mustWait_relabel h hc, ih hrest]

end Script

namespace CallGraph

variable {graph : CallGraph} {seeds more : List String}

/-- The search depends on which of the called commands are looked for, and on nothing else. -/
theorem reach_congr
    (h : ∀ name key, graph.Calls name (.command key) → (key ∈ more ↔ key ∈ seeds)) :
    graph.reach more = graph.reach seeds := by
  have htouches : ∀ marked, ∀ entry ∈ graph.calls,
      touches more marked entry.2 = touches seeds marked entry.2 := by
    intro marked entry hentry
    rw [Bool.eq_iff_iff, touches_iff, touches_iff]
    refine or_congr_left (exists_congr fun key => and_congr_left fun hkey => ?_)
    exact h entry.1 key ⟨entry.2, hentry, hkey⟩
  have hpass : ∀ marked, graph.pass more marked = graph.pass seeds marked := by
    intro marked
    refine congrArg (List.map Prod.fst) (List.filter_congr fun entry hentry => ?_)
    rw [htouches marked entry hentry]
  have hspread : ∀ bound reach, graph.spread more bound reach = graph.spread seeds bound reach := by
    intro bound
    induction bound with
    | zero => exact fun _ => rfl
    | succ bound ih =>
      intro reach
      simp only [spread, hpass, ih]
  exact hspread _ _

end CallGraph

namespace Script

variable {K : String → Prop} {r : Relabel} [r.Respells] {plan plan' : Plan}

/-- The parts of a program fit. -/
structure Plan.Fits (K : String → Prop) (r : Relabel) [r.Respells] (plan : Plan) : Prop where
  constants : ∀ c ∈ plan.schedule.constants, c.value.CallsOnly K
  functions : ∀ s ∈ plan.schedule.functions, ∀ t ∈ s.within true, t.Fits K r
  ordinary : ∀ s ∈ plan.schedule.ordinary, ∀ t ∈ s.within true, t.Fits K r

/-- The same is known about a program with other labels. -/
structure Plan.Alike (K : String → Prop) (r : Relabel) (plan plan' : Plan) : Prop where
  context : plan.context.Alike K plan'.context
  schedule : plan'.schedule = plan.schedule.relabel r
  postponed : plan'.postponed = plan.postponed
  globals : plan'.globals = plan.globals

/-! ### The parts of a script -/

theorem classCode?_relabel (s : Stmt) : classCode? (s.relabel r) = classCode? s := by
  cases s with
  | if_ => rw [Stmt.relabel_if]; rfl
  | select => rw [Stmt.relabel_select]; rfl
  | type span name fields =>
    simp only [Stmt.relabel, classCode?, List.map_map, Function.comp_def, FieldDecl.relabel,
      className_name, identifier_name, Initial.ofName_relabel]
  | _ => rfl

theorem paramCode_relabel {ctx ctx' : Context} (h : ctx.Alike K ctx') {param : Param}
    (hparam : ∀ e ∈ param.default, e.CallsOnly K) :
    paramCode ctx' (param.relabel r) = paramCode ctx param := by
  unfold paramCode
  simp only [Param.relabel, identifier_name, Option.map_map, Function.comp_def]
  rw [Option.map_congr fun e he => exprCode_relabel h (hparam e he)]

section Parts

variable (h : plan.Alike K r plan')
include h

theorem isPostponed_relabel (c : Constant) :
    plan'.isPostponed (c.relabel r) = plan.isPostponed c := by
  simp only [Plan.isPostponed, h.postponed, Constant.relabel, identifier_name]

theorem constantCode_relabel {c : Constant} (hc : c.value.CallsOnly K) :
    constantCode plan' (c.relabel r) = constantCode plan c := by
  have hinitial : Initial.ofName (r.name c.name) none = .ofName c.name none :=
    Initial.ofName_relabel r c.name none
  unfold constantCode
  rw [isPostponed_relabel h]
  simp only [Constant.relabel, identifier_name, hinitial, exprCode_relabel h.context hc]

theorem functionCode?_relabel {s : Stmt} (hfits : ∀ t ∈ s.within true, t.Fits K r) :
    functionCode? plan' (s.relabel r) = functionCode? plan s := by
  cases s with
  | if_ => rw [Stmt.relabel_if]; rfl
  | select => rw [Stmt.relabel_select]; rfl
  | function span name returns params body =>
    simp only [Stmt.within, if_true, List.forall_mem_cons] at hfits
    obtain ⟨hown, hbody⟩ := hfits
    have hparams : (params.map (Param.relabel r)).map (paramCode plan'.context) =
        params.map (paramCode plan.context) := by
      rw [List.map_map]
      refine List.map_congr_left fun param hparam => paramCode_relabel h.context fun e he => ?_
      exact hown.exprs e (List.mem_filterMap.mpr ⟨param, hparam, he⟩)
    have hnames : (params.map (Param.relabel r)).map (fun p => identifier p.name) =
        params.map fun p => identifier p.name := by
      simp only [List.map_map, Function.comp_def, Param.relabel, identifier_name]
    simp only [Stmt.relabel, functionCode?, Initial.ofName_relabel, h.context.functionSuspends,
      h.globals, Relabel.fold_name, hparams, hnames, localBindings_relabel,
      blockCode_relabel h.context body hbody]
  | _ => rfl

theorem routineCode_relabel {routine : Routine} {stmts : List Stmt}
    (hfits : ∀ s ∈ stmts, ∀ t ∈ s.within true, t.Fits K r) :
    blockCode plan'.context routine none 0 (stmts.map (Stmt.relabel r)) =
      blockCode plan.context routine none 0 stmts := by
  rw [← relabelStmts_eq_map]
  refine blockCode_relabel h.context stmts fun t ht => ?_
  obtain ⟨s, hs, ht⟩ := mem_stmtsWithin.mp ht
  exact hfits s hs t ht

variable (hfits : plan.Fits K r)
include hfits

theorem initCode_relabel : initCode plan' = initCode plan := by
  have hinit : ∀ s ∈ plan.schedule.init, ∀ t ∈ s.within true, t.Fits K r :=
    fun s hs => hfits.ordinary s (List.mem_append_left _ (List.mem_append_left _ hs))
  have hisPostponed : plan'.isPostponed ∘ Constant.relabel r = plan.isPostponed :=
    funext (isPostponed_relabel h)
  have hpostponed : postponedCode plan' = postponedCode plan := by
    unfold postponedCode
    rw [h.schedule, Schedule.relabel, List.filter_map, hisPostponed, List.map_map]
    refine List.map_congr_left fun c hc => ?_
    have hvalue := hfits.constants c (List.mem_filter.mp hc).1
    simp only [Function.comp_apply, Constant.relabel, identifier_name,
      exprCode_relabel h.context hvalue]
  unfold initCode
  rw [hpostponed, h.schedule]
  simp only [Schedule.relabel, routineCode_relabel h hinit, Option.isNone_map]

theorem updateCode_relabel : updateCode plan' = updateCode plan := by
  unfold updateCode
  rw [h.schedule]
  simp only [Schedule.relabel]
  cases hloop : plan.schedule.mainLoop with
  | none => rfl
  | some s =>
    have hmem : s ∈ plan.schedule.ordinary := by
      refine List.mem_append_left _ (List.mem_append_right _ ?_)
      rw [hloop]
      exact List.mem_singleton_self s
    have hbody := hfits.ordinary s hmem
    cases s with
    | if_ => rw [Option.map_some, Stmt.relabel_if]
    | select => rw [Option.map_some, Stmt.relabel_select]
    | while_ span condition body =>
      simp only [Stmt.within, List.forall_mem_cons] at hbody
      have hcondition := hbody.1.exprs condition List.mem_cons_self
      simp only [Option.map_some, Stmt.relabel, exprCode_relabel h.context hcondition,
        blockCode_relabel h.context body hbody.2]
    | repeat_ span body condition =>
      simp only [Stmt.within, List.forall_mem_cons] at hbody
      simp only [Option.map_some, Stmt.relabel, Option.toList_map, List.map_map,
        blockCode_relabel h.context body hbody.2]
      refine congrArg (_ ++ ·) (List.map_congr_left fun e he => ?_)
      rw [Function.comp_apply, exprCode_relabel h.context (hbody.1.exprs e he)]
    | _ => rfl

theorem shutdownCode_relabel : shutdownCode plan' = shutdownCode plan := by
  have hshutdown : ∀ s ∈ plan.schedule.shutdown, ∀ t ∈ s.within true, t.Fits K r :=
    fun s hs => hfits.ordinary s (List.mem_append_right _ hs)
  unfold shutdownCode
  rw [h.schedule, Schedule.relabel, routineCode_relabel h hshutdown]

theorem ofPlan_relabel :
    ofPlan plan' = { ofPlan plan with data := plan'.context.pool.values.map dataCode } := by
  have hconstants : (plan.schedule.constants.map (Constant.relabel r)).map (constantCode plan') =
      plan.schedule.constants.map (constantCode plan) := by
    rw [List.map_map]
    exact List.map_congr_left fun c hc => constantCode_relabel h (hfits.constants c hc)
  have hclasses : (plan.schedule.types.map (Stmt.relabel r)).filterMap classCode? =
      plan.schedule.types.filterMap classCode? := by
    rw [List.filterMap_map]
    exact congrArg (List.filterMap · _) (funext classCode?_relabel)
  have hfunctions : (plan.schedule.functions.map (Stmt.relabel r)).filterMap (functionCode? plan') =
      plan.schedule.functions.filterMap (functionCode? plan) := by
    rw [List.filterMap_map]
    exact List.filterMap_congr fun s hs => functionCode?_relabel h (hfits.functions s hs)
  unfold ofPlan
  rw [initCode_relabel h hfits, updateCode_relabel h hfits, shutdownCode_relabel h hfits,
    h.schedule, scriptBindings_relabel]
  simp only [Schedule.relabel, hconstants, hclasses, hfunctions]

end Parts

/-! ### The whole script -/

section Program

variable {p : Program}

theorem callsOnly_of_callee {stmts : List Stmt} (hfits : ∀ t ∈ stmtsWithin true stmts, t.Fits K r)
    {key : String} (hkey : .command key ∈ callees stmts) : K key := by
  obtain ⟨sub, hsub, hcallee⟩ := List.mem_filterMap.mp hkey
  obtain ⟨t, ht, hsub⟩ := List.mem_flatMap.mp hsub
  obtain ⟨e, he, hsub⟩ := List.mem_flatMap.mp hsub
  obtain ⟨s, hs, ht⟩ := mem_stmtsWithin.mp ht
  have htfits := hfits t (mem_stmtsWithin.mpr ⟨s, hs, within_false_subset s ht⟩)
  exact htfits.exprs e he key (List.mem_filterMap.mpr ⟨sub, hsub, hcallee⟩)

theorem Plan.fits_ofProgram (commands : CommandTable)
    (hfits : ∀ t ∈ stmtsWithin true p.stmts, t.Fits K r) :
    (Plan.ofProgram commands p).Fits K r := by
  have hstmts : ∀ s ∈ p.stmts, ∀ t ∈ s.within true, t.Fits K r :=
    fun s hs t ht => hfits t (mem_stmtsWithin.mpr ⟨s, hs, ht⟩)
  unfold Plan.ofProgram
  refine ⟨fun c hc => ?_, fun s hs => ?_, fun s hs => ?_⟩
  · rw [Schedule.constants_ofProgram] at hc
    obtain ⟨t, ht, hconstant⟩ := List.mem_filterMap.mp hc
    obtain ⟨s, hs, ht⟩ := mem_stmtsWithin.mp ht
    have htfits := hstmts s hs t (within_false_subset s ht)
    unfold Stmt.constant? at hconstant
    split at hconstant
    · cases hconstant
      exact htfits.exprs _ List.mem_cons_self
    · cases hconstant
  · rw [Schedule.functions_ofProgram] at hs
    exact hstmts s (List.mem_filter.mp hs).1
  · rw [Schedule.ordinary_ofProgram] at hs
    exact hstmts s (List.mem_filter.mp hs).1

variable {commands commands' : CommandTable}
  (hget : ∀ name, K (Text.lower name) → commands'.get? name = commands.get? name)
  (hsuspends : ∀ key, K key →
    commands'.suspendingNames.contains key = commands.suspendingNames.contains key)
  (hfits : ∀ t ∈ stmtsWithin true p.stmts, t.Fits K r)
include hget hsuspends hfits

theorem Plan.alike_ofProgram :
    (Plan.ofProgram commands p).Alike K r (Plan.ofProgram commands' (p.relabel r)) := by
  have hreach : (CallGraph.ofProgram (p.relabel r)).reach commands'.suspendingNames =
      (CallGraph.ofProgram p).reach commands.suspendingNames := by
    -- the graph is the same, and the search asks only for commands that its functions call
    rw [CallGraph.ofProgram_relabel]
    refine CallGraph.reach_congr fun caller key hcalls => ?_
    obtain ⟨span, spelled, returns, params, body, hmem, -, hkey⟩ :=
      CallGraph.calls_ofProgram.mp hcalls
    have hbody : ∀ t ∈ stmtsWithin true body, t.Fits K r := fun t ht =>
      hfits t (mem_stmtsWithin.mpr ⟨_, (List.mem_filter.mp hmem).1, List.mem_cons_of_mem _ ht⟩)
    rw [← List.contains_iff_mem, ← List.contains_iff_mem,
      hsuspends key (callsOnly_of_callee hbody hkey)]
  have hlabels : (DataPool.ofProgram (p.relabel r)).labels = (DataPool.ofProgram p).labels := by
    rw [DataPool.ofProgram_relabel]
  have hcontext : (Plan.ofProgram commands p).context.Alike K
      (Plan.ofProgram commands' (p.relabel r)).context :=
    ⟨congrArg Reach.marked hreach, hlabels, hget, hsuspends⟩
  have hschedule : (Plan.ofProgram commands' (p.relabel r)).schedule =
      (Plan.ofProgram commands p).schedule.relabel r := by
    simp only [Plan.ofProgram, CallGraph.ofProgram_relabel, Schedule.ofProgram_relabel]
  refine ⟨hcontext, hschedule, ?_, globalNames_relabel r p⟩
  have hconstants := (Plan.fits_ofProgram commands hfits).constants
  have hpostponed : Script.postponed (Plan.ofProgram commands' (p.relabel r)).context
      ((Plan.ofProgram commands p).schedule.relabel r).constants =
        (Plan.ofProgram commands p).postponed := postponedFrom_relabel hcontext hconstants []
  rw [← hschedule] at hpostponed
  exact hpostponed

/-- The script of a program with other labels, and with a table that says the same of the commands
it calls, is the same but for its data. -/
theorem ofProgram_relabel :
    ofProgram commands' (p.relabel r) =
      { ofProgram commands p with
        data := ((DataPool.ofProgram p).values.map r.data).map dataCode } := by
  have halike := Plan.alike_ofProgram hget hsuspends hfits
  unfold ofProgram
  rw [ofPlan_relabel halike (Plan.fits_ofProgram commands hfits)]
  exact congrArg (fun pool : DataPool => { ofPlan (Plan.ofProgram commands p) with
    data := pool.values.map dataCode }) (DataPool.ofProgram_relabel r p)

end Program

end Script

end FrameBasic
