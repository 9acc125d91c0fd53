import FrameBasic.Proofs.Tree.Walk
import FrameBasic.Script.Stmt
import Mathlib.Data.List.Nodup

/-!
# Loops in the script

A loop of a routine has a label with its number, and `Exit` leaves the innermost loop around it
through that label.  The code is a tree in which a loop knows its number.  It can also be written
line after line with a counter for the numbers, a depth for the blanks, and a stack of the open
loops.  Both give the same lines, so what holds of the tree holds of the lines.

What the code has to do with the statements is said without the numbers of the tree: its loops and
the lines that leave them, with everything else dropped, are compared with the loops and the `Exit`
statements of the program.

## Main definitions

* `Script.outlines`, `Script.declaredIn` — the loops of the code, and the names it declares for them.
* `Script.Written` — the loops of the code are those of the statements, and are left by `Exit`.
* `Script.Emitter`, `Script.emitAll` — writing line after line.

## Main results

* `Script.blockCode_numbered` — a list of statements has the loops numbered in a row.
* `Script.emitAll_eq` — the lines are those of the tree.
* `Script.emitAll_loops` — **labels are distinct, and `Exit` leaves the innermost loop around it**.
-/

namespace FrameBasic

/-- The statements that a loop repeats. -/
def Stmt.loopBody? : Stmt → Option (List Stmt)
  | .while_ _ _ body | .repeat_ _ body _ | .for_ _ _ _ _ _ body | .forEach _ _ _ body => some body
  | _ => none

namespace Script

/-! ### Loops in the code -/

mutual

/-- The loops of a tree and the lines that leave them; all other lines are dropped. -/
def Code.outline : Code → List Code
  | .nest body => outlines body
  | .loop number head body foot => [.loop number head (outlines body) foot]
  | .leave number => [.leave number]
  | .line _ | .step _ _ => []

/-- The loops of a list of trees and the lines that leave them. -/
def outlines : List Code → List Code
  | [] => []
  | code :: rest => code.outline ++ outlines rest

end

mutual

/-- The labels and the variables for steps that a tree declares. -/
def Code.declared : Code → List String
  | .nest body => declaredIn body
  | .loop number _ body _ => loopLabel number :: declaredIn body
  | .step number _ => [stepName number]
  | .line _ | .leave _ => []

/-- The labels and the variables for steps that a list of trees declares. -/
def declaredIn : List Code → List String
  | [] => []
  | code :: rest => code.declared ++ declaredIn rest

end

/-- The loops of the code are those of the statements, and they are left where a statement `Exit`
stands in a loop, through the number of the innermost loop around it.  The blocks of all other
statements stand in the same loop as the statement. -/
inductive Written : Option Nat → List Stmt → List Code → Prop where
  | nil {around : Option Nat} : Written around [] []
  | loop {around : Option Nat} {s : Stmt} {body rest : List Stmt} {number : Nat}
      {head foot : Fragment} {inner code : List Code} (hs : s.loopBody? = some body)
      (hbody : Written (some number) body inner) (hrest : Written around rest code) :
      Written around (s :: rest) (.loop number head inner foot :: code)
  | exit {number : Nat} {span : Span} {rest : List Stmt} {code : List Code}
      (hrest : Written (some number) rest code) :
      Written (some number) (.exit span :: rest) (.leave number :: code)
  | outside {span : Span} {rest : List Stmt} {code : List Code} (hrest : Written none rest code) :
      Written none (.exit span :: rest) code
  | other {around : Option Nat} {s : Stmt} {rest : List Stmt} {code : List Code}
      (hloop : s.loopBody? = none) (hexit : ∀ span, s ≠ .exit span)
      (h : Written around (s.blocks.flatten ++ rest) code) : Written around (s :: rest) code

theorem outlines_append (as bs : List Code) : outlines (as ++ bs) = outlines as ++ outlines bs := by
  induction as with
  | nil => rfl
  | cons a as ih => rw [List.cons_append, outlines, outlines, ih, List.append_assoc]

theorem declaredIn_append (as bs : List Code) :
    declaredIn (as ++ bs) = declaredIn as ++ declaredIn bs := by
  induction as with
  | nil => rfl
  | cons a as ih => rw [List.cons_append, declaredIn, declaredIn, ih, List.append_assoc]

theorem Written.append {around : Option Nat} {as bs : List Stmt} {code more : List Code}
    (h : Written around as code) (hmore : Written around bs more) :
    Written around (as ++ bs) (code ++ more) := by
  induction h with
  | nil => exact hmore
  | loop hs hbody _ _ ih => exact .loop hs hbody (ih hmore)
  | exit _ ih => exact .exit (ih hmore)
  | outside _ ih => exact .outside (ih hmore)
  | other hloop hexit _ ih =>
    exact .other hloop hexit (List.append_assoc .. ▸ ih hmore)

/-- A name is the label or the step of one of `count` loops, from a number on. -/
def Counts (number count : Nat) (name : String) : Prop :=
  ∃ k, number ≤ k ∧ k < number + count ∧ (name = loopLabel k ∨ name = stepName k)

theorem toString_inj {m n : Nat} (h : toString m = toString n) : m = n := by
  rw [Nat.toString_eq_ofList_toDigits, Nat.toString_eq_ofList_toDigits, String.ofList_inj] at h
  have hdigits := congrArg (Nat.ofDigitChars 10 · 0) h
  simpa [Nat.ofDigitChars_toDigits] using hdigits

theorem loopLabel_inj {m n : Nat} : loopLabel m = loopLabel n ↔ m = n :=
  ⟨fun h => toString_inj ((String.append_right_inj _).mp h), congrArg loopLabel⟩

theorem stepName_inj {m n : Nat} : stepName m = stepName n ↔ m = n :=
  ⟨fun h => toString_inj ((String.append_right_inj _).mp h), congrArg stepName⟩

theorem loopLabel_ne_stepName (m n : Nat) : loopLabel m ≠ stepName n := by
  intro h
  have hsecond := congrArg (fun name => name.toList[1]?) h
  simp [loopLabel, stepName] at hsecond

/-- In the text a loop begins with its label, binds its step by name, and is left through its
label. -/
theorem render_lines (depth number : Nat) (head value foot : Fragment) (body : List Code) :
    let texts (code : Code) := (code.lines depth).map fun line => line.2.render
    (texts (.loop number head body foot)).head? =
        some (loopLabel number ++ ": " ++ head.render ++ " \x7b") ∧
      texts (.step number value) = ["let " ++ stepName number ++ " = " ++ value.render ++ ";"] ∧
      texts (.leave number) = ["break " ++ loopLabel number ++ ";"] := by
  simp [Code.lines, ← String.toList_inj, Fragment.toList_render, plain, Piece.render]

/-- Loops with other numbers have other names. -/
theorem Counts.disjoint {number count more : Nat} {name : String} (h : Counts number count name) :
    ¬ Counts (number + count) more name := by
  obtain ⟨k, -, hk, hname⟩ := h
  rintro ⟨l, hl, -, hname'⟩
  have hkl : k = l := by
    rcases hname with rfl | rfl <;> rcases hname' with h | h
    · exact loopLabel_inj.mp h
    · exact absurd h (loopLabel_ne_stepName _ _)
    · exact absurd h.symm (loopLabel_ne_stepName _ _)
    · exact stepName_inj.mp h
  omega

/-- The code has the loops of the statements, numbered from `number` on. -/
structure Numbered (around : Option Nat) (number count : Nat) (stmts : List Stmt)
    (code : List Code) : Prop where
  written : Written around stmts (outlines code)
  nodup : (declaredIn code).Nodup
  counts : ∀ name ∈ declaredIn code, Counts number count name

namespace Numbered

variable {around : Option Nat} {number count more : Nat} {s : Stmt} {stmts rest : List Stmt}
  {code code' : List Code}

theorem nil : Numbered around number 0 [] [] :=
  ⟨.nil, .nil, nofun⟩

theorem append (h : Numbered around number count stmts code)
    (h' : Numbered around (number + count) more rest code') :
    Numbered around number (count + more) (stmts ++ rest) (code ++ code') := by
  refine ⟨?_, ?_, ?_⟩
  · rw [outlines_append]
    exact h.written.append h'.written
  · rw [declaredIn_append]
    exact h.nodup.append h'.nodup fun name hname hname' =>
      (h.counts name hname).disjoint (h'.counts name hname')
  · rw [declaredIn_append]
    intro name hname
    rcases List.mem_append.mp hname with hname | hname
    · obtain ⟨k, hle, hlt, hk⟩ := h.counts name hname
      exact ⟨k, hle, by omega, hk⟩
    · obtain ⟨k, hle, hlt, hk⟩ := h'.counts name hname
      exact ⟨k, by omega, by omega, hk⟩

/-- Other lines do not matter. -/
theorem congr (h : Numbered around number count stmts code)
    (houtline : outlines code' = outlines code) (hdeclared : declaredIn code' = declaredIn code) :
    Numbered around number count stmts code' :=
  ⟨houtline ▸ h.written, hdeclared ▸ h.nodup, hdeclared ▸ h.counts⟩

/-- The blocks of a statement that is no loop. -/
theorem blocks (hloop : s.loopBody? = none) (hexit : ∀ span, s ≠ .exit span)
    (h : Numbered around number count s.blocks.flatten code) :
    Numbered around number count [s] code :=
  ⟨.other hloop hexit ((List.append_nil _).symm ▸ h.written), h.nodup, h.counts⟩

/-- A statement without blocks. -/
theorem lines (hloop : s.loopBody? = none) (hexit : ∀ span, s ≠ .exit span)
    (hblocks : s.blocks = []) (hcode : ∀ c ∈ code, ∃ f, c = .line f) :
    Numbered around number 0 [s] code := by
  have hnone : outlines code = [] ∧ declaredIn code = [] := by
    induction code with
    | nil => exact ⟨rfl, rfl⟩
    | cons c code ih =>
      obtain ⟨⟨f, rfl⟩, hrest⟩ := List.forall_mem_cons.mp hcode
      exact ih hrest
  refine blocks hloop hexit ?_
  rw [hblocks]
  exact nil.congr hnone.1 hnone.2

/-- A loop, perhaps with a line before it that binds its step. -/
theorem loop {body : List Stmt} {head foot : Fragment} {steps : List Code}
    (hs : s.loopBody? = some body) (hsteps : steps = [] ∨ ∃ value, steps = [.step number value])
    (h : Numbered (some number) (number + 1) count body code) :
    Numbered around number (1 + count) [s] (steps ++ [.loop number head code foot]) := by
  -- the loop takes the first number and its body the ones behind it
  have hself : ∀ name, name = loopLabel number ∨ name = stepName number →
      name ∉ declaredIn code := by
    intro name hname hmem
    have hone : Counts number 1 name := ⟨number, Nat.le_refl _, Nat.lt_succ_self _, hname⟩
    exact hone.disjoint (h.counts name hmem)
  have hcounts : ∀ name,
      name = loopLabel number ∨ name = stepName number ∨ name ∈ declaredIn code →
      Counts number (1 + count) name := by
    rintro name (rfl | rfl | hmem)
    · exact ⟨number, Nat.le_refl _, by omega, .inl rfl⟩
    · exact ⟨number, Nat.le_refl _, by omega, .inr rfl⟩
    · obtain ⟨k, hle, hlt, hk⟩ := h.counts name hmem
      exact ⟨k, by omega, by omega, hk⟩
  have hwritten : Written around [s] [.loop number head (outlines code) foot] :=
    .loop hs h.written .nil
  have hnodup : (loopLabel number :: declaredIn code).Nodup :=
    List.nodup_cons.mpr ⟨hself _ (.inl rfl), h.nodup⟩
  rcases hsteps with rfl | ⟨value, rfl⟩
  · refine ⟨hwritten, ?_, ?_⟩
    · simpa [declaredIn, Code.declared] using hnodup
    · simpa [declaredIn, Code.declared] using
        ⟨hcounts _ (.inl rfl), fun name hmem => hcounts name (.inr (.inr hmem))⟩
  · refine ⟨hwritten, ?_, ?_⟩
    · have hne := (loopLabel_ne_stepName number number).symm
      simpa [declaredIn, Code.declared, hne, hself _ (.inr rfl)] using hnodup
    · simpa [declaredIn, Code.declared] using
        ⟨hcounts _ (.inr (.inl rfl)), hcounts _ (.inl rfl),
          fun name hmem => hcounts name (.inr (.inr hmem))⟩

end Numbered

/-! ### Statements -/

section Statements

variable {ctx : Context} {routine : Routine}

theorem exitCode_numbered {around : Option Nat} {number : Nat} {span : Span} :
    Numbered around number 0 [.exit span] [exitCode routine around] := by
  cases around with
  | some n => exact ⟨.exit .nil, .nil, nofun⟩
  | none => cases routine <;> exact ⟨.outside .nil, .nil, nofun⟩

theorem varCode_lines {scope : DeclScope} {v : VarDecl} :
    ∀ c ∈ varCode ctx scope v, ∃ f, c = .line f := by
  unfold varCode
  split <;> simp

theorem callStmtCode_lines {e : Expr} : ∀ c ∈ callStmtCode ctx e, ∃ f, c = .line f := by
  unfold callStmtCode
  split
  · split <;> simp
  all_goals simp

theorem forHead_steps {number : Nat} {name : String} {first last : Expr} {step : Option Expr} :
    (forHead ctx number name first last step).1 = [] ∨
      ∃ value, (forHead ctx number name first last step).1 = [.step number value] := by
  unfold forHead
  split
  · exact .inl rfl
  · split
    · exact .inl rfl
    · exact .inr ⟨_, rfl⟩

mutual

theorem stmtCode_numbered : ∀ (s : Stmt) (around : Option Nat) (number : Nat),
    Numbered around number (loopCount s) [s] (stmtCode ctx routine around number s)
  | .if_ _ _ thenBranch elseIfs none, around, number => by
    have h := (blockCode_numbered thenBranch around number).append
      (elseIfsCode_numbered elseIfs around _)
    refine .blocks rfl nofun ?_
    simpa [Stmt.blocks, loopCount] using h.congr
      (by simp [stmtCode, outlines, outlines_append, Code.outline])
      (by simp [stmtCode, declaredIn, declaredIn_append, Code.declared])
  | .if_ _ _ thenBranch elseIfs (some elseBranch), around, number => by
    -- the blocks are numbered in the order in which they are written
    have h := ((blockCode_numbered thenBranch around number).append
      (elseIfsCode_numbered elseIfs around _)).append (blockCode_numbered elseBranch around _)
    rw [← Nat.add_assoc] at h
    refine .blocks rfl nofun ?_
    simpa [Stmt.blocks, loopCount] using h.congr
      (by simp [stmtCode, outlines, outlines_append, Code.outline])
      (by simp [stmtCode, declaredIn, declaredIn_append, Code.declared])
  | .select _ _ cases none, around, number => by
    refine .blocks rfl nofun ?_
    simpa [Stmt.blocks, loopCount] using (casesCode_numbered cases around number).congr
      (by simp [stmtCode, outlines, Code.outline]) (by simp [stmtCode, declaredIn, Code.declared])
  | .select _ _ cases (some default), around, number => by
    have h := (casesCode_numbered cases around number).append (blockCode_numbered default around _)
    refine .blocks rfl nofun ?_
    simpa [Stmt.blocks, loopCount] using h.congr
      (by simp [stmtCode, outlines, outlines_append, Code.outline])
      (by simp [stmtCode, declaredIn, declaredIn_append, Code.declared])
  | .while_ _ _ body, _, _ | .repeat_ _ body (some _), _, _ | .repeat_ _ body none, _, _
  | .forEach _ _ _ body, _, _ => .loop rfl (.inl rfl) (blockCode_numbered body _ _)
  | .for_ _ _ _ _ _ body, _, _ => .loop rfl forHead_steps (blockCode_numbered body _ _)
  | .exit _, _, _ => exitCode_numbered
  | .declare _ scope vars, _, _ => .lines rfl nofun rfl fun c hc => by
    obtain ⟨v, -, hc⟩ := List.mem_flatMap.mp hc
    exact varCode_lines c hc
  | .const _ name value, _, _ => .lines rfl nofun rfl (by cases routine <;> simp [stmtCode])
  | .expr _ e, _, _ => .lines rfl nofun rfl callStmtCode_lines
  | .dim _ arrays, _, _ => .lines rfl nofun rfl (by simp [stmtCode, arrayCode])
  | .assign .., _, _ | .function .., _, _ | .type .., _, _ | .return_ .., _, _ | .end_ _, _, _
  | .goto .., _, _ | .gosub .., _, _ | .label .., _, _ | .data .., _, _ | .read .., _, _
  | .restore .., _, _ | .delete .., _, _ | .deleteEach .., _, _ | .insert .., _, _ =>
    .lines rfl nofun rfl (by simp [stmtCode])

theorem elseIfsCode_numbered : ∀ (branches : List ElseIf) (around : Option Nat) (number : Nat),
    Numbered around number (loopCountElseIfs branches) (branches.map ElseIf.body).flatten
      (elseIfsCode ctx routine around number branches)
  | [], _, _ => .nil
  | .mk _ body :: rest, around, number => by
    have h := (blockCode_numbered body around number).append (elseIfsCode_numbered rest around _)
    exact h.congr (by simp [elseIfsCode, outlines, outlines_append, Code.outline])
      (by simp [elseIfsCode, declaredIn, declaredIn_append, Code.declared])

theorem casesCode_numbered : ∀ (clauses : List CaseClause) (around : Option Nat) (number : Nat),
    Numbered around number (loopCountCases clauses) (clauses.map CaseClause.body).flatten
      (casesCode ctx routine around number clauses)
  | [], _, _ => .nil
  | .mk values body _ :: rest, around, number => by
    have h := (blockCode_numbered body around number).append (casesCode_numbered rest around _)
    -- the lines before the body hold no loop, however many values there are
    refine h.congr ?_ ?_
    · induction values with
      | nil => simp [casesCode, outlines, outlines_append, Code.outline]
      | cons value values ih => exact ih
    · induction values with
      | nil => simp [casesCode, declaredIn, declaredIn_append, Code.declared]
      | cons value values ih => exact ih

theorem blockCode_numbered : ∀ (stmts : List Stmt) (around : Option Nat) (number : Nat),
    Numbered around number (loopCountAll stmts) stmts (blockCode ctx routine around number stmts)
  | [], _, _ => .nil
  | s :: rest, around, number =>
    (stmtCode_numbered s around number).append (blockCode_numbered rest around _)

end

end Statements

/-! ### Line after line -/

/-- What is carried from line to line: the number of the next loop, the depth, the open loops from
the innermost one on, and the lines written so far. -/
structure Emitter where
  counter : Nat
  depth : Nat
  loops : List Nat
  lines : List (Nat × Fragment)

namespace Emitter

/-- Writes code at the depth reached. -/
@[simp]
def write (w : Emitter) (code : List Code) : Emitter :=
  { w with lines := w.lines ++ codeLines w.depth code }

/-- Goes one level deeper. -/
@[simp]
def deepen (w : Emitter) : Emitter :=
  { w with depth := w.depth + 1 }

/-- Goes one level up. -/
@[simp]
def rise (w : Emitter) : Emitter :=
  { w with depth := w.depth - 1 }

/-- Takes a number for a loop, writes its first line and opens it. -/
@[simp]
def enter (w : Emitter) (head : Fragment) : Emitter :=
  let line := plain (loopLabel w.counter ++ ": ") ++ head ++ plain " \x7b"
  { w.write [.line line] with counter := w.counter + 1, loops := w.counter :: w.loops }

/-- Leaves the innermost open loop. -/
@[simp]
def leave (w : Emitter) : Emitter :=
  { w with loops := w.loops.tail }

end Emitter

section Emitter

variable (ctx : Context) (routine : Routine)

mutual

/-- Writes a statement. -/
def emit (w : Emitter) : Stmt → Emitter
  | .if_ _ condition thenBranch elseIfs none =>
    let w := w.write [.line (plain "if (" ++ exprCode ctx condition ++ plain ") \x7b")]
    (emitElseIfs (emitAll w.deepen thenBranch).rise elseIfs).write [.line closing]
  | .if_ _ condition thenBranch elseIfs (some elseBranch) =>
    let w := w.write [.line (plain "if (" ++ exprCode ctx condition ++ plain ") \x7b")]
    let w := emitElseIfs (emitAll w.deepen thenBranch).rise elseIfs
    let w := w.write [.line (plain "\x7d else \x7b")]
    (emitAll w.deepen elseBranch).rise.write [.line closing]
  | .while_ _ condition body =>
    let w := w.enter (plain "while (" ++ exprCode ctx condition ++ plain ")")
    (emitAll w.deepen body).rise.leave.write [.line closing]
  | .repeat_ _ body (some condition) =>
    (emitAll (w.enter (plain "do")).deepen body).rise.leave.write
      [.line (plain "\x7d while (!(" ++ exprCode ctx condition ++ plain "));")]
  | .repeat_ _ body none =>
    (emitAll (w.enter (plain "for (;;)")).deepen body).rise.leave.write [.line closing]
  | .for_ _ name first last step body =>
    let head := forHead ctx w.counter name first last step
    (emitAll ((w.write head.1).enter head.2).deepen body).rise.leave.write [.line closing]
  | .forEach _ name typeName body =>
    let w := w.enter (plain "for (" ++ .name (identifier name) ::
      plain (" of [..." ++ className typeName ++ ".$all])"))
    (emitAll w.deepen body).rise.leave.write [.line closing]
  | .select _ subject cases none =>
    let w := w.write [.line (plain "switch (" ++ exprCode ctx subject ++ plain ") \x7b")]
    (emitCases w.deepen cases).rise.write [.line closing]
  | .select _ subject cases (some default) =>
    let w := w.write [.line (plain "switch (" ++ exprCode ctx subject ++ plain ") \x7b")]
    let w := (emitCases w.deepen cases).write [.line (plain "default: \x7b")]
    ((emitAll w.deepen default).rise.write [.line closing]).rise.write [.line closing]
  | s => w.write (stmtCode ctx routine w.loops.head? w.counter s)

/-- Writes the branches after the first one. -/
def emitElseIfs (w : Emitter) : List ElseIf → Emitter
  | [] => w
  | .mk condition body :: rest =>
    let w := w.write [.line (plain "\x7d else if (" ++ exprCode ctx condition ++ plain ") \x7b")]
    emitElseIfs (emitAll w.deepen body).rise rest

/-- Writes the clauses of `Select`. -/
def emitCases (w : Emitter) : List CaseClause → Emitter
  | [] => w
  | .mk values body _ :: rest =>
    let w := w.write ((values.map fun value =>
      .line (plain "case " ++ exprCode ctx value ++ plain ":")) ++ [.line (plain "\x7b")])
    let w := (emitAll w.deepen body).rise.write [.line closing]
    emitCases (w.deepen.write [.line (plain "break;")]).rise rest

/-- Writes a list of statements. -/
def emitAll (w : Emitter) : List Stmt → Emitter
  | [] => w
  | s :: rest => emitAll (emit w s) rest

end

variable {ctx routine}

theorem codeLines_append (depth : Nat) (as bs : List Code) :
    codeLines depth (as ++ bs) = codeLines depth as ++ codeLines depth bs := by
  induction as with
  | nil => rfl
  | cons a as ih => rw [List.cons_append, codeLines, codeLines, ih, List.append_assoc]

mutual

theorem emit_eq : ∀ (s : Stmt) (w : Emitter), emit ctx routine w s =
    { w.write (stmtCode ctx routine w.loops.head? w.counter s) with
      counter := w.counter + loopCount s }
  | .if_ _ _ thenBranch elseIfs none, w => by
    simp [emit, emitAll_eq thenBranch, emitElseIfs_eq elseIfs, stmtCode, codeLines, Code.lines,
      codeLines_append, loopCount, Nat.add_assoc]
  | .if_ _ _ thenBranch elseIfs (some elseBranch), w => by
    simp [emit, emitAll_eq thenBranch, emitElseIfs_eq elseIfs, emitAll_eq elseBranch, stmtCode,
      codeLines, Code.lines, codeLines_append, loopCount, Nat.add_assoc]
  | .while_ _ _ body, _ | .repeat_ _ body (some _), _ | .repeat_ _ body none, _
  | .for_ _ _ _ _ _ body, _ | .forEach _ _ _ body, _ => by
    simp [emit, emitAll_eq body, stmtCode, codeLines, Code.lines, codeLines_append, loopCount,
      Nat.add_assoc]
  | .select _ _ cases none, w => by
    simp [emit, emitCases_eq cases, stmtCode, codeLines, Code.lines, loopCount]
  | .select _ _ cases (some default), w => by
    simp [emit, emitCases_eq cases, emitAll_eq default, stmtCode, codeLines, Code.lines,
      codeLines_append, loopCount, Nat.add_assoc]
  | .exit _, _ | .declare .., _ | .const .., _ | .expr .., _ | .dim .., _ | .assign .., _
  | .function .., _ | .type .., _ | .return_ .., _ | .end_ _, _ | .goto .., _ | .gosub .., _
  | .label .., _ | .data .., _ | .read .., _ | .restore .., _ | .delete .., _
  | .deleteEach .., _ | .insert .., _ => rfl

theorem emitElseIfs_eq : ∀ (branches : List ElseIf) (w : Emitter),
    emitElseIfs ctx routine w branches =
      { w.write (elseIfsCode ctx routine w.loops.head? w.counter branches) with
        counter := w.counter + loopCountElseIfs branches }
  | [], w => by simp [emitElseIfs, elseIfsCode, codeLines, loopCountElseIfs]
  | .mk _ body :: rest, w => by
    simp [emitElseIfs, emitAll_eq body, emitElseIfs_eq rest, elseIfsCode, codeLines, Code.lines,
      loopCountElseIfs, Nat.add_assoc]

theorem emitCases_eq : ∀ (clauses : List CaseClause) (w : Emitter),
    emitCases ctx routine w clauses =
      { w.write (casesCode ctx routine w.loops.head? w.counter clauses) with
        counter := w.counter + loopCountCases clauses }
  | [], w => by simp [emitCases, casesCode, codeLines, loopCountCases]
  | .mk _ body _ :: rest, w => by
    simp [emitCases, emitAll_eq body, emitCases_eq rest, casesCode, codeLines, Code.lines,
      codeLines_append, loopCountCases, Nat.add_assoc]

theorem emitAll_eq : ∀ (stmts : List Stmt) (w : Emitter), emitAll ctx routine w stmts =
    { w.write (blockCode ctx routine w.loops.head? w.counter stmts) with
      counter := w.counter + loopCountAll stmts }
  | [], w => by simp [emitAll, blockCode, codeLines, loopCountAll]
  | s :: rest, w => by
    simp [emitAll, emit_eq s, emitAll_eq rest, blockCode, codeLines_append, loopCountAll,
      Nat.add_assoc]

end

/-- **Labels are distinct, and `Exit` leaves the innermost loop around it.**  Writing statements line
after line leaves the depth and the open loops as they were, and adds the lines of the tree.  In the
tree the labels and the variables for steps are distinct.  Its loops are those of the statements, and
it leaves a loop exactly where an `Exit` stands in one, through the number of the innermost loop,
whatever branches and clauses of `Select` are between them. -/
theorem emitAll_loops (w : Emitter) (stmts : List Stmt) :
    let after := emitAll ctx routine w stmts
    let code := blockCode ctx routine w.loops.head? w.counter stmts
    after.depth = w.depth ∧ after.loops = w.loops ∧
      after.lines = w.lines ++ codeLines w.depth code ∧
      (declaredIn code).Nodup ∧ Written w.loops.head? stmts (outlines code) := by
  intro after code
  have hnumbered : Numbered _ _ _ stmts code := blockCode_numbered stmts w.loops.head? w.counter
  have hafter : after = _ := emitAll_eq stmts w
  rw [hafter]
  exact ⟨rfl, rfl, rfl, hnumbered.nodup, hnumbered.written⟩

end Emitter

end Script

end FrameBasic
