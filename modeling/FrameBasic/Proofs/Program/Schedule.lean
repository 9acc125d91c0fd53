import FrameBasic.Proofs.Program.Binding
import FrameBasic.Proofs.Program.Reach
import FrameBasic.Script.Program
import Mathlib.Data.List.TakeWhile

/-!
# The parts of a program

Every statement at the top level runs in one part of a program, and within its part in the order of
the source.  The main loop is the first loop whose body presents a frame.  What a body presents is
said here by what stands in it: statements at any depth of its blocks, and expressions at any depth of
these statements.

## Main definitions

* `StandsIn` — a statement stands in a block or below it, outside of functions.
* `Program.Presents` — a block presents a frame, by itself or through functions that it calls.
* `Program.FrameLoop` — a loop whose body presents a frame.

## Main results

* `Program.presents_iff` — the walk through a block finds whether it presents a frame.
* `Schedule.ofProgram_of_split`, `Schedule.ofProgram_of_forall` — where a program is cut.
* `Schedule.parts_of_program` — **a program is the sum of its parts**.
-/

namespace FrameBasic

/-! ### What stands in a block -/

/-- The statement stands in the block or in a block below it.  Functions are not entered. -/
inductive StandsIn : Stmt → List Stmt → Prop where
  | here {s : Stmt} {block : List Stmt} (h : s ∈ block) : StandsIn s block
  | deeper {s t : Stmt} {block inner : List Stmt} (ht : t ∈ block) (hinner : inner ∈ t.blocks)
      (h : StandsIn s inner) : StandsIn s block

theorem standsIn_iff {s : Stmt} {block : List Stmt} :
    StandsIn s block ↔ s ∈ stmtsWithin false block := by
  constructor
  · intro h
    induction h with
    | here h => exact mem_stmtsWithin.mpr ⟨_, h, Stmt.mem_within_false.mpr (.inl rfl)⟩
    | deeper ht hinner _ ih =>
      exact stmtsWithin_subset_of_mem ht (stmtsWithin_subset_of_mem_blocks hinner ih)
  · intro h
    obtain ⟨t, ht, hmem⟩ := mem_stmtsWithin.mp h
    clear h
    induction t using Stmt.induction_on_blocks generalizing block with
    | h t ih =>
      rcases Stmt.mem_within_false.mp hmem with rfl | ⟨inner, hinner, u, hu, hmem⟩
      · exact .here ht
      · exact .deeper ht hinner (ih inner hinner u hu hu hmem)

/-- The parts of an expression, and their parts, are what a walk through it meets. -/
theorem Expr.mem_subterms_iff {sub e : Expr} :
    sub ∈ e.subterms ↔ Relation.ReflTransGen (fun part whole => part ∈ whole.parts) sub e := by
  constructor
  · intro h
    induction e using Expr.induction_on_parts with
    | h e ih =>
      rw [subterms_eq, List.mem_cons, List.mem_flatMap] at h
      rcases h with rfl | ⟨part, hpart, hsub⟩
      · exact .refl
      · exact (ih part hpart hsub).tail hpart
  · intro h
    induction h with
    | refl => exact mem_subterms_self sub
    | tail _ hpart ih => exact subterms_subset_of_mem_parts hpart ih

/-! ### Frames -/

namespace Program

/-- The expression is the command that presents a frame, or the call of a function from which calls
lead to this command. -/
def Frames (p : Program) : Expr → Prop
  | .command _ name _ => Text.lower name = framePrimitive
  | .call _ name _ => (CallGraph.ofProgram p).Reaches [framePrimitive] (Name.fold name)
  | _ => False

/-- An expression in the block, at whatever depth, presents a frame. -/
def Presents (p : Program) (block : List Stmt) : Prop :=
  ∃ s e sub, StandsIn s block ∧ e ∈ s.ownExprs ∧
    Relation.ReflTransGen (fun part whole => part ∈ whole.parts) sub e ∧ p.Frames sub

/-- The statement is `While` or `Repeat`, and its body presents a frame. -/
def FrameLoop (p : Program) : Stmt → Prop
  | .while_ _ _ body | .repeat_ _ body _ => p.Presents body
  | _ => False

/-- The functions that reach the command that presents a frame. -/
abbrev frameFunctions (p : Program) : List String :=
  ((CallGraph.ofProgram p).reach [framePrimitive]).marked

theorem frames_iff {p : Program} {e : Expr} :
    (∃ callee, e.callee? = some callee ∧ callee.presentsFrame p.frameFunctions = true) ↔
      p.Frames e := by
  cases e <;> simp [Frames, Expr.callee?, Callee.presentsFrame, CallGraph.mem_marked_iff_reaches]

theorem presents_iff {p : Program} {block : List Stmt} :
    presentsFrame p.frameFunctions block = true ↔ p.Presents block := by
  unfold presentsFrame callees exprsWithin Presents
  simp only [List.any_eq_true, List.mem_filterMap, List.mem_flatMap, standsIn_iff,
    ← Expr.mem_subterms_iff, ← frames_iff]
  constructor
  · rintro ⟨callee, ⟨sub, ⟨s, hs, e, he, hsub⟩, hfound⟩, hpresents⟩
    exact ⟨s, e, sub, hs, he, hsub, callee, hfound, hpresents⟩
  · rintro ⟨s, e, sub, hs, he, hsub, callee, hfound, hpresents⟩
    exact ⟨callee, ⟨sub, ⟨s, hs, e, he, hsub⟩, hfound⟩, hpresents⟩

theorem frameLoop_iff {p : Program} {s : Stmt} :
    s.isFrameLoop p.frameFunctions = true ↔ p.FrameLoop s := by
  cases s <;> simp [Stmt.isFrameLoop, FrameLoop, presents_iff]

end Program

/-! ### Where a program is cut -/

/-- Whether a statement is neither a type nor a function. -/
def Stmt.isOrdinary (s : Stmt) : Bool :=
  !(s.isType || s.isFunction)

namespace Schedule

variable {functions : List String} {p : Program}

/-- The first loop that presents a frame cuts the program. -/
theorem ofProgram_of_split {before after : List Stmt} {loop : Stmt}
    (hstmts : p.stmts = before ++ loop :: after) (hloop : loop.isFrameLoop functions = true)
    (hbefore : ∀ s ∈ before, s.isFrameLoop functions = false) :
    (ofProgram functions p).init = before.filter Stmt.isOrdinary ∧
      (ofProgram functions p).mainLoop = some loop ∧
      (ofProgram functions p).shutdown = after.filter Stmt.isOrdinary := by
  have hordinary : loop.isOrdinary = true := by
    cases loop <;> first | rfl | cases hloop
  have hsplit : p.stmts.filter Stmt.isOrdinary =
      before.filter Stmt.isOrdinary ++ loop :: after.filter Stmt.isOrdinary := by
    rw [hstmts, List.filter_append, List.filter_cons_of_pos hordinary]
  have hpass : ∀ s ∈ before.filter Stmt.isOrdinary, (!s.isFrameLoop functions) = true :=
    fun s hs => by rw [hbefore s (List.mem_filter.mp hs).1]; rfl
  have hstop : (!loop.isFrameLoop functions) = false := by rw [hloop]; rfl
  have htake : (before.filter Stmt.isOrdinary ++ loop :: after.filter Stmt.isOrdinary).takeWhile
      (fun s => !s.isFrameLoop functions) = _ := List.takeWhile_append_of_pos hpass
  have hdrop : (before.filter Stmt.isOrdinary ++ loop :: after.filter Stmt.isOrdinary).dropWhile
      (fun s => !s.isFrameLoop functions) = _ := List.dropWhile_append_of_pos hpass
  rw [List.takeWhile_cons, hstop] at htake
  rw [List.dropWhile_cons, hstop] at hdrop
  unfold Stmt.isOrdinary at hsplit htake hdrop ⊢
  simp only [ofProgram_eq, hsplit, htake, hdrop]
  simp

/-- Without a loop that presents a frame, everything runs once. -/
theorem ofProgram_of_forall (h : ∀ s ∈ p.stmts, s.isFrameLoop functions = false) :
    (ofProgram functions p).init = p.stmts.filter Stmt.isOrdinary ∧
      (ofProgram functions p).mainLoop = none ∧ (ofProgram functions p).shutdown = [] := by
  have hpass : ∀ s ∈ p.stmts.filter Stmt.isOrdinary, (!s.isFrameLoop functions) = true :=
    fun s hs => by rw [h s (List.mem_filter.mp hs).1]; rfl
  have htake := List.takeWhile_eq_self_iff.mpr hpass
  have hdrop := List.dropWhile_eq_nil_iff.mpr hpass
  unfold Stmt.isOrdinary at htake hdrop ⊢
  simp only [ofProgram_eq, htake, hdrop]
  simp

/-- Types, functions and the other statements are all statements of a program. -/
theorem perm_filters (stmts : List Stmt) :
    (stmts.filter Stmt.isType ++ stmts.filter Stmt.isFunction ++
      stmts.filter Stmt.isOrdinary).Perm stmts := by
  induction stmts with
  | nil => exact .refl _
  | cons s rest ih =>
    cases s with
    | type => exact ih.cons _
    | function =>
      refine .trans ?_ (ih.cons _)
      exact List.perm_middle.append_right _
    | _ => exact List.perm_middle.trans (ih.cons _)

/-- **A program is the sum of its parts.**  No statement of the top level is lost, repeated or moved:
the types, the functions and the rest are the statements of their kind in the order of the source,
and together they are the whole program.  The rest is cut at the first loop whose body presents a
frame, which is the main loop; there is none if no loop does. -/
theorem parts_of_program (commands : CommandTable) (p : Program) :
    let parts := (Script.Plan.ofProgram commands p).schedule
    let rest := parts.init ++ parts.mainLoop.toList ++ parts.shutdown
    (parts.types ++ parts.functions ++ rest).Perm p.stmts ∧
      parts.types = p.stmts.filter Stmt.isType ∧
      parts.functions = p.stmts.filter Stmt.isFunction ∧
      rest = p.stmts.filter Stmt.isOrdinary ∧
      (∀ loop, parts.mainLoop = some loop ↔ ∃ before after, p.stmts = before ++ loop :: after ∧
        p.FrameLoop loop ∧ (∀ s ∈ before, ¬ p.FrameLoop s) ∧
        parts.init = before.filter Stmt.isOrdinary ∧
        parts.shutdown = after.filter Stmt.isOrdinary) ∧
      (parts.mainLoop = none ↔ ∀ s ∈ p.stmts, ¬ p.FrameLoop s) := by
  intro parts rest
  have hrest : rest = p.stmts.filter Stmt.isOrdinary := ordinary_ofProgram p.frameFunctions p
  have hnot : ∀ s, ¬ p.FrameLoop s ↔ s.isFrameLoop p.frameFunctions = false :=
    fun s => by rw [← Program.frameLoop_iff, Bool.not_eq_true]
  have htypes : parts.types = p.stmts.filter Stmt.isType := types_ofProgram p.frameFunctions p
  have hfunctions : parts.functions = p.functions := functions_ofProgram p.frameFunctions p
  refine ⟨?_, htypes, hfunctions, hrest, ?_⟩
  · rw [htypes, hfunctions, hrest]
    exact perm_filters p.stmts
  cases hfind : p.stmts.find? (Stmt.isFrameLoop p.frameFunctions) with
  | none =>
    have hnone : ∀ s ∈ p.stmts, s.isFrameLoop p.frameFunctions = false := by
      simpa using List.find?_eq_none.mp hfind
    have hmain : parts.mainLoop = none := (ofProgram_of_forall hnone).2.1
    rw [hmain]
    refine ⟨fun loop => ⟨nofun, ?_⟩, fun _ s hs => (hnot s).mpr (hnone s hs), fun _ => rfl⟩
    rintro ⟨before, after, hstmts, hloop, -⟩
    have hmem : loop ∈ p.stmts := by rw [hstmts]; simp
    exact absurd hloop ((hnot loop).mpr (hnone loop hmem))
  | some first =>
    obtain ⟨hfirst, before, after, hstmts, hbefore⟩ := List.find?_eq_some_iff_append.mp hfind
    have hbefore : ∀ s ∈ before, s.isFrameLoop p.frameFunctions = false := by simpa using hbefore
    obtain ⟨hinit, hmain, hshutdown⟩ := ofProgram_of_split hstmts hfirst hbefore
    have hmain : parts.mainLoop = some first := hmain
    have hloop := Program.frameLoop_iff.mp hfirst
    rw [hmain]
    refine ⟨fun loop => ⟨?_, ?_⟩, nofun, fun hnone => ?_⟩
    · rintro ⟨⟩
      exact ⟨before, after, hstmts, hloop, fun s hs => (hnot s).mpr (hbefore s hs), hinit, hshutdown⟩
    · rintro ⟨before', after', hstmts', hloop', hbefore', -⟩
      rw [← hmain]
      exact (ofProgram_of_split hstmts' (Program.frameLoop_iff.mpr hloop')
        fun s hs => (hnot s).mp (hbefore' s hs)).2.1
    · have hmem : first ∈ p.stmts := by rw [hstmts]; simp
      exact absurd hloop (hnone first hmem)

end Schedule

end FrameBasic
