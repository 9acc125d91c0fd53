import FrameBasic.Proofs.Tree.Walk
import FrameBasic.Script.Program

/-!
# Where the pieces of the script come from

Writing down expressions and statements makes only four kinds of pieces: text, names, words that
wait for a command, and calls of functions.  Whatever holds of text, of the names that the program
uses, and of the pieces that the calls found in it stand for, holds of all pieces; the adjustments
of arguments drop, repeat or surround them, but make no other pieces.

## Main definitions

* `Script.Fragment.All`, `Script.CodeAll` — a condition holds of all pieces.
* `Script.Admits` — a condition holds of text, of some names and of what calls stand for.

## Main results

* `Descriptor.arguments_all`, `Descriptor.filled_all` — the adjusted arguments of a command.
* `Script.exprCode_all`, `Script.stmtCode_all`, `Script.blockCode_all` — expressions and statements.
-/

namespace FrameBasic

namespace Script

/-- The condition holds of all pieces of a fragment. -/
def Fragment.All (P : Piece → Prop) (f : Fragment) : Prop :=
  ∀ piece ∈ f, P piece

variable {P : Piece → Prop}

namespace Fragment

@[simp] theorem all_nil : All P [] := fun _ h => absurd h List.not_mem_nil

@[simp] theorem all_cons {piece : Piece} {f : Fragment} :
    All P (piece :: f) ↔ P piece ∧ All P f :=
  List.forall_mem_cons

@[simp] theorem all_append {f g : Fragment} : All P (f ++ g) ↔ All P f ∧ All P g :=
  List.forall_mem_append

@[simp] theorem all_plain {s : String} : All P (plain s) ↔ P (.text s) := by
  simp [plain]

end Fragment

open Fragment

/-! ### Arguments of commands -/

section Arguments

variable (htext : ∀ s, P (.text s))
include htext

theorem commas_all {fs : List Fragment} (h : ∀ f ∈ fs, All P f) : All P (commas fs) := by
  induction fs with
  | nil => exact all_nil
  | cons f rest ih =>
    obtain ⟨hf, hrest⟩ := List.forall_mem_cons.mp h
    cases rest with
    | nil =>
      have hone : commas [f] = f ++ [] := rfl
      rw [hone, List.append_nil]
      exact hf
    | cons g rest =>
      have hcons : commas (f :: g :: rest) = f ++ (plain ", " ++ commas (g :: rest)) := rfl
      rw [hcons, all_append, all_append, all_plain]
      exact ⟨hf, htext _, ih hrest⟩

theorem hostCode_all {device : Device} {arg : Fragment} (h : All P arg) :
    All P (hostCode device arg) := by
  unfold hostCode
  extract_lets call
  split
  · split
    · exact all_plain.mpr (htext _)
    · simp [call, htext]
  · simp [call, htext, h]

theorem truth_all {arg : Fragment} (h : All P arg) : All P (truth arg) := by
  unfold truth
  extract_lets s
  split
  · exact all_plain.mpr (htext _)
  · split
    · exact all_plain.mpr (htext _)
    · simp [htext, h]

end Arguments

end Script

open Script Script.Fragment

section Adjustments

variable {P : Piece → Prop} (htext : ∀ s, P (.text s))
include htext

theorem Transform.apply_all (t : Transform) {args : List Fragment} (h : ∀ a ∈ args, All P a) :
    ∀ a ∈ t.apply args, All P a := by
  have hmissing : All P missing := all_plain.mpr (htext _)
  have hmodify : ∀ {index : Nat} {f : Fragment → Fragment}, (∀ a, All P a → All P (f a)) →
      ∀ a ∈ args.modify index f, All P a := by
    intro index f hf a ha
    obtain ⟨i, hi, rfl⟩ := List.mem_iff_getElem.mp ha
    rw [List.getElem_modify]
    split
    · exact hf _ (h _ (List.getElem_mem _))
    · exact h _ (List.getElem_mem _)
  cases t with
  | default index value =>
    have hpadded : ∀ a ∈ args ++ List.replicate (index - args.length) missing, All P a := by
      intro a ha
      rcases List.mem_append.mp ha with ha | ha
      · exact h a ha
      · rw [List.eq_of_mem_replicate ha]
        exact hmissing
    intro a ha
    dsimp only [apply] at ha
    split at ha
    · rcases List.mem_append.mp ha with ha | ha
      · exact hpadded a ha
      · rw [List.mem_singleton.mp ha, all_plain]
        exact htext value
    · exact hpadded a ha
  | reorder order =>
    intro a ha
    obtain ⟨i, _, hi⟩ := List.mem_filterMap.mp ha
    exact h a (List.mem_of_getElem? hi)
  | flag index => exact hmodify fun _ ha => truth_all htext ha
  | code index device => exact hmodify fun _ ha => hostCode_all htext ha

/-- The adjustments of arguments make no pieces but text. -/
theorem Descriptor.arguments_all (d : Descriptor) {args : List Fragment}
    (h : ∀ a ∈ args, All P a) : ∀ a ∈ d.arguments args, All P a := by
  unfold arguments
  induction d.transforms generalizing args with
  | nil => exact h
  | cons t rest ih => exact ih (t.apply_all htext h)

theorem Template.fill_all {slot : Nat → Fragment} (hslot : ∀ i, All P (slot i)) (cs : List Char) :
    All P (Template.fill (fun c => plain (String.singleton c)) slot cs) := by
  fun_induction Template.fill (fun c => plain (String.singleton c)) slot cs with
  | case1 => exact all_nil
  | case2 rest index n _ ih => exact all_append.mpr ⟨hslot index, ih⟩
  | case3 rest _ ih | case4 c rest _ ih => exact all_append.mpr ⟨all_plain.mpr (htext _), ih⟩

theorem Descriptor.filled_all (d : Descriptor) {args : List Fragment} (h : ∀ a ∈ args, All P a) :
    All P (d.filled args) := by
  refine Template.fill_all htext (fun i => ?_) _
  cases hi : args[i]? with
  | none => exact all_plain.mpr (htext _)
  | some a => exact h a (List.mem_of_getElem? hi)

theorem Script.commandCode_all {ctx : Context} {name : String} {args : List Fragment}
    {code : Fragment} (h : ∀ a ∈ args, All P a) (hcode : commandCode ctx name args = some code) :
    All P code := by
  unfold commandCode at hcode
  split at hcode
  · cases hcode
  · next d _ =>
    have hargs := d.arguments_all htext h
    split at hcode
    · cases hcode
      rw [all_append, all_append, all_plain, all_plain]
      exact ⟨⟨htext _, commas_all htext hargs⟩, htext _⟩
    · cases hcode
      exact all_plain.mpr (htext _)
    · cases hcode
      exact d.filled_all htext hargs
    · cases hcode

end Adjustments

namespace Script

/-! ### Expressions -/

/-- The condition holds of text, of the names and of what the calls stand for: a word that waits,
if one of the commands suspends, and the calls of the functions, awaited if they suspend. -/
structure Admits (ctx : Context) (calls : List Callee) (names : List String) (P : Piece → Prop) :
    Prop where
  text : ∀ s, P (.text s)
  name : ∀ s ∈ names, P (.name s)
  await : ∀ name, .command name ∈ calls → ctx.commands.suspendingNames.contains name = true →
    P .await
  call : ∀ name, .function name ∈ calls → P (.call (ctx.suspending.contains name) name)

variable {ctx : Context} {calls : List Callee} {names : List String} {P : Piece → Prop}

theorem Admits.subset {fewerCalls : List Callee} {fewerNames : List String}
    (h : Admits ctx calls names P) (hcalls : fewerCalls ⊆ calls) (hnames : fewerNames ⊆ names) :
    Admits ctx fewerCalls fewerNames P :=
  ⟨h.text, fun name hname => h.name name (hnames hname),
    fun name hname => h.await name (hcalls hname), fun name hname => h.call name (hcalls hname)⟩

theorem Admits.of_parts {e part : Expr} (h : Admits ctx e.calls e.names P)
    (hpart : part ∈ e.parts) : Admits ctx part.calls part.names P :=
  h.subset (Expr.calls_subset_of_mem_parts hpart) (Expr.names_subset_of_mem_parts hpart)

theorem Admits.of_ownExprs {s : Stmt} {e : Expr} (h : Admits ctx (callees [s]) (namesIn [s]) P)
    (he : e ∈ s.ownExprs) : Admits ctx e.calls e.names P :=
  h.subset (Expr.calls_subset_callees he) (Expr.names_subset_namesIn he)

theorem Admits.of_within {fewer stmts : List Stmt}
    (h : Admits ctx (callees stmts) (namesIn stmts) P)
    (hsub : stmtsWithin false fewer ⊆ stmtsWithin false stmts) :
    Admits ctx (callees fewer) (namesIn fewer) P :=
  h.subset (callees_subset hsub) (namesIn_subset hsub)

theorem Admits.all_plain (h : Admits ctx calls names P) (s : String) : All P (plain s) :=
  Fragment.all_plain.mpr (h.text s)

theorem Admits.all_closing (h : Admits ctx calls names P) : All P closing :=
  h.all_plain _

theorem indexCode_all {indices : List Expr} (h : Admits ctx calls names P)
    (hindices : ∀ e ∈ indices, All P (exprCode ctx e)) : All P (indexCode ctx indices) := by
  induction indices with
  | nil => exact all_nil
  | cons e rest ih =>
    obtain ⟨he, hrest⟩ := List.forall_mem_cons.mp hindices
    simp only [indexCode, all_append, h.all_plain, he, ih hrest, and_self]

theorem binaryCode_all {op : BinaryOp} {left right : Fragment} (h : Admits ctx calls names P)
    (hleft : All P left) (hright : All P right) : All P (binaryCode op left right) := by
  unfold binaryCode
  split <;> simp only [all_append, h.all_plain, hleft, hright, and_self]

theorem exprCodes_all {es : List Expr} (h : ∀ e ∈ es, All P (exprCode ctx e)) :
    ∀ f ∈ exprCodes ctx es, All P f := by
  rw [exprCodes_eq_map]
  intro f hf
  obtain ⟨e, he, rfl⟩ := List.mem_map.mp hf
  exact h e he

theorem callCode_all {name : String} {args : List Fragment} (h : Admits ctx calls names P)
    (hname : .function (Name.fold name) ∈ calls) (hargs : ∀ a ∈ args, All P a) :
    All P (callCode ctx name args) := by
  have hcall : P (.call (ctx.functionSuspends name) (Name.fold name)) := h.call _ hname
  simp only [callCode, List.cons_append, all_cons, all_append, h.all_plain, hcall,
    commas_all h.text hargs, and_self]

/-- Every piece of an expression in the script is text, a name that it uses, or what one of its
calls stands for. -/
theorem exprCode_all {e : Expr} (h : Admits ctx e.calls e.names P) : All P (exprCode ctx e) := by
  induction e using Expr.induction_on_parts with
  | h e ih =>
    have hparts : ∀ part ∈ e.parts, All P (exprCode ctx part) :=
      fun part hpart => ih part hpart (h.of_parts hpart)
    cases e with
    | integer | float | string | boolean | null | new | first | last | error =>
      exact h.all_plain _
    | var info name typeName =>
      exact all_cons.mpr ⟨h.name _ (Expr.mem_names_self List.mem_cons_self), all_nil⟩
    | binary info left op right =>
      have hleft := hparts left List.mem_cons_self
      have hright := hparts right (List.mem_cons_of_mem _ List.mem_cons_self)
      exact binaryCode_all h hleft hright
    | unary info op inner | grouped info inner | field info inner | after info inner
    | before info inner =>
      have hinner := hparts inner List.mem_cons_self
      simp only [exprCode, all_append, h.all_plain, hinner, and_self]
    | element info name indices =>
      have hname := h.name _ (Expr.mem_names_self List.mem_cons_self)
      exact all_cons.mpr ⟨hname, indexCode_all h hparts⟩
    | call info name args =>
      have hcode : All P (callCode ctx name (exprCodes ctx args)) :=
        callCode_all h (Expr.mem_calls_self rfl) (exprCodes_all hparts)
      unfold exprCode
      split
      · rw [all_append, all_append]
        exact ⟨⟨h.all_plain _, hcode⟩, h.all_plain _⟩
      · exact hcode
    | command info name args =>
      unfold exprCode
      split
      · next code hcode =>
        have hargs := commandCode_all h.text (exprCodes_all hparts) hcode
        split
        · next hsuspends =>
          have hawait := h.await _ (Expr.mem_calls_self rfl) hsuspends
          simp only [all_append, all_cons, h.all_plain, hawait, hargs, and_self]
        · exact hargs
      · exact h.all_plain _

/-! ### Lines -/

/-- The condition holds of all pieces of the lines of a tree. -/
def Code.All (P : Piece → Prop) (code : Code) : Prop :=
  ∀ depth, ∀ line ∈ code.lines depth, Fragment.All P line.2

/-- The condition holds of all pieces of the lines of a list of trees. -/
def CodeAll (P : Piece → Prop) (codes : List Code) : Prop :=
  ∀ code ∈ codes, code.All P

theorem codeLines_eq_flatMap (depth : Nat) (codes : List Code) :
    codeLines depth codes = codes.flatMap (Code.lines depth) := by
  induction codes with
  | nil => rfl
  | cons code rest ih => rw [codeLines, ih, List.flatMap_cons]

theorem CodeAll.lines {codes : List Code} (h : CodeAll P codes) {depth : Nat}
    {line : Nat × Fragment} (hline : line ∈ codeLines depth codes) : All P line.2 := by
  rw [codeLines_eq_flatMap] at hline
  obtain ⟨code, hcode, hmem⟩ := List.mem_flatMap.mp hline
  exact h code hcode depth line hmem

@[simp] theorem codeAll_nil : CodeAll P [] := fun _ h => absurd h List.not_mem_nil

@[simp] theorem codeAll_cons {code : Code} {rest : List Code} :
    CodeAll P (code :: rest) ↔ code.All P ∧ CodeAll P rest :=
  List.forall_mem_cons

@[simp] theorem codeAll_append {codes rest : List Code} :
    CodeAll P (codes ++ rest) ↔ CodeAll P codes ∧ CodeAll P rest :=
  List.forall_mem_append

namespace Code

@[simp] theorem all_line {f : Fragment} : Code.All P (.line f) ↔ Fragment.All P f := by
  simp [Code.All, Code.lines]

theorem all_nest {body : List Code} (h : CodeAll P body) : Code.All P (.nest body) :=
  fun _ _ hline => h.lines hline

theorem all_loop {number : Nat} {head foot : Fragment} {body : List Code}
    (htext : ∀ s, P (.text s)) (hhead : Fragment.All P head) (hbody : CodeAll P body)
    (hfoot : Fragment.All P foot) : Code.All P (.loop number head body foot) := by
  intro depth line hline
  rcases List.mem_cons.mp hline with rfl | hline
  · simp [htext, hhead]
  · rcases List.mem_append.mp hline with hline | hline
    · exact hbody.lines hline
    · rw [List.mem_singleton.mp hline]
      exact hfoot

theorem all_step {number : Nat} {value : Fragment} (htext : ∀ s, P (.text s))
    (h : Fragment.All P value) : Code.All P (.step number value) := by
  simp [Code.All, Code.lines, htext, h]

theorem all_leave {number : Nat} (htext : ∀ s, P (.text s)) : Code.All P (.leave number) := by
  simp [Code.All, Code.lines, htext]

end Code

/-! ### Statements -/

section Statements

variable {routine : Routine} {enclosing : Option Nat}

theorem varCode_all {scope : DeclScope} {v : VarDecl} (h : Admits ctx calls names P)
    (hname : identifier v.name ∈ names) (hvalue : ∀ e ∈ v.value, All P (exprCode ctx e)) :
    CodeAll P (varCode ctx scope v) := by
  unfold varCode
  extract_lets target
  have htarget : All P target := all_cons.mpr ⟨h.name _ hname, all_nil⟩
  split
  · next _ value hv =>
    simp [assignCode, htarget, h.text, hvalue value hv]
  · exact codeAll_nil
  · simp [assignCode, htarget, h.text]

theorem arrayCode_all {a : ArrayDecl} (h : Admits ctx calls names P)
    (hname : identifier a.name ∈ names) (hsizes : ∀ e ∈ a.dimensions, All P (exprCode ctx e)) :
    Code.All P (arrayCode ctx a) := by
  unfold arrayCode
  extract_lets sizes
  have hall : ∀ f ∈ sizes, All P f := by
    intro f hf
    obtain ⟨e, he, rfl⟩ := List.mem_map.mp hf
    exact all_append.mpr ⟨hsizes e he, h.all_plain _⟩
  simp [h.name _ hname, h.text, commas_all h.text hall]

theorem forHead_all {number : Nat} {name : String} {first last : Expr} {step : Option Expr}
    (h : Admits ctx calls names P) (hname : identifier name ∈ names)
    (hfirst : All P (exprCode ctx first)) (hlast : All P (exprCode ctx last))
    (hstep : ∀ e ∈ step, All P (exprCode ctx e)) :
    CodeAll P (forHead ctx number name first last step).1 ∧
      All P (forHead ctx number name first last step).2 := by
  have hv := h.name _ hname
  unfold forHead
  cases step with
  | none => simp [hv, h.text, hfirst, hlast]
  | some step =>
    have hvalue := hstep step rfl
    dsimp only
    split
    · split <;> simp [hv, h.text, hfirst, hlast, hvalue]
    · simp [hv, h.text, hfirst, hlast, Code.all_step h.text hvalue]

theorem returnCode_all {value : Option Expr} (h : Admits ctx calls names P)
    (hvalue : ∀ e ∈ value, All P (exprCode ctx e)) : All P (returnCode ctx routine value) := by
  unfold returnCode
  split
  · next value => simp [h.text, hvalue value rfl]
  · exact h.all_plain _
  · exact h.all_plain _

/-- Only a routine that runs in every frame waits for the end of the program. -/
theorem exitCode_all (h : Admits ctx calls names P) (hstop : routine = .frame → P .await) :
    Code.All P (exitCode routine enclosing) := by
  unfold exitCode
  split
  · exact Code.all_leave h.text
  · simp [stopCode, h.text, hstop rfl]
  · simp [h.text]

theorem callStmtCode_all {e : Expr} (h : Admits ctx e.calls e.names P) :
    CodeAll P (callStmtCode ctx e) := by
  have hargs : ∀ f ∈ exprCodes ctx e.parts, All P f := by
    exact exprCodes_all fun part hpart => exprCode_all (h.of_parts hpart)
  unfold callStmtCode
  split
  · split
    · next name args code hcode =>
      have hall := commandCode_all h.text hargs hcode
      split
      · next hsuspends =>
        have hawait := h.await _ (Expr.mem_calls_self rfl) hsuspends
        simp [hawait, hall, h.text]
      · simp [hall, h.text]
    · exact codeAll_nil
  · next name args =>
    have hall : All P (callCode ctx name (exprCodes ctx args)) :=
      callCode_all h (Expr.mem_calls_self rfl) hargs
    simp [hall, h.text]
  · exact codeAll_nil
  · simp [exprCode_all h, h.text]

theorem blockCode_of_stmts {stmts : List Stmt}
    (h : ∀ s ∈ stmts, ∀ number, CodeAll P (stmtCode ctx routine enclosing number s)) :
    ∀ number, CodeAll P (blockCode ctx routine enclosing number stmts) := by
  induction stmts with
  | nil => exact fun _ => codeAll_nil
  | cons s rest ih =>
    obtain ⟨hs, hrest⟩ := List.forall_mem_cons.mp h
    exact fun number => codeAll_append.mpr ⟨hs number, ih hrest _⟩

theorem elseIfsCode_all {branches : List ElseIf} (h : Admits ctx calls names P)
    (hbranches : ∀ branch ∈ branches, All P (exprCode ctx branch.condition) ∧
      ∀ number, CodeAll P (blockCode ctx routine enclosing number branch.body)) :
    ∀ number, CodeAll P (elseIfsCode ctx routine enclosing number branches) := by
  induction branches with
  | nil => exact fun _ => codeAll_nil
  | cons branch rest ih =>
    intro number
    obtain ⟨⟨hcondition, hbody⟩, hrest⟩ := List.forall_mem_cons.mp hbranches
    obtain ⟨condition, body⟩ := branch
    have hhead : All P (exprCode ctx condition) := hcondition
    have hnest : Code.All P (.nest (blockCode ctx routine enclosing number body)) :=
      Code.all_nest (hbody number)
    simp [elseIfsCode, h.text, hhead, hnest, ih hrest]

theorem casesCode_all {cases : List CaseClause} (h : Admits ctx calls names P)
    (hcases : ∀ clause ∈ cases, (∀ e ∈ clause.values, All P (exprCode ctx e)) ∧
      ∀ number, CodeAll P (blockCode ctx routine enclosing number clause.body)) :
    ∀ number, CodeAll P (casesCode ctx routine enclosing number cases) := by
  induction cases with
  | nil => exact fun _ => codeAll_nil
  | cons clause rest ih =>
    intro number
    obtain ⟨⟨hvalues, hbody⟩, hrest⟩ := List.forall_mem_cons.mp hcases
    obtain ⟨values, body, span⟩ := clause
    have hlines : CodeAll P
        (values.map fun value => .line (plain "case " ++ exprCode ctx value ++ plain ":")) := by
      intro code hcode
      obtain ⟨value, hvalue, rfl⟩ := List.mem_map.mp hcode
      simp [h.text, hvalues value hvalue]
    have hnest : Code.All P (.nest (blockCode ctx routine enclosing number body)) :=
      Code.all_nest (hbody number)
    have hbreak : Code.All P (.nest [.line (plain "break;")]) :=
      Code.all_nest (by simp [h.text])
    refine codeAll_append.mpr ⟨hlines, ?_⟩
    simp [h.text, h.all_closing, hnest, hbreak, ih hrest]

/-- Every piece of a statement in the script is text, a name that it uses, or what one of its calls
stands for; in the main loop it may also wait for the end of the program. -/
theorem stmtCode_all {s : Stmt} (h : Admits ctx (callees [s]) (namesIn [s]) P)
    (hstop : routine = .frame → P .await) :
    ∀ enclosing number, CodeAll P (stmtCode ctx routine enclosing number s) := by
  induction s using Stmt.induction_on_blocks with
  | h s ih =>
    intro enclosing number
    -- the pieces of a statement come from its own expressions and from its blocks
    have hown : ∀ e ∈ s.ownExprs, All P (exprCode ctx e) :=
      fun e he => exprCode_all (h.of_ownExprs he)
    have hblock : ∀ block ∈ s.blocks, ∀ enclosing number,
        CodeAll P (blockCode ctx routine enclosing number block) := by
      intro block hblock enclosing
      refine blockCode_of_stmts fun inner hinner number => ?_
      refine ih block hblock inner hinner (h.of_within ?_) enclosing number
      exact List.Subset.trans (stmtsWithin_subset_of_mem hinner)
        (stmtsWithin_subset_of_mem_blocks hblock)
    cases s with
    | assign span target value =>
      have htarget := hown target List.mem_cons_self
      have hvalue := hown value (List.mem_cons_of_mem _ List.mem_cons_self)
      simp [stmtCode, assignCode, h.text, htarget, hvalue]
    | declare span scope vars =>
      intro code hcode
      obtain ⟨v, hv, hmem⟩ := List.mem_flatMap.mp hcode
      have hname : identifier v.name ∈ namesIn [.declare span scope vars] :=
        mem_namesIn_of_uses (List.mem_map.mpr ⟨v, hv, rfl⟩)
      refine varCode_all h hname (fun e he => hown e ?_) code hmem
      exact List.mem_filterMap.mpr ⟨v, hv, he⟩
    | dim span arrays =>
      intro code hcode
      obtain ⟨a, ha, rfl⟩ := List.mem_map.mp hcode
      have hname : identifier a.name ∈ namesIn [.dim span arrays] :=
        mem_namesIn_of_uses (List.mem_map.mpr ⟨a, ha, rfl⟩)
      exact arrayCode_all h hname fun e he => hown e (List.mem_flatMap.mpr ⟨a, ha, he⟩)
    | const span name value =>
      have hvalue := hown value List.mem_cons_self
      have hname := h.name _ (mem_namesIn_of_uses List.mem_cons_self)
      unfold stmtCode
      split
      · simp [assignCode, hname, h.text, hvalue]
      · exact codeAll_nil
    | if_ span condition thenBranch branches elseBranch =>
      have hcondition := hown condition List.mem_cons_self
      have hthen := hblock thenBranch List.mem_cons_self enclosing number
      have hbranches : ∀ number,
          CodeAll P (elseIfsCode ctx routine enclosing number branches) := by
        refine elseIfsCode_all h fun branch hbranch => ⟨hown _ ?_, hblock _ ?_ enclosing⟩
        · exact List.mem_cons_of_mem _ (List.mem_map_of_mem hbranch)
        · exact List.mem_cons_of_mem _ (List.mem_append_left _ (List.mem_map_of_mem hbranch))
      cases elseBranch with
      | none =>
        simp [stmtCode, h.text, h.all_closing, hcondition, Code.all_nest hthen, hbranches]
      | some elseBranch =>
        have helse : ∀ number, CodeAll P (blockCode ctx routine enclosing number elseBranch) := by
          refine hblock _ (List.mem_cons_of_mem _ (List.mem_append_right _ ?_)) enclosing
          exact List.mem_singleton_self _
        simp [stmtCode, h.text, h.all_closing, hcondition, Code.all_nest hthen, hbranches,
          Code.all_nest (helse _)]
    | while_ span condition body =>
      have hcondition := hown condition List.mem_cons_self
      have hbody := hblock body List.mem_cons_self (some number) (number + 1)
      refine codeAll_cons.mpr ⟨Code.all_loop h.text ?_ hbody (h.all_plain _), codeAll_nil⟩
      simp [h.text, hcondition]
    | repeat_ span body condition =>
      have hbody := hblock body List.mem_cons_self (some number) (number + 1)
      cases condition with
      | none =>
        refine codeAll_cons.mpr ⟨?_, codeAll_nil⟩
        exact Code.all_loop h.text (h.all_plain _) hbody (h.all_plain _)
      | some condition =>
        have hcondition := hown condition List.mem_cons_self
        refine codeAll_cons.mpr ⟨Code.all_loop h.text (h.all_plain _) hbody ?_, codeAll_nil⟩
        simp [h.text, hcondition]
    | for_ span name first last step body =>
      have hfirst := hown first List.mem_cons_self
      have hlast := hown last (List.mem_cons_of_mem _ List.mem_cons_self)
      have hstep : ∀ e ∈ step, All P (exprCode ctx e) :=
        fun e he => hown e (List.mem_append_right _ (Option.mem_toList.mpr he))
      have hbody := hblock body List.mem_cons_self (some number) (number + 1)
      have hname := mem_namesIn_of_uses (s := .for_ span name first last step body)
        List.mem_cons_self
      obtain ⟨hbind, hhead⟩ := forHead_all h hname hfirst hlast hstep
      refine codeAll_append.mpr ⟨hbind, codeAll_cons.mpr ⟨?_, codeAll_nil⟩⟩
      exact Code.all_loop h.text hhead hbody (h.all_plain _)
    | forEach span name typeName body =>
      have hbody := hblock body List.mem_cons_self (some number) (number + 1)
      have hname := h.name _ (mem_namesIn_of_uses List.mem_cons_self)
      refine codeAll_cons.mpr ⟨Code.all_loop h.text ?_ hbody (h.all_plain _), codeAll_nil⟩
      simp [h.text, hname]
    | select span subject cases default =>
      have hsubject := hown subject List.mem_cons_self
      have hcases : ∀ number, CodeAll P (casesCode ctx routine enclosing number cases) := by
        refine casesCode_all h fun clause hclause => ⟨fun e he => hown e ?_, hblock _ ?_ enclosing⟩
        · exact List.mem_cons_of_mem _ (List.mem_flatMap.mpr ⟨clause, hclause, he⟩)
        · exact List.mem_append_left _ (List.mem_map_of_mem hclause)
      cases default with
      | none => simp [stmtCode, h.text, h.all_closing, hsubject, Code.all_nest (hcases number)]
      | some default =>
        have hdefault : ∀ number, CodeAll P (blockCode ctx routine enclosing number default) :=
          hblock _ (List.mem_append_right _ (List.mem_singleton_self _)) enclosing
        have hbody : CodeAll P (casesCode ctx routine enclosing number cases ++
            [.line (plain "default: \x7b"),
              .nest (blockCode ctx routine enclosing (number + loopCountCases cases) default),
              .line closing]) := by
          simp [h.text, h.all_closing, hcases, Code.all_nest (hdefault _)]
        simp [stmtCode, h.text, h.all_closing, hsubject, Code.all_nest hbody]
    | function | type | data => exact codeAll_nil
    | return_ span value =>
      have hvalue : ∀ e ∈ value, All P (exprCode ctx e) :=
        fun e he => hown e (Option.mem_toList.mpr he)
      simp [stmtCode, returnCode_all h hvalue]
    | exit => exact codeAll_cons.mpr ⟨exitCode_all h hstop, codeAll_nil⟩
    | end_ | goto | gosub | label | restore | deleteEach => simp [stmtCode, h.text]
    | read span targets =>
      intro code hcode
      obtain ⟨e, he, rfl⟩ := List.mem_map.mp hcode
      simp [assignCode, h.text, hown e he]
    | delete span object =>
      simp [stmtCode, h.text, hown object List.mem_cons_self]
    | insert span object side anchor =>
      have hanchor := hown anchor (List.mem_cons_of_mem _ List.mem_cons_self)
      simp [stmtCode, h.text, hown object List.mem_cons_self, hanchor]
    | expr span e =>
      exact callStmtCode_all (h.of_ownExprs List.mem_cons_self)

theorem blockCode_all {stmts : List Stmt} (h : Admits ctx (callees stmts) (namesIn stmts) P)
    (hstop : routine = .frame → P .await) (enclosing : Option Nat) (number : Nat) :
    CodeAll P (blockCode ctx routine enclosing number stmts) :=
  blockCode_of_stmts
    (fun _ hs => stmtCode_all (h.of_within (stmtsWithin_subset_of_mem hs)) hstop enclosing) number

end Statements

end Script

end FrameBasic
