import FrameBasic.Proofs.Script.Await
import FrameBasic.Proofs.Script.Constants
import FrameBasic.Proofs.Script.ReadBack
import Mathlib.Data.List.Forall2

/-!
# Waiting outside of routines

A script may wait only in the body of a routine that suspends.  Two parts of it stand outside of all
bodies: the values of the constants that are computed when it is loaded, and the values that the
parameters of functions take when an argument is missing.

The constants never wait.  The values of parameters are written down as they are, so one of them
waits exactly if a call that suspends is written for it.  Not every call in an expression is written
down: an adjustment may drop an argument of a command, a template may have no slot for it, and a
property has no arguments at all.

## Main definitions

* `Transform.move`, `Descriptor.written` — where the arguments of a command are in the script.
* `Expr.Awaits` — a call that suspends is written for the expression.
* `Script.Fragment.waits` — a piece of a fragment waits.

## Main results

* `Script.waits_commandCode` — a command waits for those of its arguments that are written.
* `Script.waits_exprCode_iff` — the code of an expression waits exactly if the expression awaits.
* `Script.waits_outside_routines_iff` — **constants never wait, and parameters exactly if their
  values do**.
-/

namespace FrameBasic

/-! ### Where arguments are written -/

section Written

variable {α β : Type}

/-- The items in the places to which an adjustment of arguments moves them.  A new argument is in
the place of a filler. -/
def Transform.move (filler : α) (items : List α) : Transform → List α
  | .default index _ =>
    let padded := items ++ List.replicate (index - items.length) filler
    if padded.length = index then padded ++ [filler] else padded
  | .reorder order => order.filterMap fun i => items[i]?
  | .flag _ | .code _ _ => items

/-- The items in the places to which the adjustments of a command move them. -/
def Descriptor.moved (d : Descriptor) (filler : α) (items : List α) : List α :=
  d.transforms.foldl (Transform.move filler) items

/-- The items in the places in which the script has the arguments of a command: between the
parentheses of a call, or in the slots of a template. -/
def Descriptor.written (d : Descriptor) (filler : α) (items : List α) : List α :=
  match d.category with
  | .call => d.moved filler items
  | .inline =>
    (Template.fill (fun _ => []) (fun i => [i]) d.target.toList).map fun i =>
      ((d.moved filler items)[i]?).getD filler
  | .property | .unsupported => []

theorem Transform.map_move (f : α → β) (filler : α) (items : List α) (t : Transform) :
    (t.move filler items).map f = t.move (f filler) (items.map f) := by
  cases t with
  | default index value =>
    simp only [move, List.length_append, List.length_replicate, List.length_map]
    split <;> simp
  | reorder order => simp [move, List.map_filterMap]
  | flag | code => rfl

theorem Descriptor.map_moved (d : Descriptor) (f : α → β) (filler : α) (items : List α) :
    (d.moved filler items).map f = d.moved (f filler) (items.map f) := by
  unfold moved
  induction d.transforms generalizing items with
  | nil => rfl
  | cons t rest ih => rw [List.foldl_cons, List.foldl_cons, ih, Transform.map_move]

/-- Where an item is written does not depend on what it is. -/
theorem Descriptor.map_written (d : Descriptor) (f : α → β) (filler : α) (items : List α) :
    (d.written filler items).map f = d.written (f filler) (items.map f) := by
  unfold written
  split
  · exact d.map_moved f filler items
  · simp [← d.map_moved f, Option.getD_map]
  · rfl
  · rfl

end Written

/-- A call that suspends is written for the expression: its own, or that of a part that is written
itself. -/
inductive Expr.Awaits (commands : CommandTable) (p : Program) : Expr → Prop
  /-- A function from which calls lead to a command that suspends. -/
  | function {info : Info} {name : String} {args : List Expr} :
      (CallGraph.ofProgram p).Reaches commands.suspendingNames (Name.fold name) →
      Awaits commands p (.call info name args)
  /-- A command that suspends. -/
  | command {info : Info} {name : String} {args : List Expr} {d : Descriptor} :
      commands.get? name = some d → d.category ≠ .unsupported →
      Text.lower name ∈ commands.suspendingNames → Awaits commands p (.command info name args)
  /-- An argument of a command, if it is written. -/
  | argument {info : Info} {name : String} {args : List Expr} {d : Descriptor} {i : Nat}
      {arg : Expr} : commands.get? name = some d →
      some i ∈ d.written none ((List.range args.length).map some) → args[i]? = some arg →
      Awaits commands p arg → Awaits commands p (.command info name args)
  /-- A part of anything else. -/
  | part {e part : Expr} : (∀ info name args, e ≠ .command info name args) → part ∈ e.parts →
      Awaits commands p part → Awaits commands p e

namespace Expr

variable {commands : CommandTable} {p : Program} {info : Info} {name : String} {args : List Expr}

theorem awaits_call_iff : (Expr.call info name args).Awaits commands p ↔
    (CallGraph.ofProgram p).Reaches commands.suspendingNames (Name.fold name) ∨
      ∃ arg ∈ args, arg.Awaits commands p := by
  constructor
  · intro h
    cases h with
    | function hreaches => exact .inl hreaches
    | part _ hpart h => exact .inr ⟨_, hpart, h⟩
  · rintro (hreaches | ⟨arg, harg, h⟩)
    · exact .function hreaches
    · exact .part (fun _ _ _ => nofun) harg h

theorem awaits_command_iff : (Expr.command info name args).Awaits commands p ↔
    ∃ d, commands.get? name = some d ∧
      ((d.category ≠ .unsupported ∧ Text.lower name ∈ commands.suspendingNames) ∨
        ∃ i, some i ∈ d.written none ((List.range args.length).map some) ∧
          ∃ arg, args[i]? = some arg ∧ arg.Awaits commands p) := by
  constructor
  · intro h
    cases h with
    | command hd hcategory hname => exact ⟨_, hd, .inl ⟨hcategory, hname⟩⟩
    | argument hd hi harg h => exact ⟨_, hd, .inr ⟨_, hi, _, harg, h⟩⟩
    | part hne => exact absurd rfl (hne _ _ _)
  · rintro ⟨d, hd, ⟨hcategory, hname⟩ | ⟨i, hi, arg, harg, h⟩⟩
    · exact .command hd hcategory hname
    · exact .argument hd hi harg h

theorem awaits_other_iff {e : Expr} (he : e.callee? = none) :
    e.Awaits commands p ↔ ∃ part ∈ e.parts, part.Awaits commands p := by
  constructor
  · intro h
    cases h with
    | function | command | argument => cases he
    | part _ hpart h => exact ⟨_, hpart, h⟩
  · rintro ⟨part, hpart, h⟩
    refine .part (fun info name args heq => ?_) hpart h
    rw [heq] at he
    cases he

end Expr

/-! ### Numerals have no letters -/

theorem Text.mem_trim {c : Char} {cs : List Char} (hc : isBlank c = false) (h : c ∈ cs) :
    c ∈ trim cs := by
  have hskip : ∀ {cs : List Char}, c ∈ cs → c ∈ skipBlank cs := by
    intro cs h
    rw [← List.takeWhile_append_dropWhile (p := isBlank) (l := cs)] at h
    rcases List.mem_append.mp h with htake | hdrop
    · have hblank := List.all_eq_true.mp List.all_takeWhile c htake
      rw [hc] at hblank
      cases hblank
    · exact hdrop
  exact List.mem_reverse.mpr (hskip (List.mem_reverse.mpr (hskip h)))

theorem Decimal.hexValue?_of_readDigits {base bound : Nat} {beyond : WholeFault} {c : Char}
    (cs : List Char) : ∀ {value n : Nat}, readDigits base bound beyond cs value = .ok n → c ∈ cs →
      (Text.hexValue? c).isSome = true := by
  induction cs with
  | nil => exact fun _ h => absurd h List.not_mem_nil
  | cons d rest ih =>
    intro value n hread hmem
    unfold readDigits at hread
    split at hread
    · cases hread
    · next digit hdigit =>
      extract_lets next at hread
      split at hread
      · rcases List.mem_cons.mp hmem with rfl | hrest
        · rw [(Option.filter_eq_some_iff.mp hdigit).1]
          rfl
        · exact ih hread hrest
      · cases hread

theorem Decimal.hexValue?_of_readNumeral {base bound : Nat} {beyond : WholeFault} {c : Char}
    {digits : List Char} (hok : ∀ fault, readNumeral base bound beyond digits ≠ .error fault)
    (hmem : c ∈ digits) : (Text.hexValue? c).isSome = true := by
  cases hread : readNumeral base bound beyond digits with
  | error fault => exact absurd hread (hok fault)
  | ok value =>
    unfold readNumeral at hread
    split at hread
    · cases hread
    · exact hexValue?_of_readDigits digits hread hmem

/-- The characters of a numeral are digits and signs. -/
theorem Decimal.hexValue?_of_readInteger {cs : List Char} {n : Int} {c : Char}
    (h : readInteger cs = .ok n) (hc : c ∈ cs) :
    c = '-' ∨ c = '+' ∨ (Text.hexValue? c).isSome = true := by
  unfold readInteger at h
  split at h
  · cases h
  · rcases List.mem_cons.mp hc with rfl | hmem
    · exact .inl rfl
    · exact .inr (.inr (hexValue?_of_readNumeral (fun fault hf => by rw [hf] at h; cases h) hmem))
  · rcases List.mem_cons.mp hc with rfl | hmem
    · exact .inr (.inl rfl)
    · exact .inr (.inr (hexValue?_of_readNumeral (fun fault hf => by rw [hf] at h; cases h) hmem))
  · exact .inr (.inr (hexValue?_of_readNumeral (fun fault hf => by rw [hf] at h; cases h) hc))

namespace Script

/-! ### Fragments that wait -/

namespace Fragment

/-- Whether a piece of the fragment waits. -/
def waits (f : Fragment) : Bool :=
  f.any Piece.waits

@[simp] theorem waits_nil : waits [] = false := rfl

@[simp] theorem waits_cons (piece : Piece) (f : Fragment) :
    waits (piece :: f) = (piece.waits || f.waits) :=
  List.any_cons

@[simp] theorem waits_append (f g : Fragment) : waits (f ++ g) = (f.waits || g.waits) :=
  List.any_append

@[simp] theorem waits_plain (s : String) : waits (plain s) = false := rfl

@[simp] theorem waits_missing : waits missing = false := rfl

theorem waits_eq_true_iff {f : Fragment} : f.waits = true ↔ ∃ piece ∈ f, piece.waits = true :=
  List.any_eq_true

@[simp] theorem waits_commas (fs : List Fragment) : waits (commas fs) = fs.any waits := by
  induction fs with
  | nil => rfl
  | cons f rest ih =>
    cases rest with
    | nil =>
      have hone : commas [f] = f ++ [] := rfl
      simp [hone]
    | cons g rest =>
      have hcons : commas (f :: g :: rest) = f ++ (plain ", " ++ commas (g :: rest)) := rfl
      simp only [hcons, waits_append, waits_plain, Bool.false_or, ih, List.any_cons]

/-- A fragment that waits says so in its text. -/
theorem mem_render_of_waits {f : Fragment} (h : f.waits = true) : 'w' ∈ f.render.toList := by
  obtain ⟨piece, hmem, hwaits⟩ := waits_eq_true_iff.mp h
  have hword : 'w' ∈ "await ".toList := by decide
  rw [toList_render]
  refine List.mem_flatMap.mpr ⟨piece, hmem, ?_⟩
  cases piece with
  | text | name => cases hwaits
  | await => exact hword
  | call awaited function =>
    have hawaited : awaited = true := hwaits
    rw [hawaited, Piece.render, if_pos rfl, String.toList_append]
    exact List.mem_append_left _ hword

end Fragment

open Fragment

/-! An argument that waits is no literal, so that making it a truth value or a code of a device
keeps it. -/

theorem waits_truth (arg : Fragment) : (truth arg).waits = arg.waits := by
  have hliteral : ∀ {s : String}, arg.render = s → 'w' ∉ s.toList → arg.waits = false := by
    intro s hs hw
    by_contra h
    exact hw (hs ▸ mem_render_of_waits (Bool.not_eq_false _ ▸ h))
  unfold truth
  extract_lets s
  split
  · next hs =>
    rcases hs with hs | hs <;> exact (hliteral hs (by decide)).symm
  · split
    · next hs =>
      rcases hs with hs | hs <;> exact (hliteral hs (by decide)).symm
    · simp

theorem waits_hostCode (device : Device) (arg : Fragment) :
    (hostCode device arg).waits = arg.waits := by
  unfold hostCode
  extract_lets call
  split
  · next code hread =>
    -- a numeral has no `w`, so that it does not wait
    have harg : arg.waits = false := by
      by_contra h
      have hw := mem_render_of_waits (eq_true_of_ne_false h)
      have hmem := Text.mem_trim (by decide) hw
      rcases Decimal.hexValue?_of_readInteger hread hmem with h | h | h <;>
        exact absurd h (by decide)
    split <;> simp [call, harg]
  · simp [call]

theorem waits_apply (t : Transform) (args : List Fragment) :
    (t.apply args).map waits = t.move false (args.map waits) := by
  have hmodify : ∀ {index : Nat} {f : Fragment → Fragment}, (∀ a, (f a).waits = a.waits) →
      (args.modify index f).map waits = args.map waits := by
    intro index f hf
    apply List.ext_getElem (by simp)
    intro i _ _
    rw [List.getElem_map, List.getElem_map, List.getElem_modify]
    split
    · exact hf _
    · rfl
  cases t with
  | default index value =>
    simp only [Transform.apply, Transform.move, List.length_append, List.length_replicate,
      List.length_map]
    split <;> simp
  | reorder order => simp [Transform.apply, Transform.move, List.map_filterMap]
  | flag index => exact hmodify waits_truth
  | code index device => exact hmodify (waits_hostCode device)

theorem waits_arguments (d : Descriptor) (args : List Fragment) :
    (d.arguments args).map waits = d.moved false (args.map waits) := by
  unfold Descriptor.arguments Descriptor.moved
  induction d.transforms generalizing args with
  | nil => rfl
  | cons t rest ih => rw [List.foldl_cons, List.foldl_cons, ih, waits_apply]

theorem waits_fill (slot : Nat → Fragment) (cs : List Char) :
    waits (Template.fill (fun c => plain (String.singleton c)) slot cs) =
      (Template.fill (fun _ => []) (fun i => [i]) cs).any fun i => (slot i).waits := by
  fun_induction Template.fill (fun c => plain (String.singleton c)) slot cs with
  | case1 => simp [Template.fill]
  | case2 rest index n hslot ih | case3 rest hslot ih => rw [Template.fill]; simp [hslot, ih]
  | case4 c rest hc ih => rw [Template.fill]; simp [hc, ih]

/-- A command waits for those of its arguments that are written. -/
theorem waits_commandCode {ctx : Context} {name : String} {args : List Fragment} {d : Descriptor}
    (hd : ctx.commands.get? name = some d) :
    (commandCode ctx name args).map waits =
      if d.category = .unsupported then none
      else some ((d.written false (args.map waits)).any id) := by
  have hargs := waits_arguments d args
  unfold commandCode
  rw [hd]
  dsimp only
  unfold Descriptor.written
  split
  · next hcategory => simp [hcategory, ← hargs]
  · next hcategory => simp [hcategory]
  · next hcategory =>
    simp only [hcategory, reduceCtorEq, if_false, Option.map_some, Option.some.injEq]
    rw [Descriptor.filled, waits_fill, List.any_map, ← hargs]
    congr 1
    funext i
    cases hi : (d.arguments args)[i]? <;> simp [hi]
  · next hcategory => simp [hcategory]

/-! ### Expressions that wait -/

/-- Among the written arguments one waits exactly if an argument waits that is written somewhere. -/
theorem any_written_iff (d : Descriptor) (args : List Fragment) :
    (d.written false (args.map waits)).any id = true ↔
      ∃ i, some i ∈ d.written none ((List.range args.length).map some) ∧
        ∃ arg, args[i]? = some arg ∧ arg.waits = true := by
  let waitsAt (place : Option Nat) : Bool := (place.bind fun i => args[i]?).any waits
  have hargs : args.map waits = ((List.range args.length).map some).map waitsAt := by
    apply List.ext_getElem (by simp)
    intro i hi _
    have hlt : i < args.length := by simpa using hi
    simp [waitsAt, List.getElem?_eq_getElem hlt]
  -- the places are moved in the way the arguments are, and looked up afterwards
  have hnone : false = waitsAt none := rfl
  rw [hargs, hnone, ← d.map_written, List.any_map, List.any_eq_true]
  constructor
  · rintro ⟨place, hplace, hwaits⟩
    obtain ⟨arg, harg, h⟩ := Option.any_eq_true _ _ |>.mp hwaits
    obtain ⟨i, rfl, hi⟩ := Option.bind_eq_some_iff.mp harg
    exact ⟨i, hplace, arg, hi, h⟩
  · rintro ⟨i, hi, arg, harg, h⟩
    exact ⟨some i, hi, by simp [waitsAt, harg, h]⟩

section Expressions

variable {commands : CommandTable} {p : Program}

theorem functionSuspends_iff {name : String} :
    (Plan.ofProgram commands p).context.functionSuspends name = true ↔
      (CallGraph.ofProgram p).Reaches commands.suspendingNames (Name.fold name) :=
  List.contains_iff_mem.trans CallGraph.mem_marked_iff_reaches

theorem waits_indexCode (ctx : Context) (indices : List Expr) :
    waits (indexCode ctx indices) = indices.any fun e => (exprCode ctx e).waits := by
  induction indices with
  | nil => rfl
  | cons e rest ih => simp [indexCode, ih]

theorem waits_binaryCode (op : BinaryOp) (left right : Fragment) :
    waits (binaryCode op left right) = (left.waits || right.waits) := by
  unfold binaryCode
  split <;> simp

/-- The code of what is no call waits exactly if that of a part does. -/
theorem waits_exprCode_other (ctx : Context) {e : Expr} (he : e.callee? = none) :
    (exprCode ctx e).waits = e.parts.any fun part => (exprCode ctx part).waits := by
  cases e with
  | integer | float | string | boolean | null | new | first | last | error | var => rfl
  | binary info left op right => simp [exprCode, waits_binaryCode, Expr.parts]
  | unary | grouped | field | after | before => simp [exprCode, Expr.parts]
  | element info name indices =>
    have hname : (Piece.name (identifier name)).waits = false := rfl
    simp [exprCode, waits_indexCode, Expr.parts, hname]
  | call | command => cases he

theorem waits_exprCode_call (ctx : Context) (info : Info) (name : String) (args : List Expr) :
    (exprCode ctx (.call info name args)).waits =
      (ctx.functionSuspends name || args.any fun arg => (exprCode ctx arg).waits) := by
  have hcode : waits (callCode ctx name (exprCodes ctx args)) =
      (ctx.functionSuspends name || args.any fun arg => (exprCode ctx arg).waits) := by
    simp [callCode, exprCodes_eq_map, Piece.waits, List.any_map, Function.comp_def]
  rw [← hcode, exprCode]
  split <;> simp

theorem waits_exprCode_command {ctx : Context} {info : Info} {name : String} {args : List Expr}
    {d : Descriptor} (hd : ctx.commands.get? name = some d) :
    (exprCode ctx (.command info name args)).waits = true ↔
      (d.category ≠ .unsupported ∧ ctx.commandSuspends name = true) ∨
        (d.written false ((exprCodes ctx args).map waits)).any id = true := by
  have hcode := @waits_commandCode ctx name (exprCodes ctx args) d hd
  rw [exprCode]
  split at hcode
  · next hcategory =>
    rw [Option.map_eq_none_iff.mp hcode]
    simp [Descriptor.written, hcategory]
  · next hcategory =>
    obtain ⟨code, hsome, hwaits⟩ := Option.map_eq_some_iff.mp hcode
    have hawait : Piece.await.waits = true := rfl
    rw [hsome, ← hwaits]
    dsimp only
    split <;> simp [*]

/-- The code of an expression waits exactly if a call that suspends is written for it. -/
theorem waits_exprCode_iff (e : Expr) :
    (exprCode (Plan.ofProgram commands p).context e).waits = true ↔ e.Awaits commands p := by
  let ctx := (Plan.ofProgram commands p).context
  induction e using Expr.induction_on_parts with
  | h e ih =>
    by_cases he : e.callee? = none
    · rw [waits_exprCode_other _ he, Expr.awaits_other_iff he, List.any_eq_true]
      exact exists_congr fun part => and_congr_right fun hpart => ih part hpart
    cases e with
    | call info name args =>
      rw [waits_exprCode_call, Expr.awaits_call_iff, Bool.or_eq_true, functionSuspends_iff,
        List.any_eq_true]
      exact or_congr Iff.rfl (exists_congr fun arg => and_congr_right fun harg => ih arg harg)
    | command info name args =>
      rw [Expr.awaits_command_iff]
      cases hd : commands.get? name with
      | none =>
        have hcode : exprCode ctx (.command info name args) = missing := by
          rw [exprCode, commandCode, show ctx.commands.get? name = none from hd]
        rw [hcode]
        simp
      | some d =>
        rw [waits_exprCode_command (show ctx.commands.get? name = some d from hd), any_written_iff,
          exprCodes_eq_map, List.length_map]
        simp only [Option.some.injEq, exists_eq_left']
        refine or_congr (and_congr_right fun _ => List.contains_iff_mem) ?_
        refine exists_congr fun i => and_congr_right fun _ => ?_
        rw [List.getElem?_map]
        constructor
        · rintro ⟨code, hcode, hwaits⟩
          obtain ⟨arg, harg, rfl⟩ := Option.map_eq_some_iff.mp hcode
          exact ⟨arg, harg, (ih arg (List.mem_of_getElem? harg)).mp hwaits⟩
        · rintro ⟨arg, harg, hawaits⟩
          exact ⟨_, Option.map_eq_some_iff.mpr ⟨arg, harg, rfl⟩,
            (ih arg (List.mem_of_getElem? harg)).mpr hawaits⟩
    | _ => exact absurd rfl he

end Expressions

/-! ### Constants and parameters -/

/-- A constant that must wait for nothing but itself is postponed, whatever the other constants
are. -/
theorem mem_postponed_of_mustWait {ctx : Context} {constants : List Constant} {c : Constant}
    (hc : c ∈ constants) (h : mustWait ctx [] c.value = true) :
    identifier c.name ∈ postponed ctx constants := by
  obtain ⟨front, back, rfl⟩ := List.append_of_mem hc
  -- constants that were postponed before can only make it wait more
  have hwaits : mustWait ctx (postponedFrom ctx [] front) c.value = true := by
    rw [mustWait_iff] at h ⊢
    rcases h with hcommand | hfunction | ⟨n, hn, -⟩
    · exact .inl hcommand
    · exact .inr (.inl hfunction)
    · exact absurd hn List.not_mem_nil
  unfold postponed
  rw [postponedFrom_append, postponedFrom]
  apply subset_postponedFrom
  split
  · exact List.mem_append_right _ List.mem_cons_self
  · next hknown =>
    by_contra hnew
    exact hknown ⟨hwaits, fun h => hnew (List.contains_iff_mem.mp h)⟩

/-- The code of a value that need not wait does not wait. -/
theorem waits_eq_false_of_mustWait {ctx : Context} {value : Expr}
    (h : mustWait ctx [] value = false) : (exprCode ctx value).waits = false := by
  have hmust := fun hw => Bool.false_ne_true (h.symm.trans (mustWait_iff.mpr hw))
  have hadmits : Admits ctx value.calls value.names fun piece => piece.waits = false := by
    refine ⟨fun _ => rfl, fun _ _ => rfl, fun name hcall hsuspends => ?_, fun name hcall => ?_⟩
    · exact absurd (.inl ⟨name, List.contains_iff_mem.mp hsuspends, hcall⟩) hmust
    · by_contra hw
      have hsuspends := List.contains_iff_mem.mp (eq_true_of_ne_false hw)
      exact hmust (.inr (.inl ⟨name, hsuspends, hcall⟩))
  exact List.any_eq_false.mpr fun piece hpiece => by
    rw [exprCode_all hadmits piece hpiece]
    exact Bool.false_ne_true

/-- Whether the value of a missing argument waits. -/
def ParamCode.waits (code : ParamCode) : Bool :=
  code.default.any Fragment.waits

theorem waits_paramCode_iff {commands : CommandTable} {p : Program} (param : Param) :
    (paramCode (Plan.ofProgram commands p).context param).waits = true ↔
      ∃ e ∈ param.default, e.Awaits commands p := by
  unfold ParamCode.waits paramCode
  cases param.default with
  | none => simp
  | some e => simp [waits_exprCode_iff]

/-- The parameters that a function declares. -/
def declaredParams : Stmt → List Param
  | .function _ _ _ params _ => params
  | _ => []

/-- The values of the constants that a script computes when it is loaded never wait.  The value of a
missing argument waits exactly if a call that suspends is written for it, whatever the function
does. -/
theorem waits_outside_routines_iff (commands : CommandTable) (p : Program) :
    let script := Script.ofProgram commands p
    (∀ name value, .fixed name value ∈ script.constants → Fragment.waits value = false) ∧
    List.Forall₂ (fun s f => List.Forall₂
        (fun param code => ParamCode.waits code = true ↔ ∃ e ∈ param.default, e.Awaits commands p)
        (declaredParams s) f.params)
      p.functions script.functions := by
  let plan := Plan.ofProgram commands p
  intro script
  constructor
  · intro name value hmem
    obtain ⟨c, hc, hcode⟩ := List.mem_map.mp hmem
    unfold constantCode at hcode
    split at hcode
    · cases hcode
    · next hload =>
      -- it is computed at loading, so that it was not postponed and need not wait
      obtain ⟨-, rfl⟩ := ConstantCode.fixed.inj hcode
      apply waits_eq_false_of_mustWait
      by_contra hmust
      have hpostponed := mem_postponed_of_mustWait hc (eq_true_of_ne_false hmust)
      exact hload (List.contains_iff_mem.mpr hpostponed)
  · have hfunctions : ∀ stmts : List Stmt, (∀ s ∈ stmts, s.isFunction = true) →
        List.Forall₂ (fun s f => f.params = (declaredParams s).map (paramCode plan.context)) stmts
          (stmts.filterMap (functionCode? plan)) := by
      intro stmts hstmts
      induction stmts with
      | nil => exact .nil
      | cons s rest ih =>
        obtain ⟨hs, hrest⟩ := List.forall_mem_cons.mp hstmts
        cases s with
        | function => exact .cons rfl (ih hrest)
        | _ => cases hs
    rw [show script.functions = _ from functions_ofProgram commands p]
    refine (hfunctions p.functions fun s hs => (List.mem_filter.mp hs).2).imp fun s f hparams => ?_
    rw [hparams, List.forall₂_map_right_iff]
    exact List.forall₂_same.mpr fun param _ => waits_paramCode_iff param

/-- A function whose argument is the next key unless it is given: its parameters wait, and it is not
declared as a function that suspends. -/
theorem parameter_waits_for_key :
    let commands := CommandTable.ofList
      [("WaitKey", { category := .call, target := "input.waitKey", suspends := true })]
    let p : Program := ⟨[.function .unknown "F" none
      [⟨"a", none, some (.command default "WaitKey" []), .unknown⟩] []]⟩
    let script := Script.ofProgram commands p
    (∃ f ∈ script.functions, ∃ param ∈ f.params, param.waits = true) ∧
      script.functions.map FunctionCode.render =
        ["function fn_f(a = (await $input.waitKey())) \x7b\n    return 0;\n\x7d\n\n"] := by
  decide +kernel

end Script

end FrameBasic
