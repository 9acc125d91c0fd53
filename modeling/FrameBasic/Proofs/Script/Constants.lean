import FrameBasic.Proofs.Program.Binding
import FrameBasic.Proofs.Program.Reach
import FrameBasic.Script.Program

/-!
# When constants are computed

The script computes some constants when it is loaded and the others at the start of its first
routine, each time in the order of their declarations.  The first routine can wait, so a constant
whose value suspends is computed there, and one that reads such a constant is too.

A constant that another one reads in its value is computed before it.  A function that the value
calls may read a constant as well, and this is not looked at: the value may then be computed while
the constant that the function reads has none.  That is the only way to leave the order.

## Main definitions

* `Expr.reads`, `Stmt.outerReads` — the names that an expression, or a function, reads.
* `Program.Exposes`, `Program.Observes` — what a run of a function, or computing a value, may read.
* `Expr.Suspends` — a value cannot be computed without waiting.
* `Script.Plan.computed` — the constants in the order in which the script computes them.

## Main results

* `Script.Plan.isPostponed_iff` — what the pass over the constants finds out about each of them.
* `Script.Plan.isPostponed_iff_exists` — **a constant is postponed exactly if reading leads from it to
  one that suspends**.
* `Script.Plan.pair_computed_iff` — the order of two constants is kept unless only the first one is
  postponed.
* `Script.constants_in_order` — **the order is kept except through functions**.
-/

namespace FrameBasic

open Script (identifier)

/-! ### Reading names -/

/-- The name that an expression reads itself. -/
def Expr.readName? : Expr → Option String
  | .var _ name _ => some (identifier name)
  | _ => none

/-- The names that an expression reads. -/
def Expr.reads (e : Expr) : List String :=
  e.subterms.filterMap Expr.readName?

/-- The targets that are not variables: something is read to find the place. -/
def placesOf (targets : List Expr) : List Expr :=
  targets.filter fun target => target.readName?.isNone

/-- The expressions of a statement that are read. -/
def Stmt.readExprs : Stmt → List Expr
  | .assign _ target value => placesOf [target] ++ [value]
  | .read _ targets => placesOf targets
  | s => s.ownExprs

/-- The names that a function reads and does not bind itself: in the values of missing arguments and
in its body, given the names that it sees as global. -/
def Stmt.outerReads (globals : List String) : Stmt → List String
  | .function _ _ _ params body =>
    let own := params.map fun param => identifier param.name
    let inner := Dict.keys (localBindings own globals body)
    let arguments := (params.filterMap Param.default).flatMap Expr.reads
    let inside := (stmtsWithin false body).flatMap fun s => s.readExprs.flatMap Expr.reads
    (arguments.filter fun n => n ∉ own) ++ inside.filter fun n => n ∉ own ++ inner
  | _ => []

/-! ### Reading through functions -/

/-- The callee that a statement declares. -/
def Stmt.callee? : Stmt → Option Callee
  | .function _ name _ _ _ => some (.function (Name.fold name))
  | _ => none

/-- What a function calls: for missing arguments and in its body. -/
def Stmt.ownCalls : Stmt → List Callee
  | .function _ _ _ params body =>
    (params.filterMap Param.default).flatMap Expr.calls ++ callees body
  | _ => []

/-- One of the calls is a call of the function. -/
def Program.Calls (p : Program) (calls : List Callee) (f : Stmt) : Prop :=
  f ∈ p.functions ∧ ∃ callee ∈ calls, f.callee? = some callee

/-- A run of the function may read the name of the script. -/
inductive Program.Exposes (p : Program) (name : String) : Stmt → Prop
  | reads {f : Stmt} (h : name ∈ f.outerReads (globalNames p)) : Exposes p name f
  | calls {f g : Stmt} (h : p.Calls f.ownCalls g) (hg : Exposes p name g) : Exposes p name f

/-- Computing the value may read the name of the script. -/
def Program.Observes (p : Program) (value : Expr) (name : String) : Prop :=
  name ∈ value.reads ∨ ∃ f, p.Calls value.calls f ∧ p.Exposes name f

/-- The value calls a command that suspends, or a function from which calls lead to one. -/
def Expr.Suspends (commands : CommandTable) (p : Program) (value : Expr) : Prop :=
  (∃ name ∈ commands.suspendingNames, .command name ∈ value.calls) ∨
    ∃ name, (CallGraph.ofProgram p).Reaches commands.suspendingNames name ∧
      .function name ∈ value.calls

namespace Script

/-! ### The pass over the constants -/

section Pass

variable {ctx : Context} {names : List String}

theorem mustWait_iff {value : Expr} : mustWait ctx names value = true ↔
    (∃ name ∈ ctx.commands.suspendingNames, .command name ∈ value.calls) ∨
      (∃ name ∈ ctx.suspending, .function name ∈ value.calls) ∨ ∃ n ∈ names, n ∈ value.reads := by
  unfold mustWait
  rw [List.any_eq_true]
  constructor
  · rintro ⟨e, he, h⟩
    split at h
    · exact .inl ⟨_, List.contains_iff_mem.mp h, List.mem_filterMap.mpr ⟨_, he, rfl⟩⟩
    · exact .inr (.inl ⟨_, List.contains_iff_mem.mp h, List.mem_filterMap.mpr ⟨_, he, rfl⟩⟩)
    · exact .inr (.inr ⟨_, List.contains_iff_mem.mp h, List.mem_filterMap.mpr ⟨_, he, rfl⟩⟩)
    · exact absurd h Bool.false_ne_true
  -- a call or a variable tells which node it is
  · rintro (⟨name, hname, hcall⟩ | ⟨name, hname, hcall⟩ | ⟨n, hn, hread⟩)
    · obtain ⟨e, he, hcallee⟩ := List.mem_filterMap.mp hcall
      refine ⟨e, he, ?_⟩
      cases e <;> simp only [Expr.callee?, reduceCtorEq, Option.some.injEq, Callee.command.injEq] at hcallee
      exact List.contains_iff_mem.mpr (hcallee ▸ hname)
    · obtain ⟨e, he, hcallee⟩ := List.mem_filterMap.mp hcall
      refine ⟨e, he, ?_⟩
      cases e <;> simp only [Expr.callee?, reduceCtorEq, Option.some.injEq, Callee.function.injEq] at hcallee
      exact List.contains_iff_mem.mpr (hcallee ▸ hname)
    · obtain ⟨e, he, hvariable⟩ := List.mem_filterMap.mp hread
      refine ⟨e, he, ?_⟩
      cases e <;> simp only [Expr.readName?, reduceCtorEq, Option.some.injEq] at hvariable
      exact List.contains_iff_mem.mpr (hvariable ▸ hn)

theorem postponedFrom_append (front : List Constant) : ∀ (names : List String)
    (back : List Constant), postponedFrom ctx names (front ++ back) =
      postponedFrom ctx (postponedFrom ctx names front) back := by
  induction front with
  | nil => exact fun _ _ => rfl
  | cons c front ih => exact fun _ _ => ih _ _

/-- The names that the pass finds are known before or are names of constants. -/
theorem mem_postponedFrom {n : String} (constants : List Constant) : ∀ {names : List String},
    n ∈ postponedFrom ctx names constants →
      n ∈ names ∨ n ∈ constants.map fun c => identifier c.name := by
  induction constants with
  | nil => exact fun h => .inl h
  | cons c rest ih =>
    intro names h
    rcases ih h with hknown | hrest
    · split at hknown
      · rcases List.mem_append.mp hknown with hold | hnew
        · exact .inl hold
        · refine .inr (List.mem_map.mpr ⟨c, List.mem_cons_self, ?_⟩)
          exact (List.mem_singleton.mp hnew).symm
      · exact .inl hknown
    · exact .inr (List.mem_cons_of_mem _ hrest)

theorem subset_postponedFrom (constants : List Constant) : ∀ names : List String,
    names ⊆ postponedFrom ctx names constants := by
  induction constants with
  | nil => exact fun names => List.Subset.refl names
  | cons c rest ih =>
    intro names n hn
    apply ih
    split
    · exact List.mem_append_left _ hn
    · exact hn

/-- Of constants with different names, one is found exactly if it must wait for those in front of
it. -/
theorem mem_postponed_iff {front back : List Constant} {c : Constant}
    (hdistinct : ((front ++ c :: back).map fun c => identifier c.name).Nodup) :
    identifier c.name ∈ postponed ctx (front ++ c :: back) ↔
      mustWait ctx (postponed ctx front) c.value = true := by
  rw [List.map_append, List.map_cons, List.nodup_append, List.nodup_cons] at hdistinct
  obtain ⟨-, ⟨hback, -⟩, hfront⟩ := hdistinct
  have hnew : identifier c.name ∉ postponed ctx front := by
    intro h
    rcases mem_postponedFrom front h with hnil | hmem
    · exact List.not_mem_nil hnil
    · exact hfront _ hmem _ List.mem_cons_self rfl
  unfold postponed at hnew ⊢
  rw [postponedFrom_append, postponedFrom]
  constructor
  · intro h
    rcases mem_postponedFrom back h with hknown | hmem
    · split at hknown
      · next hwaits => exact hwaits.1
      · exact absurd hknown hnew
    · exact absurd hmem hback
  · intro h
    apply subset_postponedFrom
    rw [if_pos ⟨h, fun hmem => hnew (List.contains_iff_mem.mp hmem)⟩]
    exact List.mem_append_right _ List.mem_cons_self

/-- The constants behind others change nothing about them. -/
theorem mem_postponed_append {front back : List Constant} {n : String}
    (hdistinct : ((front ++ back).map fun c => identifier c.name).Nodup)
    (hn : n ∈ front.map fun c => identifier c.name) :
    n ∈ postponed ctx (front ++ back) ↔ n ∈ postponed ctx front := by
  rw [List.map_append, List.nodup_append] at hdistinct
  unfold postponed
  rw [postponedFrom_append]
  constructor
  · intro h
    rcases mem_postponedFrom back h with hknown | hmem
    · exact hknown
    · exact absurd rfl (hdistinct.2.2 n hn n hmem)
  · exact fun h => subset_postponedFrom back _ h

end Pass

/-! ### The order of the script -/

theorem pair_sublist {α : Type} {a b : α} {front back : List α} (h : a ∈ front) :
    [a, b].Sublist (front ++ b :: back) :=
  (List.singleton_sublist.mpr h).append (List.singleton_sublist.mpr List.mem_cons_self)

/-- Of two members in this order, the first one stands in front of the second one. -/
theorem exists_append_of_pair {α : Type} {a b : α} {l : List α} (h : [a, b].Sublist l) :
    ∃ front back, l = front ++ b :: back ∧ a ∈ front := by
  obtain ⟨first, second, rfl, ha, hb⟩ := List.cons_sublist_iff.mp h
  obtain ⟨between, back, rfl⟩ := List.append_of_mem (List.singleton_sublist.mp hb)
  exact ⟨first ++ between, back, (List.append_assoc _ _ _).symm, List.mem_append_left _ ha⟩

/-- A constant with its value, if it is computed when the script is loaded. -/
def ConstantCode.fixed? : ConstantCode → Option (String × Fragment)
  | .fixed name value => some (name, value)
  | .later .. => none

namespace Plan

/-- The constants in the order in which the script computes them: first those that it computes when
it is loaded. -/
def computed (plan : Plan) : List Constant :=
  (plan.schedule.constants.filter fun c => !plan.isPostponed c) ++
    plan.schedule.constants.filter plan.isPostponed

/-- What the script computes when it is loaded. -/
theorem fixed_ofPlan (plan : Plan) : (ofPlan plan).constants.filterMap ConstantCode.fixed? =
    (plan.schedule.constants.filter fun c => !plan.isPostponed c).map fun c =>
      (identifier c.name, exprCode plan.context c.value) := by
  have hcode : ∀ c, (constantCode plan c).fixed? =
      if !plan.isPostponed c then some (identifier c.name, exprCode plan.context c.value) else none := by
    intro c
    unfold constantCode
    cases plan.isPostponed c <;> rfl
  show (plan.schedule.constants.map (constantCode plan)).filterMap _ = _
  induction plan.schedule.constants with
  | nil => rfl
  | cons c rest ih =>
    rw [List.map_cons, List.filterMap_cons, ih, hcode, List.filter_cons]
    cases plan.isPostponed c <;> rfl

/-- The order of two constants is kept unless only the first one is postponed. -/
theorem pair_computed_iff {plan : Plan} {k c : Constant}
    (h : [k, c].Sublist plan.schedule.constants) :
    [k, c].Sublist plan.computed ↔ (plan.isPostponed k = true → plan.isPostponed c = true) := by
  constructor
  · intro hsub hk
    obtain ⟨first, second, hpair, hfirst, hsecond⟩ := List.sublist_append_iff.mp hsub
    cases first with
    | nil =>
      obtain rfl : [k, c] = second := hpair
      have hc : c ∈ [k, c] := List.mem_cons_of_mem _ List.mem_cons_self
      exact (List.mem_filter.mp (hsecond.subset hc)).2
    | cons k' rest =>
      -- the first constant is not among those that are computed first
      obtain rfl : k = k' := (List.cons.inj hpair).1
      have hloaded := (List.mem_filter.mp (hfirst.subset List.mem_cons_self)).2
      rw [hk] at hloaded
      exact absurd hloaded Bool.false_ne_true
  · intro himp
    have hfilter := h.filter
    by_cases hk : plan.isPostponed k = true
    · have hboth := hfilter plan.isPostponed
      rw [List.filter_cons_of_pos hk, List.filter_cons_of_pos (himp hk), List.filter_nil] at hboth
      exact hboth.trans (List.sublist_append_right _ _)
    · have hload : (!plan.isPostponed k) = true := by simpa using hk
      by_cases hc : plan.isPostponed c = true
      · have hfirst := hfilter fun c => !plan.isPostponed c
        have hsecond := hfilter plan.isPostponed
        simp only [List.filter_cons, hk, hc, List.filter_nil] at hfirst hsecond
        exact List.Sublist.append hfirst hsecond
      · have hboth := hfilter fun c => !plan.isPostponed c
        simp only [List.filter_cons, hk, hc, List.filter_nil] at hboth
        exact hboth.trans (List.sublist_append_left _ _)

/-- The first constant is declared in front of the second one, which reads it. -/
def ReadsEarlier (plan : Plan) (c k : Constant) : Prop :=
  [k, c].Sublist plan.schedule.constants ∧ identifier k.name ∈ c.value.reads

section Program

variable {commands : CommandTable} {p : Program} {c k : Constant}

theorem mem_postponed_ofProgram {c : Constant} : (ofProgram commands p).isPostponed c = true ↔
    identifier c.name ∈
      Script.postponed (ofProgram commands p).context (ofProgram commands p).schedule.constants :=
  List.contains_iff_mem

variable (hdistinct :
  ((ofProgram commands p).schedule.constants.map fun c => identifier c.name).Nodup)
include hdistinct

/-- A constant is postponed if its value suspends or if it reads one in front of it that is. -/
theorem isPostponed_iff {front back : List Constant}
    (hconstants : (ofProgram commands p).schedule.constants = front ++ c :: back) :
    (ofProgram commands p).isPostponed c = true ↔
      c.value.Suspends commands p ∨
        ∃ k ∈ front, (ofProgram commands p).isPostponed k = true ∧
          identifier k.name ∈ c.value.reads := by
  have hknown : ∀ k ∈ front, (ofProgram commands p).isPostponed k = true ↔
      identifier k.name ∈ Script.postponed (ofProgram commands p).context front := by
    intro k hk
    rw [mem_postponed_ofProgram, hconstants]
    rw [hconstants] at hdistinct
    exact mem_postponed_append hdistinct (List.mem_map.mpr ⟨k, hk, rfl⟩)
  rw [mem_postponed_ofProgram, hconstants]
  rw [hconstants] at hdistinct
  rw [mem_postponed_iff hdistinct, mustWait_iff, Expr.Suspends, or_assoc]
  refine or_congr Iff.rfl (or_congr ?_ ?_)
  · constructor
    · rintro ⟨name, hname, hcall⟩
      exact ⟨name, CallGraph.mem_marked_iff_reaches.mp hname, hcall⟩
    · rintro ⟨name, hname, hcall⟩
      exact ⟨name, CallGraph.mem_marked_iff_reaches.mpr hname, hcall⟩
  · constructor
    · rintro ⟨n, hn, hread⟩
      rcases mem_postponedFrom front hn with hnil | hmem
      · exact absurd hnil List.not_mem_nil
      · obtain ⟨k, hk, rfl⟩ := List.mem_map.mp hmem
        exact ⟨k, hk, (hknown k hk).mpr hn, hread⟩
    · rintro ⟨k, hk, hpostponed, hread⟩
      exact ⟨_, (hknown k hk).mp hpostponed, hread⟩

/-- A constant is postponed exactly if reading leads from it to one whose value suspends. -/
theorem isPostponed_iff_exists (hc : c ∈ (ofProgram commands p).schedule.constants) :
    (ofProgram commands p).isPostponed c = true ↔
      ∃ k, Relation.ReflTransGen (ofProgram commands p).ReadsEarlier c k ∧
        k.value.Suspends commands p := by
  constructor
  · -- by the number of constants in front
    obtain ⟨front, back, hconstants⟩ := List.append_of_mem hc
    clear hc
    induction hlength : front.length using Nat.strongRecOn generalizing front back c with
    | _ n ih =>
      intro hpostponed
      rcases (isPostponed_iff hdistinct hconstants).mp hpostponed with hsuspends | ⟨k, hk, hfirst, hread⟩
      · exact ⟨c, .refl, hsuspends⟩
      · obtain ⟨front', between, rfl⟩ := List.append_of_mem hk
        have hsplit : (ofProgram commands p).schedule.constants =
            front' ++ k :: (between ++ c :: back) := by
          rw [hconstants, List.append_assoc, List.cons_append]
        have hshorter : front'.length < n := by
          rw [← hlength, List.length_append, List.length_cons]
          omega
        obtain ⟨last, hpath, hsuspends⟩ := ih _ hshorter _ _ hsplit rfl hfirst
        have hearlier : (ofProgram commands p).ReadsEarlier c k :=
          ⟨hconstants ▸ pair_sublist hk, hread⟩
        exact ⟨last, .head hearlier hpath, hsuspends⟩
  · rintro ⟨last, hpath, hsuspends⟩
    -- backwards from the constant that suspends
    induction hpath using Relation.ReflTransGen.head_induction_on with
    | refl =>
      obtain ⟨front, back, hconstants⟩ := List.append_of_mem hc
      exact (isPostponed_iff hdistinct hconstants).mpr (.inl hsuspends)
    | head hearlier _ ih =>
      obtain ⟨hpair, hread⟩ := hearlier
      have hnext := ih (hpair.subset List.mem_cons_self)
      obtain ⟨front, back, hconstants, hk⟩ := exists_append_of_pair hpair
      exact (isPostponed_iff hdistinct hconstants).mpr (.inr ⟨_, hk, hnext, hread⟩)

/-- What a value reads itself was computed before. -/
theorem pair_computed_of_reads (h : (ofProgram commands p).ReadsEarlier c k) :
    [k, c].Sublist (ofProgram commands p).computed := by
  apply (pair_computed_iff h.1).mpr
  intro hk
  obtain ⟨front, back, hconstants, hmem⟩ := exists_append_of_pair h.1
  exact (isPostponed_iff hdistinct hconstants).mpr (.inr ⟨k, hmem, hk, h.2⟩)

end Program

end Plan

/-- **The order of constants is kept except through functions.**  The constants have different names
in the script.  The script computes some of them when it is loaded, and the others before anything
else in its first routine.

A constant is one of the others exactly if reading leads from it to a constant whose value suspends.
So no value that is computed when the script is loaded suspends, and a constant that a value reads
itself, if it is declared in front, is computed before it.  This is also true of the constants that
the functions read which the value calls, directly or not, unless the script computes the value when
it is loaded and such a constant is one of the others. -/
theorem constants_in_order (commands : CommandTable) (p : Program) (hdistinct :
    ((Plan.ofProgram commands p).schedule.constants.map fun c => identifier c.name).Nodup) :
    let plan := Plan.ofProgram commands p
    let constants := plan.schedule.constants
    ((ofPlan plan).constants.filterMap ConstantCode.fixed? =
        (constants.filter fun c => !plan.isPostponed c).map fun c =>
          (identifier c.name, exprCode plan.context c.value)) ∧
      (∃ rest, (ofPlan plan).init = ((constants.filter plan.isPostponed).map fun c =>
        .line (assignCode [.name (identifier c.name)] (exprCode plan.context c.value))) ++ rest) ∧
      (∀ c ∈ constants, plan.isPostponed c = true ↔
        ∃ k, Relation.ReflTransGen plan.ReadsEarlier c k ∧ k.value.Suspends commands p) ∧
      (∀ c ∈ constants, plan.isPostponed c = false → ¬ c.value.Suspends commands p) ∧
      (∀ k c, [k, c].Sublist constants → identifier k.name ∈ c.value.reads →
        [k, c].Sublist plan.computed) ∧
      ((∀ k c, [k, c].Sublist constants → p.Observes c.value (identifier k.name) →
          [k, c].Sublist plan.computed) ↔
        ∀ k c, [k, c].Sublist constants → plan.isPostponed k = true → plan.isPostponed c = false →
          ∀ f, p.Calls c.value.calls f → ¬ p.Exposes (identifier k.name) f) := by
  intro plan constants
  have hreads : ∀ k c, [k, c].Sublist constants → identifier k.name ∈ c.value.reads →
      [k, c].Sublist plan.computed :=
    fun k c hpair hread => Plan.pair_computed_of_reads hdistinct ⟨hpair, hread⟩
  have hwaits := fun c (hc : c ∈ constants) => Plan.isPostponed_iff_exists hdistinct hc
  refine ⟨Plan.fixed_ofPlan plan, ⟨_, List.append_assoc _ _ _⟩, hwaits, ?_, hreads, ?_⟩
  · intro c hc hload hsuspends
    have hpostponed := (hwaits c hc).mpr ⟨c, .refl, hsuspends⟩
    rw [hload] at hpostponed
    exact Bool.false_ne_true hpostponed
  · constructor
    · intro hkept k c hpair hk hc f hcall hexposes
      have himp := (Plan.pair_computed_iff hpair).mp (hkept k c hpair (.inr ⟨f, hcall, hexposes⟩))
      rw [himp hk] at hc
      exact Bool.false_ne_true hc.symm
    · intro hfunctions k c hpair hobserves
      rcases hobserves with hread | ⟨f, hcall, hexposes⟩
      · exact hreads k c hpair hread
      · apply (Plan.pair_computed_iff hpair).mpr
        intro hk
        by_cases hc : plan.isPostponed c = true
        · exact hc
        · exact absurd hexposes (hfunctions k c hpair hk (Bool.eq_false_iff.mpr hc) f hcall)

/-- A constant that waits for a key, one that reads it, and a number. -/
theorem constants_in_order_key :
    let commands := CommandTable.ofList [("WaitKey", { category := .call, suspends := true })]
    let p : Program := ⟨[.const .unknown "K" (.command default "WaitKey" []),
      .const .unknown "Twice"
        (.binary default (.var default "k" none) .multiply (.integer default 2)),
      .const .unknown "Max" (.integer default 10)]⟩
    let plan := Plan.ofProgram commands p
    (plan.schedule.constants.map fun c => identifier c.name).Nodup ∧
      plan.schedule.constants.map plan.isPostponed = [true, true, false] ∧
      plan.computed.map Constant.name = ["Max", "K", "Twice"] ∧
      ∀ k c, [k, c].Sublist plan.schedule.constants → identifier k.name ∈ c.value.reads →
        [k, c].Sublist plan.computed := by
  intro commands p plan
  have hplan : (plan.schedule.constants.map fun c => identifier c.name).Nodup ∧
      plan.schedule.constants.map plan.isPostponed = [true, true, false] ∧
      plan.computed.map Constant.name = ["Max", "K", "Twice"] := by
    decide +kernel
  -- nothing is computed from here on
  clear_value commands p
  exact ⟨hplan.1, hplan.2.1, hplan.2.2, (constants_in_order commands p hplan.1).2.2.2.2.1⟩

/-- A function that reads a constant which waits for a key, and another constant that calls it: the
script computes the second constant when it is loaded, and the first one has no value then. -/
theorem computed_without_key :
    let commands := CommandTable.ofList [("WaitKey", { category := .call, suspends := true })]
    let k : Constant := ⟨"K", .command default "WaitKey" []⟩
    let b : Constant := ⟨"B", .call default "F" []⟩
    let f : Stmt := .function .unknown "F" none [] [.return_ .unknown (some (.var default "k" none))]
    let p : Program := ⟨[.const .unknown k.name k.value, f, .const .unknown b.name b.value]⟩
    let plan := Plan.ofProgram commands p
    [k, b] = plan.schedule.constants ∧
      (plan.schedule.constants.map fun c => identifier c.name).Nodup ∧
      p.Observes b.value (identifier k.name) ∧ ¬ [k, b].Sublist plan.computed ∧
      (ofPlan plan).constants.map ConstantCode.render = ["let k = 0;\n", "const b = fn_f();\n"] := by
  intro commands k b f p plan
  have hplan : (plan.schedule.constants.map fun c => identifier c.name).Nodup ∧
      plan.isPostponed k = true ∧ plan.isPostponed b = false ∧
      identifier k.name ∈ f.outerReads (globalNames p) ∧
      (ofPlan plan).constants.map ConstantCode.render = ["let k = 0;\n", "const b = fn_f();\n"] := by
    decide +kernel
  obtain ⟨hdistinct, hk, hb, hread, hrender⟩ := hplan
  have hconstants : [k, b] = plan.schedule.constants := rfl
  have hcall : p.Calls b.value.calls f :=
    ⟨List.mem_cons_self, .function "f", by decide +kernel, by decide +kernel⟩
  refine ⟨hconstants, hdistinct, .inr ⟨f, hcall, .reads hread⟩, ?_, hrender⟩
  intro hsub
  have himp := (Plan.pair_computed_iff (hconstants ▸ List.Sublist.refl _)).mp hsub
  rw [himp hk] at hb
  exact Bool.false_ne_true hb.symm

end Script

end FrameBasic
