import FrameBasic.Program.CallGraph
import Mathlib.Logic.Relation

/-!
# What the marks of a call graph mean

The search marks exactly the functions from which calls lead to one of the commands.  A pass marks
only such functions, and when a pass marks nothing no such function is left out: the way to the
command is followed backwards.  Every other pass leaves fewer functions unmarked, so the search ends
by itself within as many passes as there are functions.

## Main definitions

* `CallGraph.Calls` — a function calls something.
* `CallGraph.Reaches` — calls of functions lead to a call of one of the commands.
* `CallGraph.unmarked` — the functions that are not marked yet.

## Main results

* `CallGraph.calls_ofProgram` — the calls in the graph of a program are those of its functions.
* `CallGraph.mem_marked_iff_reaches` — exactly the functions that reach a command are marked.
* `CallGraph.reach_ofProgram_exact` — the search is exact, short and monotone in the commands.
-/

namespace FrameBasic.CallGraph

variable {graph : CallGraph} {seeds marked : List String} {name : String}

/-- The function calls something. -/
def Calls (graph : CallGraph) (name : String) (callee : Callee) : Prop :=
  ∃ found, (name, found) ∈ graph.calls ∧ callee ∈ found

/-- Calls of functions lead from the function to one that calls one of the commands. -/
def Reaches (graph : CallGraph) (seeds : List String) (name : String) : Prop :=
  ∃ last, Relation.ReflTransGen (fun a b => graph.Calls a (.function b)) name last ∧
    ∃ seed ∈ seeds, graph.Calls last (.command seed)

/-! ### The graph of a program -/

theorem calls_cons {key : String} {found : List Callee} {rest : Dict (List Callee)}
    {callee : Callee} :
    Calls ⟨(key, found) :: rest⟩ name callee ↔
      (name = key ∧ callee ∈ found) ∨ Calls ⟨rest⟩ name callee := by
  constructor
  · rintro ⟨found', hmem, hc⟩
    rcases List.mem_cons.mp hmem with heq | hmem
    · obtain ⟨rfl, rfl⟩ := Prod.mk.inj heq
      exact .inl ⟨rfl, hc⟩
    · exact .inr ⟨found', hmem, hc⟩
  · rintro (⟨rfl, hc⟩ | ⟨found', hmem, hc⟩)
    · exact ⟨found, List.mem_cons_self, hc⟩
    · exact ⟨found', List.mem_cons_of_mem _ hmem, hc⟩

theorem calls_add {key : String} {found : List Callee} {callee : Callee} :
    (graph.add key found).Calls name callee ↔
      graph.Calls name callee ∨ (name = key ∧ callee ∈ found) := by
  obtain ⟨calls⟩ := graph
  unfold add
  -- the entry of the name is extended where it stands, or a new one is put at the end
  induction calls with
  | nil => exact calls_cons.trans or_comm
  | cons entry rest ih =>
    obtain ⟨key', found'⟩ := entry
    by_cases hkey : key' = key
    · subst hkey
      simp only [Dict.get?, Dict.insert, if_true, Option.getD_some, calls_cons, List.mem_append,
        and_or_left]
      exact or_right_comm
    · simp only [Dict.get?, Dict.insert, hkey, if_false, calls_cons, or_assoc] at ih ⊢
      exact or_congr_right ih

/-- The calls in the graph of a program are those of its functions. -/
theorem calls_ofProgram {p : Program} {callee : Callee} :
    (ofProgram p).Calls name callee ↔ ∃ span spelled returns params body,
      Stmt.function span spelled returns params body ∈ p.functions ∧ name = Name.fold spelled ∧
        callee ∈ callees body := by
  have hfold : ∀ (stmts : List Stmt) (graph : CallGraph),
      (stmts.foldl addStmt graph).Calls name callee ↔ graph.Calls name callee ∨
        ∃ span spelled returns params body, Stmt.function span spelled returns params body ∈ stmts ∧
          name = Name.fold spelled ∧ callee ∈ callees body := by
    intro stmts
    induction stmts with
    | nil => simp
    | cons s rest ih =>
      intro graph
      rw [List.foldl_cons, ih]
      cases s with
      | function span spelled returns params body =>
        rw [addStmt, calls_add, or_assoc]
        refine or_congr_right ?_
        constructor
        · rintro (⟨hname, hc⟩ | ⟨span', spelled', returns', params', body', hmem, hname, hc⟩)
          · exact ⟨_, _, _, _, _, List.mem_cons_self, hname, hc⟩
          · exact ⟨_, _, _, _, _, List.mem_cons_of_mem _ hmem, hname, hc⟩
        · rintro ⟨span', spelled', returns', params', body', hmem, hname, hc⟩
          rcases List.mem_cons.mp hmem with heq | hmem
          · obtain ⟨rfl, rfl, rfl, rfl, rfl⟩ := Stmt.function.inj heq
            exact .inl ⟨hname, hc⟩
          · exact .inr ⟨_, _, _, _, _, hmem, hname, hc⟩
      | _ => simp [addStmt]
  have hempty : ¬ Calls ⟨[]⟩ name callee := fun ⟨_, hmem, _⟩ => absurd hmem List.not_mem_nil
  rw [ofProgram, hfold, or_iff_right hempty]

/-! ### Reaching commands -/

theorem reaches_of_command {seed : String} (hseed : seed ∈ seeds)
    (h : graph.Calls name (.command seed)) : graph.Reaches seeds name :=
  ⟨name, .refl, seed, hseed, h⟩

theorem reaches_of_function {next : String} (h : graph.Calls name (.function next))
    (hnext : graph.Reaches seeds next) : graph.Reaches seeds name := by
  obtain ⟨last, hpath, hlast⟩ := hnext
  exact ⟨last, .head h hpath, hlast⟩

theorem Reaches.mono {more : List String} (hsub : ∀ seed ∈ seeds, seed ∈ more)
    (h : graph.Reaches seeds name) : graph.Reaches more name := by
  obtain ⟨last, hpath, seed, hseed, hcalls⟩ := h
  exact ⟨last, hpath, seed, hsub seed hseed, hcalls⟩

/-! ### One pass -/

/-- The functions that are not marked yet. -/
def unmarked (graph : CallGraph) (marked : List String) : Dict (List Callee) :=
  graph.calls.filter fun entry => !marked.contains entry.1

theorem touches_iff {found : List Callee} :
    touches seeds marked found = true ↔
      (∃ seed ∈ seeds, .command seed ∈ found) ∨ ∃ next ∈ marked, .function next ∈ found := by
  unfold touches
  rw [List.any_eq_true]
  constructor
  · rintro ⟨callee, hmem, hc⟩
    cases callee with
    | command seed => exact .inl ⟨seed, List.contains_iff_mem.mp hc, hmem⟩
    | function next => exact .inr ⟨next, List.contains_iff_mem.mp hc, hmem⟩
  · rintro (⟨seed, hseed, hmem⟩ | ⟨next, hnext, hmem⟩)
    · exact ⟨_, hmem, List.contains_iff_mem.mpr hseed⟩
    · exact ⟨_, hmem, List.contains_iff_mem.mpr hnext⟩

theorem mem_pass_iff :
    name ∈ graph.pass seeds marked ↔
      name ∉ marked ∧ ((∃ seed ∈ seeds, graph.Calls name (.command seed)) ∨
        ∃ next ∈ marked, graph.Calls name (.function next)) := by
  unfold pass Calls
  simp only [List.mem_map, List.mem_filter, Bool.and_eq_true, Bool.not_eq_true', touches_iff,
    List.contains_eq_mem, decide_eq_false_iff_not]
  constructor
  · rintro ⟨⟨name, found⟩, ⟨hmem, hnew, htouch⟩, rfl⟩
    refine ⟨hnew, htouch.imp ?_ ?_⟩
    · exact fun ⟨seed, hseed, hc⟩ => ⟨seed, hseed, found, hmem, hc⟩
    · exact fun ⟨next, hnext, hc⟩ => ⟨next, hnext, found, hmem, hc⟩
  · rintro ⟨hnew, ⟨seed, hseed, found, hmem, hc⟩ | ⟨next, hnext, found, hmem, hc⟩⟩
    · exact ⟨(name, found), ⟨hmem, hnew, .inl ⟨seed, hseed, hc⟩⟩, rfl⟩
    · exact ⟨(name, found), ⟨hmem, hnew, .inr ⟨next, hnext, hc⟩⟩, rfl⟩

/-- A pass marks only functions that reach a command, if all marked ones do. -/
theorem reaches_of_mem_pass (hmarked : ∀ next ∈ marked, graph.Reaches seeds next)
    (h : name ∈ graph.pass seeds marked) : graph.Reaches seeds name := by
  obtain ⟨-, ⟨seed, hseed, hcalls⟩ | ⟨next, hnext, hcalls⟩⟩ := mem_pass_iff.mp h
  · exact reaches_of_command hseed hcalls
  · exact reaches_of_function hcalls (hmarked next hnext)

/-- A pass that marks something leaves fewer functions unmarked. -/
theorem length_unmarked_lt (h : graph.pass seeds marked ≠ []) :
    (graph.unmarked (marked ++ graph.pass seeds marked)).length <
      (graph.unmarked marked).length := by
  -- what a pass marks is taken from the unmarked functions, and the first of it is one of them
  have hsplit : graph.unmarked (marked ++ graph.pass seeds marked) =
      (graph.unmarked marked).filter fun entry =>
        !(graph.pass seeds marked).contains entry.1 := by
    unfold unmarked
    rw [List.filter_filter]
    refine List.filter_congr fun entry _ => ?_
    simp [Bool.and_comm]
  obtain ⟨found, hfound⟩ := List.exists_mem_of_ne_nil _ h
  obtain ⟨entry, hentry, rfl⟩ := List.mem_map.mp hfound
  obtain ⟨hmem, hnew⟩ := List.mem_filter.mp hentry
  rw [Bool.and_eq_true] at hnew
  rw [hsplit, List.length_filter_lt_length_iff_exists]
  exact ⟨entry, List.mem_filter.mpr ⟨hmem, hnew.1⟩, by simpa using hfound⟩

/-! ### The search -/

/-- Whatever the bound is, only functions that reach a command are marked. -/
theorem reaches_of_mem_spread (bound : Nat) : ∀ {reach : Reach},
    (∀ next ∈ reach.marked, graph.Reaches seeds next) →
    ∀ name ∈ (graph.spread seeds bound reach).marked, graph.Reaches seeds name := by
  induction bound with
  | zero => exact fun hmarked => hmarked
  | succ bound ih =>
    intro reach hmarked
    unfold spread
    split
    · exact hmarked
    · next found hfound =>
      refine ih fun next hnext => ?_
      rcases List.mem_append.mp hnext with hold | hnew
      · exact hmarked next hold
      · exact reaches_of_mem_pass hmarked hnew

/-- With a bound of at least the number of unmarked functions, the search ends because a pass marks
nothing, and every pass before marked one of them. -/
theorem spread_ends (bound : Nat) : ∀ reach : Reach,
    (graph.unmarked reach.marked).length ≤ bound →
    graph.pass seeds (graph.spread seeds bound reach).marked = [] ∧
      (graph.spread seeds bound reach).passes ≤
        reach.passes + (graph.unmarked reach.marked).length := by
  induction bound with
  | zero =>
    intro reach hbound
    refine ⟨?_, Nat.le_add_right _ _⟩
    by_cases hpass : graph.pass seeds reach.marked = []
    · exact hpass
    · have hlt := length_unmarked_lt hpass
      omega
  | succ bound ih =>
    intro reach hbound
    unfold spread
    split
    · next hpass => exact ⟨hpass, Nat.le_add_right _ _⟩
    · next found hfound =>
      have hlt := length_unmarked_lt hfound
      have hrest :
          (graph.unmarked (reach.marked ++ graph.pass seeds reach.marked)).length ≤ bound := by
        omega
      obtain ⟨hend, hpasses⟩ := ih ⟨_, reach.passes + 1⟩ hrest
      refine ⟨hend, Nat.le_trans hpasses ?_⟩
      dsimp only
      omega

theorem pass_reach (graph : CallGraph) (seeds : List String) :
    graph.pass seeds (graph.reach seeds).marked = [] ∧ (graph.reach seeds).passes ≤ graph.size := by
  have hall : (graph.unmarked []).length ≤ graph.size := List.length_filter_le _ _
  obtain ⟨hend, hpasses⟩ := spread_ends graph.size ⟨[], 0⟩ hall
  refine ⟨hend, Nat.le_trans hpasses ?_⟩
  rw [Nat.zero_add]
  exact hall

/-- Where no pass marks anything, a call of a command or of a marked function is a mark. -/
theorem mem_marked_of_calls (hend : graph.pass seeds marked = [])
    (h : (∃ seed ∈ seeds, graph.Calls name (.command seed)) ∨
      ∃ next ∈ marked, graph.Calls name (.function next)) : name ∈ marked := by
  by_cases hmem : name ∈ marked
  · exact hmem
  · have hnew := mem_pass_iff.mpr ⟨hmem, h⟩
    rw [hend] at hnew
    exact absurd hnew List.not_mem_nil

/-- Exactly the functions that reach a command are marked. -/
theorem mem_marked_iff_reaches :
    name ∈ (graph.reach seeds).marked ↔ graph.Reaches seeds name := by
  constructor
  · exact reaches_of_mem_spread graph.size (fun _ h => absurd h List.not_mem_nil) name
  · rintro ⟨last, hpath, seed, hseed, hcalls⟩
    have hend := (pass_reach graph seeds).1
    -- backwards from the function that calls the command
    induction hpath using Relation.ReflTransGen.head_induction_on with
    | refl => exact mem_marked_of_calls hend (.inl ⟨seed, hseed, hcalls⟩)
    | head hcall _ ih => exact mem_marked_of_calls hend (.inr ⟨_, ih, hcall⟩)

/-- In the graph of any program, whose calls are those of its functions, the search ends by itself,
marks exactly the functions that reach one of the commands, takes at most as many passes as there
are functions, and loses no mark when there are more commands. -/
theorem reach_ofProgram_exact (p : Program) (seeds : List String) :
    let graph := ofProgram p
    (∀ name callee, graph.Calls name callee ↔ ∃ span spelled returns params body,
      Stmt.function span spelled returns params body ∈ p.functions ∧ name = Name.fold spelled ∧
        callee ∈ callees body) ∧
    graph.pass seeds (graph.reach seeds).marked = [] ∧
    (∀ name, name ∈ (graph.reach seeds).marked ↔ graph.Reaches seeds name) ∧
    (graph.reach seeds).passes ≤ graph.size ∧
    ∀ more : List String, seeds ⊆ more →
      (graph.reach seeds).marked ⊆ (graph.reach more).marked := by
  intro graph
  obtain ⟨hend, hpasses⟩ := pass_reach graph seeds
  refine ⟨fun name callee => calls_ofProgram, hend, fun name => mem_marked_iff_reaches, hpasses,
    fun more hsub name hname => ?_⟩
  rw [mem_marked_iff_reaches] at hname ⊢
  exact hname.mono hsub

/-- Two functions that call each other, one of which waits for a key, are both marked, and a
function that calls an unknown one is not. -/
theorem reach_ofProgram_cycle :
    let call (name : String) : Stmt := .expr .unknown (.call default name [])
    let p : Program := ⟨[.function .unknown "First" none [] [call "second"],
      .function .unknown "Second" none []
        [call "first", .expr .unknown (.command default "WaitKey" [])],
      .function .unknown "Third" none [] [call "Other"]]⟩
    (ofProgram p).reach ["waitkey"] = ⟨["second", "first"], 2⟩ ∧
      ((ofProgram p).reach []).marked ⊆ ((ofProgram p).reach ["waitkey"]).marked := by
  intro call p
  exact ⟨by decide +kernel, (reach_ofProgram_exact p []).2.2.2.2 ["waitkey"] (List.nil_subset _)⟩

end FrameBasic.CallGraph
