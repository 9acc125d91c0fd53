import FrameBasic.Compiler
import FrameBasic.Proofs.Script.Identifier
import FrameBasic.Proofs.Script.Scope
import Mathlib.Data.List.Nodup

/-!
# The names that a script declares

A script declares names of six sources: those of the host and the helpers, constants, variables,
user types, functions, and its own routines.  The variables are collected without the constants, and
names of different sources begin differently but for two of them: a function is called by its name
with `fn_` in front, and so may be a variable.

Nothing else keeps names apart.  A constant, a type, a function or a parameter that is declared
twice in the program is declared twice in the script, and no error is recorded.

## Main definitions

* `Script.declared` — the names that a script declares for all of its routines.
* `Script.FunctionCode.declared` — the names that a function declares.
* `Script.DeclaresOnce` — no name is declared twice in a script.
* `Program.DeclaresOnce` — no constant, type, function or parameter is declared twice.

## Main results

* `nodup_keys_scriptBindings`, `nodup_keys_localBindings` — variables are declared once.
* `Script.nodup_declared_iff` — when the names of a script are distinct.
* `declares_once_iff` — **the names of a compiled script are distinct exactly if those of the
  program are, and no variable is called as a function**.
* `declared_twice_without_diagnostics` — none of this is reported.
-/

namespace FrameBasic

open Script (identifier functionName)
open Dict (keys)

/-! ### Variables -/

theorem nodup_keys_addUse {bound : Dict Initial} (h : (keys bound).Nodup) (use : Use) :
    (keys (addUse bound use)).Nodup := by
  unfold addUse
  split
  · split
    · exact Dict.nodup_keys_insert h _ _
    · exact h
  · exact Dict.nodup_keys_insert h _ _

theorem nodup_keys_foldl_addUse {bound : Dict Initial} (h : (keys bound).Nodup)
    (uses : List Use) : (keys (uses.foldl addUse bound)).Nodup := by
  induction uses generalizing bound with
  | nil => exact h
  | cons use rest ih => exact ih (nodup_keys_addUse h use)

/-- Variables that are collected from uses have different names, whichever are left out. -/
theorem nodup_keys_collected (uses : List Use) (p : String × Initial → Bool) :
    (keys (Dict.sorted ((uses.foldl addUse []).filter p))).Nodup := by
  rw [(Dict.keys_sorted_perm _).nodup_iff]
  have hnone : (keys ([] : Dict Initial)).Nodup := List.nodup_nil
  have hall := nodup_keys_foldl_addUse hnone uses
  exact hall.sublist (List.filter_sublist.map Prod.fst)

theorem nodup_keys_scriptBindings (s : Schedule) : (keys (scriptBindings s)).Nodup :=
  nodup_keys_collected _ _

theorem nodup_keys_localBindings (params globals : List String) (body : List Stmt) :
    (keys (localBindings params globals body)).Nodup :=
  nodup_keys_collected _ _

namespace Script

/-! ### What is declared -/

/-- The words that declare a name at the start of a line. -/
def declaringWords : List String :=
  ["const ", "let ", "class ", "function ", "async function "]

/-- The name that a line declares, if it begins at the left margin with one of these words. -/
def declaredName? (line : String) : Option String :=
  declaringWords.findSome? fun word =>
    if word.toList.isPrefixOf line.toList then
      let rest := line.toList.drop word.toList.length
      some (String.ofList (rest.takeWhile fun c => c.isAlphanum || c == '$' || c == '_'))
    else none

/-- The names of the host and of the helpers. -/
def hostNames : List String :=
  (capabilities ++ helpers).filterMap declaredName?

/-- The names that a script declares for all of its routines, in the order of its text. -/
def declared (script : Script) : List String :=
  hostNames ++ script.constants.map ConstantCode.name ++ script.bindings.keys ++
    ["$data", "$dataPtr"] ++ script.classes.map ClassCode.name ++
    script.functions.map (fun f => functionName f.name) ++ ["$init", "$update", "$shutdown"]

/-- The names that a function declares: its parameters and its variables. -/
def FunctionCode.declared (f : FunctionCode) : List String :=
  f.params.map ParamCode.name ++ f.bindings.keys

/-- No name is declared twice, for the whole script or in one of its functions. -/
def DeclaresOnce (script : Script) : Prop :=
  script.declared.Nodup ∧ ∀ f ∈ script.functions, f.declared.Nodup

/-- The names that every script declares. -/
def fixedNames : List String :=
  hostNames ++ ["$data", "$dataPtr", "$init", "$update", "$shutdown"]

/-- The name begins as the names of user types do. -/
def BeginsClass (name : String) : Prop :=
  ['$', 'T', '_'] <+: name.toList

theorem not_beginsClass {name : String} (h : BeginsWord name) : ¬ BeginsClass name := by
  rintro ⟨rest, hrest⟩
  refine h ?_
  rw [← hrest]
  rfl

/-- Read off the lines once, since this takes the kernel a while. -/
theorem hostNames_eq : hostNames =
    ["$rt", "$graphics", "$input", "$audio", "$files", "$math", "$strings", "$HALT", "$end",
      "$guard", "$dim", "$read", "$delete", "$deleteEach", "$first", "$last", "$after", "$before",
      "$insert"] := by
  decide +kernel

theorem fixedNames_nodup : fixedNames.Nodup := by
  rw [fixedNames, hostNames_eq]
  decide +kernel

theorem fixedNames_dollar :
    ∀ name ∈ fixedNames, name.toList.head? = some '$' ∧ ¬ ['$', 'T', '_'] <+: name.toList := by
  rw [fixedNames, hostNames_eq]
  decide +kernel

theorem toList_functionName (folded : String) :
    (functionName folded).toList = 'f' :: 'n' :: '_' :: folded.toList := by
  rw [functionName, String.toList_append]
  rfl

theorem beginsWord_functionName (folded : String) : BeginsWord (functionName folded) :=
  beginsWord_of_cons (toList_functionName folded) (by decide)

theorem functionName_inj {a b : String} : functionName a = functionName b ↔ a = b := by
  rw [← String.toList_inj, toList_functionName, toList_functionName, ← String.toList_inj]
  simp

theorem beginsClass_className (typeName : String) : BeginsClass (className typeName) := by
  refine ⟨(Name.fold typeName).toList, ?_⟩
  rw [className, String.toList_append]
  rfl

/-- Lists whose members are told apart by a condition. -/
theorem nodup_append_of_separate {P : String → Prop} {as bs : List String}
    (has : ∀ a ∈ as, P a) (hbs : ∀ b ∈ bs, ¬ P b) :
    (as ++ bs).Nodup ↔ as.Nodup ∧ bs.Nodup := by
  rw [List.nodup_append]
  refine ⟨fun h => ⟨h.1, h.2.1⟩, fun h => ⟨h.1, h.2, ?_⟩⟩
  rintro a ha b hb rfl
  exact hbs a hb (has a ha)

/-! ### When names are distinct -/

theorem declared_perm (script : Script) :
    script.declared.Perm (fixedNames ++ (script.classes.map ClassCode.name ++
      (script.globals ++ script.functions.map fun f => functionName f.name))) := by
  rw [List.perm_iff_count]
  intro name
  have hfixed : fixedNames =
      hostNames ++ (["$data", "$dataPtr"] ++ ["$init", "$update", "$shutdown"]) := rfl
  rw [hfixed]
  simp only [declared, globals, List.count_append]
  omega

/-- The names of a script whose variables begin as words do are distinct exactly if those of the
types, of the functions and of the constants are, and no function is called as a variable. -/
theorem nodup_declared_iff {script : Script} (hwords : ∀ n ∈ script.globals, BeginsWord n)
    (hclasses : ∀ c ∈ script.classes, BeginsClass c.name) :
    script.declared.Nodup ↔
      (script.classes.map ClassCode.name).Nodup ∧ script.globals.Nodup ∧
        (script.functions.map FunctionCode.name).Nodup ∧
        ∀ f ∈ script.functions, functionName f.name ∉ script.globals := by
  have hnames : ∀ n ∈ script.globals ++ script.functions.map (fun f => functionName f.name),
      BeginsWord n := by
    intro n hn
    rcases List.mem_append.mp hn with hn | hn
    · exact hwords n hn
    · obtain ⟨f, -, rfl⟩ := List.mem_map.mp hn
      exact beginsWord_functionName f.name
  have hclass : ∀ n ∈ script.classes.map ClassCode.name, BeginsClass n :=
    List.forall_mem_map.mpr hclasses
  have hothers : ∀ n ∈ script.classes.map ClassCode.name ++
      (script.globals ++ script.functions.map fun f => functionName f.name),
      ¬ (n.toList.head? = some '$' ∧ ¬ BeginsClass n) := by
    rintro n hn ⟨hdollar, hother⟩
    rcases List.mem_append.mp hn with hn | hn
    · exact hother (hclass n hn)
    · exact hnames n hn hdollar
  have hfunctions : (script.functions.map fun f => functionName f.name).Nodup ↔
      (script.functions.map FunctionCode.name).Nodup := by
    have hmap : (script.functions.map fun f => functionName f.name) =
        (script.functions.map FunctionCode.name).map functionName := by
      rw [List.map_map]
      rfl
    rw [hmap, List.nodup_map_iff fun _ _ => functionName_inj.mp]
  rw [(declared_perm script).nodup_iff, nodup_append_of_separate fixedNames_dollar hothers,
    nodup_append_of_separate hclass fun n hn => not_beginsClass (hnames n hn), List.nodup_append,
    hfunctions]
  constructor
  · rintro ⟨-, htypes, hglobals, hnodup, hapart⟩
    refine ⟨htypes, hglobals, hnodup, fun f hf hglobal => ?_⟩
    exact hapart _ hglobal _ (List.mem_map.mpr ⟨f, hf, rfl⟩) rfl
  · rintro ⟨htypes, hglobals, hnodup, hapart⟩
    refine ⟨fixedNames_nodup, htypes, hglobals, hnodup, ?_⟩
    rintro n hglobal m hm rfl
    obtain ⟨f, hf, rfl⟩ := List.mem_map.mp hm
    exact hapart f hf hglobal

theorem nodup_globals_iff (plan : Plan) : (ofPlan plan).globals.Nodup ↔
    (plan.schedule.constants.map fun c => identifier c.name).Nodup := by
  rw [globals_ofPlan, Schedule.names, List.nodup_append]
  refine ⟨fun h => h.1, fun h => ⟨h, nodup_keys_scriptBindings _, ?_⟩⟩
  rintro n hconst m hm rfl
  exact (mem_keys_scriptBindings.mp hm).2 hconst

/-- The names of a function are distinct exactly if its parameters are. -/
theorem nodup_function_declared_iff {plan : Plan} {s : Stmt} {f : FunctionCode}
    (h : functionCode? plan s = some f) :
    f.declared.Nodup ↔ (f.params.map ParamCode.name).Nodup := by
  obtain ⟨span, name, returns, params, body, rfl, -⟩ := functionCode?_eq_some h
  cases h
  unfold FunctionCode.declared
  rw [List.nodup_append]
  refine ⟨fun h => h.1, fun h => ⟨h, nodup_keys_localBindings _ _ _, ?_⟩⟩
  rintro n hparam m hm rfl
  rw [map_name_paramCode] at hparam
  exact (mem_keys_localBindings.mp hm).2.1 hparam

end Script

/-! ### Programs -/

/-- The folded name of the type that a statement declares. -/
def Stmt.typeName? : Stmt → Option String
  | .type _ name _ => some (Name.fold name)
  | _ => none

/-- The folded name of the function that a statement declares. -/
def Stmt.functionName? : Stmt → Option String
  | .function _ name _ _ _ => some (Name.fold name)
  | _ => none

/-- No constant, type, function or parameter is declared twice. -/
structure Program.DeclaresOnce (p : Program) : Prop where
  /-- The constants outside of functions have different names in the script. -/
  constants : (((stmtsWithin false p.stmts).filterMap Stmt.constant?).map fun c =>
    identifier c.name).Nodup
  /-- The types have different names. -/
  types : (p.stmts.filterMap Stmt.typeName?).Nodup
  /-- The functions have different names. -/
  functions : (p.stmts.filterMap Stmt.functionName?).Nodup
  /-- The parameters of each function have different names in the script. -/
  params : ∀ span name returns params body, .function span name returns params body ∈ p.stmts →
    (params.map fun param => identifier param.name).Nodup

namespace Script

variable {commands : CommandTable} {p : Program}

theorem map_name_classes : (ofProgram commands p).classes.map ClassCode.name =
    (p.stmts.filterMap Stmt.typeName?).map ("$T_" ++ ·) := by
  have hclasses : (ofProgram commands p).classes =
      (p.stmts.filter Stmt.isType).filterMap classCode? :=
    congrArg (List.filterMap _) (Schedule.types_ofProgram ..)
  rw [hclasses, List.filterMap_filter, List.map_filterMap, List.map_filterMap]
  refine List.filterMap_congr fun s _ => ?_
  cases s <;> rfl

theorem map_name_functions : (ofProgram commands p).functions.map FunctionCode.name =
    p.stmts.filterMap Stmt.functionName? := by
  rw [functions_ofProgram, Program.functions, List.filterMap_filter, List.map_filterMap]
  refine List.filterMap_congr fun s _ => ?_
  cases s <;> rfl

theorem nodup_classes_iff : ((ofProgram commands p).classes.map ClassCode.name).Nodup ↔
    (p.stmts.filterMap Stmt.typeName?).Nodup := by
  have hinjective : Function.Injective ("$T_" ++ · : String → String) := by
    intro a b hab
    have hlists := congrArg String.toList hab
    rw [String.toList_append, String.toList_append, List.append_cancel_left_eq] at hlists
    exact String.toList_inj.mp hlists
  rw [map_name_classes, List.nodup_map_iff hinjective]

theorem beginsClass_classes : ∀ c ∈ (ofProgram commands p).classes, BeginsClass c.name := by
  intro c hc
  obtain ⟨s, -, hs⟩ := List.mem_filterMap.mp hc
  cases s with
  | type span name fields =>
    cases hs
    exact beginsClass_className name
  | _ => cases hs

/-- What holds of all names in the statements holds of those that are bound for the whole script. -/
theorem globals_of_names {Q : String → Prop} (h : ∀ s ∈ p.stmts, s.Names Q) :
    ∀ n ∈ (ofProgram commands p).globals, Q n := by
  intro n hn
  have hglobals : (ofProgram commands p).globals = (Plan.ofProgram commands p).schedule.names :=
    globals_ofPlan _
  rw [hglobals] at hn
  rcases List.mem_append.mp hn with hn | hn
  · obtain ⟨c, hc, rfl⟩ := List.mem_map.mp hn
    rw [Plan.ofProgram, Schedule.constants_ofProgram] at hc
    obtain ⟨s, hs, hconst⟩ := List.mem_filterMap.mp hc
    obtain ⟨t, ht, hst⟩ := mem_stmtsWithin.mp hs
    have hown := (h t ht s (within_false_subset t hst)).1
    cases s with
    | const span name value =>
      cases hconst
      exact name_of_mem_uses hown List.mem_cons_self
    | _ => cases hconst
  · rcases (mem_keys_scriptBindings.mp hn).1 with ⟨s, hs, hmem⟩ | hmem
    · rw [Plan.ofProgram, Schedule.ordinary_ofProgram] at hs
      exact (h s (List.mem_filter.mp hs).1).namesIn n hmem
    · obtain ⟨use, huse, rfl⟩ := List.mem_map.mp hmem
      obtain ⟨s, hs, hglobal⟩ := List.mem_flatMap.mp huse
      rw [Plan.ofProgram, Schedule.functions_ofProgram] at hs
      obtain ⟨f, hf, hsf⟩ := mem_stmtsWithin.mp hs
      exact (h f (List.mem_filter.mp hf).1 s hsf).1 use (mem_uses_of_globalUses hglobal).1

/-- The names of all functions are distinct exactly if the parameters of each of them are. -/
theorem nodup_params_iff : (∀ f ∈ (ofProgram commands p).functions, f.declared.Nodup) ↔
    ∀ span name returns params body, .function span name returns params body ∈ p.stmts →
      (params.map fun param => identifier param.name).Nodup := by
  rw [functions_ofProgram]
  constructor
  · intro h span name returns params body hmem
    have hfunction : Stmt.function span name returns params body ∈ p.functions :=
      List.mem_filter.mpr ⟨hmem, rfl⟩
    obtain ⟨f, hcode⟩ : ∃ f, functionCode? (Plan.ofProgram commands p)
        (.function span name returns params body) = some f := ⟨_, rfl⟩
    have hnodup := h f (List.mem_filterMap.mpr ⟨_, hfunction, hcode⟩)
    rw [nodup_function_declared_iff hcode] at hnodup
    cases hcode
    rw [map_name_paramCode] at hnodup
    exact hnodup
  · intro h f hf
    obtain ⟨s, hs, hcode⟩ := List.mem_filterMap.mp hf
    rw [nodup_function_declared_iff hcode]
    obtain ⟨span, name, returns, params, body, rfl, -, -, hparams, -⟩ :=
      functionCode?_eq_some hcode
    rw [hparams, map_name_paramCode]
    exact h span name returns params body (List.mem_filter.mp hs).1

end Script

/-- In a compiled script no name is declared twice, for the whole script or in one of its functions,
exactly if the program declares no constant, type, function or parameter twice and none of its
variables and constants is called as the script calls a function. -/
theorem declares_once_iff (commands : CommandTable) (library : Library) (source : String) :
    let result := compile commands library source
    result.script.DeclaresOnce ↔
      result.parsed.program.DeclaresOnce ∧
        ∀ f ∈ result.script.functions, functionName f.name ∉ result.script.globals := by
  intro result
  have hscript : result.script = Script.ofProgram commands result.parsed.program := rfl
  have hnames : ∀ s ∈ result.parsed.program.stmts, s.Names Script.BeginsWord :=
    Program.parse_beginsWord commands _
  rw [hscript, Script.DeclaresOnce, Script.nodup_declared_iff (Script.globals_of_names hnames)
    Script.beginsClass_classes, Script.nodup_classes_iff, Script.map_name_functions,
    Script.nodup_params_iff]
  have hconstants := Script.nodup_globals_iff (Script.Plan.ofProgram commands result.parsed.program)
  rw [show (Script.Plan.ofProgram commands result.parsed.program).schedule.constants = _ from
    Schedule.constants_ofProgram ..] at hconstants
  constructor
  · rintro ⟨⟨htypes, hglobals, hfunctions, hapart⟩, hparams⟩
    exact ⟨⟨hconstants.mp hglobals, htypes, hfunctions, hparams⟩, hapart⟩
  · rintro ⟨⟨hconsts, htypes, hfunctions, hparams⟩, hapart⟩
    exact ⟨⟨htypes, hconstants.mpr hconsts, hfunctions, hapart⟩, hparams⟩

/-- Whatever is declared twice, nothing is reported: a function and a variable that is called as the
script calls it, a constant, a type, a function, and a parameter. -/
theorem declared_twice_without_diagnostics :
    let unnoticed := fun source =>
      let result := compile (.ofList []) (.memory []) source
      result.diagnostics = [] ∧ ¬ result.script.DeclaresOnce
    unnoticed "Function F()\nEnd Function\nfn_f = 1" ∧
    unnoticed "Const A = 1\nConst A = 2" ∧
    unnoticed "Type T\nEnd Type\nType T\nEnd Type" ∧
    unnoticed "Function F()\nEnd Function\nFunction F()\nEnd Function" ∧
    unnoticed "Function F(a, A)\nEnd Function" := by
  -- with its cut bounded, a compilation can be evaluated
  simp only [compile, tokens, lexicalErrors, events_eq, stretches_eq_upTo (Nat.le_refl _),
    Script.DeclaresOnce, Script.declared, Script.hostNames_eq]
  decide +kernel

end FrameBasic
