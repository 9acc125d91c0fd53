import FrameBasic.Proofs.Program.Binding
import FrameBasic.Proofs.Script.Await

/-!
# The names of a script are bound

What the script writes down and what it binds are found by different walks over the program.  They
agree: every name in a routine is bound, for the whole script or in the function that it stands in.

## Main definitions

* `Script.ConstantCode.name` — the name of a constant in the script.
* `Script.globals` — the names that a script binds for all of its routines.
* `Script.Piece.NameAmong` — a piece that is a name is one of some names.

## Main results

* `Script.declares_globals`, `Script.declares_bindings` — what is bound is declared in the text.
* `Script.routines_all` — what is written down outside of functions uses names of the script only.
* `Script.names_bound` — **every name that is written down is bound**.
-/

namespace FrameBasic.Script

open Fragment

/-- The name of a constant in the script. -/
def ConstantCode.name : ConstantCode → String
  | .fixed name _ => name
  | .later name _ => name

/-- The names that a script binds for all of its routines: constants and variables. -/
def globals (script : Script) : List String :=
  script.constants.map ConstantCode.name ++ script.bindings.keys

/-! ### Declarations in the text -/

theorem infix_concat {text : String} {texts : List String} (h : text ∈ texts) :
    text.toList <:+: (concat texts).toList := by
  have hconcat : (concat texts).toList = texts.flatMap String.toList :=
    toList_foldl_append (fun text => text) texts ""
  obtain ⟨before, after, rfl⟩ := List.append_of_mem h
  exact ⟨before.flatMap String.toList, after.flatMap String.toList, by simp [hconcat]⟩

theorem infix_paragraph {text : String} {texts : List String} (h : text ∈ texts) :
    text.toList <:+: (paragraph texts).toList := by
  rw [paragraph, if_neg (by simpa using List.ne_nil_of_mem h), String.toList_append]
  exact (infix_concat h).trans (List.prefix_append _ _).isInfix

theorem prefix_renderBinding (entry : String × Initial) :
    ("let " ++ entry.1 ++ " = ").toList <+: (renderBinding entry).toList := by
  simp [renderBinding]

theorem ConstantCode.prefix_render (c : ConstantCode) :
    ∃ word ∈ ["const ", "let "], (word ++ c.name ++ " = ").toList <+: c.render.toList := by
  cases c with
  | fixed => exact ⟨"const ", by simp, by simp [ConstantCode.name, render]⟩
  | later => exact ⟨"let ", by simp, by simp [ConstantCode.name, render]⟩

/-- The text of a script declares the names that the script binds. -/
theorem declares_globals {script : Script} {n : String} (h : n ∈ script.globals) :
    ∃ word ∈ ["const ", "let "], (word ++ n ++ " = ").toList <:+: script.render.toList := by
  obtain ⟨before, rest, hrender⟩ : ∃ before rest, script.render.toList =
      before ++ ((paragraph (script.constants.map ConstantCode.render)).toList ++
        ((paragraph (script.bindings.map renderBinding)).toList ++ rest)) := by
    simp only [render, body, String.toList_append, List.append_assoc]
    exact ⟨_, _, rfl⟩
  rw [hrender]
  rcases List.mem_append.mp h with h | h
  · obtain ⟨c, hc, rfl⟩ := List.mem_map.mp h
    obtain ⟨word, hword, hstart⟩ := c.prefix_render
    have hline := infix_paragraph (List.mem_map_of_mem (f := ConstantCode.render) hc)
    exact ⟨word, hword, (hstart.isInfix.trans hline).trans (List.infix_append' _ _ _)⟩
  · obtain ⟨entry, hentry, rfl⟩ := List.mem_map.mp h
    have hline := infix_paragraph (List.mem_map_of_mem (f := renderBinding) hentry)
    refine ⟨"let ", by simp, ((prefix_renderBinding entry).isInfix.trans hline).trans ?_⟩
    rw [← List.append_assoc]
    exact List.infix_append' _ _ _

/-- The text of a function declares its variables. -/
theorem declares_bindings {f : FunctionCode} {n : String} (h : n ∈ f.bindings.keys) :
    ("let " ++ n ++ " = ").toList <:+: f.render.toList := by
  obtain ⟨entry, hentry, rfl⟩ := List.mem_map.mp h
  have hline := infix_concat (List.mem_map_of_mem (f := fun b => indent 1 ++ renderBinding b) hentry)
  have hstart : ("let " ++ entry.1 ++ " = ").toList <:+:
      (indent 1 ++ renderBinding entry).toList := by
    rw [String.toList_append (s := indent 1)]
    exact (prefix_renderBinding entry).isInfix.trans (List.suffix_append _ _).isInfix
  refine (hstart.trans hline).trans ?_
  simp only [FunctionCode.render, String.toList_append]
  iterate 5 refine .trans ?_ (List.prefix_append _ _).isInfix
  exact (List.suffix_append _ _).isInfix

/-- A piece that is a name is one of the names. -/
def Piece.NameAmong (names : List String) : Piece → Prop
  | .name n => n ∈ names
  | _ => True

theorem admits_nameAmong {ctx : Context} {calls : List Callee} {fewer names : List String}
    (h : fewer ⊆ names) : Admits ctx calls fewer (Piece.NameAmong names) :=
  ⟨fun _ => trivial, fun _ hn => h hn, fun _ _ _ => trivial, fun _ _ => trivial⟩

/-! ### Outside of functions -/

theorem name_constantCode (plan : Plan) (c : Constant) :
    (constantCode plan c).name = identifier c.name := by
  unfold constantCode
  split <;> simp only [ConstantCode.name]

theorem map_name_paramCode (ctx : Context) (params : List Param) :
    (params.map (paramCode ctx)).map ParamCode.name =
      params.map fun param => identifier param.name := by
  simp only [List.map_map, Function.comp_def, paramCode]

theorem globals_ofPlan (plan : Plan) : (ofPlan plan).globals = plan.schedule.names := by
  simp only [globals, ofPlan, List.map_map, Function.comp_def, name_constantCode]
  rfl

section Routines

variable {plan : Plan}

theorem text_nameAmong {names : List String} (s : String) : (Piece.text s).NameAmong names :=
  trivial

theorem blockCode_nameAmong {routine : Routine} {stmts : List Stmt} {names : List String}
    (h : namesIn stmts ⊆ names) :
    CodeAll (Piece.NameAmong names) (blockCode plan.context routine none 0 stmts) :=
  blockCode_all (admits_nameAmong h) (fun _ => trivial) none 0

theorem stopCode_nameAmong {names : List String} : All (Piece.NameAmong names) stopCode := by
  have hawait : Piece.await.NameAmong names := trivial
  simp [stopCode, text_nameAmong, hawait]

theorem shutdownCode_nameAmong :
    CodeAll (Piece.NameAmong plan.schedule.names) (shutdownCode plan) := by
  have hblock : namesIn plan.schedule.shutdown ⊆ plan.schedule.names :=
    namesIn_subset_names (List.subset_append_right _ _)
  refine codeAll_append.mpr ⟨blockCode_nameAmong hblock, ?_⟩
  simp [text_nameAmong]

theorem updateCode_nameAmong :
    CodeAll (Piece.NameAmong plan.schedule.names) (updateCode plan) := by
  have hloop : ∀ {s}, plan.schedule.mainLoop = some s → namesIn [s] ⊆ plan.schedule.names := by
    intro s hs
    refine namesIn_subset_names (List.cons_subset.mpr ⟨?_, List.nil_subset _⟩)
    refine List.mem_append_left _ (List.mem_append_right _ ?_)
    exact Option.mem_toList.mpr hs
  -- the loop uses what its body and its condition use
  have hbody : ∀ {s body}, plan.schedule.mainLoop = some s → body ∈ s.blocks →
      CodeAll (Piece.NameAmong plan.schedule.names)
        (blockCode plan.context .frame none 0 body) := by
    intro s body hs hblock
    have hsub := namesIn_subset (stmtsWithin_subset_of_mem_blocks hblock)
    exact blockCode_nameAmong (List.Subset.trans hsub (hloop hs))
  have hcondition : ∀ {s e}, plan.schedule.mainLoop = some s → e ∈ s.ownExprs →
      All (Piece.NameAmong plan.schedule.names) (exprCode plan.context e) := by
    intro s e hs he
    have hsub := List.Subset.trans (Expr.names_subset_namesIn he) (hloop hs)
    exact exprCode_all (admits_nameAmong hsub)
  unfold updateCode
  extract_lets ctx
  split
  · next hs =>
    have hcode := hcondition hs List.mem_cons_self
    simp [text_nameAmong, stopCode_nameAmong, hcode, hbody hs List.mem_cons_self, ctx]
  · next hs =>
    refine codeAll_append.mpr ⟨hbody hs List.mem_cons_self, fun code hcode => ?_⟩
    obtain ⟨e, he, rfl⟩ := List.mem_map.mp hcode
    simp [text_nameAmong, stopCode_nameAmong, hcondition hs he, ctx]
  · exact codeAll_nil

theorem postponedCode_nameAmong (commands : CommandTable) (p : Program) :
    let plan := Plan.ofProgram commands p
    CodeAll (Piece.NameAmong plan.schedule.names) (postponedCode plan) := by
  intro plan code hcode
  obtain ⟨c, hc, rfl⟩ := List.mem_map.mp hcode
  have hmem : c ∈ plan.schedule.constants := (List.mem_filter.mp hc).1
  have hname : (Piece.name (identifier c.name)).NameAmong plan.schedule.names :=
    List.mem_append_left _ (List.mem_map.mpr ⟨c, hmem, rfl⟩)
  have hvalue : All (Piece.NameAmong plan.schedule.names) (exprCode plan.context c.value) :=
    exprCode_all (admits_nameAmong (names_subset_of_constant hmem))
  simp [assignCode, hname, text_nameAmong, hvalue]

theorem initCode_nameAmong (commands : CommandTable) (p : Program) :
    let plan := Plan.ofProgram commands p
    CodeAll (Piece.NameAmong plan.schedule.names) (initCode plan) := by
  intro plan
  have hawait : Piece.await.NameAmong plan.schedule.names := trivial
  have hblock : namesIn plan.schedule.init ⊆ plan.schedule.names := by
    refine namesIn_subset_names (List.Subset.trans ?_ (List.subset_append_left _ _))
    exact List.subset_append_left _ _
  refine codeAll_append.mpr ⟨codeAll_append.mpr ⟨?_, blockCode_nameAmong hblock⟩, ?_⟩
  · exact postponedCode_nameAmong commands p
  · split
    · simp [text_nameAmong, hawait]
    · exact codeAll_nil

end Routines

/-! ### In functions -/

/-- A name in the body of a function is a parameter, or one of its variables, or a global. -/
theorem mem_of_mem_namesIn {params globals : List String} {body : List Stmt} {n : String}
    (h : n ∈ namesIn body) :
    n ∈ params ∨ n ∈ Dict.keys (localBindings params globals body) ∨ n ∈ globals := by
  by_cases hparam : n ∈ params
  · exact .inl hparam
  · by_cases hglobal : n ∈ globals
    · exact .inr (.inr hglobal)
    · exact .inr (.inl (mem_keys_localBindings.mpr ⟨h, hparam, .inr hglobal⟩))

/-- If no function is declared inside of another statement, every name that is written down is
bound: a name in one of the three routines for the whole script, and a name in a function as one of
its parameters or of its variables or for the whole script.  The parameters of a function are none
of its variables. -/
theorem names_bound (commands : CommandTable) (p : Program) (htop : p.FunctionsOnTop) :
    let script := Script.ofProgram commands p
    (∀ routine ∈ [script.init, script.update, script.shutdown],
      ∀ n, .name n ∈ linePieces routine → n ∈ script.globals) ∧
    ∀ f ∈ script.functions,
      (∀ n, .name n ∈ linePieces f.body →
        n ∈ f.params.map ParamCode.name ∨ n ∈ f.bindings.keys ∨ n ∈ script.globals) ∧
      ∀ n ∈ f.params.map ParamCode.name, n ∉ f.bindings.keys := by
  intro script
  have hglobals : script.globals = (Plan.ofProgram commands p).schedule.names := globals_ofPlan _
  rw [hglobals]
  constructor
  · intro routine hroutine n hn
    simp only [List.mem_cons, List.not_mem_nil, or_false] at hroutine
    rcases hroutine with rfl | rfl | rfl
    · exact (initCode_nameAmong commands p).linePieces _ hn
    · exact updateCode_nameAmong.linePieces _ hn
    · exact shutdownCode_nameAmong.linePieces _ hn
  · intro f hf
    obtain ⟨s, -, hcode⟩ := List.mem_filterMap.mp hf
    obtain ⟨span, name, returns, params, body, rfl, -⟩ := functionCode?_eq_some hcode
    cases hcode
    rw [map_name_paramCode]
    constructor
    · intro n hn
      have hbody : n ∈ namesIn body :=
        (blockCode_nameAmong (List.Subset.refl (namesIn body))).linePieces _ hn
      rcases mem_of_mem_namesIn hbody with h | h | h
      · exact .inl h
      · exact .inr (.inl h)
      · exact .inr (.inr (globalNames_subset_names htop h))
    · intro n hparam hlocal
      exact (mem_keys_localBindings.mp hlocal).2.1 hparam

/-- A function that declares a global in a branch and adds its parameter to it: the global is
neither a parameter nor a variable of the function, and the script binds it. -/
theorem names_bound_global_in_function :
    let add : Stmt := .function .unknown "Add" none [⟨"n", none, none, .unknown⟩]
      [.if_ .unknown (.var default "n" none)
        [.declare .unknown .global [⟨"Score", none, none, .unknown⟩]] [] none,
        .assign .unknown (.var default "SCORE" none) (.var default "n" none)]
    let p : Program := ⟨[add, .const .unknown "Lives" (.integer default 3),
      .assign .unknown (.var default "x" none) (.var default "lives" none)]⟩
    let script := Script.ofProgram (.ofList []) p
    p.FunctionsOnTop ∧
    (∃ f ∈ script.functions, .name "score" ∈ linePieces f.body ∧
      "score" ∉ f.params.map ParamCode.name ∧ "score" ∉ f.bindings.keys) ∧
    .name "lives" ∈ linePieces script.init ∧ "score" ∈ script.globals ∧
    "lives" ∈ script.globals := by
  intro add p script
  have htop : p.FunctionsOnTop := by
    intro s hs hfunction
    simp only [p, add, stmtsWithin, Stmt.within, elseIfsWithin, List.append_nil, List.nil_append,
      if_true, List.cons_append, List.mem_cons, List.not_mem_nil, or_false] at hs
    rcases hs with rfl | rfl | rfl | rfl | rfl | rfl
    · exact List.mem_cons_self
    all_goals cases hfunction
  have hbound := names_bound (.ofList []) p htop
  have hscore : ∃ f ∈ script.functions, .name "score" ∈ linePieces f.body ∧
      "score" ∉ f.params.map ParamCode.name ∧ "score" ∉ f.bindings.keys := by
    decide +kernel
  have hlives : .name "lives" ∈ linePieces script.init := by decide +kernel
  refine ⟨htop, hscore, hlives, ?_, ?_⟩
  · obtain ⟨f, hf, hname, hparam, hlocal⟩ := hscore
    rcases (hbound.2 f hf).1 "score" hname with h | h | h
    · exact absurd h hparam
    · exact absurd h hlocal
    · exact h
  · exact hbound.1 script.init List.mem_cons_self "lives" hlives

end FrameBasic.Script
