import FrameBasic.Proofs.Reader.Call
import FrameBasic.Proofs.Reader.Spelled

/-!
# Stores into what is no array

A name with a list in parentheses that is no array begins a call, unless an equals sign stands right
behind the list: then it is taken for an element of an array that was not declared, which is
recorded.  A field between the list and the equals sign hides the equals sign.  The line is a call
then, and its arguments are read again without the parentheses, so that the equals sign becomes a
comparison.

## Main definitions

* `SpelledFields`, `Expr.withFields` — fields behind an expression.
* `Parser.StoreLine` — a line that stores a value into a field of an element.
* `Parser.StoreRead` — the value was stored, and an error was recorded.

## Main results

* `Parser.StoreLine.of_spelled` — well-formed indices and values without commands make such a line.
* `Parser.undeclared_store_iff` — **a value is stored into an element of what is no array if and
  only if no field of the element is named**.
-/

namespace FrameBasic

/-- The tokens spell fields. -/
inductive SpelledFields : List String → List Token → Prop
  /-- There is none. -/
  | nil : SpelledFields [] []
  /-- A field, which may have the name of a command, and others behind it. -/
  | cons {t u : Token} {names : List String} {ts : List Token} : t.kind = .backslash →
      u.kind = .identifier ∨ u.kind = .command → SpelledFields names ts →
      SpelledFields (u.text :: names) (t :: u :: ts)

/-- The fields of an expression, one behind the other. -/
def Expr.withFields (object : Expr) (names : List String) : Expr :=
  names.foldl (fun object name => .field default object name) object

namespace Parser

variable {input : Input} {s : State} {name : Token} {indices : List Expr} {value : Expr}
  {fields : List String} {fs : List Token} {c stop : Nat}

/-- At the current token stands a line that stores a value into a field of an element of what is no
array: the name, the list of indices up to `c`, the fields, the equals sign and the value.  The
indices and the value are what is found there, up to places and types. -/
structure StoreLine (input : Input) (s : State) (name : Token) (indices : List Expr) (c : Nat)
    (fields : List String) (fs : List Token) (value : Expr) (stop : Nat) : Prop where
  /-- The line begins with a name. -/
  token : input.tokens[s.cursor]? = some name
  name_kind : name.kind = .identifier
  /-- It is no array. -/
  unknown : s.scopes.isArray name.text = false
  /-- A parenthesis stands behind it. -/
  opens : input.kind (s.cursor + 1) = .leftParen
  /-- The indices. -/
  list : Finds input (Keeps s.scopes) (s.cursor + 1) (parenArgs expression)
    (bareAll · = bareAll indices) c
  /-- The fields. -/
  fields_spelled : SpelledFields fields fs
  fields_here : input.Has c fs
  /-- The equals sign. -/
  equals : input.kind (c + fs.length) = .equals
  /-- The value. -/
  value : Finds input (Keeps s.scopes) (c + fs.length + 1) expression (·.bare = value.bare) stop
  /-- The line ends with it. -/
  ends : input.EndsLine stop

/-- The value was stored, and it was recorded that the name is no array. -/
structure StoreRead (input : Input) (s : State) (name : Token) (target value : Expr) (c stop : Nat)
    (r : Option Stmt × State) : Prop where
  /-- The statement is an assignment of the value to the target. -/
  assign : ∃ span target' value', r.1 = some (.assign span target' value') ∧
    target'.bare = target.bare ∧ value'.bare = value.bare
  /-- It takes up the line. -/
  cursor : r.2.cursor = stop
  /-- The error is recorded at the name with its indices, and no other one. -/
  recorded : r.2.errors = s.errors ++ [⟨.notArray name.text, input.spanFrom s.cursor c⟩]

namespace StoreLine

/-- The tokens of well-formed indices and of a well-formed value.  The arguments of commands in them
are not compared with parameters. -/
theorem of_spelled {us vs : List Token} {equals : Token} (hkind : name.kind = .identifier)
    (hunknown : s.scopes.isArray name.text = false) (hindices : SpelledArgs s.scopes indices us)
    (hnested : ∀ e ∈ indices, e.ByPrecedence ∧ e.Unchecked input.commands)
    (hfields : SpelledFields fields fs) (hequals : equals.kind = .equals)
    (hvalue : Spelled s.scopes value vs) (hvalueNested : value.ByPrecedence)
    (hvalueQuiet : value.Unchecked input.commands)
    (hhas : input.Has s.cursor (name :: (us ++ (fs ++ equals :: vs))))
    (hends : input.EndsLine (s.cursor + 1 + us.length + fs.length + 1 + vs.length)) :
    StoreLine input s name indices (s.cursor + 1 + us.length) fields fs value
      (s.cursor + 1 + us.length + fs.length + 1 + vs.length) := by
  obtain ⟨htoken, hhas⟩ := hhas
  obtain ⟨hus, hrest⟩ := Input.has_append.mp hhas
  obtain ⟨hfs, hequalsHere, hvs⟩ := Input.has_append.mp hrest
  refine ⟨htoken, hkind, hunknown, ?_, ?_, hfields, hfs, ?_, ?_, hends⟩
  · exact hus.leftParen hindices
  · refine parenArgs_finds (fun e he _ _ _ hspelled hhas hends => ?_) hindices hus
    exact expression_finds (hnested e he).1 (hnested e he).2 hspelled hhas hends
  · rw [Input.kind_of_token hequalsHere, hequals]
  · refine expression_finds hvalueNested hvalueQuiet hvalue hvs ?_
    unfold Input.Ends
    rcases hends with hk | hk <;> rw [hk] <;> decide

variable (h : StoreLine input s name indices c fields fs value stop)
include h

/-- The list of indices ends where the fields begin. -/
theorem list_run : ∃ found, bareAll found = bareAll indices ∧
    parenArgs expression input { s with cursor := s.cursor + 1 } =
      (found, { s with cursor := c }) := by
  obtain ⟨found, scopes, hfound, rfl, hrun⟩ := h.list { s with cursor := s.cursor + 1 } rfl rfl
  exact ⟨found, hfound, hrun⟩

/-- The token behind the list. -/
theorem kind_behind : input.kind c = if fields = [] then .equals else .backslash := by
  have hequals := h.equals
  have hhere := h.fields_here
  cases h.fields_spelled with
  | nil => exact hequals
  | cons ht _ _ => rw [if_neg (List.cons_ne_nil _ _), Input.kind_of_token hhere.1, ht]

theorem name_ne_eof : input.kind s.cursor ≠ .eof := by
  rw [Input.kind_of_token h.token, h.name_kind]
  nofun

/-- Without fields the line is an assignment, and otherwise a call. -/
theorem statement_eq : statement input s =
    if fields = [] then assignment input s else callStmt s.cursor name.text input s := by
  obtain ⟨found, -, hlist⟩ := h.list_run
  have htext : input.textAt s.cursor = name.text := by
    unfold Input.textAt
    rw [h.token]
    rfl
  have hassigns : (assignsAfterParens input s).1 = decide (fields = []) := by
    rw [assignsAfterParens_behind h.name_ne_eof, hlist]
    show decide (input.kind c = _) = _
    rw [h.kind_behind]
    by_cases hfields : fields = [] <;> simp [hfields]
  rw [(statement_run h.token).1 h.name_kind, nameStmt_open h.opens, htext, h.unknown, hassigns]
  by_cases hfields : fields = [] <;> simp [hfields]

/-- Without fields the value is stored. -/
theorem stored (hfields : fields = []) :
    StoreRead input s name (.element default name.text indices) value c stop
      (statement input s) := by
  obtain ⟨found, hfound, hlist⟩ := h.list_run
  have hequals : input.kind c = .equals := by rw [h.kind_behind, if_pos hfields]
  have hlength : fs.length = 0 := by
    have hspelled := h.fields_spelled
    rw [hfields] at hspelled
    cases hspelled
    rfl
  let recorded : State := { s with
    cursor := c, errors := s.errors ++ [⟨.notArray name.text, input.spanFrom s.cursor c⟩] }
  obtain ⟨info, htarget⟩ : ∃ info, target input s =
      (some (.element info name.text found), recorded) := by
    obtain ⟨info, hrun⟩ := target_open h.token h.name_kind h.opens
    rw [hlist] at hrun
    rw [h.unknown, if_neg Bool.false_ne_true, map_eq_pure_bind, run_bind,
      withFields_run (by show input.kind c ≠ _; rw [hequals]; nofun)] at hrun
    exact ⟨info, hrun⟩
  -- the value is found with the error recorded as well
  obtain ⟨x, scopes, hx, rfl, hvalue⟩ := h.value { recorded with cursor := c + 1 }
    (by show c + 1 = _; rw [hlength]) rfl
  obtain ⟨span, hassign⟩ := assignment_eq (congrArg Prod.fst htarget)
    (by rw [htarget]; exact hequals)
  have hvalueOf : input.valueOf s = (x, { recorded with cursor := stop }) := by
    unfold Input.valueOf
    rw [htarget]
    exact hvalue
  rw [h.statement_eq, if_pos hfields, hassign, hvalueOf]
  refine ⟨⟨span, .element info name.text found, x, rfl, ?_, hx⟩, rfl, rfl⟩
  simp only [Expr.relabel, Relabel.info_bare, hfound]

/-- With fields the line is a call. -/
theorem called (hfields : fields ≠ []) :
    let found := bareArgs expression input { s with cursor := s.cursor + 1 }
    ∃ span info, statement input s =
      (some (.expr span (.call info name.text found.1)), found.2) := by
  obtain ⟨args, -, hlist⟩ := h.list_run
  have hall : parensAreAll input { s with cursor := s.cursor + 1 } = false := by
    rw [parensAreAll_eq, hlist]
    show (_ && endsArguments (input.kind c)) = false
    rw [h.kind_behind, if_neg hfields]
    exact Bool.and_false _
  obtain ⟨span, info, hcall⟩ := callStmt_run name.text s.cursor h.name_ne_eof
  intro found
  refine ⟨span, info, ?_⟩
  rw [h.statement_eq, if_neg hfields, hcall, statementArgs_eq, hall, if_neg Bool.false_ne_true]

end StoreLine

/-- Where a name is no array, a value is stored into a field of one of its elements if and only if
no field is named, so that it is stored into the element itself: then the target is the element and
it is recorded that the name is no array.  Otherwise the line is a call of the name, whose arguments
are what stands behind the name, read without the parentheses. -/
theorem undeclared_store_iff {input : Input} {s : State} {name : Token} {indices : List Expr}
    {fields : List String} {value : Expr} {fs : List Token} {c stop : Nat}
    (hline : StoreLine input s name indices c fields fs value stop) :
    (StoreRead input s name ((Expr.element default name.text indices).withFields fields) value c
      stop (statement input s) ↔ fields = []) ∧
    (fields ≠ [] →
      let found := bareArgs expression input { s with cursor := s.cursor + 1 }
      ∃ span info, statement input s =
        (some (.expr span (.call info name.text found.1)), found.2)) := by
  refine ⟨⟨fun hread => Decidable.byContradiction fun hfields => ?_, fun hfields => ?_⟩,
    hline.called⟩
  · obtain ⟨span, info, hcall⟩ := hline.called hfields
    obtain ⟨span', target, value', hassign, -⟩ := hread.assign
    rw [hcall] at hassign
    cases hassign
  · have hstored := hline.stored hfields
    rw [hfields]
    exact hstored

/-- The line `a(b) = c`. -/
theorem undeclared_store_iff_element :
    let a : Token := ⟨.identifier, "a", .unknown⟩
    let b : Token := ⟨.identifier, "b", .unknown⟩
    let c : Token := ⟨.identifier, "c", .unknown⟩
    let us : List Token := [⟨.leftParen, "(", .unknown⟩, b, ⟨.rightParen, ")", .unknown⟩]
    let equals : Token := ⟨.equals, "=", .unknown⟩
    let newline : Token := ⟨.newline, "", .unknown⟩
    let input : Input := ⟨(a :: (us ++ [equals, c, newline])).toArray, .empty⟩
    let index : Expr := .var default b.text none
    let value : Expr := .var default c.text none
    StoreLine input {} a [index] 4 [] [] value 6 ∧
      StoreRead input {} a (.element default a.text [index]) value 4 6 (statement input {}) := by
  intro a b c us equals newline input index value
  have hleaf : ∀ text : String, (Expr.var default text none).ByPrecedence :=
    fun text => byPrecedence_of_leaf ⟨trivial, trivial⟩ rfl
  have hindices : SpelledArgs ({} : State).scopes [index] us :=
    .some rfl (.one (.var (t := b) rfl)) rfl
  have hvalue : Spelled ({} : State).scopes value [c] := .var (t := c) rfl
  have hequals : equals.kind = .equals := rfl
  have hhas : input.Has 0 (a :: (us ++ ([] ++ equals :: [c]))) :=
    ⟨rfl, rfl, rfl, rfl, rfl, rfl, trivial⟩
  have hline : StoreLine input {} a [index] 4 [] [] value 6 :=
    .of_spelled (s := {}) rfl rfl hindices
      (List.forall_mem_singleton.mpr ⟨hleaf b.text, Expr.unchecked_empty _⟩) .nil hequals hvalue
      (hleaf c.text) (Expr.unchecked_empty _) hhas (.inl rfl)
  exact ⟨hline, (undeclared_store_iff hline).1.mpr rfl⟩

/-- The line `a(b)\f = c` is accepted as a call. -/
theorem field_store_is_call :
    let input : Input :=
      ⟨#[⟨.identifier, "a", .unknown⟩, ⟨.leftParen, "(", .unknown⟩, ⟨.identifier, "b", .unknown⟩,
        ⟨.rightParen, ")", .unknown⟩, ⟨.backslash, "\\", .unknown⟩, ⟨.identifier, "f", .unknown⟩,
        ⟨.equals, "=", .unknown⟩, ⟨.identifier, "c", .unknown⟩, ⟨.newline, "", .unknown⟩], .empty⟩
    (∃ span info args, (statement input {}).1 = some (.expr span (.call info "a" args))) ∧
      (statement input {}).2.cursor = 8 ∧ (statement input {}).2.errors = [] :=
  ⟨⟨_, _, _, rfl⟩, by decide +kernel⟩

end Parser

end FrameBasic
