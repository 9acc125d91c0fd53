import FrameBasic.Proofs.Reader.Call
import FrameBasic.Proofs.Reader.Data
import FrameBasic.Proofs.Reader.Precedence
import FrameBasic.Proofs.Tree.Parentheses
import Mathlib.Data.List.Basic

/-!
# Statements before `Else` and `EndIf`

The readers of statements ask in different ways whether the statement has ended.  `Data` and
`Restore` look for the end of the line or a colon, `Return` and arguments in parentheses also for
`Else`, and none of them for `EndIf`.  All other statements end wherever they cannot go on.

## Main definitions

* `Parser.NeedsLineEnd` — a statement has to end with its line.

## Main results

* `Parser.statement_inline_iff` — **a statement without blocks is read alike before `Else` and
  `EndIf`, unless it has to end with its line**.
-/

namespace FrameBasic

/-- Places are left out. -/
def Relabel.unplaced : Relabel :=
  ⟨fun i => { i with span := default }, fun _ => default, id, id, id⟩

/-- The arguments of a call that is a statement. -/
def Stmt.arguments? : Stmt → Option (List Expr)
  | .expr _ (.call _ _ args) => some args
  | .expr _ (.command _ _ args) => some args
  | _ => none

theorem Stmt.arguments?_relabel (r : Relabel) (stmt : Stmt) :
    (stmt.relabel r).arguments? = stmt.arguments?.map (List.map (Expr.relabel r)) := by
  cases stmt with
  | expr span e =>
    cases e with
    | call _ _ args | command _ _ args => exact congrArg some (relabelAll_eq_map r args)
    | _ => rfl
  | if_ _ _ _ _ elseBranch => cases elseBranch <;> rfl
  | select _ _ _ default => cases default <;> rfl
  | _ => rfl

namespace Parser

/-- The input with another token at an index. -/
def Input.withToken (input : Input) (i : Nat) (t : Token) : Input :=
  { input with tokens := input.tokens.setIfInBounds i t }

/-- The statement from the cursor up to `j` has to end with its line, because its end is not seen
before the word.  `Data` and `Restore` with nothing behind them end before no word, and `Return` with
nothing behind it and a call that ends with a list of arguments in parentheses not before `EndIf`. -/
def NeedsLineEnd (input : Input) (s : State) (j : Nat) (word : Kind) : Prop :=
  input.kind s.cursor ∈ [.keyword .data, .keyword .restore] ∧ j = s.cursor + 1 ∨
    word = .keyword .endIf ∧
      (input.kind s.cursor = .keyword .return_ ∧ j = s.cursor + 1 ∨
        input.kind s.cursor ∈ [.identifier, .command] ∧
          input.kind (s.cursor + 1) = .leftParen ∧
          (parenArgs expression input { s with cursor := s.cursor + 1 }).2.cursor = j)

instance {input : Input} {s : State} {j : Nat} {word : Kind} :
    Decidable (NeedsLineEnd input s j word) :=
  inferInstanceAs (Decidable (_ ∨ _))

variable {a b input : Input} {e i : Nat} {s : State}

theorem goes_on_of_call {kind : Kind} (hk : kind ∈ [.identifier, .command]) :
    halts kind = false ∧ kind ≠ .eof := by
  rcases List.mem_pair.mp hk with rfl | rfl
  · exact ⟨rfl, nofun⟩
  · exact ⟨rfl, nofun⟩

theorem NeedsLineEnd.goes_on {word : Kind} (hneeds : NeedsLineEnd input s e word) :
    halts (input.kind s.cursor) = false := by
  obtain ⟨hk, -⟩ | ⟨-, ⟨hk, -⟩ | ⟨hk, -⟩⟩ := hneeds
  · rcases List.mem_pair.mp hk with hk | hk <;> rw [hk] <;> rfl
  · rw [hk]
    rfl
  · exact (goes_on_of_call hk).1

/-! ### The two inputs -/

/-- Another token at which no statement goes on. -/
theorem withToken_twins {t : Token} (he : halts (input.kind e) = true) (hlt : e < input.tokens.size)
    (ht : halts t.kind = true) : Twins input (input.withToken e t) e where
  token i hi := (Array.getElem?_setIfInBounds_ne (Nat.ne_of_gt hi)).symm
  size := Array.size_setIfInBounds.symm
  commands := rfl
  left_halts := he
  right_halts := by
    rw [Input.kind_of_token (Array.getElem?_setIfInBounds_self_of_lt hlt)]
    exact ht

theorem Twins.between (h : Twins a b e) : a.between i e = b.between i e := by
  refine List.ext_getElem? fun k => ?_
  unfold Input.between
  rw [List.getElem?_take, List.getElem?_take]
  split
  · rw [List.getElem?_drop, List.getElem?_drop, Array.getElem?_toList, Array.getElem?_toList,
      h.token (i + k) (by omega)]
  · rfl

/-! ### Calls -/

/-- A call was read: its arguments are those of the statement, and nothing but the types of the
arguments is checked afterwards. -/
structure CallRead (input : Input) (s : State) (r : Option Stmt × State) : Prop where
  /-- The arguments. -/
  args : r.1.bind Stmt.arguments? =
    some (statementArgs input { s with cursor := s.cursor + 1 }).1
  /-- The call ends with them. -/
  cursor : r.2.cursor = (statementArgs input { s with cursor := s.cursor + 1 }).2.cursor
  /-- The errors that were recorded in them are kept. -/
  errors : (statementArgs input { s with cursor := s.cursor + 1 }).2.errors <+: r.2.errors

theorem callStmt_read {name : String} {start : Nat} (hk : input.kind s.cursor ≠ .eof) :
    CallRead input s (callStmt start name input s) := by
  obtain ⟨span, info, hrun⟩ := callStmt_run name start hk
  rw [hrun]
  exact ⟨rfl, rfl, List.prefix_refl _⟩

theorem commandStmt_read (hk : input.kind s.cursor ≠ .eof) :
    CallRead input s (commandStmt input s) := by
  have htake : (takeText input s).2 = { s with cursor := s.cursor + 1 } := by
    show { s with cursor := input.after s.cursor } = _
    rw [Input.after, if_neg hk]
  have hcursor : Parser.cursor input s = (s.cursor, s) := rfl
  unfold commandStmt
  rw [run_look hcursor, run_bind, htake, run_bind, run_bind]
  generalize (takeText input s).1 = name
  unfold commandNode
  rw [run_bind, checkArguments_run]
  exact ⟨rfl, rfl, List.prefix_append _ _⟩

theorem statementArgs_errors (input : Input) (s : State) :
    s.errors <+: (statementArgs input s).2.errors := by
  rw [statementArgs_eq]
  split
  · obtain ⟨new, htrial⟩ := parenArgs_trial input s
    exact ⟨new, htrial.errors.symm⟩
  · obtain ⟨new, htrial⟩ := bareArgs_trial input s
    exact ⟨new, htrial.errors.symm⟩

theorem bareArgs_from {scopes : Scopes} (hstarts : (input.kind i).startsExpression = true) :
    ReadsFrom input scopes i (bareArgs expression) fun args j =>
      SpelledList scopes args (input.between i j) := by
  refine .kind ?_
  rw [if_pos hstarts]
  refine .bounded fun rounds hrounds => ?_
  exact (separated_from rounds hrounds fun _ _ => expression_from).imp fun _ _ _ hlist => hlist.1

section Open

variable (h : Twins a b e) (hlt : s.cursor < e) (hk : a.kind s.cursor ∈ [.identifier, .command])
  (hopen : a.kind (s.cursor + 1) = .leftParen)
include h hlt hk hopen

/-- A name or a command with a parenthesis behind it begins the same kind of statement in both
inputs. -/
theorem statement_open (P : Option Stmt × State → Option Stmt × State → Prop)
    (hcall : ∀ name, P (callStmt s.cursor name a s) (callStmt s.cursor name b s))
    (hassign : a.kind s.cursor = .identifier → P (assignment a s) (assignment b s))
    (hcommand : a.kind s.cursor = .command → P (commandStmt a s) (commandStmt b s)) :
    P (statement a s) (statement b s) := by
  obtain ⟨t, ht, hkt⟩ := Input.token_of_kind (goes_on_of_call hk).2
  have ht' : b.tokens[s.cursor]? = some t := h.token s.cursor hlt ▸ ht
  rcases List.mem_pair.mp hk with hk | hk
  · have hopen' : b.kind (s.cursor + 1) = .leftParen := (h.kind_eq_iff hlt rfl).mpr hopen
    have hsame : b.textAt s.cursor = a.textAt s.cursor := by
      unfold Input.textAt
      rw [ht, ht']
    rw [(statement_run ht).1 (hkt.trans hk), (statement_run ht').1 (hkt.trans hk),
      nameStmt_open hopen, nameStmt_open hopen', hsame,
      assignsAfterParens_same h (by rw [hk]; rfl) rfl (Nat.le_of_lt hlt)]
    split
    · exact hcall _
    · exact hassign hk
  · rw [(statement_run ht).2.1 (hkt.trans hk), (statement_run ht').2.1 (hkt.trans hk)]
    exact hcommand hk

/-- A list in parentheses that does not lead to the place is followed by the same token. -/
theorem statement_copied {live : Bool}
    (hshort : (parenArgs expression a { s with cursor := s.cursor + 1 }).2.cursor ≠ e) :
    Copied h live false s (statement a s) (statement b s) := by
  have hall : parensAreAll b { s with cursor := s.cursor + 1 } =
      parensAreAll a { s with cursor := s.cursor + 1 } :=
    Decidable.byContradiction fun hall =>
      hshort (parensAreAll_ne h (s := { s with cursor := s.cursor + 1 }) hlt hall).2.1
  refine statement_open h hlt hk hopen (Copied h live false s) (fun name => ?_) (fun _ => ?_)
    fun hk => ?_
  · exact callStmt_copied (goes_on_of_call hk).1 (Nat.le_of_lt hlt) hall
  · exact assignment_copies s rfl (Nat.le_of_lt hlt)
  · exact commandStmt_copied hk (Nat.le_of_lt hlt) hall

omit hk in
/-- Nothing is assigned behind a list in parentheses that leads to the place. -/
theorem assignment_none (hk : a.kind s.cursor = .identifier)
    (hcursor : (parenArgs expression a { s with cursor := s.cursor + 1 }).2.cursor = e) :
    (assignment a s).1 = none := by
  obtain ⟨t, ht, hkt⟩ := Input.token_of_kind (by rw [hk]; nofun : a.kind s.cursor ≠ .eof)
  refine Option.not_isSome_iff_eq_none.mp fun hsome => ?_
  have htarget : Copies h false false s.cursor target := target_copies
  have hend : e ≤ (target a s).2.cursor := by
    obtain ⟨info, hrun⟩ := target_open ht (hkt.trans hk) hopen
    have hbehind : ∀ {x : Expr} {behind : State}, behind.cursor = e →
        e ≤ (withFields s.cursor x a behind).2.cursor := by
      intro x behind hbehind
      have hfields : Copies h false false e (withFields s.cursor x) :=
        withFields_copies (Nat.le_of_lt hlt)
      exact hbehind ▸ (hfields behind hbehind (Nat.le_refl e)).cursor_le
    rw [hrun]
    refine hbehind ?_
    split <;> exact hcursor
  -- what stands at the place is no equals sign
  have hequals := assignment_isSome hsome
  rw [Nat.le_antisymm (htarget s rfl (Nat.le_of_lt hlt)).le_end hend] at hequals
  exact ne_of_halts h.left_halts rfl hequals

/-- A statement that ends with a list in parentheses is a call, in both inputs. -/
theorem statement_calls
    (hcursor : (parenArgs expression a { s with cursor := s.cursor + 1 }).2.cursor = e)
    (hsome : (statement a s).1.isSome = true) :
    CallRead a s (statement a s) ∧ CallRead b s (statement b s) := by
  have hne := (goes_on_of_call hk).2
  have hne' : b.kind s.cursor ≠ .eof := h.kind hlt ▸ hne
  revert hsome
  refine statement_open h hlt hk hopen
    (fun r r' => r.1.isSome = true → CallRead a s r ∧ CallRead b s r') (fun name _ => ?_)
    (fun hk hsome => ?_) fun _ _ => ?_
  · exact ⟨callStmt_read hne, callStmt_read hne'⟩
  · rw [assignment_none h hlt hopen hk hcursor] at hsome
    cases hsome
  · exact ⟨commandStmt_read hne, commandStmt_read hne'⟩

end Open

/-- If only one of the inputs lets a list in parentheses end the statement, the call has other
arguments in the other one. -/
theorem call_differs (h : Twins a b e) (hlt : s.cursor < e)
    (hends : endsArguments (a.kind e) = true) (hends' : endsArguments (b.kind e) = false)
    (hk : a.kind s.cursor ∈ [.identifier, .command])
    (hopen : a.kind (s.cursor + 1) = .leftParen)
    (hlist : (parenArgs expression a { s with cursor := s.cursor + 1 }).2.cursor = e)
    {stmt : Stmt} (hstmt : (statement a s).1 = some stmt)
    (hsilent : (statement a s).2.errors = s.errors) (hsilent' : (statement b s).2.errors = s.errors)
    (hcursor' : (statement b s).2.cursor = e) (r : Relabel) :
    (statement b s).1.map (Stmt.relabel r) ≠ some (stmt.relabel r) := by
  intro hsame
  obtain ⟨hread, hread'⟩ := statement_calls h hlt hk hopen hlist (by rw [hstmt]; rfl)
  let behind : State := { s with cursor := s.cursor + 1 }
  have hquiet : ∀ {input : Input}, (statement input s).2.errors = s.errors →
      CallRead input s (statement input s) →
      (statementArgs input behind).2.errors = behind.errors := by
    intro input hsilent hread
    have hback : (statementArgs input behind).2.errors <+: behind.errors := hsilent ▸ hread.errors
    exact hback.eq_of_length
      (Nat.le_antisymm hback.length_le (statementArgs_errors input behind).length_le)
  have hargs := hquiet hsilent hread
  have hargs' := hquiet hsilent' hread'
  have hend' : (statementArgs b behind).2.cursor = e := hread'.cursor ▸ hcursor'
  -- in the first input they are a list in parentheses
  have hparens : statementArgs a behind = parenArgs expression a behind := by
    rw [statementArgs_eq, if_pos]
    rw [parensAreAll_eq, hlist, hends, decide_eq_true hopen]
    rfl
  have hspelled : SpelledArgs s.scopes (statementArgs a behind).1 (a.between (s.cursor + 1) e) := by
    rw [hparens] at hargs ⊢
    have hsize := Nat.le_of_lt (Input.lt_size_of_kind (by rw [hopen]; nofun))
    exact hlist ▸ ((parenArgs_from (fun _ _ => expression_from) behind rfl rfl hsize).2 hargs).1
  -- in the second one they are expressions without it
  have hopen' : b.kind behind.cursor = .leftParen := (h.kind_eq_iff hlt rfl).mpr hopen
  have hbare : statementArgs b behind = bareArgs expression b behind := by
    obtain ⟨halike, -⟩ := parenArgs_ends_alike h (s := behind) hlt
    rw [statementArgs_eq, if_neg]
    rw [parensAreAll_eq, halike, hlist, hends', Bool.and_false]
    exact Bool.false_ne_true
  have hspelled' : SpelledList s.scopes (statementArgs b behind).1
      (a.between (s.cursor + 1) e) := by
    rw [hbare] at hargs' hend' ⊢
    rw [h.between, ← hend']
    refine (bareArgs_from ?_ behind rfl rfl ?_).2 hargs'
    · rw [hopen']
      rfl
    · exact Nat.le_of_lt (Input.lt_size_of_kind (by rw [hopen']; nofun))
  -- so they are not the same
  refine hspelled'.ne_of_args hspelled (r := r) ?_
  obtain ⟨stmt', hstmt', hrelabel⟩ := Option.map_eq_some_iff.mp hsame
  have hfound := hread.args
  have hfound' := hread'.args
  rw [hstmt, Option.bind_some] at hfound
  rw [hstmt', Option.bind_some] at hfound'
  have hboth := congrArg Stmt.arguments? hrelabel
  rw [Stmt.arguments?_relabel, Stmt.arguments?_relabel, hfound, hfound'] at hboth
  exact Option.some.inj hboth

/-- `Data` takes a word behind it for a value. -/
theorem dataStmt_before_word (hk : input.kind s.cursor ≠ .eof)
    (hends : (input.kind (s.cursor + 1)).isTerminator = false)
    (hhalts : halts (input.kind (s.cursor + 1)) = true) : (dataStmt input s).1 = none := by
  have hvalue : input.value? (s.cursor + 1) = none := by
    have hminus : input.kind (s.cursor + 1) ≠ .minus := fun hk => by
      rw [hk] at hhalts
      cases hhalts
    rw [Input.value?, if_neg hminus, Input.literal?]
    cases ht : input.tokens[s.cursor + 1]? with
    | none => rfl
    | some t =>
      rw [Option.bind_some, dataLiteral?_of_halts (Input.kind_of_token ht ▸ hhalts)]
      rfl
  by_contra hsome
  obtain ⟨items, j, ⟨-, rfl, hend⟩ | hrow⟩ :=
    exists_lists_of_dataStmt hk (Option.isSome_iff_ne_none.mpr hsome)
  · rw [hends] at hend
    cases hend
  · cases hrow with
    | last value | more value =>
      rw [hvalue] at value
      cases value

/-- `Restore` takes a word behind it for a label. -/
theorem restoreStmt_before_word (hk : input.kind s.cursor ≠ .eof)
    (hends : (input.kind (s.cursor + 1)).isTerminator = false)
    (hhalts : halts (input.kind (s.cursor + 1)) = true) : (restoreStmt input s).1 = none := by
  let behind : State := { s with cursor := s.cursor + 1 }
  have hend : atStatementEnd input behind = (false, behind) := congrArg (·, behind) hends
  have hlabel : (labelName input behind).1 = none := by
    have hne : ∀ {wanted : Kind}, halts wanted = false →
        check wanted input behind = (false, behind) := by
      intro wanted hwanted
      refine congrArg (·, behind) (decide_eq_false fun hkind => ?_)
      rw [hkind, hwanted] at hhalts
      cases hhalts
    unfold labelName
    rw [run_look (hne rfl), run_look (hne rfl)]
    rfl
  unfold restoreStmt
  rw [run_word hk, run_look hend, if_neg Bool.false_ne_true, run_bind, hlabel]
  rfl

/-- `Return` has a value exactly if something else than its end stands behind it. -/
theorem returnStmt_value (hk : input.kind s.cursor ≠ .eof) : ∃ span value,
    (returnStmt input s).1 = some (.return_ span value) ∧
      value.isNone = endsArguments (input.kind (s.cursor + 1)) := by
  let behind : State := { s with cursor := s.cursor + 1 }
  have hend : atStatementEnd input behind =
      ((input.kind (s.cursor + 1)).isTerminator, behind) := rfl
  have helse : checkWord .else_ input behind =
      (decide (input.kind (s.cursor + 1) = .keyword .else_), behind) := rfl
  unfold returnStmt
  rw [run_word hk, run_look hend, run_look helse]
  show ∃ span value, ((if endsArguments (input.kind (s.cursor + 1)) = true then _ else _ :
    Parser (Option Stmt)) input behind).1 = _ ∧ _
  cases endsArguments (input.kind (s.cursor + 1)) with
  | true => exact ⟨_, none, rfl, rfl⟩
  | false => exact ⟨_, some (expression input behind).1, rfl, rfl⟩

theorem statement_cursor_le (hopens : opensNone (input.kind s.cursor) = true) :
    s.cursor ≤ (statement input s).2.cursor := by
  have hend : input.EndsLine (max s.cursor input.tokens.size) := by
    refine .inr ?_
    unfold Input.kind
    rw [Array.getElem?_eq_none (Nat.le_max_right _ _)]
  exact (statementAt_within_line hopens hend (Nat.le_max_left _ _) (input.left s.cursor + 1)).1

/-- A statement that need not end with its line is read alike before the word. -/
theorem statement_alike (h : Twins a b e) (hs : s.cursor ≤ e)
    (hopens : opensNone (a.kind s.cursor) = true) (hline : a.kind e = .newline)
    (hword : b.kind e ∈ [.keyword .else_, .keyword .endIf])
    (hfree : ¬ NeedsLineEnd a s e (b.kind e)) :
    Copied h true false s (statement a s) (statement b s) := by
  by_cases hcall : b.kind e = .keyword .endIf ∧ a.kind s.cursor ∈ [.identifier, .command] ∧
      a.kind (s.cursor + 1) = .leftParen
  · obtain ⟨hendIf, hk, hopen⟩ := hcall
    have hlt := h.lt hs (goes_on_of_call hk).1
    exact statement_copied h hlt hk hopen fun hend =>
      hfree (.inr ⟨hendIf, .inr ⟨hk, hopen, hend⟩⟩)
  · -- before `Else` also a value and a list in parentheses end
    have hends : b.kind e ≠ .keyword .endIf →
        endsArguments (a.kind e) = endsArguments (b.kind e) := by
      intro hne
      rw [hline, (List.mem_pair.mp hword).resolve_right hne]
      rfl
    have halike : EndsAlike a b e s.cursor := by
      refine ⟨fun hk hi => (hfree (.inl ⟨hk, hi.symm⟩)).elim, fun hk hi => ?_, fun hk hopen => ?_⟩
      · exact hends fun hendIf => hfree (.inr ⟨hendIf, .inl ⟨hk, hi.symm⟩⟩)
      · exact hends fun hendIf => hcall ⟨hendIf, hk, hopen⟩
    have hrun : statement b s = statementAt (a.left s.cursor + 1) b s := by
      rw [← h.left_eq]
      rfl
    rw [hrun]
    exact statementAt_copies hopens halike _ s rfl hs

/-- A statement that has to end with its line is another one before the word. -/
theorem needsLineEnd_differs (h : Twins a b e) (hs : s.cursor ≤ e) (hline : a.kind e = .newline)
    (hword : b.kind e ∈ [.keyword .else_, .keyword .endIf])
    (hneeds : NeedsLineEnd a s e (b.kind e)) {stmt : Stmt}
    (hstmt : (statement a s).1 = some stmt) (hsilent : (statement a s).2.errors = s.errors)
    (hsilent' : (statement b s).2.errors = s.errors) (hcursor' : (statement b s).2.cursor = e)
    (r : Relabel) :
    (statement b s).1.map (Stmt.relabel r) ≠ some (stmt.relabel r) := by
  have hends : (b.kind e).isTerminator = false := by
    rcases List.mem_pair.mp hword with hk | hk <;> rw [hk] <;> rfl
  have hlt : s.cursor < e := h.lt hs hneeds.goes_on
  -- the word that the statement begins with
  have hbegins : ∀ {word : Keyword}, a.kind s.cursor = .keyword word →
      a.kind s.cursor ≠ .eof ∧ b.kind s.cursor ≠ .eof ∧ ∃ t t' p p',
        statement a s = wordStmt p t word a s ∧ statement b s = wordStmt p' t' word b s := by
    intro word hk
    have hk' : b.kind s.cursor = .keyword word := h.kind hlt ▸ hk
    have hne : a.kind s.cursor ≠ .eof := by rw [hk]; nofun
    have hne' : b.kind s.cursor ≠ .eof := by rw [hk']; nofun
    obtain ⟨t, ht, hkt⟩ := Input.token_of_kind hne
    obtain ⟨t', ht', hkt'⟩ := Input.token_of_kind hne'
    obtain ⟨p, hrun⟩ := (statement_run ht).2.2 word (hkt.trans hk)
    obtain ⟨p', hrun'⟩ := (statement_run ht').2.2 word (hkt'.trans hk')
    exact ⟨hne, hne', t, t', p, p', hrun, hrun'⟩
  have hnone : (statement b s).1 = none →
      (statement b s).1.map (Stmt.relabel r) ≠ some (stmt.relabel r) := by
    intro hnone
    rw [hnone]
    nofun
  obtain ⟨hk, rfl⟩ | ⟨hendIf, ⟨hk, rfl⟩ | ⟨hk, hopen, hlist⟩⟩ := hneeds
  · rcases List.mem_pair.mp hk with hk | hk
    · obtain ⟨-, hne', t, t', p, p', -, hrun'⟩ := hbegins hk
      exact hnone (hrun' ▸ dataStmt_before_word hne' hends h.right_halts)
    · obtain ⟨-, hne', t, t', p, p', -, hrun'⟩ := hbegins hk
      exact hnone (hrun' ▸ restoreStmt_before_word hne' hends h.right_halts)
  · -- only one of the two has a value
    obtain ⟨hne, hne', t, t', p, p', hrun, hrun'⟩ := hbegins hk
    obtain ⟨span, value, hvalue, hnoValue⟩ := returnStmt_value hne
    obtain ⟨span', value', hvalue', hhasValue⟩ := returnStmt_value hne'
    have hstmt' : (statement b s).1 = some (.return_ span' value') := hrun' ▸ hvalue'
    rw [hrun] at hstmt
    cases hvalue.symm.trans hstmt
    rw [hline] at hnoValue
    rw [hendIf] at hhasValue
    rw [hstmt']
    intro hsame
    cases value with
    | some _ => cases hnoValue
    | none =>
      cases value' with
      | none => cases hhasValue
      | some _ => cases (Stmt.return_.inj (Option.some.inj hsame)).2
  · refine call_differs h hlt ?_ ?_ hk hopen hlist hstmt hsilent hsilent' hcursor' r
    · rw [hline]
      rfl
    · rw [hendIf]
      rfl

/-- A statement without blocks that is read without an error up to the end of its line is read alike
before `Else` and `EndIf` if and only if it need not end with its line.  Then also its places and
what the reader holds afterwards are the same. -/
theorem statement_inline_iff {input : Input} {s : State} {stmt : Stmt} {word : Token}
    (hopens : opensNone (input.kind s.cursor) = true) (hstmt : (statement input s).1 = some stmt)
    (hsilent : (statement input s).2.errors = s.errors)
    (hline : input.kind (statement input s).2.cursor = .newline)
    (hword : word.kind ∈ [.keyword .else_, .keyword .endIf]) :
    let e := (statement input s).2.cursor
    let inline := statement (input.withToken e word) s
    (inline.2.cursor = e ∧ inline.2.errors = s.errors ∧
        inline.1.map (Stmt.relabel .unplaced) = some (stmt.relabel .unplaced) ↔
      ¬ NeedsLineEnd input s e word.kind) ∧
    (¬ NeedsLineEnd input s e word.kind → inline = statement input s) := by
  intro e inline
  have hlt : e < input.tokens.size := Input.lt_size_of_kind (by rw [hline]; decide)
  have hhalts : halts word.kind = true := by
    rcases List.mem_pair.mp hword with hk | hk <;> rw [hk] <;> rfl
  have htwins : Twins input (input.withToken e word) e :=
    withToken_twins (by rw [hline]; rfl) hlt hhalts
  have hkind : (input.withToken e word).kind e = word.kind :=
    Input.kind_of_token (Array.getElem?_setIfInBounds_self_of_lt hlt)
  have hs : s.cursor ≤ e := statement_cursor_le hopens
  have hcopy : ¬ NeedsLineEnd input s e word.kind → inline = statement input s := by
    intro hfree
    have halike := statement_alike htwins hs hopens hline (hkind ▸ hword) (hkind ▸ hfree)
    exact halike.same (.inr ⟨rfl, hsilent⟩)
  refine ⟨⟨fun hsame hneeds => ?_, fun hfree => ?_⟩, hcopy⟩
  · obtain ⟨hcursor', hsilent', hsame⟩ := hsame
    exact needsLineEnd_differs htwins hs hline (hkind ▸ hword) (hkind ▸ hneeds) hstmt hsilent
      hsilent' hcursor' _ hsame
  · rw [hcopy hfree, hstmt]
    exact ⟨rfl, hsilent, rfl⟩

/-- An argument in parentheses is no list of arguments if another one follows. -/
theorem statement_inline_iff_group :
    let input : Input :=
      ⟨#[⟨.command, "Plot", .unknown⟩, ⟨.leftParen, "(", .unknown⟩, ⟨.identifier, "x", .unknown⟩,
        ⟨.rightParen, ")", .unknown⟩, ⟨.comma, ",", .unknown⟩, ⟨.identifier, "y", .unknown⟩,
        ⟨.newline, "", .unknown⟩], .empty⟩
    let word : Token := ⟨.keyword .endIf, "EndIf", .unknown⟩
    (statement input {}).1.isSome = true ∧ (statement input {}).2.cursor = 6 ∧
      statement (input.withToken 6 word) {} = statement input {} := by
  intro input word
  have hfacts : (statement input {}).1.isSome = true ∧ (statement input {}).2.errors = [] ∧
      (statement input {}).2.cursor = 6 ∧ input.kind 6 = .newline ∧
      ¬ NeedsLineEnd input {} 6 word.kind := by decide +kernel
  obtain ⟨hsome, hsilent, hcursor, hline, hfree⟩ := hfacts
  have hword : word.kind ∈ [.keyword .else_, .keyword .endIf] := by decide
  have hinline := (statement_inline_iff (s := {}) rfl (Option.some_get hsome).symm hsilent
    (hcursor ▸ hline) hword).2
  rw [hcursor] at hinline
  exact ⟨hsome, hcursor, hinline hfree⟩

/-- `Return` is accepted at the end of a line, but before `EndIf` it is not. -/
theorem return_before_endIf :
    let input : Input :=
      ⟨#[⟨.keyword .return_, "Return", .unknown⟩, ⟨.newline, "", .unknown⟩], .empty⟩
    let inline := input.withToken 1 ⟨.keyword .endIf, "EndIf", .unknown⟩
    ((statement input {}).1.isSome = true ∧ (statement input {}).2.errors = []) ∧
      (statement inline {}).2.errors ≠ [] := by
  decide +kernel

end Parser

end FrameBasic
