import FrameBasic.Program.DataPool
import FrameBasic.Proofs.Decimal.Whole
import FrameBasic.Proofs.Reader.Program
import FrameBasic.Proofs.Token.Tiling

/-!
# What `Data` lists

The values of `Data` stand behind the word with commas between them, and each is a literal or a word.
The reader takes them one by one from the tokens, so the list of a statement says where in the tokens
each value comes from.  What a word stands for is the text of its token.  A word that names a command
has lost its spelling there, because commands are looked up by folded names.  A numeral stands for
its exact value, also behind a minus sign: none stands for the least number of 64 bits, which could
not be negated.

## Main definitions

* `Parser.Input.value?` — the value that stands at a place, and where it ends.
* `Parser.Input.Row` — values with commas between them, each with its place.
* `Parser.Input.Lists` — the list of a `Data` statement.
* `Parser.Input.Number` — the number that is written at a place.

## Main results

* `Parser.dataStmt_run`, `Parser.exists_lists_of_dataStmt` — `Data` is read with its list, and only so.
* `Parser.Input.value?_eq_integer` — a value is the whole number that is written at its place.
* `Program.data_words` — **a word in `Data` is kept as it is written, unless it names a command**.
* `Program.data_integers` — **a whole number in `Data` is the exact number that is written**.
-/

namespace FrameBasic

namespace Parser

variable {input : Input} {s : State} {i j : Nat} {v : DataValue} {items : List (Nat × DataValue)}

/-! ### Values -/

/-- The literal at a place, and the place behind it; `negative` says that a minus sign stands before
it. -/
def Input.literal? (input : Input) (negative : Bool) (i : Nat) : Option (DataValue × Nat) :=
  (input.tokens[i]?.bind (dataLiteral? negative)).bind fun found => found.toOption.map (·, i + 1)

/-- The value that stands at a place, perhaps behind a minus sign, and the place behind it. -/
def Input.value? (input : Input) (i : Nat) : Option (DataValue × Nat) :=
  if input.kind i = .minus then input.literal? true (i + 1) else input.literal? false i

theorem Input.literal?_eq_some {negative : Bool} (h : input.literal? negative i = some (v, j)) :
    j = i + 1 ∧ ∃ token, input.tokens[i]? = some token ∧
      dataLiteral? negative token = some (.ok v) := by
  obtain ⟨found, hfound, hv⟩ := Option.bind_eq_some_iff.mp h
  obtain ⟨token, htoken, hliteral⟩ := Option.bind_eq_some_iff.mp hfound
  cases found with
  | error => cases hv
  | ok value =>
    cases hv
    exact ⟨rfl, token, htoken, hliteral⟩

/-- A name or a command is a value. -/
theorem Input.value?_word {token : Token} (htoken : input.tokens[i]? = some token)
    (hkind : token.kind = .identifier ∨ token.kind = .command) :
    input.value? i = some (.string token.text, i + 1) := by
  have hminus : input.kind i ≠ .minus := by
    rw [Input.kind_of_token htoken]
    rcases hkind with hkind | hkind <;> simp [hkind]
  rw [value?, if_neg hminus, literal?, htoken]
  rcases hkind with hkind | hkind <;> simp [dataLiteral?, hkind, Except.toOption]

/-- The end of a statement is no value. -/
theorem Input.isTerminator_of_value? (h : input.value? i = some (v, j)) :
    (input.kind i).isTerminator = false := by
  cases hk : input.kind i with
  | newline | colon | eof =>
    rw [value?, if_neg (by simp [hk])] at h
    obtain ⟨-, token, htoken, hliteral⟩ := literal?_eq_some h
    rw [Input.kind_of_token htoken] at hk
    simp [dataLiteral?, hk] at hliteral
  | _ => rfl

/-- A value is followed by fewer tokens than it begins with. -/
theorem Input.left_lt_of_value? (h : input.value? i = some (v, j)) :
    input.left j < input.left i := by
  unfold value? at h
  split at h
  · obtain ⟨rfl, token, htoken, -⟩ := literal?_eq_some h
    have hlt := Input.lt_size_of_token htoken
    unfold left
    omega
  · obtain ⟨rfl, token, htoken, -⟩ := literal?_eq_some h
    have hlt := Input.lt_size_of_token htoken
    unfold left
    omega

theorem dataValue_run (input : Input) (s : State) :
    (∀ v j, input.value? s.cursor = some (v, j) →
      dataValue input s = (some v, { s with cursor := j })) ∧
    (input.value? s.cursor = none → (dataValue input s).1 = none) := by
  have haccept : ∃ negative first, accept .minus input s = (negative, { s with cursor := first }) ∧
      input.value? s.cursor = input.literal? negative first := by
    by_cases hk : input.kind s.cursor = .minus
    · have hafter : input.after s.cursor = s.cursor + 1 := if_neg (by simp [hk])
      exact ⟨true, s.cursor + 1, by rw [accept_run_pos hk, hafter], if_pos hk⟩
    · exact ⟨false, s.cursor, accept_run_neg hk, if_neg hk⟩
  obtain ⟨negative, first, haccept, hvalue⟩ := haccept
  unfold dataValue
  rw [run_look (show cursor input s = (s.cursor, s) from rfl), run_bind, haccept, hvalue]
  rw [run_look (show peek? input { s with cursor := first } = (input.tokens[first]?, _) from rfl)]
  unfold Input.literal?
  cases htoken : input.tokens[first]? with
  | none => exact ⟨fun v j h => absurd h (by simp), fun _ => rfl⟩
  | some token =>
    dsimp only [Option.bind_some]
    cases hliteral : dataLiteral? negative token with
    | none => exact ⟨fun v j h => absurd h (by simp), fun _ => rfl⟩
    | some found =>
      cases found with
      | error fault => exact ⟨fun v j h => absurd h (by simp [Except.toOption]), fun _ => rfl⟩
      | ok value =>
        refine ⟨fun v j h => ?_, fun h => absurd h (by simp [Except.toOption])⟩
        have hne : input.kind first ≠ .eof := fun hk => by
          rw [Input.kind_of_token htoken] at hk
          simp [dataLiteral?, hk] at hliteral
        cases h
        show (some value, { s with cursor := input.after first }) = _
        rw [Input.after, if_neg hne]

/-! ### Rows -/

/-- Values stand from `i` up to `j` with commas between them, each at its place. -/
inductive Input.Row (input : Input) : Nat → List (Nat × DataValue) → Nat → Prop
  | last {i j : Nat} {v : DataValue} (value : input.value? i = some (v, j))
      (ends : input.kind j ≠ .comma) : input.Row i [(i, v)] j
  | more {i j k : Nat} {v : DataValue} {items : List (Nat × DataValue)}
      (value : input.value? i = some (v, j)) (comma : input.kind j = .comma)
      (rest : input.Row (j + 1) items k) : input.Row i ((i, v) :: items) k

/-- Each value of a row stands at its place. -/
theorem Input.Row.value?_eq (h : input.Row i items j) {place : Nat} (hmem : (place, v) ∈ items) :
    ∃ stop, input.value? place = some (v, stop) := by
  induction h with
  | last value ends =>
    cases List.mem_singleton.mp hmem
    exact ⟨_, value⟩
  | more value comma rest ih =>
    rcases List.mem_cons.mp hmem with heq | hmem
    · cases heq
      exact ⟨_, value⟩
    · exact ih hmem

/-- A row is read as it stands. -/
theorem collect_row (h : input.Row i items j) : ∀ {rounds : Nat} {s : State}, s.cursor = i →
    input.left i < rounds →
    collect dataValue rounds input s = ((items.map Prod.snd, true), { s with cursor := j }) := by
  induction h with
  | @last i j v value ends =>
    rintro (_ | rounds) s rfl hrounds
    · omega
    · rw [collect, run_bind, (dataValue_run input s).1 v j value]
      dsimp only
      rw [run_look (accept_run_neg (s := { s with cursor := j }) ends)]
      rfl
  | @more i j k v items value comma rest ih =>
    rintro (_ | rounds) s rfl hrounds
    · omega
    · have hlt := Input.left_lt_of_value? value
      have hle : input.left (j + 1) ≤ input.left j := Nat.sub_le_sub_left (Nat.le_succ j) _
      have hafter : input.after j = j + 1 := if_neg (by simp [comma])
      rw [collect, run_bind, (dataValue_run input s).1 v j value]
      dsimp only
      rw [run_bind, accept_run_pos (s := { s with cursor := j }) comma, hafter, if_pos rfl, run_bind,
        ih rfl (by omega)]
      rfl

/-- What is read as a complete list is a row. -/
theorem exists_row_of_collect (rounds : Nat) : ∀ {s : State}, input.left s.cursor < rounds →
    (collect dataValue rounds input s).1.2 = true → ∃ items j, input.Row s.cursor items j := by
  induction rounds with
  | zero => exact fun h => absurd h (Nat.not_lt_zero _)
  | succ rounds ih =>
    intro s hrounds hcomplete
    rw [collect, run_bind] at hcomplete
    cases hvalue : input.value? s.cursor with
    | none =>
      rw [(dataValue_run input s).2 hvalue] at hcomplete
      cases hcomplete
    | some found =>
      obtain ⟨v, j⟩ := found
      by_cases hcomma : input.kind j = .comma
      · have hlt := Input.left_lt_of_value? hvalue
        have hle : input.left (j + 1) ≤ input.left j := Nat.sub_le_sub_left (Nat.le_succ j) _
        have hafter : input.after j = j + 1 := if_neg (by simp [hcomma])
        rw [(dataValue_run input s).1 v j hvalue] at hcomplete
        dsimp only at hcomplete
        rw [run_bind, accept_run_pos (s := { s with cursor := j }) hcomma, hafter,
          if_pos rfl] at hcomplete
        obtain ⟨items, k, hrow⟩ :=
          ih (s := { s with cursor := j + 1 }) (by dsimp only; omega) hcomplete
        exact ⟨_, k, .more hvalue hcomma hrow⟩
      · exact ⟨_, j, .last hvalue hcomma⟩

/-! ### Statements -/

/-- The list of `Data` at `i` goes up to `j`: it is a row, or the statement ends behind the word. -/
def Input.Lists (input : Input) (i : Nat) (items : List (Nat × DataValue)) (j : Nat) : Prop :=
  items = [] ∧ j = i + 1 ∧ (input.kind j).isTerminator = true ∨ input.Row (i + 1) items j

/-- `Data` is read with its list. -/
theorem dataStmt_run (hk : input.kind s.cursor ≠ .eof) (h : input.Lists s.cursor items j) :
    dataStmt input s =
      (some (.data (input.spanFrom s.cursor j) (items.map Prod.snd)), { s with cursor := j }) := by
  let behind : State := { s with cursor := s.cursor + 1 }
  unfold dataStmt
  rw [run_word hk]
  rcases h with ⟨rfl, rfl, hends⟩ | hrow
  · have hend : atStatementEnd input behind = (true, behind) := congrArg (·, behind) hends
    rw [run_look hend, if_pos rfl]
    rfl
  · have hends : (input.kind (s.cursor + 1)).isTerminator = false := by
      cases hrow with
      | last value ends | more value comma rest => exact Input.isTerminator_of_value? value
    have hend : atStatementEnd input behind = (false, behind) := congrArg (·, behind) hends
    have hvalues : bounded (collect dataValue) input behind =
        ((items.map Prod.snd, true), { s with cursor := j }) :=
      collect_row hrow rfl (Nat.lt_succ_self _)
    rw [run_look hend, if_neg Bool.false_ne_true, run_bind, hvalues]
    rfl

/-- What is read as `Data` has a list. -/
theorem exists_lists_of_dataStmt (hk : input.kind s.cursor ≠ .eof)
    (h : (dataStmt input s).1.isSome = true) : ∃ items j, input.Lists s.cursor items j := by
  let behind : State := { s with cursor := s.cursor + 1 }
  cases hends : (input.kind (s.cursor + 1)).isTerminator with
  | true => exact ⟨[], s.cursor + 1, .inl ⟨rfl, rfl, hends⟩⟩
  | false =>
    have hend : atStatementEnd input behind = (false, behind) := congrArg (·, behind) hends
    have hcomplete : (bounded (collect dataValue) input behind).1.2 = true := by
      by_contra hincomplete
      unfold dataStmt at h
      rw [run_word hk, run_look hend, if_neg Bool.false_ne_true, run_bind] at h
      dsimp only at h
      rw [if_neg hincomplete] at h
      cases h
    obtain ⟨items, j, hrow⟩ := exists_row_of_collect _ (Nat.lt_succ_self _) hcomplete
    exact ⟨items, j, .inr hrow⟩

theorem statementWith_of_data {stmt : Parser (Option Stmt)} (hk : input.kind s.cursor = .keyword .data) :
    statementWith stmt input s = dataStmt input s := by
  obtain ⟨token, htoken, hkt⟩ := Input.token_of_kind (hk.trans_ne nofun)
  exact (statementWith_run htoken).2.2 .data (hkt.trans hk)

/-- A `Data` statement has the values of its list. -/
theorem statementWith_data : Meets input fun read => ∀ span values, read = .data span values →
    ∃ i items j, input.kind i = .keyword .data ∧ input.Lists i items j ∧
      span = input.spanFrom i j ∧ values = items.map Prod.snd := by
  intro stmt s _ read hread hbuilt span values heq
  have hk : input.kind s.cursor = .keyword .data := by
    have hword : some .data = (input.kind s.cursor).word? :=
      (congrArg Stmt.word? heq).symm.trans hbuilt.word
    cases hk : input.kind s.cursor with
    | keyword word =>
      rw [hk] at hword
      rw [← Option.some.inj hword]
    | _ =>
      rw [hk] at hword
      cases hword
  have hne : input.kind s.cursor ≠ .eof := by simp [hk]
  rw [statementWith_of_data hk] at hread
  obtain ⟨items, j, hlists⟩ := exists_lists_of_dataStmt hne (Option.isSome_of_mem hread)
  rw [dataStmt_run hne hlists] at hread
  obtain ⟨hspan, hvalues⟩ := Stmt.data.inj ((Option.some.inj hread).trans heq)
  exact ⟨s.cursor, items, j, hk, hlists, hspan.symm, hvalues.symm⟩

end Parser

/-- A statement gives its values to the pool as they stand. -/
theorem DataPool.dataValues_infix {p : Program} {s : Stmt} (h : s ∈ stmtsWithin true p.stmts) :
    s.dataValues <:+: (ofProgram p).values := by
  obtain ⟨before, after, hstmts⟩ := List.append_of_mem h
  refine ⟨before.flatMap Stmt.dataValues, after.flatMap Stmt.dataValues, ?_⟩
  simp [ofProgram, hstmts]

/-- The text of a token that is a name or a command. -/
theorem text_of_word {commands : CommandTable} {source : String} {token : Token}
    (h : token ∈ tokens commands source) (hkind : token.kind = .identifier ∨ token.kind = .command) :
    let word := String.ofList (token.span.lexeme source)
    token.text = if commands.contains (Name.fold word) then Name.fold word else word := by
  intro word
  rcases classifyWord_eq (word_of_mem_tokens h hkind).2 with
    ⟨_, hk⟩ | ⟨-, hcommand, htext⟩ | ⟨-, hname, htext⟩
  · rw [hk] at hkind
    rcases hkind with hkind | hkind <;> cases hkind
  · rw [if_pos hcommand, htext]
  · rw [if_neg (by simp [word, hname]), htext]

/-- A `Data` statement is read with the list behind its word, and every `Data` statement of a program
gives the values of such a list to the pool.  A name or a command is a value of a list, and the value
is the word as it is written if and only if the word does not name a command or is written as the
command is. -/
theorem Program.data_words (commands : CommandTable) (source : String) :
    let input := Parser.Input.ofTokens commands (tokens commands source)
    let program := (Program.parse commands (tokens commands source)).program
    (∀ (s : Parser.State) items j, input.kind s.cursor = .keyword .data →
      input.Lists s.cursor items j →
      Parser.statement input s =
        (some (.data (input.spanFrom s.cursor j) (items.map Prod.snd)), { s with cursor := j })) ∧
    (∀ span values, .data span values ∈ stmtsWithin true program.stmts →
      values <:+: (DataPool.ofProgram program).values ∧
      ∃ i items j, input.kind i = .keyword .data ∧ input.Lists i items j ∧
        span = input.spanFrom i j ∧ values = items.map Prod.snd) ∧
    ∀ i token, input.tokens[i]? = some token → token.kind ∈ [.identifier, .command] →
      let word := String.ofList (token.span.lexeme source)
      let isCommand := commands.contains (Name.fold word)
      input.value? i = some (.string (if isCommand then Name.fold word else word), i + 1) ∧
      ∀ start items j v, input.Lists start items j → (i, v) ∈ items →
        (v = .string word ↔ (isCommand = true → Name.fold word = word)) := by
  intro input program
  refine ⟨fun s items j hk hlists => ?_, fun span values hmem => ⟨?_, ?_⟩,
    fun i token htoken hkind => ?_⟩
  · have hne : input.kind s.cursor ≠ .eof := by simp [hk]
    have hrun : Parser.statement input s = Parser.dataStmt input s :=
      Parser.statementWith_of_data hk
    rw [hrun]
    exact Parser.dataStmt_run hne hlists
  · exact DataPool.dataValues_infix hmem
  · rw [stmtsWithin_eq_flatMap] at hmem
    obtain ⟨s, hs, hmem⟩ := List.mem_flatMap.mp hmem
    exact Program.forall_within commands _ Parser.statementWith_data s hs _ hmem span values rfl
  · intro word isCommand
    have hkind : token.kind = .identifier ∨ token.kind = .command := by simpa using hkind
    have hmem : token ∈ tokens commands source :=
      (List.mem_filter.mp (List.mem_toArray.mp (Array.mem_of_getElem? htoken))).1
    have hvalue : input.value? i =
        some (.string (if isCommand then Name.fold word else word), i + 1) := by
      rw [← text_of_word hmem hkind]
      exact Parser.Input.value?_word htoken hkind
    refine ⟨hvalue, fun start items j v hlists hitem => ?_⟩
    have hv : v = .string (if isCommand then Name.fold word else word) := by
      rcases hlists with ⟨rfl, -⟩ | hrow
      · cases hitem
      · obtain ⟨stop, hfound⟩ := hrow.value?_eq hitem
        rw [hvalue] at hfound
        exact congrArg Prod.fst (Option.some.inj hfound).symm
    rw [hv, DataValue.string.injEq]
    cases isCommand with
    | true => simp
    | false => simp

/-- `Data Cls`: the word is written in small letters where there is a command of this name, and only
there. -/
theorem Program.data_command_folded :
    let values := fun commands =>
      (DataPool.ofProgram (Program.parse commands (tokens commands "Data Cls")).program).values
    values (.ofList [("Cls", { category := .call, target := "graphics.cls" })]) = [.string "cls"] ∧
      values .empty = [.string "Cls"] := by
  decide +kernel

/-! ### Numbers -/

open Decimal (Denotes negateWord readInteger)
open FrameBasic.Parser (Input readHex)

section Numbers

variable {commands : CommandTable} {source : String} {token : Token} {input : Input} {i j : Nat}
  {v n : Int} {d : DataValue}

/-- A token of decimal digits is read as the number that they stand for, if it fits into 64 bits. -/
theorem readInteger_of_mem_tokens (h : token ∈ tokens commands source)
    (hkind : token.kind = .integer) :
    readInteger token.text.toList = .ok v ↔
      Denotes .integer (token.span.lexeme source) v ∧ v < 2 ^ 63 := by
  obtain ⟨hmem, hfound⟩ := lexeme_of_mem_tokens h (by simp [hkind])
  rw [hkind] at hmem hfound
  rw [← (Prod.mk.inj (Option.some.inj hfound)).2, String.toList_ofList]
  exact Decimal.readInteger_eq_ok_iff (text_ne_nil_of_mem hmem) (all_of_mem_stretches hmem rfl)

/-- A token of hexadecimal digits is read as the number that they stand for. -/
theorem readHex_of_mem_tokens (h : token ∈ tokens commands source) (hkind : token.kind = .hex) :
    readHex token.text = some v ↔ Denotes .hex (token.span.lexeme source) v := by
  obtain ⟨hmem, hfound⟩ := lexeme_of_mem_tokens h (by simp [hkind])
  rw [hkind] at hmem hfound
  obtain ⟨digits, heq, hne, hdigits⟩ := eq_dollar_of_mem_stretches hmem
  rw [← (Prod.mk.inj (Option.some.inj hfound)).2, heq]
  exact Decimal.readHex_eq_some_iff hne hdigits

namespace Parser

/-- The whole numbers among the literals. -/
theorem dataLiteral?_eq_integer {negative : Bool} (h : token ∈ tokens commands source) :
    dataLiteral? negative token = some (.ok (.integer n)) ↔
      (∃ v, Denotes token.kind (token.span.lexeme source) v ∧ v < 2 ^ 63 ∧
        n = if negative then -v else v) ∨
      negative = false ∧
        (token.kind = .keyword .true_ ∧ n = 1 ∨ token.kind = .keyword .false_ ∧ n = 0) := by
  unfold dataLiteral?
  extract_lets whole
  -- no numeral stands for the least number of 64 bits, so that every negation is exact
  have hwhole : ∀ (kind : Kind) {read : Option Int},
      (∀ v, read = some v ↔ Denotes kind (token.span.lexeme source) v ∧ v < 2 ^ 63) →
      (whole read = some (.ok (.integer n)) ↔ ∃ v, Denotes kind (token.span.lexeme source) v ∧
        v < 2 ^ 63 ∧ n = if negative then -v else v) := by
    intro kind read hread
    simp only [← and_assoc, ← hread]
    cases read with
    | none => simp [whole]
    | some v =>
      obtain ⟨hv, hlt⟩ := (hread v).mp rfl
      have hlower := hv.lower
      simp [whole, Decimal.negateWord_eq (by omega) hlt, eq_comm]
  cases hk : token.kind with
  | hex =>
    refine (hwhole .hex fun v => ?_).trans (by simp)
    rw [readHex_of_mem_tokens h hk, and_iff_left_of_imp]
    exact fun hv => by have := hv.range; omega
  | integer =>
    refine (hwhole .integer fun v => ?_).trans (by simp)
    rw [← readInteger_of_mem_tokens h hk]
    cases readInteger token.text.toList <;> simp [Except.toOption]
  | float => cases Decimal.readReal token.text.toList <;> simp [Decimal.not_denotes]
  | keyword word =>
    cases word with
    | true_ | false_ => cases negative <;> simp [Decimal.not_denotes, eq_comm]
    | _ => simp [Decimal.not_denotes]
  | _ => cases negative <;> simp [Decimal.not_denotes]

/-- A numeral at a place stands for a number. -/
def Input.Numeral (input : Input) (source : String) (i : Nat) (v : Int) : Prop :=
  ∃ token, input.tokens[i]? = some token ∧ Denotes token.kind (token.span.lexeme source) v

/-- The number that is written at a place: a numeral, perhaps behind a minus sign, or a truth
value. -/
def Input.Number (input : Input) (source : String) (i : Nat) (n : Int) : Prop :=
  if input.kind i = .minus then input.Numeral source (i + 1) (-n)
  else input.Numeral source i n ∨ input.kind i = .keyword .true_ ∧ n = 1 ∨
    input.kind i = .keyword .false_ ∧ n = 0

/-- A literal is a whole number if and only if it is a numeral for it or a truth value. -/
theorem Input.literal?_eq_integer {negative : Bool} (h : input.literal? negative i = some (d, j))
    (hsource : ∀ {token}, input.tokens[i]? = some token → token ∈ FrameBasic.tokens commands source) :
    d = .integer n ↔
      (∃ v, input.Numeral source i v ∧ v < 2 ^ 63 ∧ n = if negative then -v else v) ∨
      negative = false ∧
        (input.kind i = .keyword .true_ ∧ n = 1 ∨ input.kind i = .keyword .false_ ∧ n = 0) := by
  obtain ⟨-, token, htoken, hliteral⟩ := literal?_eq_some h
  have hsame : d = .integer n ↔ dataLiteral? negative token = some (.ok (.integer n)) := by
    simp [hliteral]
  rw [hsame, dataLiteral?_eq_integer (hsource htoken), kind_of_token htoken]
  simp [Numeral, htoken]

/-- A value is a whole number if and only if the number is written there and can be negated. -/
theorem Input.value?_eq_integer (h : input.value? i = some (d, j))
    (hsource : ∀ {i : Nat} {token}, input.tokens[i]? = some token →
      token ∈ FrameBasic.tokens commands source) :
    d = .integer n ↔ (-(2 ^ 63 - 1) ≤ n ∧ n ≤ 2 ^ 63 - 1) ∧ input.Number source i n := by
  have hlower : ∀ {k v}, input.Numeral source k v → -2 ^ 31 ≤ v := fun ⟨_, _, hv⟩ => hv.lower
  unfold value? at h
  unfold Number
  split at h
  · next hk =>
    rw [literal?_eq_integer h hsource, if_pos hk]
    constructor
    · rintro (⟨v, hv, hlt, rfl⟩ | ⟨hfalse, -⟩)
      · have := hlower hv
        simp only [if_true]
        exact ⟨by omega, by rwa [Int.neg_neg]⟩
      · cases hfalse
    · rintro ⟨hrange, hv⟩
      exact .inl ⟨-n, hv, by omega, by simp⟩
  · next hk =>
    rw [literal?_eq_integer h hsource, if_neg hk]
    constructor
    · rintro (⟨v, hv, hlt, rfl⟩ | ⟨-, htruth⟩)
      · have := hlower hv
        exact ⟨by simp; omega, .inl hv⟩
      · exact ⟨by omega, .inr htruth⟩
    · rintro ⟨hrange, hv | htruth⟩
      · exact .inl ⟨n, hv, by omega, rfl⟩
      · exact .inr ⟨rfl, htruth⟩

end Parser

end Numbers

/-- A token of decimal digits is read as a number that is not negative, one of hexadecimal digits as
a signed number of 32 bits, so both can be negated in 64 bits.  A value of `Data` is a whole number
if and only if that number is written at its place and can be negated. -/
theorem Program.data_integers (commands table : CommandTable) (source : String) :
    let found := tokens commands source
    let input := Parser.Input.ofTokens table found
    (∀ token ∈ found, ∀ v : Int,
      (token.kind = .integer → readInteger token.text.toList = .ok v →
        0 ≤ v ∧ v ≤ 2 ^ 63 - 1 ∧ negateWord v = -v) ∧
      (token.kind = .hex → readHex token.text = some v →
        -2 ^ 31 ≤ v ∧ v ≤ 2 ^ 31 - 1 ∧ negateWord v = -v)) ∧
    ∀ span values,
      .data span values ∈ stmtsWithin true (Program.parse table found).program.stmts →
      ∃ i items j, input.kind i = .keyword .data ∧ input.Lists i items j ∧
        span = input.spanFrom i j ∧ values = items.map Prod.snd ∧
        ∀ place value, (place, value) ∈ items → ∀ n : Int,
          value = .integer n ↔
            (-(2 ^ 63 - 1) ≤ n ∧ n ≤ 2 ^ 63 - 1) ∧ input.Number source place n := by
  intro found input
  refine ⟨fun token htoken v => ⟨fun hkind hv => ?_, fun hkind hv => ?_⟩, fun span values hmem => ?_⟩
  · obtain ⟨hdenotes, hlt⟩ := (readInteger_of_mem_tokens htoken hkind).mp hv
    have := hdenotes.nonneg
    exact ⟨by omega, by omega, Decimal.negateWord_eq (by omega) hlt⟩
  · obtain ⟨hlower, hupper⟩ := ((readHex_of_mem_tokens htoken hkind).mp hv).range
    exact ⟨hlower, by omega, Decimal.negateWord_eq (by omega) (by omega)⟩
  · rw [stmtsWithin_eq_flatMap] at hmem
    obtain ⟨s, hs, hmem⟩ := List.mem_flatMap.mp hmem
    obtain ⟨i, items, j, hk, hlists, hspan, hvalues⟩ :=
      Program.forall_within table _ Parser.statementWith_data s hs _ hmem span values rfl
    refine ⟨i, items, j, hk, hlists, hspan, hvalues, fun place value hitem n => ?_⟩
    rcases hlists with ⟨rfl, -⟩ | hrow
    · cases hitem
    · obtain ⟨stop, hvalue⟩ := hrow.value?_eq hitem
      exact Parser.Input.value?_eq_integer hvalue fun htoken =>
        (List.mem_filter.mp (List.mem_toArray.mp (Array.mem_of_getElem? htoken))).1

/-- `Data -$80000000`: the least pattern is negated. -/
theorem Program.data_integers_least :
    let source := "Data -$80000000"
    let found := tokens .empty source
    let token : Token := ⟨.hex, "$80000000", ⟨6, 15, 1, 7⟩⟩
    (token ∈ found ∧ readHex token.text = some (-2 ^ 31) ∧ negateWord (-2 ^ 31) = 2 ^ 31) ∧
    ∃ span values,
      .data span values ∈ stmtsWithin true (Program.parse .empty found).program.stmts ∧
      .integer (2 ^ 31) ∈ values ∧
      ∃ place, (Parser.Input.ofTokens .empty found).Number source place (2 ^ 31) := by
  intro source found token
  have hrun : (token ∈ found ∧ readHex token.text = some (-2 ^ 31)) ∧
      .integer (2 ^ 31) ∈ (DataPool.ofProgram (Program.parse .empty found).program).values := by
    decide +kernel
  obtain ⟨⟨htoken, hread⟩, hpool⟩ := hrun
  obtain ⟨htokens, hlists⟩ := Program.data_integers .empty .empty source
  refine ⟨⟨htoken, hread, ((htokens token htoken _).2 rfl hread).2.2⟩, ?_⟩
  obtain ⟨s, hs, hvalue⟩ := List.mem_flatMap.mp hpool
  unfold Stmt.dataValues at hvalue
  split at hvalue
  · next span values =>
    obtain ⟨i, items, j, -, -, -, rfl, hitems⟩ := hlists _ _ hs
    obtain ⟨⟨place, value⟩, hitem, hv⟩ := List.mem_map.mp hvalue
    exact ⟨span, _, hs, hvalue, place, ((hitems place value hitem _).mp hv).2⟩
  · cases hvalue

end FrameBasic
