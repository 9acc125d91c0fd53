import FrameBasic.Proofs.Reader.AnyCase
import FrameBasic.Proofs.Reader.Data
import FrameBasic.Proofs.Script.Relabel

/-!
# Scripts in any case

The program that is read from a text, its errors and its script do not depend on the case of the
names in the text, but for labels and bare words in `Data` statements.

## Main definitions

* `NoBareWord` — the values of the `Data` statements do not depend on the spelling of names.
* `ReadAlike` — two lists of tokens give the same program, errors and script up to case.

## Main results

* `Script.ofProgram_lower` — the script of a program without labels and jumps, up to its data.
* `noBareWord_of_lists` — there is no bare word where no `Data` lists a name.
* `readAlike_of_lower_eq` — **the case of names does not matter**.
-/

namespace FrameBasic

/-- The script of a program without labels and jumps is the same in any case, but for its data. -/
theorem Script.ofProgram_lower (merge : DataValue → DataValue) (commands : CommandTable)
    (p : Program) (hfree : ∀ t ∈ stmtsWithin true p.stmts, t.spellsLabel = false) :
    ofProgram commands (p.relabel (.lower merge)) =
      { ofProgram commands p with
        data := ((DataPool.ofProgram p).values.map merge).map dataCode } := by
  -- all commands are the same, so nothing has to be known about those that are called
  refine ofProgram_relabel (K := fun _ => True) (fun _ _ => rfl) (fun _ _ => rfl) fun t ht => ?_
  refine ⟨fun _ _ _ _ => trivial, fun hlabel => ?_⟩
  rw [hfree t ht] at hlabel
  cases hlabel

/-! ### From the tokens to the script -/

open FrameBasic.Parser (Input)

/-- The program that the tokens spell, with the values of its `Data` statements from other tokens. -/
def Program.parseWords (commands : CommandTable) (tokens words : List Token) : Program :=
  ⟨(Parser.readAllFrom (.ofTokens commands words) (.ofTokens commands tokens)).1⟩

/-- No value of a `Data` statement is a bare word.  The value of a bare word is its spelling, so the
values are then the same for every spelling of names. -/
def NoBareWord (commands : CommandTable) (tokens : List Token) : Prop :=
  ∀ words : List Token, words.map Token.nameless = tokens.map Token.nameless →
    (DataPool.ofProgram (.parseWords commands tokens words)).values =
      (DataPool.ofProgram (Program.parse commands tokens).program).values

/-- Equal lists of tokens stay so without comments. -/
theorem Parser.Input.sameTokens_ofTokens (commands : CommandTable) {r : Relabel}
    {tokens tokens' : List Token}
    (h : tokens.map (Token.relabel r) = tokens'.map (Token.relabel r)) :
    (ofTokens commands tokens).SameTokens r (ofTokens commands tokens') := by
  have hkind : (fun token : Token => decide (token.kind ≠ .comment)) ∘ Token.relabel r =
      fun token => decide (token.kind ≠ .comment) := by
    funext token
    exact congrArg (decide <| · ≠ .comment) (Token.kind_relabel token)
  have hmap : ∀ tokens : List Token, (ofTokens commands tokens).tokens.map (Token.relabel r) =
      (ofTokens commands (tokens.map (Token.relabel r))).tokens := by
    intro tokens
    unfold Input.ofTokens
    rw [List.filter_map, hkind, List.map_toArray]
  refine ⟨fun i => ?_⟩
  rw [← Array.getElem?_map, ← Array.getElem?_map, hmap, hmap, h]

/-- There is no bare word if no name stands in the list of a `Data` statement. -/
theorem noBareWord_of_lists {commands : CommandTable} {tokens : List Token}
    (h : let input := Input.ofTokens commands tokens
      ∀ i items j, input.kind i = .keyword .data → input.Lists i items j →
        ∀ item ∈ items, input.kind item.1 ≠ .identifier) : NoBareWord commands tokens := by
  intro words hwords
  have hread := Parser.readAllFrom_eq fun s hk => Parser.dataStmt_congr
    (Input.sameTokens_ofTokens commands hwords.symm) (hk.trans_ne nofun)
    fun items j => h s.cursor items j hk
  exact congrArg (fun stmts => (DataPool.ofProgram ⟨stmts⟩).values) hread

/-- `Data x` has a bare word. -/
example : ¬ NoBareWord .empty [⟨.keyword .data, "Data", ⟨0, 4, 1, 1⟩⟩,
    ⟨.identifier, "x", ⟨5, 6, 1, 6⟩⟩, ⟨.eof, "", ⟨6, 6, 1, 7⟩⟩] :=
  fun h => absurd (h [⟨.keyword .data, "Data", ⟨0, 4, 1, 1⟩⟩, ⟨.identifier, "y", ⟨5, 6, 1, 6⟩⟩,
    ⟨.eof, "", ⟨6, 6, 1, 7⟩⟩] rfl) (by decide +kernel)

/-- Two lists of tokens give programs that are equal up to the case of names, the same errors up to
the case of the names in them, and, unless a label or a bare word is spelled out, the same script. -/
structure ReadAlike (commands : CommandTable) (tokens tokens' : List Token) : Prop where
  /-- The programs are equal once their names are written in small letters.  This holds whatever
  becomes of the values of `Data` statements, if only the names of the two lists are not told
  apart. -/
  program : ∀ merge : DataValue → DataValue,
    (Input.ofTokens commands tokens).SameWords (.lower merge) (Input.ofTokens commands tokens') →
    (Program.parse commands tokens).program.relabel (.lower merge) =
      (Program.parse commands tokens').program.relabel (.lower merge)
  /-- Nothing but the bare words differs in the values of `Data` statements. -/
  words : (Program.parseWords commands tokens tokens').relabel (.lower id) =
    (Program.parse commands tokens').program.relabel (.lower id)
  /-- The same faults are recorded at the same places and in the same order. -/
  errors : (Program.parse commands tokens).errors.map ParseError.lower =
    (Program.parse commands tokens').errors.map ParseError.lower
  /-- Without labels, jumps and bare words, the script is the same. -/
  script : (∀ s ∈ stmtsWithin true (Program.parse commands tokens).program.stmts,
      s.spellsLabel = false) → NoBareWord commands tokens →
    Script.ofProgram commands (Program.parse commands tokens).program =
      Script.ofProgram commands (Program.parse commands tokens').program

theorem Stmt.spellsLabel_relabel (r : Relabel) (s : Stmt) :
    (s.relabel r).spellsLabel = s.spellsLabel := by
  cases s with
  | if_ => rw [relabel_if]; rfl
  | select => rw [relabel_select]; rfl
  | _ => rfl

/-- Programs that are equal up to the case of names spell out labels alike. -/
theorem spellsLabel_of_relabel_eq {r : Relabel} {p p' : Program} (h : p.relabel r = p'.relabel r)
    (hfree : ∀ s ∈ stmtsWithin true p.stmts, s.spellsLabel = false) :
    ∀ s ∈ stmtsWithin true p'.stmts, s.spellsLabel = false := by
  have hlabels : ∀ p : Program, (∀ s ∈ stmtsWithin true (p.relabel r).stmts, s.spellsLabel = false) ↔
      ∀ s ∈ stmtsWithin true p.stmts, s.spellsLabel = false := by
    intro p
    unfold Program.relabel
    rw [stmtsWithin_relabel]
    simp only [List.forall_mem_map, Stmt.spellsLabel_relabel]
  rw [← hlabels] at hfree ⊢
  rwa [← h]

/-- Scripts with the same data are the same if they are when their data is replaced. -/
theorem Script.eq_of_data_eq {s s' : Script} {data data' : List String}
    (h : { s with data } = { s' with data := data' }) (hdata : s.data = s'.data) : s = s' := by
  obtain ⟨constants, bindings, old, classes, functions, init, update, shutdown⟩ := s
  obtain ⟨rfl, rfl, -, rfl, rfl, rfl, rfl, rfl⟩ := h
  exact congrArg (Script.mk _ _ · _ _ _ _ _) hdata

/-- The case of names does not matter. -/
theorem readAlike_of_lower_eq (commands : CommandTable) {tokens tokens' : List Token}
    (h : tokens.map Token.lower = tokens'.map Token.lower) : ReadAlike commands tokens tokens' := by
  have halike : ∀ merge : DataValue → DataValue,
      (Input.ofTokens commands tokens).Alike (.lower merge) (Input.ofTokens commands tokens') :=
    fun _ => ⟨Input.sameTokens_ofTokens commands h, fun _ _ _ _ => rfl⟩
  have hprogram : ∀ merge, _ → (Program.parse commands tokens).program.relabel (.lower merge) =
      (Program.parse commands tokens').program.relabel (.lower merge) := fun merge hwords =>
    congrArg Program.mk (Parser.readAll_agrees (halike merge) hwords).1
  have hwords : (Program.parseWords commands tokens tokens').relabel (.lower id) =
      (Program.parse commands tokens').program.relabel (.lower id) :=
    congrArg Program.mk (Parser.readAllFrom_agrees (halike id))
  -- nothing is told apart, so nothing has to be known about bare words
  have hany := hprogram (fun _ => default) fun _ _ _ _ _ _ => rfl
  have herrors :=
    (Parser.readAll_agrees (halike fun _ => default) fun _ _ _ _ _ _ => rfl).2.errors
  refine ⟨hprogram, hwords, herrors, fun hfree hbare => ?_⟩
  have hscript := congrArg (Script.ofProgram commands) hany
  rw [Script.ofProgram_lower _ _ _ hfree,
    Script.ofProgram_lower _ _ _ (spellsLabel_of_relabel_eq hany hfree)] at hscript
  have hvalues := congrArg (fun p => (DataPool.ofProgram p).values) hwords
  have hid : (Relabel.lower id).data = id := rfl
  have hnameless := congrArg (List.map Token.nameless) h.symm
  simp only [List.map_map, Function.comp_def, Token.nameless_lower] at hnameless
  simp only [DataPool.ofProgram_relabel, hid, List.map_id, hbare _ hnameless] at hvalues
  have hdata : (Script.ofProgram commands (Program.parse commands tokens).program).data =
      (Script.ofProgram commands (Program.parse commands tokens').program).data :=
    congrArg (List.map Script.dataCode) hvalues
  exact Script.eq_of_data_eq hscript hdata

/-- The tokens of `If 1 Then Data "X" Else name = 2`. -/
def dataOrAssign (name : String) : List Token :=
  [ ⟨.keyword .if_, "If", ⟨0, 2, 1, 1⟩⟩, ⟨.integer, "1", ⟨3, 4, 1, 4⟩⟩,
    ⟨.keyword .then_, "Then", ⟨5, 9, 1, 6⟩⟩, ⟨.keyword .data, "Data", ⟨10, 14, 1, 11⟩⟩,
    ⟨.string, "X", ⟨15, 18, 1, 16⟩⟩, ⟨.keyword .else_, "Else", ⟨19, 23, 1, 20⟩⟩,
    ⟨.identifier, name, ⟨24, 25, 1, 25⟩⟩, ⟨.equals, "=", ⟨26, 27, 1, 27⟩⟩,
    ⟨.integer, "2", ⟨28, 29, 1, 29⟩⟩, ⟨.eof, "", ⟨29, 29, 1, 30⟩⟩ ]

theorem noBareWord_dataOrAssign : NoBareWord .empty (dataOrAssign "x") := by
  refine noBareWord_of_lists fun i items j hk hlists item hitem => ?_
  have honly : ∀ i < 10, (Input.ofTokens .empty (dataOrAssign "x")).kind i = .keyword .data →
      i = 3 := by decide
  obtain ⟨token, htoken, -⟩ := Input.token_of_kind (hk.trans_ne nofun)
  obtain rfl := honly i (Input.lt_size_of_token htoken) hk
  have hvalue : (Input.ofTokens .empty (dataOrAssign "x")).value? 4 = some (.string "X", 5) := rfl
  rcases hlists with ⟨rfl, -⟩ | hrow
  · cases hitem
  cases hrow with
  | last value ends =>
    rw [List.mem_singleton.mp hitem]
    exact nofun
  | more value comma rest =>
    cases hvalue.symm.trans value
    cases comma

/-- The script of a program with a `Data` value does not depend on the case of a name behind it. -/
theorem readAlike_dataOrAssign :
    let program := (Program.parse .empty (dataOrAssign "x")).program
    (dataOrAssign "x").map Token.lower = (dataOrAssign "X").map Token.lower ∧
      (DataPool.ofProgram program).values = [.string "X"] ∧
      ReadAlike .empty (dataOrAssign "x") (dataOrAssign "X") ∧
      Script.ofProgram .empty program =
        Script.ofProgram .empty (Program.parse .empty (dataOrAssign "X")).program := by
  have hlower : (dataOrAssign "x").map Token.lower = (dataOrAssign "X").map Token.lower := by decide
  have halike := readAlike_of_lower_eq .empty hlower
  have hfree : ∀ s ∈ stmtsWithin true (Program.parse .empty (dataOrAssign "x")).program.stmts,
      s.spellsLabel = false := by decide +kernel
  exact ⟨hlower, by decide +kernel, halike, halike.script hfree noBareWord_dataOrAssign⟩

end FrameBasic
