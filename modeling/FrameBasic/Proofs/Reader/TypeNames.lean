import FrameBasic.Proofs.Reader.StatementSteps
import FrameBasic.Proofs.Scope

/-!
# Names of types

Types share their names with variables, arrays, constants and functions.  The types of a program are
known before the first token is read, and a type is known at every place that names it, unless
something else with its name was declared: by `Local`, `Global`, `Dim` or `Const`, as a function or
its parameter, or inside of a function as a variable with a type behind it.  A function that stands
behind the type takes the name for all places, because both are known beforehand.  Other assignments,
`For` and `Read` never take the name of a type.

## Main definitions

* `Parser.Input.Foretells` — a word with the name behind it, both known beforehand.
* `Parser.Input.Hides` — something else with the name of a type was declared before a token.
* `Scopes.Shows` — a name stands for a type in every scope.
* `Parser.Visible` — what every step of a reader preserves.

## Main results

* `Parser.Visible.step`, `Parser.Visible.run` — the invariant, for a step and for a run.
* `Parser.shows_initial` — the types of a program are known beforehand.
* `Program.unknownType_hidden` — **a declared type is called unknown only where it is hidden**.
-/

namespace FrameBasic

/-! ### Scopes that show a type -/

namespace Scopes

/-- The key stands for a type in the global scope, and no inner scope holds it. -/
def Shows (s : Scopes) (key : String) : Prop :=
  (Dict.get? key s.global).any Symbol.isType = true ∧
    ∀ scope ∈ s.inner, Dict.get? key scope = none

variable {s : Scopes} {key name : String} {symbol : Symbol}

theorem Shows.isType (h : s.Shows (Name.fold name)) : s.isType name = true := by
  have hfind : ∀ inner : List (Dict Symbol),
      (∀ scope ∈ inner, Dict.get? (Name.fold name) scope = none) →
        find? (Name.fold name) s.global inner = Dict.get? (Name.fold name) s.global := by
    intro inner hinner
    induction inner with
    | nil => rfl
    | cons scope outer ih =>
      obtain ⟨hscope, houter⟩ := List.forall_mem_cons.mp hinner
      rw [find?, hscope, Option.none_or, ih houter]
  unfold Scopes.isType lookup?
  rw [hfind s.inner h.2]
  exact h.1

theorem Shows.lookup?_ne_none (h : s.Shows (Name.fold name)) : s.lookup? name ≠ none := by
  intro hnone
  have htype := h.isType
  rw [Scopes.isType, hnone] at htype
  exact Bool.false_ne_true htype

theorem Shows.defineGlobal (h : s.Shows key) (hkey : symbol.name = key → symbol.isType = true) :
    (s.defineGlobal symbol).Shows key := by
  refine ⟨?_, h.2⟩
  show (Dict.get? key (Dict.insert symbol.name symbol s.global)).any Symbol.isType = true
  rw [Dict.get?_insert]
  split
  · next heq => exact hkey heq
  · exact h.1

theorem Shows.define (h : s.Shows key) (hne : symbol.name ≠ key) : (s.define symbol).Shows key := by
  unfold Scopes.define
  split
  · exact h.defineGlobal fun heq => absurd heq hne
  · next scope outer hinner =>
    obtain ⟨hscope, houter⟩ := List.forall_mem_cons.mp (hinner ▸ h.2)
    refine ⟨h.1, List.forall_mem_cons.mpr ⟨?_, houter⟩⟩
    rw [Dict.get?_insert_of_ne hne]
    exact hscope

theorem Shows.enter (h : s.Shows key) : s.enter.Shows key :=
  ⟨h.1, List.forall_mem_cons.mpr ⟨rfl, h.2⟩⟩

theorem Shows.exit (h : s.Shows key) : s.exit.Shows key :=
  ⟨h.1, fun scope hscope => h.2 scope (List.mem_of_mem_tail hscope)⟩

theorem inner_define_eq_nil (hnil : s.inner = []) : (s.define symbol).inner = [] := by
  unfold Scopes.define
  rw [hnil]

/-- Of the symbols with a key, the last one is found. -/
theorem get?_foldl_defineGlobal (key : String) (symbols : List Symbol) : ∀ s : Scopes,
    Dict.get? key (symbols.foldl Scopes.defineGlobal s).global =
      (latest? key symbols).or (Dict.get? key s.global) := by
  induction symbols with
  | nil => exact fun _ => rfl
  | cons first rest ih =>
    intro s
    have hlatest : latest? key (first :: rest) = (latest? key rest).or (latest? key [first]) :=
      latest?_append key [first] rest
    have hone : Dict.get? key (s.defineGlobal first).global =
        (latest? key [first]).or (Dict.get? key s.global) := by
      show Dict.get? key (Dict.insert first.name first s.global) = _
      rw [Dict.get?_insert]
      by_cases hkey : first.name = key
      · simp [latest?, hkey]
      · simp [latest?, hkey]
    rw [List.foldl_cons, ih, hone, hlatest, Option.or_assoc]

end Scopes

namespace Parser

variable {input : Input} {key : String} {i j : Nat}

/-! ### What hides a type -/

/-- Something else with the name of a type was declared before the token: by a word, or inside of a
function as a variable with a type behind it. -/
def Input.Hides (input : Input) (i : Nat) (key : String) : Prop :=
  input.NamedBefore i key ∨
    (∃ w < i, input.kind w = .keyword .function) ∧
      ∃ j < i, input.kind (j + 1) = .label ∧ input.NameAt j key

theorem Input.Hides.mono (h : input.Hides i key) (hij : i ≤ j) : input.Hides j key := by
  rcases h with hnamed | ⟨⟨w, hw, hword⟩, k, hk, htagged⟩
  · exact .inl (hnamed.mono hij)
  · exact .inr ⟨⟨w, by omega, hword⟩, k, by omega, htagged⟩

/-- The fault was recorded at a token with the name, before which the name was hidden. -/
def Input.HiddenAt (input : Input) (e : ParseError) (name : String) : Prop :=
  ∃ u t, input.tokens[u]? = some t ∧ t.kind = .identifier ∧ t.text = name ∧ t.span = e.span ∧
    input.Hides u (Name.fold name)

/-- What is kept about a type while its program is read. -/
structure Visible (input : Input) (key : String) (s : State) : Prop where
  /-- An inner scope is that of a function whose word was passed. -/
  inside : s.scopes.inner ≠ [] → ∃ w < s.cursor, input.kind w = .keyword .function
  /-- The type is known unless it was hidden. -/
  shows : ¬ input.Hides s.cursor key → s.scopes.Shows key
  /-- It was called unknown only where it was hidden. -/
  errors : ∀ e ∈ s.errors, ∀ name, e.fault = .unknownType name → Name.fold name = key →
    input.HiddenAt e name

namespace Visible

variable {s s' : State}

theorem move (h : Visible input key s) (hi : s.cursor ≤ i) :
    Visible input key { s with cursor := i } where
  inside := by
    intro hinner
    obtain ⟨w, hw, hword⟩ := h.inside hinner
    exact ⟨w, Nat.lt_of_lt_of_le hw hi, hword⟩
  shows := fun hhides => h.shows fun hbefore => hhides (hbefore.mono hi)
  errors := h.errors

theorem report {e : ParseError} (h : Visible input key s)
    (he : ∀ name, e.fault = .unknownType name → Name.fold name = key → input.HiddenAt e name) :
    Visible input key { s with errors := s.errors ++ [e] } where
  inside := h.inside
  shows := h.shows
  errors := List.forall_mem_append.mpr ⟨h.errors, List.forall_mem_singleton.mpr he⟩

/-- Scopes are changed, but no inner one is opened. -/
theorem withScopes {scopes : Scopes} (h : Visible input key s)
    (hinner : s.scopes.inner = [] → scopes.inner = [])
    (hshows : ¬ input.Hides s.cursor key → s.scopes.Shows key → scopes.Shows key) :
    Visible input key { s with scopes } where
  inside := fun hopen => h.inside fun hnil => hopen (hinner hnil)
  shows := fun hhides => hshows hhides (h.shows hhides)
  errors := h.errors

/-- **Every step of a reader keeps what is known about a type.** -/
theorem step (h : Visible input key s) (hstep : Step input s s') : Visible input key s' := by
  cases hstep with
  | move hi => exact h.move hi
  | report hfault => exact h.report fun name hname => absurd hname (hfault name)
  | @unknownType t ht hkind hunknown =>
    refine (h.report (e := ⟨.unknownType t.text, t.span⟩) ?_).move (Nat.le_succ _)
    intro name hname hkey
    obtain rfl : t.text = name := Fault.unknownType.inj hname
    refine ⟨s.cursor, t, ht, hkind, rfl, rfl, ?_⟩
    by_cases hhides : input.Hides s.cursor (Name.fold t.text)
    · exact hhides
    · -- a type that is not hidden is known
      have hshows := h.shows (hkey ▸ hhides)
      rw [← hkey] at hshows
      exact absurd hshows.isType (by simp [hunknown])
  | define hj hdeclares hname =>
    refine h.withScopes Scopes.inner_define_eq_nil fun hhides hshows => hshows.define ?_
    rintro rfl
    exact hhides (.inl ⟨_, hj, hdeclares, hname⟩)
  | defineGlobal hj hdeclares hname =>
    refine h.withScopes id fun hhides hshows => hshows.defineGlobal ?_
    rintro rfl
    exact absurd (.inl ⟨_, hj, hdeclares, hname⟩) hhides
  | defineTagged hj hlabel hname hsymbol hnew =>
    refine h.withScopes Scopes.inner_define_eq_nil fun hhides hshows => hshows.define ?_
    rintro rfl
    -- outside of functions the innermost scope knows the type
    have hopen : s.scopes.inner ≠ [] := by
      intro hnil
      rw [Scopes.lookupInner?, Scopes.innermost, hnil, ← hsymbol] at hnew
      have hglobal := hshows.1
      rw [show Dict.get? _ s.scopes.global = none from hnew] at hglobal
      exact Bool.false_ne_true hglobal
    exact hhides (.inr ⟨h.inside hopen, _, hj, hlabel, hname⟩)
  | defineNew hsymbol hnew =>
    refine h.withScopes Scopes.inner_define_eq_nil fun _ hshows => hshows.define ?_
    rintro rfl
    rw [hsymbol] at hshows
    exact hshows.lookup?_ne_none hnew
  | defineType => exact h.withScopes id fun _ hshows => hshows.defineGlobal fun _ => rfl
  | enter hw hword => exact ⟨fun _ => ⟨_, hw, hword⟩, fun hhides => (h.shows hhides).enter, h.errors⟩
  | exit =>
    refine h.withScopes (fun hnil => ?_) fun _ hshows => hshows.exit
    rw [Scopes.exit, hnil]
    rfl
  | nest | exhaust => exact ⟨h.inside, h.shows, h.errors⟩

theorem run (h : Visible input key s) (hrun : Run input s s') : Visible input key s' := by
  induction hrun with
  | refl => exact h
  | tail _ hstep ih => exact ih.step hstep

end Visible

/-! ### What is known beforehand -/

/-- Behind `i` tokens, the last of which is not `End`, a word stands with a name behind it. -/
def Input.Foretells (input : Input) (i : Nat) (word : Keyword) (key : String) : Prop :=
  ∃ before token name rest, input.tokens.toList = before ++ token :: name :: rest ∧
    before.length = i ∧ (∀ last ∈ before.getLast?, last.kind ≠ .keyword .end_) ∧
    token.kind = .keyword word ∧ name.kind = .identifier ∧ Name.fold name.text = key

theorem foretold_append (suffix : List Token) (tokens : List Token) : ∀ before : Option Token,
    ∃ older, foretold before (tokens ++ suffix) =
      older ++ foretold (tokens.getLast?.or before) suffix := by
  induction tokens with
  | nil => exact fun before => ⟨[], rfl⟩
  | cons token rest ih =>
    intro before
    obtain ⟨older, holder⟩ := ih (some token)
    refine ⟨(foretoldAt before token (rest ++ suffix)).toList ++ older, ?_⟩
    have hlast : (token :: rest).getLast?.or before = rest.getLast?.or (some token) := by
      cases hrest : rest.getLast? <;> simp [List.getLast?_cons, hrest]
    rw [List.cons_append, foretold, holder, hlast, List.append_assoc]

theorem mem_foretold {symbol : Symbol} (tokens : List Token) : ∀ {before : Option Token},
    symbol ∈ foretold before tokens → ∃ passed token rest, tokens = passed ++ token :: rest ∧
      foretoldAt (passed.getLast?.or before) token rest = some symbol := by
  induction tokens with
  | nil => exact fun h => absurd h List.not_mem_nil
  | cons token rest ih =>
    intro before h
    rcases List.mem_append.mp h with hhere | hlater
    · exact ⟨[], token, rest, rfl, Option.mem_toList.mp hhere⟩
    · obtain ⟨passed, token', rest', hsplit, hat⟩ := ih hlater
      refine ⟨token :: passed, token', rest', by rw [hsplit]; rfl, ?_⟩
      cases hlast : passed.getLast? <;> simpa [List.getLast?_cons, hlast] using hat

theorem not_closes_iff {before : Option Token} :
    before.any (fun b => b.kind = .keyword .end_) = false ↔
      ∀ last ∈ before, last.kind ≠ .keyword .end_ := by
  cases before <;> simp

/-- What is known beforehand is a type, or a function whose name stands behind its word. -/
theorem foretoldAt_eq_some {before : Option Token} {token : Token} {rest : List Token}
    {symbol : Symbol} (h : foretoldAt before token rest = some symbol) :
    symbol.isType = true ∨ ∃ name more, rest = name :: more ∧ token.kind = .keyword .function ∧
      name.kind = .identifier ∧ symbol.name = Name.fold name.text ∧
      ∀ last ∈ before, last.kind ≠ .keyword .end_ := by
  cases rest with
  | nil => exact absurd h nofun
  | cons name more =>
    simp only [foretoldAt] at h
    split at h
    · next hname =>
      split at h
      · next hkind =>
        refine .inr ⟨name, more, rfl, hkind, hname.1, ?_, ?_⟩
        · rw [← Option.some.inj h]
          rfl
        · exact not_closes_iff.mp hname.2
      · rw [← Option.some.inj h]
        exact .inl rfl
      · exact absurd h nofun
    · exact absurd h nofun

theorem inner_initial (input : Input) : (State.initial input).scopes.inner = [] := by
  have hdepth := depth_initial input
  simpa [Scopes.depth] using hdepth

/-- A type is known beforehand, unless a function of its name stands behind it. -/
theorem shows_initial (htype : input.Foretells i .type key)
    (hnone : ¬ ∃ f > i, input.Foretells f .function key) :
    (State.initial input).scopes.Shows key := by
  obtain ⟨before, token, name, rest, htokens, hi, hbefore, hkind, hname, hkey⟩ := htype
  obtain ⟨older, holder⟩ := foretold_append (token :: name :: rest) before none
  have hhere : foretoldAt (before.getLast?.or none) token (name :: rest) =
      some (.userType name.text []) := by
    simp [foretoldAt, hname, not_closes_iff.mpr hbefore, hkind]
  -- of the symbols behind the type, those with its name are types
  have hlater : ∀ symbol ∈ foretold (some token) (name :: rest), symbol.name = key →
      symbol.isType = true := by
    intro symbol hmem hsymbol
    obtain ⟨passed, token', rest', hsplit, hat⟩ := mem_foretold _ hmem
    rcases foretoldAt_eq_some hat with htype | ⟨name', more, hrest, hfunction, hname', hnamed, hlast⟩
    · exact htype
    · refine absurd ?_ hnone
      refine ⟨(before ++ token :: passed).length, by simp; omega, before ++ token :: passed, token',
        name', more, ?_, rfl, ?_, hfunction, hname', hnamed ▸ hsymbol⟩
      · rw [htokens, hsplit, hrest]
        simp
      · intro last hmem
        refine hlast last ?_
        cases hpassed : passed.getLast? <;> simp_all [List.getLast?_append, List.getLast?_cons]
  have hforetold : input.foretold = older ++ (Symbol.userType name.text [] ::
      foretold (some token) (name :: rest)) := by
    rw [Input.foretold, htokens, holder, foretold, hhere]
    rfl
  refine ⟨?_, by rw [inner_initial]; exact List.forall_mem_nil _⟩
  have hlatest : ∀ first later, Scopes.latest? key (first :: later) =
      (Scopes.latest? key later).or (Scopes.latest? key [first]) :=
    fun first later => Scopes.latest?_append key [first] later
  show (Dict.get? key (input.foretold.foldl Scopes.defineGlobal .empty).global).any _ = true
  rw [Scopes.get?_foldl_defineGlobal, hforetold, Scopes.latest?_append, hlatest]
  cases hfound : Scopes.latest? key (foretold (some token) (name :: rest)) with
  | none =>
    have hone : Scopes.latest? key [Symbol.userType name.text []] =
        some (.userType name.text []) := by
      simp [Scopes.latest?, Symbol.userType, hkey]
    rw [hone]
    rfl
  | some symbol =>
    have hmem := List.mem_reverse.mp (List.mem_of_find?_eq_some hfound)
    have hsymbol := List.find?_some hfound
    exact hlater symbol hmem (of_decide_eq_true hsymbol)

end Parser

/-- **A declared type is called unknown only where it is hidden**: a function of its name stands
behind it, or something else with its name was declared before the place that names it. -/
theorem Program.unknownType_hidden (commands : CommandTable) (tokens : List Token) {i : Nat}
    {key : String} (htype : (Parser.Input.ofTokens commands tokens).Foretells i .type key) :
    let input := Parser.Input.ofTokens commands tokens
    ∀ e ∈ (Program.parse commands tokens).errors, ∀ name, e.fault = .unknownType name →
      Name.fold name = key →
        (∃ f > i, input.Foretells f .function key) ∨ input.HiddenAt e name := by
  intro input e he name hfault hkey
  by_cases hfunction : ∃ f > i, input.Foretells f .function key
  · exact .inl hfunction
  · have hinitial : Parser.Visible input key (.initial input) :=
      { inside := fun hopen => absurd (Parser.inner_initial input) hopen
        shows := fun _ => Parser.shows_initial htype hfunction
        errors := fun e he => absurd he List.not_mem_nil }
    have hfinal := hinitial.run (Parser.readAll_run input)
    exact .inr (hfinal.errors e he name hfault hkey)

/-- `foo.Foo = New Foo` inside of a function hides the type for the `New Foo` on the next line. -/
theorem Program.unknownType_hidden_by_variable :
    let tokens : List Token :=
      [⟨.keyword .type, "Type", .unknown⟩, ⟨.identifier, "Foo", .unknown⟩,
        ⟨.newline, "", .unknown⟩, ⟨.keyword .end_, "End", .unknown⟩,
        ⟨.keyword .type, "Type", .unknown⟩, ⟨.newline, "", .unknown⟩,
        ⟨.keyword .function, "Function", .unknown⟩, ⟨.identifier, "F", .unknown⟩,
        ⟨.leftParen, "(", .unknown⟩, ⟨.rightParen, ")", .unknown⟩, ⟨.newline, "", .unknown⟩,
        ⟨.identifier, "foo", .unknown⟩, ⟨.label, "Foo", .unknown⟩, ⟨.equals, "=", .unknown⟩,
        ⟨.keyword .new, "New", .unknown⟩, ⟨.identifier, "Foo", .unknown⟩,
        ⟨.newline, "", .unknown⟩, ⟨.identifier, "foo", .unknown⟩, ⟨.equals, "=", .unknown⟩,
        ⟨.keyword .new, "New", .unknown⟩, ⟨.identifier, "Foo", .unknown⟩,
        ⟨.newline, "", .unknown⟩, ⟨.keyword .end_, "End", .unknown⟩,
        ⟨.keyword .function, "Function", .unknown⟩]
    let input := Parser.Input.ofTokens .empty tokens
    input.Foretells 0 .type "foo" ∧
      ∃ e ∈ (Program.parse .empty tokens).errors, e.fault = .unknownType "Foo" ∧
        ((∃ f > 0, input.Foretells f .function "foo") ∨ input.HiddenAt e "Foo") := by
  intro tokens input
  have hfold : Name.fold "Foo" = "foo" := by decide +kernel
  have htype : input.Foretells 0 .type "foo" :=
    ⟨[], _, _, _, rfl, rfl, nofun, rfl, rfl, hfold⟩
  have herrors : (Program.parse .empty tokens).errors = [⟨.unknownType "Foo", .unknown⟩] := by
    decide +kernel
  -- nothing is computed from here on
  clear_value tokens
  have hmem : ⟨.unknownType "Foo", .unknown⟩ ∈ (Program.parse .empty tokens).errors := by
    rw [herrors]
    exact List.mem_singleton_self _
  exact ⟨htype, _, hmem, rfl, unknownType_hidden .empty tokens htype _ hmem "Foo" rfl hfold⟩

/-- `Local foo` at the outermost level takes the name of the type `Foo`: `Delete Each Foo` is
recorded as a fault, although the type is declared. -/
theorem Program.declared_type_unknown :
    let tokens : List Token :=
      [⟨.keyword .type, "Type", .unknown⟩, ⟨.identifier, "Foo", .unknown⟩,
        ⟨.newline, "", .unknown⟩, ⟨.keyword .end_, "End", .unknown⟩,
        ⟨.keyword .type, "Type", .unknown⟩, ⟨.newline, "", .unknown⟩,
        ⟨.keyword .local_, "Local", .unknown⟩, ⟨.identifier, "foo", .unknown⟩,
        ⟨.newline, "", .unknown⟩, ⟨.keyword .delete, "Delete", .unknown⟩,
        ⟨.keyword .each, "Each", .unknown⟩, ⟨.identifier, "Foo", .unknown⟩]
    (Parser.Input.ofTokens .empty tokens).Foretells 0 .type (Name.fold "Foo") ∧
      (Program.parse .empty tokens).errors = [⟨.unknownType "Foo", .unknown⟩] := by
  intro tokens
  refine ⟨⟨[], _, _, _, rfl, rfl, nofun, rfl, rfl, rfl⟩, ?_⟩
  decide +kernel

end FrameBasic
