import FrameBasic.Proofs.Source.Include
import FrameBasic.Scope

/-!
# Runs of operations on scopes

A scope that is opened and closed again leaves no trace, whatever was declared in it: only what was
declared as global stays.  This holds of runs of any length, with scopes opened and closed inside,
and wherever the run starts.

## Main definitions

* `Scopes.Op` — the operations; `Scopes.run` does one after the other.
* `Scopes.Reachable` — scopes that a run leads to.
* `Scopes.Balanced` — runs that close exactly the scopes they open.
* `Scopes.globals` — the symbols that a run declares as global.
* `Scopes.all` — all scopes, innermost first.

## Main results

* `Scopes.run_inner` — inside a scope, a balanced run changes only this scope and the global one.
* `Scopes.Reachable.tidy` — in reachable scopes, every symbol is stored once, under its name.
* `Scopes.enclosed_run` — **what a scope does not declare as global is gone when it is closed**.
-/

namespace FrameBasic

theorem Dict.get?_of_mem {α : Type} {k : String} {v : α} {d : Dict α} (hd : d.keys.Nodup)
    (h : (k, v) ∈ d) : d.get? k = some v := by
  induction d with
  | nil => cases h
  | cons entry rest ih =>
    obtain ⟨key, value⟩ := entry
    obtain ⟨hkey, hrest⟩ := List.nodup_cons.mp hd
    rcases List.mem_cons.mp h with heq | hmem
    · cases heq
      simp [get?]
    · have hne : key ≠ k := by
        rintro rfl
        exact hkey (List.mem_map.mpr ⟨_, hmem, rfl⟩)
      simp only [get?, hne, if_false]
      exact ih hrest hmem

namespace Scopes

/-! ### Operations -/

/-- What can be done with scopes. -/
inductive Op where
  /-- Opens a scope. -/
  | enter
  /-- Closes the innermost scope. -/
  | exit
  /-- Declares a symbol in the innermost scope. -/
  | define (symbol : Symbol)
  /-- Declares a symbol in the global scope. -/
  | defineGlobal (symbol : Symbol)
  /-- Looks a name up, from the innermost scope outwards. -/
  | lookup (name : String)
  /-- Looks a name up in the innermost scope. -/
  | lookupInner (name : String)
deriving DecidableEq, Repr

/-- Whether the operation neither opens nor closes a scope. -/
def Op.isPlain : Op → Bool
  | .enter | .exit => false
  | _ => true

/-- The symbol that an operation declares as global. -/
def Op.global? : Op → Option Symbol
  | .defineGlobal symbol => some symbol
  | _ => none

/-- The scopes after an operation.  Looking a name up does not change them. -/
def step (s : Scopes) : Op → Scopes
  | .enter => s.enter
  | .exit => s.exit
  | .define symbol => s.define symbol
  | .defineGlobal symbol => s.defineGlobal symbol
  | .lookup _ | .lookupInner _ => s

/-- The scopes after some operations. -/
def run (s : Scopes) (ops : List Op) : Scopes :=
  ops.foldl step s

/-- Some operations lead to the scopes, from where no name is declared. -/
def Reachable (s : Scopes) : Prop :=
  ∃ ops, s = run .empty ops

/-- The operations close the scopes that they open, and no other. -/
inductive Balanced : List Op → Prop
  | nil : Balanced []
  | plain {op : Op} {rest : List Op} : op.isPlain = true → Balanced rest → Balanced (op :: rest)
  | nest {inside rest : List Op} : Balanced inside → Balanced rest →
      Balanced (.enter :: (inside ++ .exit :: rest))

/-- The symbols that the operations declare as global, oldest first. -/
def globals (ops : List Op) : List Symbol :=
  ops.filterMap Op.global?

/-- The symbol of a key that was declared last. -/
def latest? (key : String) (symbols : List Symbol) : Option Symbol :=
  symbols.reverse.find? fun symbol => symbol.name = key

@[simp] theorem run_nil (s : Scopes) : s.run [] = s := rfl

@[simp] theorem run_cons (s : Scopes) (op : Op) (ops : List Op) :
    s.run (op :: ops) = (s.step op).run ops := rfl

@[simp] theorem run_append (s : Scopes) (ops more : List Op) :
    s.run (ops ++ more) = (s.run ops).run more :=
  List.foldl_append

@[simp] theorem globals_append (ops more : List Op) :
    globals (ops ++ more) = globals ops ++ globals more :=
  List.filterMap_append

theorem latest?_append (key : String) (older newer : List Symbol) :
    latest? key (older ++ newer) = (latest? key newer).or (latest? key older) := by
  simp [latest?]

theorem latest?_eq_none {key : String} {symbols : List Symbol}
    (h : ∀ symbol ∈ symbols, symbol.name ≠ key) : latest? key symbols = none := by
  simpa [latest?] using h

/-! ### Inside a scope -/

/-- What an operation that is neither opening nor closing does inside a scope. -/
theorem step_inner {s : Scopes} {op : Op} {scope : Dict Symbol} {outer : List (Dict Symbol)}
    (hplain : op.isPlain = true) (hs : s.inner = scope :: outer) :
    (∃ scope', (s.step op).inner = scope' :: outer) ∧
      ∀ key, Dict.get? key (s.step op).global =
        (latest? key op.global?.toList).or (Dict.get? key s.global) := by
  cases op with
  | enter => cases hplain
  | exit => cases hplain
  | define symbol =>
    -- the innermost scope is not the global one
    refine ⟨⟨Dict.insert symbol.name symbol scope, ?_⟩, ?_⟩
    · simp [step, define, hs]
    · simp [step, define, hs, Op.global?, latest?]
  | defineGlobal symbol =>
    refine ⟨⟨scope, hs⟩, fun key => ?_⟩
    by_cases hkey : symbol.name = key <;>
      simp [step, defineGlobal, Op.global?, latest?, Dict.get?_insert, hkey]
  | lookup name | lookupInner name => exact ⟨⟨scope, hs⟩, fun _ => rfl⟩

/-- Inside a scope, a balanced run changes only this scope and the global one, and in the global one
only what it declares as global. -/
theorem run_inner {ops : List Op} (hops : Balanced ops) :
    ∀ {s : Scopes} {scope : Dict Symbol} {outer : List (Dict Symbol)}, s.inner = scope :: outer →
      (∃ scope', (s.run ops).inner = scope' :: outer) ∧
        ∀ key, Dict.get? key (s.run ops).global =
          (latest? key (globals ops)).or (Dict.get? key s.global) := by
  induction hops with
  | nil =>
    intro s scope outer hs
    exact ⟨⟨scope, hs⟩, fun _ => rfl⟩
  | @plain op rest hplain _ ih =>
    intro s scope outer hs
    obtain ⟨⟨scope', hstep⟩, hglobal⟩ := step_inner hplain hs
    obtain ⟨hinner, hrest⟩ := ih hstep
    refine ⟨hinner, fun key => ?_⟩
    have hsplit : globals (op :: rest) = op.global?.toList ++ globals rest := by
      unfold globals
      cases hop : op.global? <;> simp [hop]
    rw [run_cons, hrest, hglobal, hsplit, latest?_append, Option.or_assoc]
  | @nest inside rest _ _ ihinside ihrest =>
    intro s scope outer hs
    -- inside of the new scope the old one is one of the outer scopes, which stay as they are
    have henter : s.enter.inner = [] :: scope :: outer := by simp [enter, hs]
    obtain ⟨⟨scope', hinside⟩, hglobal⟩ := ihinside henter
    have hexit : (s.enter.run inside).exit.inner = scope :: outer := by
      rw [exit, hinside, List.tail_cons]
    obtain ⟨hinner, hrest⟩ := ihrest hexit
    have hrun : s.run (.enter :: (inside ++ .exit :: rest)) =
        (s.enter.run inside).exit.run rest := by
      rw [run_cons, run_append, run_cons]
      rfl
    have hsplit : globals (.enter :: (inside ++ .exit :: rest)) =
        globals inside ++ globals rest := by
      show globals (inside ++ .exit :: rest) = _
      rw [globals_append]
      rfl
    rw [hrun]
    refine ⟨hinner, fun key => ?_⟩
    have hkept : Dict.get? key (s.enter.run inside).exit.global =
        (latest? key (globals inside)).or (Dict.get? key s.global) := hglobal key
    rw [hrest, hkept, hsplit, latest?_append, Option.or_assoc]

/-! ### Stored symbols -/

/-- All scopes, innermost first. -/
def all (s : Scopes) : List (Dict Symbol) :=
  s.inner ++ [s.global]

/-- A name is looked up in one scope after the other. -/
theorem lookup?_eq (s : Scopes) (name : String) :
    s.lookup? name = s.all.findSome? (Dict.get? (Name.fold name)) := by
  unfold lookup? all
  induction s.inner with
  | nil => simp [find?]
  | cons scope outer ih =>
    cases hscope : Dict.get? (Name.fold name) scope <;>
      simp_all [find?, List.findSome?_cons]

/-- The keys of a scope are distinct, and each symbol is stored under its name. -/
def Tidy (scope : Dict Symbol) : Prop :=
  scope.keys.Nodup ∧ ∀ entry ∈ scope, entry.2.name = entry.1

theorem tidy_nil : Tidy [] :=
  ⟨List.nodup_nil, List.forall_mem_nil _⟩

theorem Tidy.insert {scope : Dict Symbol} (h : Tidy scope) (symbol : Symbol) :
    Tidy (Dict.insert symbol.name symbol scope) := by
  refine ⟨Dict.nodup_keys_insert h.1 _ _, ?_⟩
  rintro ⟨key, stored⟩ hentry
  have hget := Dict.get?_of_mem (Dict.nodup_keys_insert h.1 _ _) hentry
  rw [Dict.get?_insert] at hget
  split at hget
  · next hkey =>
    cases hget
    exact hkey
  · exact h.2 (key, stored) (Dict.mem_of_get? hget)

theorem step_tidy {s : Scopes} (h : ∀ scope ∈ s.all, Tidy scope) (op : Op) :
    ∀ scope ∈ (s.step op).all, Tidy scope := by
  obtain ⟨hinner, hglobal⟩ := List.forall_mem_append.mp h
  have hglobal := List.forall_mem_singleton.mp hglobal
  unfold all
  rw [List.forall_mem_append, List.forall_mem_singleton]
  cases op with
  | enter => exact ⟨List.forall_mem_cons.mpr ⟨tidy_nil, hinner⟩, hglobal⟩
  | exit => exact ⟨fun scope hscope => hinner scope (List.mem_of_mem_tail hscope), hglobal⟩
  | define symbol =>
    simp only [step, define]
    cases hs : s.inner with
    | nil => exact ⟨List.forall_mem_nil _, hglobal.insert symbol⟩
    | cons scope outer =>
      rw [hs, List.forall_mem_cons] at hinner
      exact ⟨List.forall_mem_cons.mpr ⟨hinner.1.insert symbol, hinner.2⟩, hglobal⟩
  | defineGlobal symbol => exact ⟨hinner, hglobal.insert symbol⟩
  | lookup name | lookupInner name => exact ⟨hinner, hglobal⟩

theorem run_tidy (ops : List Op) : ∀ {s : Scopes}, (∀ scope ∈ s.all, Tidy scope) →
    ∀ scope ∈ (s.run ops).all, Tidy scope := by
  induction ops with
  | nil => exact id
  | cons op ops ih =>
    intro s h
    exact ih (step_tidy h op)

/-- In reachable scopes, every symbol is stored once, under its name. -/
theorem Reachable.tidy {s : Scopes} (h : s.Reachable) : ∀ scope ∈ s.all, Tidy scope := by
  obtain ⟨ops, rfl⟩ := h
  apply run_tidy
  intro scope hscope
  rw [List.mem_singleton.mp hscope]
  exact tidy_nil

/-- A symbol is found under every spelling of its key, unless a deeper scope holds the key. -/
theorem lookup?_of_mem {s : Scopes} {scope : Dict Symbol} {deeper outer : List (Dict Symbol)}
    {key : String} {symbol : Symbol} (hall : s.all = deeper ++ scope :: outer)
    (hscope : Tidy scope) (hmem : (key, symbol) ∈ scope)
    (hdeeper : ∀ d ∈ deeper, key ∉ d.keys) {name : String} (hname : Name.fold name = key) :
    s.lookup? name = some symbol := by
  have hskip : deeper.findSome? (Dict.get? key) = none := by
    rw [List.findSome?_eq_none_iff]
    intro d hd
    exact Dict.get?_eq_none_iff.mpr (hdeeper d hd)
  rw [lookup?_eq, hall, hname, List.findSome?_append, hskip, Option.none_or,
    List.findSome?_cons, Dict.get?_of_mem hscope.1 hmem]

/-! ### A scope that is opened and closed -/

/-- From any reachable scopes, open a scope, do whatever closes the scopes that it opens, and close
the scope.  Then there are as many scopes as before, and the inner ones are the same.  The global
one differs only by the symbols that were declared as global, of which the last one of a name counts.
So every other name stands for what it stood for.  Moreover, every symbol that is stored in reachable
scopes is found under every spelling of its key, unless a deeper scope holds the key. -/
theorem enclosed_run {s : Scopes} (hs : s.Reachable) {ops : List Op} (hops : Balanced ops) :
    let after := s.run (.enter :: (ops ++ [.exit]))
    (after.depth = s.depth ∧ after.inner = s.inner) ∧
    (∀ key, Dict.get? key after.global =
      (latest? key (globals ops)).or (Dict.get? key s.global)) ∧
    (∀ name, (∀ symbol ∈ globals ops, symbol.name ≠ Name.fold name) →
      after.lookup? name = s.lookup? name ∧ after.lookupInner? name = s.lookupInner? name) ∧
    (∀ deeper scope outer, s.all = deeper ++ scope :: outer →
      ∀ key symbol, (key, symbol) ∈ scope → symbol.name = key ∧
        ((∀ d ∈ deeper, key ∉ d.keys) →
          ∀ name, Name.fold name = key → s.lookup? name = some symbol)) := by
  intro after
  obtain ⟨⟨scope', hinner⟩, hglobal⟩ := run_inner hops (s := s.enter) rfl
  have hafter : after = (s.enter.run ops).exit := by
    show s.run (.enter :: (ops ++ [.exit])) = _
    rw [run_cons, run_append, run_cons, run_nil]
    rfl
  have hsame : after.inner = s.inner := by
    rw [hafter, exit, hinner, List.tail_cons]
  have hget : ∀ key, Dict.get? key after.global =
      (latest? key (globals ops)).or (Dict.get? key s.global) := by
    intro key
    rw [hafter]
    exact hglobal key
  refine ⟨⟨by rw [depth, depth, hsame], hsame⟩, hget, ?_, ?_⟩
  · intro name hname
    have hkept : Dict.get? (Name.fold name) after.global = Dict.get? (Name.fold name) s.global := by
      rw [hget, latest?_eq_none hname, Option.none_or]
    constructor
    · rw [lookup?_eq, lookup?_eq, all, all, hsame, List.findSome?_append, List.findSome?_append]
      simp [hkept]
    · unfold lookupInner? innermost
      rw [hsame]
      cases s.inner with
      | nil => exact hkept
      | cons scope outer => rfl
  · intro deeper scope outer hall key symbol hmem
    have htidy : Tidy scope := hs.tidy scope (by simp [hall])
    exact ⟨htidy.2 _ hmem, fun hdeeper name hname =>
      lookup?_of_mem hall htidy hmem hdeeper hname⟩

/-- A function hides a number with a text, declares `lives` as global twice, and has a function
inside that does the same to `lives`; afterwards the number is seen again. -/
theorem enclosed_run_hides :
    let number := Symbol.scalar "Score" .number
    let text := Symbol.scalar "score$" .string
    let lives (type : ValueType) := Symbol.scalar "lives" type
    let s := run .empty [.exit, .define number]
    let ops : List Op := [.define text, .defineGlobal (lives .object), .enter,
      .defineGlobal (lives .string), .lookup "SCORE", .define (lives .null), .exit]
    let after := s.run (.enter :: (ops ++ [.exit]))
    (s.enter.run ops).lookup? "SCORE%" = some text ∧
      after.lookup? "Lives" = some (lives .string) ∧
      after.lookup? "SCORE%" = some number ∧ after.lookup? "SCORE%" = s.lookup? "SCORE%" := by
  intro number text lives s ops after
  have hops : Balanced ops :=
    .plain rfl (.plain rfl (.nest (.plain rfl (.plain rfl (.plain rfl .nil))) .nil))
  refine ⟨by decide +kernel, by decide +kernel, by decide +kernel, ?_⟩
  exact ((enclosed_run ⟨_, rfl⟩ hops).2.2.1 "SCORE%" (by decide +kernel)).1

end Scopes

end FrameBasic
