import FrameBasic.Proofs.Reader.Spelled
import FrameBasic.Proofs.Tree.Canonical
import FrameBasic.Tree.Parser.Program

/-!
# Statements in canonical spelling

Each statement in canonical spelling is read back from its words without an error, up to places and
inferred types.

A statement is read up to the line feed behind it, and a block from the line feed before it up to the
word that closes it.  The names that are known only grow: a variable is declared where its name is
not known, so a type stays a type.

## Main definitions

* `Parser.Input.Shows` — tokens of some items stand at a place.
* `Parser.Knows` — the types are known.
* `Parser.NodeReads`, `Parser.BlockReads` — a statement, a block is read back.

## Main results

* `Parser.Header.finds` — an expression of a clause is read back.
* `Parser.Node.reads`, `Parser.Block.reads` — every statement and every block is read back.
-/

namespace FrameBasic

variable {commands : CommandTable}

namespace Parser

open Canonical (Name CommandName Literal Formula Header)

variable {input : Input} {scopes : Scopes} {K : Nat → Scopes → Prop} {i j : Nat}

/-! ### Items at a place -/

/-- Tokens of the items stand at a place. -/
def Input.Shows (input : Input) : Nat → List (Item commands) → Prop
  | _, [] => True
  | i, m :: ms =>
    (∃ t, input.tokens[i]? = some t ∧ t.kind = m.kind ∧ t.text = m.text) ∧ input.Shows (i + 1) ms

theorem Input.shows_append {ms ns : List (Item commands)} :
    input.Shows i (ms ++ ns) ↔ input.Shows i ms ∧ input.Shows (i + ms.length) ns := by
  induction ms generalizing i with
  | nil => simp [Shows]
  | cons m ms ih =>
    have hlen : i + (m :: ms).length = i + 1 + ms.length := by rw [List.length_cons]; omega
    rw [List.cons_append, Shows, Shows, ih, hlen, and_assoc]

theorem Input.Shows.kind {m : Item commands} {ms : List (Item commands)}
    (h : input.Shows i (m :: ms)) : input.kind i = m.kind := by
  obtain ⟨⟨t, ht, hkind, -⟩, -⟩ := h
  rw [Input.kind_of_token ht, hkind]

theorem Input.Shows.keyword {w : Keyword} {ms : List (Item commands)}
    (h : input.Shows i (Canonical.word w :: ms)) : input.kind i = .keyword w :=
  h.kind.trans (Canonical.kind_word w)

theorem Input.Shows.newline {ms : List (Item commands)} (h : input.Shows i (.newline :: ms)) :
    input.kind i = .newline :=
  h.kind

theorem Input.Shows.token {m : Item commands} {ms : List (Item commands)}
    (h : input.Shows i (m :: ms)) :
    ∃ t, input.tokens[i]? = some t ∧ t.kind = m.kind ∧ t.text = m.text :=
  h.1

/-! ### Expressions -/

theorem Literal.spelled (value : Literal) (h : input.Shows i [(value.item : Item commands)]) :
    ∃ ts, input.Has i ts ∧ ts.length = 1 ∧ Spelled scopes value.tree ts := by
  obtain ⟨t, ht, hkind, htext⟩ := h.token
  refine ⟨[t], ⟨ht, trivial⟩, rfl, ?_⟩
  cases value with
  | whole text value hnumeral hreads => exact .whole hkind (htext ▸ hreads)
  | hex text value hnumeral hreads => exact .hex hkind (htext ▸ hreads)
  | float text value hnumeral hreads => exact .float hkind (htext ▸ hreads)
  | string value hinside =>
    have hspelled : Spelled scopes (.string default t.text) [t] := .string hkind
    rw [htext] at hspelled
    exact hspelled
  | boolean b => exact .boolean (hkind.trans (Canonical.kind_word _))
  | null => exact .null (hkind.trans (Canonical.kind_word _))

theorem Formula.spelled (scopes : Scopes) (f : Formula commands) : ∀ {i : Nat}, input.Shows i f.items →
    ∃ ts, input.Has i ts ∧ ts.length = f.items.length ∧ Spelled scopes f.tree ts := by
  induction f with
  | literal value => exact fun h => Literal.spelled value h
  | var name =>
    intro i h
    obtain ⟨t, ht, hkind, htext⟩ := h.token
    have hspelled : Spelled scopes (.var default t.text none) [t] :=
      .var (hkind.trans name.kind_item)
    rw [htext, name.text_item] at hspelled
    exact ⟨[t], ⟨ht, trivial⟩, rfl, hspelled⟩
  | command name =>
    intro i h
    obtain ⟨t, ht, hkind, htext⟩ := h.token
    have hspelled : Spelled scopes (.command default t.text []) [t] :=
      .bareCommand (hkind.trans name.kind_item)
    rw [htext, name.text_item] at hspelled
    exact ⟨[t], ⟨ht, trivial⟩, rfl, hspelled⟩
  | field object name ih =>
    intro i h
    obtain ⟨hobject, hrest⟩ := Input.shows_append.mp h
    obtain ⟨ts, hhas, hlength, hspelled⟩ := ih hobject
    obtain ⟨t, ht, hkt, -⟩ := hrest.token
    obtain ⟨u, hu, hku, htext⟩ := hrest.2.token
    have hfield : Spelled scopes (.field default object.tree u.text) (ts ++ [t, u]) :=
      .field hspelled hkt (.inl (hku.trans name.kind_item))
    rw [htext, name.text_item] at hfield
    refine ⟨ts ++ [t, u], Input.has_append.mpr ⟨hhas, ?_⟩, ?_, hfield⟩
    · rw [hlength]
      exact ⟨ht, hu, trivial⟩
    · simp [Formula.items, hlength]
  | grouped inner ih =>
    intro i h
    obtain ⟨t, ht, hkt, -⟩ := h.token
    obtain ⟨hinner, hrest⟩ := Input.shows_append.mp h.2
    obtain ⟨ts, hhas, hlength, hspelled⟩ := ih hinner
    obtain ⟨u, hu, hku, -⟩ := hrest.token
    refine ⟨t :: (ts ++ [u]), ⟨ht, Input.has_append.mpr ⟨hhas, ?_⟩⟩, ?_, .grouped hkt hspelled hku⟩
    · rw [hlength]
      exact ⟨hu, trivial⟩
    · simp [Formula.items, hlength]
  | unary op operand ih =>
    intro i h
    obtain ⟨t, ht, hkt, -⟩ := h.token
    obtain ⟨ts, hhas, hlength, hspelled⟩ := ih h.2
    refine ⟨t :: ts, ⟨ht, hhas⟩, ?_, .unary (hkt.trans (Word.kind_sign op)) hspelled⟩
    simp [Formula.items, hlength]
  | binary left op right ihLeft ihRight =>
    intro i h
    obtain ⟨hleft, hrest⟩ := Input.shows_append.mp h
    obtain ⟨ts, hhas, hlength, hspelled⟩ := ihLeft hleft
    obtain ⟨t, ht, hkt, -⟩ := hrest.token
    obtain ⟨us, hhas', hlength', hspelled'⟩ := ihRight hrest.2
    have hop : t.kind.binaryOp? = some op := by
      rw [hkt]
      exact Word.binaryOp?_operator op
    refine ⟨ts ++ t :: us, Input.has_append.mpr ⟨hhas, ?_⟩, ?_, .binary hspelled hop hspelled'⟩
    · rw [hlength]
      exact ⟨ht, hhas'⟩
    · simp [Formula.items, hlength, hlength']

/-- Commands without arguments compare none. -/
theorem Formula.unchecked (f : Formula commands) (table : CommandTable) :
    f.tree.Unchecked table := by
  induction f with
  | literal value =>
    refine Expr.unchecked_iff.mpr ?_
    cases value <;> exact ⟨trivial, List.forall_mem_nil _⟩
  | var name => exact Expr.unchecked_iff.mpr ⟨trivial, List.forall_mem_nil _⟩
  | command name => exact Expr.unchecked_iff.mpr ⟨.inl rfl, List.forall_mem_nil _⟩
  | field _ _ ih | grouped _ ih | unary _ _ ih =>
    exact Expr.unchecked_iff.mpr ⟨trivial, List.forall_mem_singleton.mpr ih⟩
  | binary _ _ _ ihLeft ihRight =>
    exact Expr.unchecked_iff.mpr
      ⟨trivial, List.forall_mem_cons.mpr ⟨ihLeft, List.forall_mem_singleton.mpr ihRight⟩⟩

theorem Formula.bare_tree (f : Formula commands) : f.tree.bare = f.tree := by
  induction f with
  | literal value => cases value <;> rfl
  | var name => rfl
  | command name => rfl
  | field _ _ ih | grouped _ ih | unary _ _ ih => simp only [Formula.tree, Expr.relabel, ih]; rfl
  | binary _ _ _ ihLeft ihRight => simp only [Formula.tree, Expr.relabel, ihLeft, ihRight]; rfl

theorem Input.Ends.of_kind {k : Kind} (h : input.kind i = k)
    (hk : k ∉ [Kind.leftParen, .label, .backslash] ∧ k.binaryOp? = none) : input.Ends i := by
  unfold Input.Ends
  rw [h]
  exact hk

theorem Header.starts (h : Header commands) (hshows : input.Shows i h.items) :
    (input.kind i).startsExpression = true := by
  obtain ⟨ts, hhas, -, hspelled⟩ := Formula.spelled .empty h.formula hshows
  obtain ⟨t, rest, rfl, ht⟩ := hspelled.starts
  rw [Input.kind_of_token hhas.1]
  exact ht

/-- The expression of a clause is read back. -/
theorem Header.finds (h : Header commands) (hshows : input.Shows i h.items)
    (hends : input.Ends (i + h.items.length)) :
    Finds input K i expression (·.bare = h.tree) (i + h.items.length) := by
  refine Leads.of_keeps fun _ scopes _ => ?_
  obtain ⟨ts, hhas, hlength, hspelled⟩ := Formula.spelled scopes h.formula hshows
  have hlength : ts.length = h.items.length := hlength
  rw [← hlength] at hends ⊢
  refine (expression_finds h.nested (Formula.unchecked h.formula _) hspelled hhas hends).imp ?_
  intro e he
  exact he.trans (Formula.bare_tree h.formula)

/-! ### Names that are known -/

/-- All scopes are closed, and the types are known. -/
structure Knows (types : List (Name commands)) (scopes : Scopes) : Prop where
  /-- There is no inner scope. -/
  closed : scopes.inner = []
  /-- The types are known. -/
  isType : ∀ type ∈ types, scopes.isType type.text = true

variable {types : List (Name commands)}

/-- A name is declared where it is not known, so no type is hidden. -/
theorem Knows.define {name : String} {symbol : Symbol} (h : Knows types scopes)
    (hname : symbol.name = FrameBasic.Name.fold name) (hnew : scopes.lookup? name = none) :
    Knows types (scopes.define symbol) := by
  obtain ⟨global, inner⟩ := scopes
  obtain rfl : inner = [] := h.closed
  refine ⟨rfl, fun type htype => ?_⟩
  have hknown := h.isType type htype
  have hne : symbol.name ≠ FrameBasic.Name.fold type.text := by
    intro heq
    have hnone : Dict.get? (FrameBasic.Name.fold name) global = none := hnew
    have hsome : (Dict.get? (FrameBasic.Name.fold type.text) global).any Symbol.isType = true := hknown
    rw [← heq, hname, hnone] at hsome
    cases hsome
  show (Dict.get? _ (Dict.insert symbol.name symbol global)).any Symbol.isType = true
  rw [Dict.get?_insert_of_ne hne]
  exact hknown

/-- A type that is declared is known from then on. -/
theorem Knows.defineGlobal (h : Knows types scopes) (type : Name commands) (fields : List String) :
    Knows (types ++ [type]) (scopes.defineGlobal (.userType type.text fields)) := by
  obtain ⟨global, inner⟩ := scopes
  obtain rfl : inner = [] := h.closed
  refine ⟨rfl, fun other hother => ?_⟩
  show (Dict.get? (FrameBasic.Name.fold other.text)
    (Dict.insert (FrameBasic.Name.fold type.text) _ global)).any Symbol.isType = true
  rw [Dict.get?_insert]
  split
  · rfl
  · next hne =>
    rcases List.mem_append.mp hother with hmem | hmem
    · exact h.isType other hmem
    · rw [List.mem_singleton.mp hmem] at hne
      exact absurd rfl hne

section Steps

variable {β γ : Type} {q : γ → Parser β} {Q : γ → Prop}

theorem declareLoopVariable_leads {f : Unit → Parser β} {name : String} {typeName : Option String}
    {value : Option ValueType} (h : Leads input (fun _ => Knows types) i (f ()) j q Q) :
    Leads input (fun _ => Knows types) i
      (declareLoopVariable name (.declared name typeName value) >>= f) j q Q := by
  intro s hs hK
  have hrun : (declareLoopVariable name (.declared name typeName value) >>= f) input s =
      ((if (s.scopes.lookup? name).isNone then define (.declared name typeName value)
        else pure ()) >>= f) input s := rfl
  rw [hrun]
  cases hlookup : s.scopes.lookup? name with
  | some symbol => exact h s hs hK
  | none => exact h { s with scopes := _ } hs (hK.define (Symbol.name_declared ..) hlookup)

/-- A variable is declared at its first assignment. -/
theorem declareTarget_finds (info : Info) (name : String) (value : ValueType) :
    Finds input (fun _ => Knows types) i (declareTarget (.var info name none) value)
      (·.bare = .var default name none) i := by
  have htyped : Finds input (fun _ => Knows types) i (typed (.var info name none))
      (·.bare = .var default name none) i := by
    intro s hs hK
    refine ⟨(Expr.var info name none).typed s.scopes input.commands, s.scopes, rfl, hK, ?_⟩
    rw [← hs]
    rfl
  intro s hs hK
  have hrun : declareTarget (.var info name none) value input s =
      (if ((s.scopes.lookup? name).isNone || (false && (s.scopes.lookupInner? name).isNone)) = true
        then define (.declared name none (some value)) >>= fun _ => typed (.var info name none)
        else typed (.var info name none)) input s := rfl
  rw [hrun, Bool.false_and, Bool.or_false]
  cases hlookup : s.scopes.lookup? name with
  | some symbol => exact htyped s hs hK
  | none => exact htyped { s with scopes := _ } hs (hK.define (Symbol.name_declared ..) hlookup)

end Steps

/-! ### Between statements -/

/-- One token is skipped. -/
theorem Input.skipWhile_succ {p : Kind → Bool} (hi : i < input.tokens.size)
    (h : p (input.kind i) = true) (h' : p (input.kind (i + 1)) = false) :
    input.skipWhile p i = i + 1 := by
  have hleft : input.left i = input.left (i + 1) + 1 := by
    unfold Input.left
    omega
  unfold Input.skipWhile
  rw [hleft, Input.skipWhileUpTo, if_pos h]
  exact Input.skipWhile_self h'

/-- What closes a block is no separator. -/
theorem Input.not_separator_of_closes {closers : List Closer}
    (h : closers.any (input.closesWith i) = true) : (input.kind i).isSeparator = false := by
  obtain ⟨closer, -, hcloses⟩ := List.any_eq_true.mp h
  cases closer with
  | word w => rw [of_decide_eq_true hcloses]; rfl
  | endOf w => rw [of_decide_eq_true (Bool.and_eq_true_iff.mp hcloses).1]; rfl

/-- Whether a token begins one of the statements. -/
def opens : Kind → Bool
  | .identifier | .command => true
  | .keyword word => word ∈ [.if_, .while_, .repeat_, .for_, .select, .type]
  | _ => false

/-- What begins a statement closes no block. -/
theorem Input.not_closes_of_opens (h : opens (input.kind i) = true) (closer : Closer)
    (hcloser : closer ∈ Closer.all) : input.closesWith i closer = false := by
  cases closer with
  | word w =>
    refine decide_eq_false fun hk => ?_
    rw [hk] at h
    have hw : w ∈ [Keyword.if_, .while_, .repeat_, .for_, .select, .type] := of_decide_eq_true h
    simp only [List.mem_cons, List.not_mem_nil, or_false] at hw
    rcases hw with rfl | rfl | rfl | rfl | rfl | rfl <;> exact absurd hcloser (by decide)
  | endOf w =>
    refine Bool.and_eq_false_imp.mpr fun hk => ?_
    rw [of_decide_eq_true hk] at h
    cases h

/-- A statement is read up to its end. -/
theorem round_finds {stmt : Parser (Option Stmt)} {Q : Stmt → Prop}
    (h : Finds input K i stmt (fun o => ∃ s, o = some s ∧ Q s) j)
    (hend : (input.kind j).isTerminator = true) (hij : i < j) :
    Finds input K i (round finishOrRecover stmt) (fun o => ∃ s, o = some s ∧ Q s) j := by
  refine .cursor (h.bind fun o ho => ?_)
  obtain ⟨s, rfl, hs⟩ := ho
  refine .finishStatement hend (.passFrom (Nat.ne_of_gt hij) ?_)
  exact Finds.pure ⟨s, rfl, hs⟩

/-! ### Blocks -/

open Canonical (Node Block Branches Clauses Otherwise)

/-- The statement is read back, up to the line feed behind it. -/
def NodeReads (input : Input) (n : Node commands types) : Prop :=
  ∀ ⦃i nesting : Nat⦄, input.Shows i n.items → input.kind (i + n.items.length) = .newline →
    input.tokens.size < i + nesting →
    Finds input (fun _ => Knows types) i (statementAt nesting)
      (fun o => ∃ s, o = some s ∧ s.bare = n.tree) (i + n.items.length)

/-- The statements of the block are read back, up to what closes it. -/
def BlockReads (input : Input) (b : Block commands types) : Prop :=
  ∀ ⦃i p nesting rounds : Nat⦄ ⦃closers : List Closer⦄ ⦃construct : Construct⦄ ⦃opened : Span⦄,
    closers ⊆ Closer.all → i ≤ p → input.skipWhile Kind.isSeparator i = p →
    input.Shows p b.items → closers.any (input.closesWith (p + b.items.length)) = true →
    input.tokens.size < p + nesting → input.tokens.size < i + rounds →
    Finds input (fun _ => Knows types) i
      (blockLoop (statementAt nesting) closers construct opened rounds) (bareStmts · = b.tree)
      (p + b.items.length)

theorem Input.closes_word {w : Keyword} {closers : List Closer} (h : input.kind i = .keyword w)
    (hmem : Closer.word w ∈ closers) : closers.any (input.closesWith i) = true :=
  List.any_eq_true.mpr ⟨_, hmem, decide_eq_true h⟩

theorem Input.lt_size_of_closes {closers : List Closer}
    (h : closers.any (input.closesWith i) = true) : i < input.tokens.size := by
  refine Input.lt_size_of_kind fun heof => ?_
  obtain ⟨closer, -, hcloses⟩ := List.any_eq_true.mp h
  cases closer with
  | word w => exact nomatch heof.symm.trans (of_decide_eq_true hcloses)
  | endOf w => exact nomatch heof.symm.trans (of_decide_eq_true (Bool.and_eq_true_iff.mp hcloses).1)

theorem Node.opens (n : Node commands types) (h : input.Shows i n.items) :
    Parser.opens (input.kind i) = true := by
  cases n with
  | assign name value | command name => rw [h.kind, name.kind_item]; rfl
  | if_ | while_ | repeatUntil | repeatForever | for_ | forEach | select => rw [h.keyword]; rfl

theorem Node.length_pos (n : Node commands types) : 0 < n.items.length := by
  cases n <;> exact Nat.succ_pos _

theorem not_separator_of_opens {kind : Kind} (h : opens kind = true) : kind.isSeparator = false := by
  cases kind <;> first | rfl | cases h

/-- A block does not begin with a separator. -/
theorem Block.not_separator (b : Block commands types) (h : input.Shows i b.items)
    (hend : (input.kind (i + b.items.length)).isSeparator = false) :
    (input.kind i).isSeparator = false := by
  cases b with
  | nil => exact hend
  | cons first rest => exact not_separator_of_opens (Node.opens first (Input.shows_append.mp h).1)

theorem Block.nil_reads : BlockReads input (.nil : Block commands types) := by
  intro i p nesting rounds closers construct opened _ hip hskip _ hcloses _ hrounds
  have hcloses : closers.any (input.closesWith p) = true := hcloses
  have hp := Input.lt_size_of_closes hcloses
  cases rounds with
  | zero => omega
  | succ rounds =>
    refine .skipWhile hskip (.read (.cursor ?_))
    rw [if_pos hcloses]
    exact Finds.pure rfl

theorem Block.cons_reads {first : Node commands types} {rest : Block commands types}
    (hfirst : NodeReads input first) (hrest : BlockReads input rest) :
    BlockReads input (.cons first rest) := by
  intro i p nesting rounds closers construct opened hall hip hskip hshows hcloses hnesting hrounds
  obtain ⟨hnode, hline⟩ := Input.shows_append.mp hshows
  have hopens := Node.opens first hnode
  have hne : input.kind p ≠ .eof := fun h => by rw [h] at hopens; cases hopens
  have hp := Input.lt_size_of_kind hne
  have hnone := Input.not_closes_of_opens hopens
  have hlen : p + (Block.cons first rest).items.length =
      p + first.items.length + 1 + rest.items.length := by
    simp only [Block.items, List.length_append, List.length_cons]
    omega
  have hkind : input.kind (p + first.items.length) = .newline := hline.kind
  rw [hlen] at hcloses ⊢
  cases rounds with
  | zero => omega
  | succ rounds =>
    have hhere : closers.any (input.closesWith p) = false :=
      List.any_eq_false.mpr fun c hc => by rw [hnone c (hall hc)]; exact Bool.false_ne_true
    have hany : input.closesAny p = false :=
      List.any_eq_false.mpr fun c hc => by rw [hnone c hc]; exact Bool.false_ne_true
    have hpos := Node.length_pos first
    refine .skipWhile hskip (.read (.cursor ?_))
    rw [hhere, if_neg Bool.false_ne_true, hany, if_neg (by simp [hne])]
    refine (round_finds (hfirst hnode hkind hnesting) (by rw [hkind]; rfl) (by omega)).bind ?_
    rintro o ⟨s, rfl, hs⟩
    have hafter : input.skipWhile Kind.isSeparator (p + first.items.length) =
        p + first.items.length + 1 := by
      refine Input.skipWhile_succ (Input.lt_size_of_kind (by rw [hkind]; decide)) (by rw [hkind]; rfl) ?_
      exact Block.not_separator rest hline.2 (Input.not_separator_of_closes hcloses)
    refine (hrest hall (Nat.le_succ _) hafter hline.2 hcloses (by omega) (by omega)).bind ?_
    intro stmts hstmts
    refine Finds.pure ?_
    simp only [Option.toList, List.cons_append, List.nil_append, relabelStmts, Block.tree, hs, hstmts]

/-- A block is read back, from the line feed before it. -/
theorem BlockReads.finds {b : Block commands types} {nesting : Nat} {closers : List Closer}
    {construct : Construct} {opened : Span} (h : BlockReads input b) (hall : closers ⊆ Closer.all)
    (hkind : input.kind i = .newline) (hshows : input.Shows (i + 1) b.items)
    (hcloses : closers.any (input.closesWith (i + 1 + b.items.length)) = true)
    (hnesting : input.tokens.size < i + 1 + nesting) :
    Finds input (fun _ => Knows types) i (block (statementAt nesting) closers construct opened)
      (bareStmts · = b.tree) (i + 1 + b.items.length) := by
  have hskip : input.skipWhile Kind.isSeparator i = i + 1 := by
    refine Input.skipWhile_succ (Input.lt_size_of_kind (by rw [hkind]; decide)) (by rw [hkind]; rfl) ?_
    exact Block.not_separator b hshows (Input.not_separator_of_closes hcloses)
  refine Finds.inBlock (.bounded fun rounds hrounds => ?_)
  exact h hall (Nat.le_succ i) hskip hshows hcloses hnesting hrounds

/-! ### Simple statements -/

/-- What is read inside a statement may be nested less deep. -/
theorem NodeReads.intro {n : Node commands types}
    (h : ∀ ⦃i nesting : Nat⦄, input.Shows i n.items → input.kind (i + n.items.length) = .newline →
      input.tokens.size < i + 1 + nesting →
      Finds input (fun _ => Knows types) i (statementWith (statementAt nesting))
        (fun o => ∃ s, o = some s ∧ s.bare = n.tree) (i + n.items.length)) :
    NodeReads input n := by
  intro i nesting hshows hline hnesting
  have hopens := Node.opens n hshows
  have hi : i < input.tokens.size :=
    Input.lt_size_of_kind fun heof => by rw [heof] at hopens; cases hopens
  cases nesting with
  | zero => omega
  | succ nesting => exact h hshows hline (by omega)

section Statements

variable {stmt : Parser (Option Stmt)} {Q : Option Stmt → Prop}

theorem statementWith_name {t : Token} (ht : input.tokens[i]? = some t) (hkt : t.kind = .identifier)
    (h : Finds input K i nameStmt Q j) : Finds input K i (statementWith stmt) Q j :=
  .token ht hkt h

theorem statementWith_command {t : Token} (ht : input.tokens[i]? = some t) (hkt : t.kind = .command)
    (h : Finds input K i commandStmt Q j) : Finds input K i (statementWith stmt) Q j :=
  .token ht hkt h

theorem statementWith_word {α : Type} {q : α → Parser (Option Stmt)} {Q : α → Prop} {word : Keyword}
    (hk : input.kind i = .keyword word) (h : ∀ t, Leads input K i (wordStmt stmt t word) j q Q) :
    Leads input K i (statementWith stmt) j q Q := by
  obtain ⟨t, ht, hkt⟩ := Input.token_of_kind (by rw [hk]; exact fun h => nomatch h)
  exact .token ht (hkt.trans hk) (h _)

end Statements

/-- A literal alone is an expression. -/
def Literal.header (value : Literal) : Header commands where
  formula := .literal value
  nested := by cases value <;> exact byPrecedence_of_leaf ⟨trivial, trivial⟩ rfl

/-- The variable before an equals sign. -/
theorem target_finds {t : Token} (ht : input.tokens[i]? = some t) (hkt : t.kind = .identifier)
    (hequals : input.kind (i + 1) = .equals) :
    Finds input K i target (fun o => ∃ info, o = some (.var info t.text none)) (i + 1) := by
  refine .cursor (.expect ht hkt (by decide) ?_)
  refine (typeTag_finds_none (by rw [hequals]; decide)).bind fun _ htag => ?_
  subst htag
  refine .check_neg (by rw [hequals]; decide) (.node (fun _ _ => rfl) fun info => ?_)
  refine Finds.map (.bounded fun rounds hrounds => ?_)
  have hi := Input.lt_size_of_kind (i := i + 1) (by rw [hequals]; decide)
  cases rounds with
  | zero => omega
  | succ rounds =>
    exact .accept_neg (by rw [hequals]; decide) (Finds.pure ⟨info, rfl⟩)

theorem Node.assign_reads (name : Name commands) (value : Literal) :
    NodeReads input (.assign name value : Node commands types) := by
  refine .intro fun i nesting hshows hline _ => ?_
  obtain ⟨t, ht, hkt, htext⟩ := hshows.token
  obtain ⟨u, hu, hku, -⟩ := hshows.2.token
  have hkt : t.kind = .identifier := hkt.trans name.kind_item
  have hequals : input.kind (i + 1) = .equals := (Input.kind_of_token hu).trans hku
  refine statementWith_name ht hkt ?_
  refine .cursor (.peek ?_)
  refine .kindAhead ?_
  rw [hequals]
  refine .get fun s _ _ => ?_
  show Finds input _ i assignment _ _
  refine .cursor ((target_finds ht hkt hequals).bind ?_)
  rintro _ ⟨info, rfl⟩
  refine .expect hu hku (by decide) ?_
  have hvalue := Header.finds (K := fun _ => Knows types) (Literal.header value) hshows.2.2
    (.of_kind hline (by decide))
  refine hvalue.bind fun e he => (declareTarget_finds info t.text e.type).bind fun v hv => ?_
  refine Finds.stmtFrom fun span => ⟨_, rfl, ?_⟩
  simp only [Stmt.relabel, Relabel.span_bare, hv, he, htext, name.text_item]
  rfl

theorem Node.command_reads (name : CommandName commands) :
    NodeReads input (.command name : Node commands types) := by
  refine .intro fun i nesting hshows hline _ => ?_
  obtain ⟨t, ht, hkt, htext⟩ := hshows.token
  have hkt : t.kind = .command := hkt.trans name.kind_item
  have hline : input.kind (i + 1) = .newline := hline
  have hargs : Finds input (fun _ => Knows types) (i + 1) statementArgs (· = []) (i + 1) := by
    refine .check_neg (by rw [hline]; decide) ?_
    refine .kind ?_
    rw [hline]
    exact Finds.pure rfl
  have hnode : Finds input (fun _ => Knows types) (i + 1) (commandNode i t.text [])
      (·.bare = (Expr.command default t.text []).bare) (i + 1) := commandNode_finds (.inl rfl) rfl
  refine statementWith_command ht hkt ?_
  refine .cursor (.takeText ht (by rw [hkt]; decide) (hargs.bind ?_))
  rintro _ rfl
  refine hnode.bind fun e he => Finds.stmtFrom fun span => ⟨_, rfl, ?_⟩
  simp only [Stmt.relabel, Relabel.span_bare, he, htext, name.text_item]
  rfl

/-! ### Loops -/

section Loops

variable {body : Block commands types}

/-- A reserved word is passed. -/
theorem advance_word {β γ : Type} {f : Unit → Parser β} {q : γ → Parser β} {Q : γ → Prop}
    {word : Keyword} (hk : input.kind i = .keyword word) (h : Leads input K (i + 1) (f ()) j q Q) :
    Leads input K i (advance >>= f) j q Q :=
  .advance (by rw [hk]; exact fun h => nomatch h) h

theorem Node.while_reads {condition : Header commands} (hbody : BlockReads input body) :
    NodeReads input (.while_ condition body) := by
  refine .intro fun i nesting hshows _ hnesting => ?_
  have hword := hshows.keyword
  obtain ⟨hcondition, hrest⟩ := Input.shows_append.mp hshows.2
  obtain ⟨hblock, hclose⟩ := Input.shows_append.mp hrest.2
  have hlen : i + (Node.while_ condition body).items.length =
      i + 1 + condition.items.length + 1 + body.items.length + 1 := by
    simp only [Node.items, List.length_append, List.length_cons, List.length_nil]
    omega
  have hends : input.Ends (i + 1 + condition.items.length) := .of_kind hrest.newline (by decide)
  have hwend := hclose.keyword
  rw [hlen]
  refine statementWith_word hword fun _ => ?_
  show Finds input _ i (whileStmt _) _ _
  refine .cursor (advance_word hword ?_)
  refine (Header.finds condition hcondition hends).bind fun e he => .spanFrom ?_
  refine (hbody.finds (by decide) hrest.newline hblock (Input.closes_word hwend (by decide))
    (by omega)).bind ?_
  intro stmts hstmts
  refine .acceptCloser_word hwend (Finds.stmtFrom fun span => ⟨_, rfl, ?_⟩)
  simp only [Stmt.relabel, Relabel.span_bare, he, hstmts, Node.tree]

theorem Node.repeatUntil_reads {condition : Header commands} (hbody : BlockReads input body) :
    NodeReads input (.repeatUntil body condition) := by
  refine .intro fun i nesting hshows hline hnesting => ?_
  have hword := hshows.keyword
  have hnext := hshows.2.newline
  obtain ⟨hblock, hrest⟩ := Input.shows_append.mp hshows.2.2
  have huntil := hrest.keyword
  have hlen : i + (Node.repeatUntil body condition).items.length =
      i + 1 + 1 + body.items.length + 1 + condition.items.length := by
    simp only [Node.items, List.length_append, List.length_cons]
    omega
  rw [hlen] at hline ⊢
  refine statementWith_word hword fun _ => ?_
  show Finds input _ i (repeatStmt _) _ _
  refine .cursor (advance_word hword (.spanFrom ?_))
  refine (hbody.finds (by decide) hnext hblock (Input.closes_word huntil (by decide))
    (by omega)).bind ?_
  intro stmts hstmts
  refine .accept_pos (by decide) huntil ?_
  refine (Header.finds condition hrest.2 (.of_kind hline (by decide))).bind fun e he => ?_
  refine Finds.stmtFrom fun span => ⟨_, rfl, ?_⟩
  simp only [Stmt.relabel, Relabel.span_bare, Option.map, he, hstmts, Node.tree]

theorem Node.repeatForever_reads (hbody : BlockReads input body) :
    NodeReads input (.repeatForever body) := by
  refine .intro fun i nesting hshows _ hnesting => ?_
  have hword := hshows.keyword
  have hnext := hshows.2.newline
  obtain ⟨hblock, hrest⟩ := Input.shows_append.mp hshows.2.2
  have hforever := hrest.keyword
  have hlen : i + (Node.repeatForever body).items.length =
      i + 1 + 1 + body.items.length + 1 := by
    simp only [Node.items, List.length_append, List.length_cons, List.length_nil]
    omega
  rw [hlen]
  refine statementWith_word hword fun _ => ?_
  show Finds input _ i (repeatStmt _) _ _
  refine .cursor (advance_word hword (.spanFrom ?_))
  refine (hbody.finds (by decide) hnext hblock (Input.closes_word hforever (by decide))
    (by omega)).bind ?_
  intro stmts hstmts
  refine .accept_neg (by rw [hforever]; decide) ?_
  refine .accept_pos (by decide) hforever (Finds.stmtFrom fun span => ⟨_, rfl, ?_⟩)
  simp only [Stmt.relabel, Relabel.span_bare, Option.map, hstmts, Node.tree]

/-- The body of `For` is read back, up to the line feed behind `Next`. -/
theorem forBody_finds {nesting start : Nat} {construct : Construct} (hbody : BlockReads input body)
    (hshows : input.Shows i (.newline :: (body.items ++ [Canonical.word .next])))
    (hline : input.kind (i + 1 + body.items.length + 1) = .newline)
    (hnesting : input.tokens.size < i + 1 + nesting) :
    Finds input (fun _ => Knows types) i (forBody (statementAt nesting) construct start)
      (bareStmts · = body.tree) (i + 1 + body.items.length + 1) := by
  obtain ⟨hblock, hrest⟩ := Input.shows_append.mp hshows.2
  have hnext := hrest.keyword
  refine .spanFrom ?_
  refine (hbody.finds (by decide) hshows.newline hblock (Input.closes_word hnext (by decide))
    hnesting).bind ?_
  intro stmts hstmts
  refine .acceptCloser_word hnext ?_
  refine .check_neg (by rw [hline]; decide) ?_
  exact Finds.pure hstmts

/-- `For` up to the equals sign. -/
theorem forStmt_leads {stmt : Parser (Option Stmt)} {name : Name commands}
    {ms : List (Item commands)} {Q : Option Stmt → Prop}
    (hshows : input.Shows i (Canonical.word .for_ :: name.item :: Canonical.equals :: ms))
    (h : Finds input K (i + 3) (do
      if ← acceptWord .each then forEachStmt stmt i name.text none
      else forRangeStmt stmt i name.text) Q j) :
    Finds input K i (forStmt stmt) Q j := by
  obtain ⟨t, ht, hkt, htext⟩ := hshows.2.token
  obtain ⟨u, hu, hku, -⟩ := hshows.2.2.token
  have hequals : input.kind (i + 1 + 1) = .equals := (Input.kind_of_token hu).trans hku
  refine .cursor (advance_word hshows.keyword ?_)
  refine .expect ht (hkt.trans name.kind_item) (by decide) ?_
  refine (typeTag_finds_none (by rw [hequals]; decide)).bind fun _ htag => ?_
  subst htag
  refine .expect hu hku (by decide) ?_
  rw [htext, name.text_item]
  exact h

theorem Node.forEach_reads {name type : Name commands} (known : type ∈ types)
    (hbody : BlockReads input body) : NodeReads input (.forEach name type known body) := by
  refine .intro fun i nesting hshows hline hnesting => ?_
  have heach := hshows.2.2.2.keyword
  have hrest := hshows.2.2.2.2
  obtain ⟨t, ht, hkt, htext⟩ := hrest.token
  have htext : t.text = type.text := htext.trans type.text_item
  have hlen : i + (Node.forEach name type known body).items.length =
      i + 1 + 1 + 1 + 1 + 1 + 1 + body.items.length + 1 := by
    simp only [Node.items, List.length_append, List.length_cons, List.length_nil]
    omega
  rw [hlen] at hline ⊢
  have htype : Finds input (fun _ => Knows types) (i + 1 + 1 + 1 + 1) typeName (· = some t.text)
      (i + 1 + 1 + 1 + 1 + 1) := by
    refine Leads.of_keeps fun _ scopes hknows => typeName_finds ht (hkt.trans type.kind_item) ?_
    rw [htext]
    exact hknows.isType type known
  refine statementWith_word hshows.keyword fun _ => forStmt_leads hshows ?_
  refine .accept_pos (by decide) heach ?_
  refine htype.bind ?_
  rintro _ rfl
  refine declareLoopVariable_leads ?_
  refine (forBody_finds hbody hrest.2 hline (by omega)).bind fun stmts hstmts => ?_
  refine Finds.stmtFrom fun span => ⟨_, rfl, ?_⟩
  simp only [Stmt.relabel, Relabel.span_bare, Relabel.name_bare, hstmts, htext, Node.tree]

theorem Node.for_reads {name : Name commands} {first last : Header commands}
    {step : Option (Header commands)} (hbody : BlockReads input body) :
    NodeReads input (.for_ name first last step body) := by
  refine .intro fun i nesting hshows hline hnesting => ?_
  obtain ⟨hfirst, hrest⟩ := Input.shows_append.mp hshows.2.2.2
  obtain ⟨t, ht, hkt, -⟩ := hrest.token
  have hto := hrest.keyword
  obtain ⟨hlast, htail⟩ := Input.shows_append.mp hrest.2
  have heach : input.kind (i + 1 + 1 + 1) ≠ .keyword .each := by
    intro hk
    have hstarts := Header.starts first hfirst
    rw [hk] at hstarts
    cases hstarts
  refine statementWith_word hshows.keyword fun _ => forStmt_leads hshows ?_
  refine .accept_neg heach ?_
  refine declareLoopVariable_leads ?_
  refine (Header.finds first hfirst (.of_kind hto (by decide))).bind fun e he => ?_
  refine .expect ht (hkt.trans (Canonical.kind_word _)) (by decide) ?_
  cases step with
  | none =>
    have hlen : i + (Node.for_ name first last none body).items.length =
        i + 1 + 1 + 1 + first.items.length + 1 + last.items.length + 1 + body.items.length + 1 := by
      simp only [Node.items, Option.elim, List.length_append, List.length_cons, List.length_nil]
      omega
    have htail : input.Shows (i + 1 + 1 + 1 + first.items.length + 1 + last.items.length)
        (.newline :: (body.items ++ [Canonical.word .next])) := htail
    have hnewline := htail.newline
    rw [hlen] at hline ⊢
    refine (Header.finds last hlast (.of_kind hnewline (by decide))).bind fun e' he' => ?_
    refine .accept_neg (by rw [hnewline]; decide) ?_
    rw [if_neg Bool.false_ne_true, pure_bind]
    refine (forBody_finds hbody htail hline (by omega)).bind fun stmts hstmts => ?_
    refine Finds.stmtFrom fun span => ⟨_, rfl, ?_⟩
    simp only [Stmt.relabel, Relabel.span_bare, Relabel.name_bare, Option.map, he, he', hstmts,
      Node.tree]
  | some step =>
    obtain ⟨hstep, hrest⟩ := Input.shows_append.mp htail.2
    have hword : input.kind (i + 1 + 1 + 1 + first.items.length + 1 + last.items.length) =
        .keyword .step := htail.keyword
    have hlen : i + (Node.for_ name first last (some step) body).items.length =
        i + 1 + 1 + 1 + first.items.length + 1 + last.items.length + 1 + step.items.length + 1 +
          body.items.length + 1 := by
      simp only [Node.items, Option.elim, List.length_append, List.length_cons, List.length_nil]
      omega
    rw [hlen] at hline ⊢
    refine (Header.finds last hlast (.of_kind hword (by decide))).bind fun e' he' => ?_
    refine .accept_pos (by decide) hword ?_
    have hread := Header.finds (K := fun _ => Knows types) step hstep
      (.of_kind hrest.newline (by decide))
    refine (Finds.map (R := fun o => o.map Expr.bare = some step.tree)
      (hread.imp fun _ h => congrArg some h)).bind fun o ho => ?_
    refine (forBody_finds hbody hrest hline (by omega)).bind fun stmts hstmts => ?_
    refine Finds.stmtFrom fun span => ⟨_, rfl, ?_⟩
    simp only [Stmt.relabel, Relabel.span_bare, Relabel.name_bare, Option.map_some, he, he', ho,
      hstmts, Node.tree]

end Loops

/-! ### Branches -/

/-- The last block is read back. -/
def OtherwiseReads (input : Input) : Otherwise commands types → Prop
  | .none => True
  | .some body => BlockReads input body

/-- The branches are read back, up to a word that begins none of them. -/
def BranchesReads (input : Input) (bs : Branches commands types) : Prop :=
  ∀ ⦃i nesting rounds : Nat⦄ ⦃opened : Span⦄, input.Shows i bs.items →
    branchClosers.any (input.closesWith (i + bs.items.length)) = true →
    input.kind (i + bs.items.length) ≠ .keyword .elseIf →
    input.kind (i + bs.items.length + 1) ≠ .keyword .if_ →
    input.tokens.size < i + nesting → input.tokens.size < i + rounds →
    Finds input (fun _ => Knows types) i (elseIfs (statementAt nesting) opened rounds)
      (relabelElseIfs .bare · = bs.tree) (i + bs.items.length)

theorem Branches.nil_reads : BranchesReads input (.nil : Branches commands types) := by
  intro i nesting rounds opened _ hcloses helseIf hif _ hrounds
  have hif : input.kind (i + 1) ≠ .keyword .if_ := hif
  have hi := Input.lt_size_of_closes hcloses
  cases rounds with
  | zero => omega
  | succ rounds =>
    have hnone : Finds input (fun _ => Knows types) i acceptElseIf (· = false) i := by
      refine .accept_neg helseIf ?_
      refine .check (.kindAhead ?_)
      rw [if_neg (by simp [hif])]
      exact Finds.pure rfl
    refine hnone.bind ?_
    rintro _ rfl
    exact Finds.pure rfl

theorem Branches.cons_reads {condition : Header commands} {body : Block commands types}
    {rest : Branches commands types} (hbody : BlockReads input body)
    (hrest : BranchesReads input rest) :
    BranchesReads input (.cons condition body rest) := by
  intro i nesting rounds opened hshows hcloses helseIf hif hnesting hrounds
  obtain ⟨hcondition, htail⟩ := Input.shows_append.mp hshows.2
  obtain ⟨hblock, hbranches⟩ := Input.shows_append.mp htail.2.2
  have hlen : i + (Branches.cons condition body rest).items.length =
      i + 1 + condition.items.length + 1 + 1 + body.items.length + rest.items.length := by
    simp only [Branches.items, List.length_append, List.length_cons]
    omega
  rw [hlen] at hcloses helseIf hif ⊢
  have hnext : branchClosers.any
      (input.closesWith (i + 1 + condition.items.length + 1 + 1 + body.items.length)) = true := by
    cases rest with
    | nil => exact hcloses
    | cons => exact Input.closes_word hbranches.keyword (by decide)
  have hi : i < input.tokens.size := Input.lt_size_of_kind (by rw [hshows.keyword]; decide)
  cases rounds with
  | zero => omega
  | succ rounds =>
    have hword : Finds input (fun _ => Knows types) i acceptElseIf (· = true) (i + 1) := by
      refine .accept_pos (by decide) hshows.keyword ?_
      exact Finds.pure rfl
    refine hword.bind ?_
    rintro _ rfl
    refine (Header.finds condition hcondition (.of_kind htail.keyword (by decide))).bind ?_
    intro e he
    refine .accept_pos (by decide) htail.keyword ?_
    refine (hbody.finds (by decide) htail.2.newline hblock hnext (by omega)).bind ?_
    intro stmts hstmts
    refine (hrest hbranches hcloses helseIf hif (by omega) (by omega)).bind fun bs hbs => ?_
    refine Finds.pure ?_
    simp only [relabelElseIfs, he, hstmts, hbs, Branches.tree]

/-- The last branch of `If` is read back, up to the word that closes it. -/
theorem elseBranch_leads {nesting : Nat} {opened : Span} {otherwise : Otherwise commands types}
    {Q : Option Stmt → Prop} {f : Option (List Stmt) → Parser (Option Stmt)}
    (hreads : OtherwiseReads input otherwise) (hshows : input.Shows i (otherwise.items .else_))
    (hend : input.kind (i + (otherwise.items .else_).length) = .keyword .endIf)
    (hnesting : input.tokens.size < i + nesting)
    (h : ∀ stmts, stmts.map bareStmts = otherwise.tree →
      Finds input (fun _ => Knows types) (i + (otherwise.items .else_).length) (f stmts) Q j) :
    Finds input (fun _ => Knows types) i (do
      let elseBranch ←
        if ← acceptWord .else_ then
          some <$> block (statementAt nesting) ifClosers .if_ opened
        else pure none
      f elseBranch) Q j := by
  cases otherwise with
  | none =>
    have hend : input.kind i = .keyword .endIf := hend
    refine .accept_neg (by rw [hend]; decide) ?_
    exact h none rfl
  | some body =>
    have hlen : i + (Otherwise.items .else_ (.some body)).length =
        i + 1 + 1 + body.items.length := by
      simp only [Otherwise.items, List.length_cons]
      omega
    rw [hlen] at hend h
    have hbody : BlockReads input body := hreads
    have hread : Finds input (fun _ => Knows types) (i + 1)
        (block (statementAt nesting) ifClosers .if_ opened) (bareStmts · = body.tree)
        (i + 1 + 1 + body.items.length) :=
      hbody.finds (by decide) hshows.2.newline hshows.2.2 (Input.closes_word hend (by decide))
        (by omega)
    refine .accept_pos (by decide) hshows.keyword ?_
    exact (Finds.map (R := fun o => o.map bareStmts = some body.tree)
      (hread.imp fun _ h => congrArg some h)).bind h

/-- `Else` or `EndIf` stands alone on its line. -/
theorem Otherwise.alone {otherwise : Otherwise commands types}
    (hshows : input.Shows i (otherwise.items .else_))
    (hend : input.kind (i + (otherwise.items .else_).length) = .keyword .endIf)
    (hline : input.kind (i + (otherwise.items .else_).length + 1) = .newline) :
    (input.kind i = .keyword .else_ ∨ input.kind i = .keyword .endIf) ∧
      input.kind (i + 1) = .newline := by
  cases otherwise with
  | none => exact ⟨.inr hend, hline⟩
  | some body => exact ⟨.inl hshows.keyword, hshows.2.newline⟩

theorem Node.if_reads {condition : Header commands} {body : Block commands types}
    {branches : Branches commands types} {otherwise : Otherwise commands types}
    (hbody : BlockReads input body) (hbranches : BranchesReads input branches)
    (hotherwise : OtherwiseReads input otherwise) :
    NodeReads input (.if_ condition body branches otherwise) := by
  refine .intro fun i nesting hshows hline hnesting => ?_
  have hword := hshows.keyword
  obtain ⟨hcondition, hthen⟩ := Input.shows_append.mp hshows.2
  have hnewline := hthen.2.newline
  obtain ⟨hblock, htail⟩ := Input.shows_append.mp hthen.2.2
  obtain ⟨hshowsBranches, htail'⟩ := Input.shows_append.mp htail
  obtain ⟨hshowsElse, hclose⟩ := Input.shows_append.mp htail'
  have hend := hclose.keyword
  have hlen : i + (Node.if_ condition body branches otherwise).items.length =
      i + 1 + condition.items.length + 1 + 1 + body.items.length + branches.items.length +
        (otherwise.items .else_).length + 1 := by
    simp only [Node.items, List.length_append, List.length_cons, List.length_nil]
    omega
  rw [hlen] at hline ⊢
  obtain ⟨hlast, hafter⟩ := Otherwise.alone hshowsElse hend hline
  have hcloses : branchClosers.any (input.closesWith (i + 1 + condition.items.length + 1 + 1 +
      body.items.length + branches.items.length)) = true :=
    hlast.elim (Input.closes_word · (by decide)) (Input.closes_word · (by decide))
  have hfirst : branchClosers.any (input.closesWith (i + 1 + condition.items.length + 1 + 1 +
      body.items.length)) = true := by
    cases branches with
    | nil => exact hcloses
    | cons => exact Input.closes_word hshowsBranches.keyword (by decide)
  refine statementWith_word hword fun _ => ?_
  show Finds input _ i (ifStmt _) _ _
  refine .cursor (advance_word hword ?_)
  refine (Header.finds condition hcondition (.of_kind hthen.keyword (by decide))).bind ?_
  intro e he
  refine .accept_pos (by decide) hthen.keyword (.kind ?_)
  rw [if_pos (by rw [hnewline]; decide)]
  refine .spanFrom ((hbody.finds (by decide) hnewline hblock hfirst (by omega)).bind ?_)
  intro stmts hstmts
  refine Leads.bind (.bounded fun rounds hrounds => hbranches hshowsBranches hcloses ?_ ?_ (by omega)
    hrounds) fun bs hbs => ?_
  · rcases hlast with hlast | hlast <;> rw [hlast] <;> decide
  · rw [hafter]
    decide
  refine elseBranch_leads hotherwise hshowsElse hend (by omega) fun stmts' hstmts' => ?_
  refine .acceptCloser_word hend (Finds.stmtFrom fun span => ⟨_, rfl, ?_⟩)
  cases stmts' with
  | none => simp only [Stmt.relabel, Relabel.span_bare, he, hstmts, hbs, ← hstmts', Option.map, Node.tree]
  | some =>
    simp only [Stmt.relabel, Relabel.span_bare, he, hstmts, hbs, ← hstmts', Option.map, Node.tree]

/-! ### Selections -/

theorem separated_spelled (scopes : Scopes) {first : Header commands}
    {more : List (Header commands)} (h : input.Shows i (Canonical.separated first more)) :
    ∃ ts, input.Has i ts ∧ ts.length = (Canonical.separated first more).length ∧
      SpelledList scopes (first.tree :: more.map Header.tree) ts := by
  induction more generalizing first i with
  | nil =>
    obtain ⟨ts, hhas, hlength, hspelled⟩ := Formula.spelled scopes first.formula h
    exact ⟨ts, hhas, hlength, .one hspelled⟩
  | cons next more ih =>
    obtain ⟨hfirst, hrest⟩ := Input.shows_append.mp h
    obtain ⟨ts, hhas, hlength, hspelled⟩ := Formula.spelled scopes first.formula hfirst
    obtain ⟨t, ht, hkt, -⟩ := hrest.token
    obtain ⟨us, hhas', hlength', hspelled'⟩ := ih hrest.2
    have hlength : ts.length = first.items.length := hlength
    refine ⟨ts ++ t :: us, Input.has_append.mpr ⟨hhas, ?_⟩, ?_, .cons hspelled hkt hspelled'⟩
    · rw [hlength]
      exact ⟨ht, hhas'⟩
    · simp [Canonical.separated, hlength, hlength']

theorem bareAll_trees (hs : List (Header commands)) :
    bareAll (hs.map Header.tree) = hs.map Header.tree := by
  rw [bareAll, relabelAll_eq_map, List.map_map]
  exact List.map_congr_left fun h _ => Formula.bare_tree h.formula

/-- The values of a clause are read back. -/
theorem values_finds {first : Header commands} {more : List (Header commands)}
    (hshows : input.Shows (i + 1) (Canonical.separated first more))
    (hline : input.kind (i + 1 + (Canonical.separated first more).length) = .newline) :
    Finds input K (i + 1) (bounded (separated expression))
      (bareAll · = first.tree :: more.map Header.tree)
      (i + 1 + (Canonical.separated first more).length) := by
  refine Leads.of_keeps fun _ scopes _ => .bounded fun rounds hrounds => ?_
  obtain ⟨ts, hhas, hlength, hspelled⟩ := separated_spelled scopes hshows
  have hread : ∀ e ∈ first.tree :: more.map Header.tree,
      ReadsBehind input scopes i expression e := by
    intro e he ts j _ hspelled hhas hends
    obtain ⟨h, -, rfl⟩ : ∃ h ∈ first :: more, Header.tree h = e := List.mem_map.mp he
    exact expression_finds h.nested (Formula.unchecked h.formula _) hspelled hhas hends
  rw [← hlength] at hline ⊢
  have hfinds := separated_finds hread hspelled rounds (Nat.lt_succ_self i) hhas
    (.of_kind hline (by decide)) (by rw [hline]; decide) hrounds
  exact hfinds.imp fun es hes => hes.trans (bareAll_trees (first :: more))

/-- The clauses are read back, where what stands behind them is. -/
def ClausesReads (input : Input) (cs : Clauses commands types) : Prop :=
  ∀ ⦃i p k nesting rounds : Nat⦄ ⦃opened : Span⦄ ⦃R : Option (List Stmt) → Prop⦄, i ≤ p →
    input.skipWhile Kind.isSeparator i = p → input.Shows p cs.items →
    caseClosers.any (input.closesWith (p + cs.items.length)) = true →
    input.tokens.size < p + nesting → input.tokens.size < i + rounds →
    (∀ ⦃i rounds : Nat⦄, i ≤ p + cs.items.length →
      input.skipWhile Kind.isSeparator i = p + cs.items.length → input.tokens.size < i + rounds →
      Finds input (fun _ => Knows types) i (selectLoop (statementAt nesting) opened rounds false)
        (fun r => r.1 = [] ∧ R r.2) k) →
    Finds input (fun _ => Knows types) i (selectLoop (statementAt nesting) opened rounds false)
      (fun r => relabelCases .bare r.1 = cs.tree ∧ R r.2) k

theorem Clauses.nil_reads : ClausesReads input (.nil : Clauses commands types) := by
  intro i p k nesting rounds opened R hip hskip _ _ _ hrounds hafter
  exact (hafter hip hskip hrounds).imp fun r hr => ⟨by rw [hr.1]; rfl, hr.2⟩

theorem Clauses.cons_reads {first : Header commands} {more : List (Header commands)}
    {body : Block commands types} {rest : Clauses commands types} (hbody : BlockReads input body)
    (hrest : ClausesReads input rest) : ClausesReads input (.cons first more body rest) := by
  intro i p k nesting rounds opened R hip hskip hshows hcloses hnesting hrounds hafter
  obtain ⟨hvalues, htail⟩ := Input.shows_append.mp hshows.2
  obtain ⟨hblock, hclauses⟩ := Input.shows_append.mp htail.2
  have hlen : p + (Clauses.cons first more body rest).items.length =
      p + 1 + (Canonical.separated first more).length + 1 + body.items.length +
        rest.items.length := by
    simp only [Clauses.items, List.length_append, List.length_cons]
    omega
  rw [hlen] at hcloses hafter
  have hnext : caseClosers.any (input.closesWith (p + 1 + (Canonical.separated first more).length + 1 +
      body.items.length)) = true := by
    cases rest with
    | nil => exact hcloses
    | cons => exact Input.closes_word hclauses.keyword (by decide)
  have hcase := hshows.keyword
  have hp : p < input.tokens.size := Input.lt_size_of_kind (by rw [hcase]; decide)
  cases rounds with
  | zero => omega
  | succ rounds =>
    refine .skipWhile hskip (.cursor ?_)
    refine .acceptCloser_neg (by simp [Input.closesWith, hcase]) ?_
    refine .accept_pos (by decide) hcase ?_
    refine (values_finds hvalues htail.newline).bind fun es hes => ?_
    refine (hbody.finds (by decide) htail.newline hblock hnext (by omega)).bind fun stmts hstmts => ?_
    refine .spanFrom ?_
    refine (hrest (Nat.le_refl _) (Input.skipWhile_self (Input.not_separator_of_closes hnext)) hclauses
      hcloses (by omega) (by omega) hafter).bind fun r hr => Finds.pure ⟨?_, hr.2⟩
    simp only [relabelCases, Relabel.span_bare, hes, hstmts, hr.1, Clauses.tree]

/-- `End Select` closes the loop. -/
theorem selectLoop_closes {stmt : Parser (Option Stmt)} {opened : Span} {p rounds : Nat}
    {seen : Bool} (hip : i ≤ p) (hskip : input.skipWhile Kind.isSeparator i = p)
    (hend : input.kind p = .keyword .end_) (hselect : input.kind (p + 1) = .keyword .select)
    (hrounds : input.tokens.size < i + rounds) :
    Finds input K i (selectLoop stmt opened rounds seen) (· = ([], none)) (p + 2) := by
  have hp : p < input.tokens.size := Input.lt_size_of_kind (by rw [hend]; decide)
  cases rounds with
  | zero => omega
  | succ rounds =>
    refine .skipWhile hskip (.cursor (.acceptCloser_endOf hend hselect ?_))
    exact Finds.pure rfl

/-- The last clause of `Select` is read back, with the words that close it. -/
theorem default_finds {otherwise : Otherwise commands types} {opened : Span}
    {p nesting rounds : Nat} (hreads : OtherwiseReads input otherwise) (hip : i ≤ p)
    (hskip : input.skipWhile Kind.isSeparator i = p)
    (hshows : input.Shows p (otherwise.items .default))
    (hend : input.kind (p + (otherwise.items .default).length) = .keyword .end_)
    (hselect : input.kind (p + (otherwise.items .default).length + 1) = .keyword .select)
    (hnesting : input.tokens.size < p + nesting) (hrounds : input.tokens.size < i + rounds) :
    Finds input (fun _ => Knows types) i (selectLoop (statementAt nesting) opened rounds false)
      (fun r => r.1 = [] ∧ r.2.map bareStmts = otherwise.tree)
      (p + (otherwise.items .default).length + 2) := by
  cases otherwise with
  | none =>
    refine (selectLoop_closes hip hskip hend hselect hrounds).imp ?_
    rintro _ rfl
    exact ⟨rfl, rfl⟩
  | some body =>
    have hlen : p + (Otherwise.items .default (.some body)).length =
        p + 1 + 1 + body.items.length := by
      simp only [Otherwise.items, List.length_cons]
      omega
    rw [hlen] at hend hselect ⊢
    have hbody : BlockReads input body := hreads
    have hcloses : caseClosers.any (input.closesWith (p + 1 + 1 + body.items.length)) = true :=
      List.any_eq_true.mpr ⟨.endOf .select, by decide, by simp [Input.closesWith, hend, hselect]⟩
    have hdefault := hshows.keyword
    have hp : p < input.tokens.size := Input.lt_size_of_kind (by rw [hdefault]; decide)
    cases rounds with
    | zero => omega
    | succ rounds =>
      refine .skipWhile hskip (.cursor ?_)
      refine .acceptCloser_neg (by simp [Input.closesWith, hdefault]) ?_
      refine .accept_neg (by rw [hdefault]; decide) ?_
      refine .accept_pos (by decide) hdefault ?_
      refine (hbody.finds (by decide) hshows.2.newline hshows.2.2 hcloses (by omega)).bind ?_
      intro stmts hstmts
      refine (selectLoop_closes (Nat.le_refl _)
        (Input.skipWhile_self (Input.not_separator_of_closes hcloses)) hend hselect
        (by omega)).bind ?_
      rintro _ rfl
      exact Finds.pure ⟨rfl, congrArg some hstmts⟩

theorem Node.select_reads {subject : Header commands} {clauses : Clauses commands types}
    {otherwise : Otherwise commands types} (hclauses : ClausesReads input clauses)
    (hotherwise : OtherwiseReads input otherwise) :
    NodeReads input (.select subject clauses otherwise) := by
  refine .intro fun i nesting hshows _ hnesting => ?_
  have hword := hshows.keyword
  obtain ⟨hsubject, htail⟩ := Input.shows_append.mp hshows.2
  obtain ⟨hshowsClauses, htail'⟩ := Input.shows_append.mp htail.2
  obtain ⟨hshowsDefault, hclose⟩ := Input.shows_append.mp htail'
  have hnewline := htail.newline
  have hend := hclose.keyword
  have hselect := hclose.2.keyword
  have hlen : i + (Node.select subject clauses otherwise).items.length =
      i + 1 + subject.items.length + 1 + clauses.items.length +
        (otherwise.items .default).length + 2 := by
    simp only [Node.items, List.length_append, List.length_cons, List.length_nil]
    omega
  rw [hlen]
  have hcloses : caseClosers.any (input.closesWith (i + 1 + subject.items.length + 1 +
      clauses.items.length)) = true := by
    cases otherwise with
    | none =>
      exact List.any_eq_true.mpr ⟨.endOf .select, by decide, by
        simp only [Input.closesWith, Bool.and_eq_true, decide_eq_true_eq]
        exact ⟨hend, hselect⟩⟩
    | some => exact Input.closes_word hshowsDefault.keyword (by decide)
  have hskip : input.skipWhile Kind.isSeparator (i + 1 + subject.items.length) =
      i + 1 + subject.items.length + 1 := by
    refine Input.skipWhile_succ (Input.lt_size_of_kind (by rw [hnewline]; decide))
      (by rw [hnewline]; rfl) ?_
    cases clauses with
    | nil => exact Input.not_separator_of_closes hcloses
    | cons => rw [hshowsClauses.keyword]; rfl
  have hloop : ∀ opened, Finds input (fun _ => Knows types) (i + 1 + subject.items.length)
      (bounded fun rounds => selectLoop (statementAt nesting) opened rounds false)
      (fun r => relabelCases .bare r.1 = clauses.tree ∧ r.2.map bareStmts = otherwise.tree)
      (i + 1 + subject.items.length + 1 + clauses.items.length +
        (otherwise.items .default).length + 2) := by
    intro opened
    have hdeep : input.tokens.size < i + 1 + subject.items.length + 1 + nesting := by omega
    refine .bounded fun rounds hrounds => ?_
    refine hclauses (R := fun stmts => stmts.map bareStmts = otherwise.tree) (Nat.le_succ _) hskip
      hshowsClauses hcloses hdeep hrounds ?_
    intro q rounds hq hskip hrounds
    exact default_finds hotherwise hq hskip hshowsDefault hend hselect (by omega) hrounds
  refine statementWith_word hword fun _ => ?_
  show Finds input _ i (selectStmt _) _ _
  refine .cursor (advance_word hword ?_)
  refine (Header.finds subject hsubject (.of_kind hnewline (by decide))).bind fun e he => ?_
  refine .spanFrom ?_
  refine (hloop _).bind ?_
  rintro ⟨cs, stmts⟩ ⟨hcs, hstmts⟩
  refine Finds.stmtFrom fun span => ⟨_, rfl, ?_⟩
  cases stmts <;>
    simp only [Stmt.relabel, Relabel.span_bare, he, hcs, ← hstmts, Option.map, Node.tree]

/-! ### All statements -/

mutual

/-- A statement is read back. -/
theorem Node.reads (input : Input) : ∀ n : Node commands types, NodeReads input n
  | .assign name value => Node.assign_reads name value
  | .command name => Node.command_reads name
  | .if_ _ body branches otherwise =>
    Node.if_reads (Block.reads input body) (Branches.reads input branches)
      (Otherwise.reads input otherwise)
  | .while_ _ body => Node.while_reads (Block.reads input body)
  | .repeatUntil body _ => Node.repeatUntil_reads (Block.reads input body)
  | .repeatForever body => Node.repeatForever_reads (Block.reads input body)
  | .for_ _ _ _ _ body => Node.for_reads (Block.reads input body)
  | .forEach _ _ known body => Node.forEach_reads known (Block.reads input body)
  | .select _ clauses otherwise =>
    Node.select_reads (Clauses.reads input clauses) (Otherwise.reads input otherwise)

/-- A block is read back. -/
theorem Block.reads (input : Input) : ∀ b : Block commands types, BlockReads input b
  | .nil => Block.nil_reads
  | .cons first rest => Block.cons_reads (Node.reads input first) (Block.reads input rest)

theorem Branches.reads (input : Input) : ∀ bs : Branches commands types, BranchesReads input bs
  | .nil => Branches.nil_reads
  | .cons _ body rest => Branches.cons_reads (Block.reads input body) (Branches.reads input rest)

theorem Clauses.reads (input : Input) : ∀ cs : Clauses commands types, ClausesReads input cs
  | .nil => Clauses.nil_reads
  | .cons _ _ body rest => Clauses.cons_reads (Block.reads input body) (Clauses.reads input rest)

theorem Otherwise.reads (input : Input) :
    ∀ otherwise : Otherwise commands types, OtherwiseReads input otherwise
  | .none => trivial
  | .some body => Block.reads input body

end

end Parser

end FrameBasic
