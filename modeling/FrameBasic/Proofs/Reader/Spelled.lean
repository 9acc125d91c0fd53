import FrameBasic.Proofs.Reader.Leads

/-!
# Reading what is spelled

Every expression that is nested by precedence is read from the tokens that spell it, if what follows
does not belong to it.  So no other such expression is spelled by the same tokens.

An operand is not finished where its tokens end, for a field may follow; nor is an expression, for an
operator may.  The induction is therefore about the loop that the reader is in at that place.

## Main definitions

* `Parser.Follows` — what stands at a place does not belong to the expression before it.
* `Parser.BeforeFields`, `Parser.BeforeOperators` — an expression was read, and the loop that looks
  for fields or for operators goes on.
* `Parser.Readable` — an expression can be read from the tokens that spell it.
* `Expr.Unchecked` — no argument of a command is compared with a parameter.
* `Parser.PrecedenceReading` — an expression is the reading of some tokens.

## Main results

* `Parser.readable`, `Parser.expression_finds` — an expression is read from the tokens that spell it.
* `Parser.bare_eq_of_spelled` — tokens spell at most one expression that is nested by precedence.
* `Parser.expression_precedenceReading` — what is read without an error is that expression.
-/

namespace FrameBasic

/-! ### Conditions by levels -/

namespace Expr

/-- What the conditions on an operator say of its right operand. -/
theorem Nested.right_atLeast {i : Info} {left right : Expr} {op : BinaryOp}
    (h : (Expr.binary i left op right).Nested) : right.AtLeast op.operandLevel := by
  intro inner hinner
  have hright := h.2 inner hinner
  rw [BinaryOp.rank_precedence, BinaryOp.rank_operandLevel]
  split
  · next hop =>
    rw [if_pos hop] at hright
    omega
  · next hop =>
    rw [if_neg hop] at hright
    omega

/-- The left operand is of every level that the whole is of. -/
theorem Nested.left_atLeast {i : Info} {left right : Expr} {op : BinaryOp} {level : Precedence}
    (h : (Expr.binary i left op right).Nested)
    (hlevel : (Expr.binary i left op right).AtLeast level) : left.AtLeast level := by
  intro inner hinner
  have hop : level.rank ≤ op.precedence.rank := hlevel op rfl
  have hleft := h.1 inner hinner
  rw [BinaryOp.rank_precedence] at hop ⊢
  split at hleft <;> omega

theorem Nested.operand_atLeast {i : Info} {op : UnaryOp} {operand : Expr}
    (h : (Expr.unary i op operand).Nested) :
    operand.AtLeast (if op = .not then .comparison else .power) := by
  intro inner hinner
  cases op with
  | not =>
    have hinner := h inner hinner
    rw [BinaryOp.rank_precedence]
    exact Nat.succ_le_succ hinner
  | negate | plus =>
    obtain rfl : inner = .power := h inner hinner
    exact Nat.le_refl _

/-- The arguments of a command are compared with its parameters only if there are some and the table
has the command. -/
def ComparesNone (commands : CommandTable) : Expr → Prop
  | .command _ name args => args = [] ∨ commands.get? name = none
  | _ => True

/-- No argument of a command is compared with a parameter. -/
def Unchecked (commands : CommandTable) (e : Expr) : Prop :=
  ∀ sub ∈ e.subterms, sub.ComparesNone commands

theorem unchecked_iff {commands : CommandTable} {e : Expr} :
    e.Unchecked commands ↔
      e.ComparesNone commands ∧ ∀ part ∈ e.parts, part.Unchecked commands := by
  unfold Unchecked
  rw [subterms_eq, List.forall_mem_cons]
  simp only [List.forall_mem_flatMap]

/-- A table without commands compares nothing. -/
theorem unchecked_empty (e : Expr) : e.Unchecked .empty := by
  intro sub _
  cases sub <;> first | trivial | exact .inr rfl

end Expr

/-- What is spelled begins with a token that can begin an expression. -/
theorem Spelled.starts {scopes : Scopes} {e : Expr} : ∀ {ts : List Token}, Spelled scopes e ts →
    ∃ t rest, ts = t :: rest ∧ t.kind.startsExpression = true := by
  induction e using Expr.induction_on_parts with
  | h e ih =>
    intro ts h
    -- an operand on the left or an object has its own first token
    have hpart : ∀ {part : Expr} {us vs : List Token}, part ∈ e.parts → Spelled scopes part us →
        ∃ t rest, us ++ vs = t :: rest ∧ t.kind.startsExpression = true := by
      intro part us vs hmem hus
      obtain ⟨t, rest, rfl, ht⟩ := ih part hmem hus
      exact ⟨t, rest ++ vs, rfl, ht⟩
    cases h with
    | binary h _ _ | field h _ _ => exact hpart List.mem_cons_self h
    | @unary _ op _ _ _ h _ => exact ⟨_, _, rfl, by rw [h]; cases op <;> decide⟩
    | @boolean _ _ b h => exact ⟨_, _, rfl, by rw [h]; cases b <;> decide⟩
    | whole h _ | hex h _ | float h _ | string h | null h | var h | tagged h _ _ | grouped h _ _
    | call h _ _ | element h _ _ | bareCommand h | command h _ | new h _ _ | first h _ _
    | last h _ _ | after h _ | before h _ => exact ⟨_, _, rfl, by rw [h]; decide⟩

theorem SpelledList.starts {scopes : Scopes} {es : List Expr} {ts : List Token}
    (h : SpelledList scopes es ts) :
    ∃ t rest, ts = t :: rest ∧ t.kind.startsExpression = true := by
  cases h with
  | one h => exact h.starts
  | cons h _ _ =>
    obtain ⟨t, rest, rfl, ht⟩ := h.starts
    exact ⟨t, _, rfl, ht⟩

namespace Parser

variable {β : Type} {input : Input} {scopes : Scopes} {K : Nat → Scopes → Prop} {i j start : Nat}
variable {p : Parser Expr} {e : Expr}

/-! ### What follows -/

/-- What stands at a place does not belong to the expression before it. -/
structure Follows (input : Input) (e : Expr) (j : Nat) : Prop where
  /-- No arguments follow. -/
  paren : input.kind j ≠ .leftParen
  /-- No name of a type follows. -/
  label : input.kind j ≠ .label
  /-- A field that follows belongs to all of it. -/
  closed : input.kind j = .backslash → e.isClosed = true
  /-- An operator that follows cannot be taken in. -/
  stops : ∀ op, (input.kind j).binaryOp? = some op → op.precedence.rank < e.reach

/-- No expression goes on at the place. -/
def Input.Ends (input : Input) (j : Nat) : Prop :=
  input.kind j ∉ [.leftParen, .label, .backslash] ∧ (input.kind j).binaryOp? = none

/-- An operator stands between two operands. -/
theorem Follows.of_operator {op : BinaryOp} (hop : (input.kind j).binaryOp? = some op)
    (hreach : op.precedence.rank < e.reach) :
    Follows input e j ∧ input.kind j ≠ .backslash := by
  have hne : ∀ kind : Kind, kind.binaryOp? = none → input.kind j ≠ kind := by
    intro kind hkind h
    rw [h, hkind] at hop
    cases hop
  refine ⟨⟨hne _ rfl, hne _ rfl, fun h => absurd h (hne _ rfl), fun op' h => ?_⟩, hne _ rfl⟩
  rw [hop] at h
  cases h
  exact hreach

theorem Follows.of_ends (h : input.Ends j) : Follows input e j ∧ input.kind j ≠ .backslash := by
  obtain ⟨hkind, hop⟩ := h
  simp only [List.mem_cons, List.not_mem_nil, or_false, not_or] at hkind
  refine ⟨⟨hkind.1, hkind.2.1, fun h => absurd h hkind.2.2, fun op h => ?_⟩, hkind.2.2⟩
  rw [hop] at h
  cases h

/-- What follows an operand of a level follows the whole. -/
theorem Follows.operand {operand : Expr} {level : Precedence} (h : Follows input e j)
    (hopen : e.isClosed = false) (hreach : e.reach = min level.rank operand.reach) :
    Follows input operand j ∧ input.kind j ≠ .backslash ∧
      ∀ op, (input.kind j).binaryOp? = some op → op.precedence.rank < level.rank := by
  have hends : input.kind j ≠ .backslash := fun hk => by
    rw [h.closed hk] at hopen
    cases hopen
  have hstops : ∀ op, (input.kind j).binaryOp? = some op →
      op.precedence.rank < min level.rank operand.reach := hreach ▸ h.stops
  exact ⟨⟨h.paren, h.label, fun hk => absurd hk hends, fun op hop => (Nat.lt_min.mp (hstops op hop)).2⟩,
    hends, fun op hop => (Nat.lt_min.mp (hstops op hop)).1⟩

/-! ### In the loops -/

/-- The expression was read up to `j`, and the reader looks for fields of it. -/
def BeforeFields (input : Input) (K : Nat → Scopes → Prop) (start i : Nat) (p : Parser Expr) (e : Expr)
    (j : Nat) : Prop :=
  Leads input K i p j (fun a : Nat × Expr => fieldChain start a.1 a.2) fun a =>
    input.tokens.size < j + a.1 ∧ a.2.bare = e.bare

/-- The expression was read up to `j`, and the reader looks for operators after it. -/
def BeforeOperators (input : Input) (K : Nat → Scopes → Prop) (inner : Precedence → Parser Expr)
    (level : Precedence) (start i : Nat) (p : Parser Expr) (e : Expr) (j : Nat) : Prop :=
  Leads input K i p j (fun a : Nat × Expr => climb inner level start a.1 a.2) fun a =>
    input.tokens.size < j + a.1 ∧ a.2.bare = e.bare

section Loops

variable {inner : Precedence → Parser Expr} {level : Precedence} {rounds : Nat} {e' : Expr}

theorem BeforeFields.here (hrounds : input.tokens.size < i + rounds) (h : e'.bare = e.bare) :
    BeforeFields input K start i (fieldChain start rounds e') e i :=
  Leads.here (q := fun a : Nat × Expr => fieldChain start a.1 a.2) (a := (rounds, e')) ⟨hrounds, h⟩

theorem BeforeOperators.here (hrounds : input.tokens.size < i + rounds) (h : e'.bare = e.bare) :
    BeforeOperators input K inner level start i (climb inner level start rounds e') e i :=
  Leads.here (q := fun a : Nat × Expr => climb inner level start a.1 a.2) (a := (rounds, e'))
    ⟨hrounds, h⟩

theorem withFields_before (h : e'.bare = e.bare) :
    BeforeFields input K start i (withFields start e') e i :=
  .bounded fun _ hrounds => BeforeFields.here hrounds h

/-- A field and its name are passed. -/
theorem BeforeFields.field {info : Info} {t u : Token} (h : BeforeFields input K start i p e j)
    (ht : input.tokens[j]? = some t) (hkt : t.kind = .backslash)
    (hu : input.tokens[j + 1]? = some u) (hku : u.kind = .identifier ∨ u.kind = .command) :
    BeforeFields input K start i p (.field info e u.text) (j + 2) := by
  refine h.trans fun a ha => ?_
  obtain ⟨rounds, e'⟩ := a
  obtain ⟨hrounds, hbare⟩ := ha
  cases rounds with
  | zero =>
    have := Input.lt_size_of_token ht
    omega
  | succ rounds =>
    have hname : input.kind (j + 1) = .identifier ∨ input.kind (j + 1) = .command :=
      Input.kind_of_token hu ▸ hku
    have htext : u.kind ≠ .eof := by rcases hku with h | h <;> rw [h] <;> decide
    refine .accept_pos (by decide) (Input.kind_of_token ht ▸ hkt) (.check (.check ?_))
    rw [if_pos (by simpa using hname)]
    refine .takeText hu htext (.node (fun _ _ => rfl) fun info => ?_)
    refine BeforeFields.here (by omega) ?_
    simp only [Expr.relabel, Relabel.info_bare, hbare]

/-- Where no field follows, the operand is finished. -/
theorem BeforeFields.finds (h : BeforeFields input K start i p e j)
    (hends : input.kind j ≠ .backslash) (hj : j ≤ input.tokens.size) :
    Finds input K i p (·.bare = e.bare) j := by
  refine h.trans fun a ha => ?_
  obtain ⟨rounds, e'⟩ := a
  obtain ⟨hrounds, hbare⟩ := ha
  cases rounds with
  | zero => exact absurd hj (Nat.not_le_of_lt hrounds)
  | succ rounds =>
    exact .accept_neg hends (Finds.pure hbare)

/-- An operator and its right operand are passed. -/
theorem BeforeOperators.operator {info : Info} {op : BinaryOp} {right : Expr} {k : Nat}
    (h : BeforeOperators input K inner level start i p e j)
    (hop : (input.kind j).binaryOp? = some op) (hlevel : level.rank ≤ op.precedence.rank)
    (hright : Finds input K (j + 1) (inner op.operandLevel) (·.bare = right.bare) k)
    (hk : j < k) :
    BeforeOperators input K inner level start i p (.binary info e op right) k := by
  have hne : input.kind j ≠ .eof := by
    intro h
    rw [h] at hop
    cases hop
  refine h.trans fun a ha => ?_
  obtain ⟨rounds, e'⟩ := a
  obtain ⟨hrounds, hbare⟩ := ha
  cases rounds with
  | zero =>
    have := Input.lt_size_of_kind hne
    omega
  | succ rounds =>
    refine .kind ?_
    rw [hop]
    dsimp only
    rw [if_neg (Nat.not_lt_of_le hlevel)]
    refine .advance hne (hright.bind fun right' hright' => .node (fun _ _ => rfl) fun info' => ?_)
    refine BeforeOperators.here (by omega) ?_
    simp only [Expr.relabel, Relabel.info_bare, hbare, hright']

/-- Where no operator of the level follows, the expression is finished. -/
theorem BeforeOperators.finds (h : BeforeOperators input K inner level start i p e j)
    (hbelow : ∀ op, (input.kind j).binaryOp? = some op → op.precedence.rank < level.rank)
    (hj : j ≤ input.tokens.size) : Finds input K i p (·.bare = e.bare) j := by
  refine h.trans fun a ha => ?_
  obtain ⟨rounds, e'⟩ := a
  obtain ⟨hrounds, hbare⟩ := ha
  cases rounds with
  | zero => exact absurd hj (Nat.not_le_of_lt hrounds)
  | succ rounds =>
    refine .kind ?_
    cases hop : (input.kind j).binaryOp? with
    | none => exact Finds.pure hbare
    | some op =>
      dsimp only
      rw [if_pos (hbelow op hop)]
      exact Finds.pure hbare

/-- From the fields to the operators. -/
theorem BeforeFields.beforeOperators
    (h : BeforeFields input K start i p e j) (hends : input.kind j ≠ .backslash)
    (hj : j ≤ input.tokens.size) :
    BeforeOperators input K inner level start i
      (p >>= fun left => bounded fun rounds => climb inner level start rounds left) e j := by
  refine (h.finds hends hj).bind fun e' he' => .bounded fun rounds hrounds => ?_
  exact BeforeOperators.here hrounds he'

end Loops

/-! ### Arguments -/

/-- The reader reads the expression from its tokens, wherever they stand behind `i`. -/
def ReadsBehind (input : Input) (scopes : Scopes) (i : Nat) (expr : Parser Expr) (e : Expr) : Prop :=
  ∀ ⦃ts : List Token⦄ ⦃j : Nat⦄, i < j → Spelled scopes e ts → input.Has j ts →
    input.Ends (j + ts.length) →
    Finds input (Keeps scopes) j expr (·.bare = e.bare) (j + ts.length)

section Arguments

variable {expr : Parser Expr} {es : List Expr} {ts : List Token}

theorem separated_finds (hread : ∀ e ∈ es, ReadsBehind input scopes start expr e)
    (hspelled : SpelledList scopes es ts) (rounds : Nat) : ∀ {i : Nat}, start < i →
    input.Has i ts → input.Ends (i + ts.length) → input.kind (i + ts.length) ≠ .comma →
    input.tokens.size < i + rounds →
    Finds input (Keeps scopes) i (separated expr rounds) (bareAll · = bareAll es)
      (i + ts.length) := by
  induction rounds generalizing es ts with
  | zero =>
    intro i _ hhas _ _ hrounds
    obtain ⟨t, rest, rfl, -⟩ := hspelled.starts
    have := Input.lt_size_of_token hhas.1
    omega
  | succ rounds ih =>
    intro i hi hhas hends hcomma hrounds
    cases hspelled with
    | one h =>
      refine (hread _ (List.mem_singleton_self _) hi h hhas hends).bind fun e' he' => ?_
      refine .accept_neg hcomma (Finds.pure ?_)
      simp only [relabelAll, he']
    | @cons e es t ts us h ht hrest =>
      obtain ⟨hhas, hhasRest⟩ := Input.has_append.mp hhas
      obtain ⟨htoken, hhasRest⟩ := hhasRest
      have hkind : input.kind (i + ts.length) = .comma := Input.kind_of_token htoken ▸ ht
      have hlen : i + (ts ++ t :: us).length = i + ts.length + 1 + us.length := by
        rw [List.length_append, List.length_cons]
        omega
      rw [hlen] at hends hcomma ⊢
      have hfirst : input.Ends (i + ts.length) := by
        unfold Input.Ends
        rw [hkind]
        decide
      refine (hread e List.mem_cons_self hi h hhas hfirst).bind fun e' he' => ?_
      refine .accept_pos (by decide) hkind ?_
      refine (ih (fun e he => hread e (List.mem_cons_of_mem _ he)) hrest (by omega) hhasRest hends
        hcomma (by omega)).bind fun es' hes' => Finds.pure ?_
      simp only [relabelAll, he', hes']

theorem parenArgs_finds (hread : ∀ e ∈ es, ReadsBehind input scopes i expr e)
    (hspelled : SpelledArgs scopes es ts) (hhas : input.Has i ts) :
    Finds input (Keeps scopes) i (parenArgs expr) (bareAll · = bareAll es) (i + ts.length) := by
  cases hspelled with
  | none ht hu =>
    obtain ⟨htoken, huToken, -⟩ := hhas
    refine .expect htoken ht (by decide) ?_
    exact .accept_pos (by decide) (Input.kind_of_token huToken ▸ hu) (Finds.pure rfl)
  | @some _ t u ts ht hlist hu =>
    obtain ⟨htoken, hhas⟩ := hhas
    obtain ⟨hhas, huToken, -⟩ := Input.has_append.mp hhas
    have hkind : input.kind (i + 1 + ts.length) = .rightParen := Input.kind_of_token huToken ▸ hu
    have hends : input.Ends (i + 1 + ts.length) := by
      unfold Input.Ends
      rw [hkind]
      decide
    have hlen : i + (t :: (ts ++ [u])).length = i + 1 + ts.length + 1 := by
      simp only [List.length_cons, List.length_append, List.length_nil]
      omega
    have hfirst : input.kind (i + 1) ≠ .rightParen := by
      obtain ⟨v, rest, rfl, hv⟩ := hlist.starts
      intro hclose
      rw [← Input.kind_of_token hhas.1, hclose] at hv
      cases hv
    rw [hlen]
    refine .expect htoken ht (by decide) (.accept_neg hfirst ?_)
    refine Finds.bind (.bounded fun rounds hrounds =>
      separated_finds hread hlist rounds (Nat.lt_succ_self i) hhas hends ?_ hrounds) ?_
    · rw [hkind]
      decide
    · exact fun es' hes' => .expect huToken hu (by decide) (Finds.pure hes')

/-! ### Names and commands -/

/-- Arguments begin with a parenthesis. -/
theorem Input.Has.leftParen (hhas : input.Has i ts) (hspelled : SpelledArgs scopes es ts) :
    input.kind i = .leftParen := by
  cases hspelled with
  | none h _ | some h _ _ => exact Input.kind_of_token hhas.1 ▸ h

theorem typeTag_finds_none (hlabel : input.kind i ≠ .label) :
    Finds input K i typeTag (· = none) i := by
  refine .read (.cursor (.cursor ?_))
  split
  · next token n htoken =>
    have hkind : token.kind ≠ .label := by
      rw [← Input.kind_of_token htoken]
      exact hlabel
    rw [if_neg fun h => hkind h.1]
    exact Finds.pure rfl
  · exact Finds.pure rfl

theorem typeTag_finds_some {t u : Token} (ht : input.tokens[i]? = some t)
    (hu : input.tokens[i + 1]? = some u) (hku : u.kind = .label)
    (hnext : u.span.start = t.span.stop) :
    Finds input K (i + 1) typeTag (· = some u.text) (i + 2) := by
  have hk : input.kind (i + 1) ≠ .eof := by
    rw [Input.kind_of_token hu, hku]
    decide
  refine .read (.cursor (.cursor ?_))
  rw [hu]
  dsimp only
  rw [ht, if_pos ⟨hku, by simpa using hnext⟩]
  exact .advance hk (Finds.pure rfl)

/-- A name without anything behind it. -/
theorem nameExpr_before_var {info : Info} {t : Token} (ht : input.tokens[i]? = some t)
    (hkt : t.kind = .identifier) (hparen : input.kind (i + 1) ≠ .leftParen)
    (hlabel : input.kind (i + 1) ≠ .label) :
    BeforeFields input K i i (nameExpr expr) (.var info t.text none) (i + 1) := by
  refine .cursor (.expect ht hkt (by decide) ((typeTag_finds_none hlabel).bind fun tag htag => ?_))
  subst htag
  exact .check_neg hparen (.node (fun _ _ => rfl) fun _ => withFields_before rfl)

/-- A name with the name of its type. -/
theorem nameExpr_before_tagged {info : Info} {t u : Token} (ht : input.tokens[i]? = some t)
    (hkt : t.kind = .identifier) (hu : input.tokens[i + 1]? = some u) (hku : u.kind = .label)
    (hnext : u.span.start = t.span.stop) :
    BeforeFields input K i i (nameExpr expr) (.var info t.text (some u.text)) (i + 2) := by
  refine .cursor (.expect ht hkt (by decide) ?_)
  refine (typeTag_finds_some ht hu hku hnext).bind fun tag htag => ?_
  subst htag
  exact .node (fun _ _ => rfl) fun _ => withFields_before rfl

/-- A name with arguments, which is an element if the name is an array. -/
theorem nameExpr_before_args (info : Info) {t : Token} (ht : input.tokens[i]? = some t)
    (hkt : t.kind = .identifier) (hread : ∀ e ∈ es, ReadsBehind input scopes i expr e)
    (hspelled : SpelledArgs scopes es ts) (hhas : input.Has (i + 1) ts) :
    BeforeFields input (Keeps scopes) i i (nameExpr expr)
      (if scopes.isArray t.text then .element info t.text es else .call info t.text es)
      (i + 1 + ts.length) := by
  have hparen := hhas.leftParen hspelled
  have hlabel : input.kind (i + 1) ≠ .label := by
    rw [hparen]
    decide
  refine .cursor (.expect ht hkt (by decide) ((typeTag_finds_none hlabel).bind fun tag htag => ?_))
  subst htag
  refine .check_pos hparen ?_
  refine (parenArgs_finds (fun e he => ?_) hspelled hhas).bind fun es' hes' => ?_
  · exact fun _ _ hj => hread e he (by omega)
  · refine .get fun s _ hs => ?_
    rw [hs]
    split <;>
    · refine .node (fun _ _ => rfl) fun _ => withFields_before ?_
      simp only [Expr.relabel, Relabel.info_bare, hes']

theorem commandNode_finds {info : Info} {name : String} {es' : List Expr}
    (hquiet : (Expr.command info name es).ComparesNone input.commands)
    (hes : bareAll es' = bareAll es) :
    Finds input K i (commandNode start name es') (·.bare = (Expr.command info name es).bare) i := by
  have hnone : (input.commands.get? name).elim [] (mismatches · es') = [] := by
    rcases hquiet with rfl | hnone
    · obtain rfl : es' = [] := by
        cases es' with
        | nil => rfl
        | cons e rest => cases hes
      cases input.commands.get? name with
      | none => rfl
      | some d =>
        show mismatchesFrom 1 d.params [] = []
        cases d.params <;> rfl
    · rw [hnone]
      rfl
  unfold commandNode checkArguments
  rw [bind_assoc]
  refine .read ?_
  rw [hnone]
  show Finds input K i (node start (.command · name es')) _ i
  refine Finds.node (fun _ _ => rfl) fun _ => ?_
  simp only [Expr.relabel, Relabel.info_bare, hes]

/-- A command without parentheses. -/
theorem commandExpr_before_bare {info : Info} {t : Token} (ht : input.tokens[i]? = some t)
    (hkt : t.kind = .command) (hparen : input.kind (i + 1) ≠ .leftParen) :
    BeforeFields input K i i (commandExpr expr) (.command info t.text []) (i + 1) := by
  refine .cursor (.takeText ht (hkt ▸ by decide) (.check_neg hparen ?_))
  refine (commandNode_finds (.inl rfl) rfl).bind fun e' he' => withFields_before he'

/-- A command with its arguments. -/
theorem commandExpr_before_args {info : Info} {t : Token} (ht : input.tokens[i]? = some t)
    (hkt : t.kind = .command) (hread : ∀ e ∈ es, ReadsBehind input scopes i expr e)
    (hquiet : (Expr.command info t.text es).ComparesNone input.commands)
    (hspelled : SpelledArgs scopes es ts) (hhas : input.Has (i + 1) ts) :
    BeforeFields input (Keeps scopes) i i (commandExpr expr) (.command info t.text es)
      (i + 1 + ts.length) := by
  have hparen := hhas.leftParen hspelled
  refine .cursor (.takeText ht (hkt ▸ by decide) (.check_pos hparen ?_))
  refine (parenArgs_finds (fun e he => ?_) hspelled hhas).bind fun es' hes' => ?_
  · exact fun _ _ hj => hread e he (by omega)
  · exact (commandNode_finds hquiet hes').bind fun e' he' => withFields_before he'

end Arguments

/-! ### Operands and operators -/

/-- From the tokens that spell it, the expression is read as an operand up to its fields, and as an
expression of any level up to the operators after it. -/
def Readable (input : Input) (scopes : Scopes) (e : Expr) : Prop :=
  ∀ ⦃ts : List Token⦄ ⦃i nesting : Nat⦄, Spelled scopes e ts → input.Has i ts →
    input.tokens.size < i + 1 + nesting → Follows input e (i + ts.length) →
    (e.operator? = none →
      BeforeFields input (Keeps scopes) i i (primary (expressionAt nesting)) e (i + ts.length)) ∧
    ∀ level, e.AtLeast level → input.kind (i + ts.length) ≠ .backslash →
      BeforeOperators input (Keeps scopes) (expressionAt nesting) level i i
        (primary (expressionAt nesting) >>= fun left =>
          bounded fun rounds => climb (expressionAt nesting) level i rounds left)
        e (i + ts.length)

/-- Where a spelled expression ends. -/
theorem Spelled.add_length_le {ts : List Token} (h : Spelled scopes e ts) (hhas : input.Has i ts) :
    i < input.tokens.size ∧ i + ts.length ≤ input.tokens.size := by
  obtain ⟨t, rest, rfl, -⟩ := h.starts
  have hi := Input.lt_size_of_token hhas.1
  exact ⟨hi, hhas.add_length_le (Nat.le_of_lt hi)⟩

theorem Readable.finds {ts : List Token} {nesting : Nat} {level : Precedence}
    (h : Readable input scopes e) (hspelled : Spelled scopes e ts) (hhas : input.Has i ts)
    (hnesting : input.tokens.size < i + nesting) (hlevel : e.AtLeast level)
    (hfollows : Follows input e (i + ts.length))
    (hends : input.kind (i + ts.length) ≠ .backslash)
    (hbelow : ∀ op, (input.kind (i + ts.length)).binaryOp? = some op →
      op.precedence.rank < level.rank) :
    Finds input (Keeps scopes) i (expressionAt nesting level) (·.bare = e.bare)
      (i + ts.length) := by
  obtain ⟨hi, hle⟩ := Spelled.add_length_le hspelled hhas
  cases nesting with
  | zero => omega
  | succ nesting =>
    have hread := @h ts i nesting hspelled hhas (by omega) hfollows
    exact .cursor ((hread.2 level hlevel hends).finds hbelow hle)

theorem Readable.behind {nesting : Nat} (h : Readable input scopes e)
    (hnesting : input.tokens.size < i + 1 + nesting) :
    ReadsBehind input scopes i (expressionAt nesting .or) e := by
  intro ts j hj hspelled hhas hends
  obtain ⟨hfollows, hback⟩ := Follows.of_ends (e := e) hends
  refine h.finds hspelled hhas (by omega) (Expr.atLeast_or e) hfollows hback fun op hop => ?_
  rw [hends.2] at hop
  cases hop

/-- The operand of an operator or a word before it. -/
theorem Readable.operand_finds {operand : Expr} {ts : List Token} {nesting : Nat}
    {level : Precedence} (h : Readable input scopes operand) (hspelled : Spelled scopes operand ts)
    (hhas : input.Has i ts) (hnesting : input.tokens.size < i + nesting)
    (hlevel : operand.AtLeast level) (hfollows : Follows input e (i + ts.length))
    (hopen : e.isClosed = false) (hreach : e.reach = min level.rank operand.reach) :
    Finds input (Keeps scopes) i (expressionAt nesting level) (·.bare = operand.bare)
      (i + ts.length) := by
  obtain ⟨hoperand, hends, hbelow⟩ := hfollows.operand hopen hreach
  exact h.finds hspelled hhas hnesting hlevel hoperand hends hbelow

theorem typeName_finds {t : Token} (ht : input.tokens[i]? = some t) (hkt : t.kind = .identifier)
    (hknown : scopes.isType t.text = true) :
    Finds input (Keeps scopes) i typeName (· = some t.text) (i + 1) := by
  refine .expect ht hkt (by decide) (.get fun s _ hs => ?_)
  rw [hs]
  rw [if_pos hknown]
  exact Finds.pure rfl

/-- A reserved word that begins an expression. -/
theorem primary_before_word {inner : Precedence → Parser Expr} {t : Token} {word : Keyword}
    (ht : input.tokens[i]? = some t) (hkt : t.kind = .keyword word)
    (h : Finds input K i (wordExpr inner i word) (fun o => ∃ e', o = some e' ∧ e'.bare = e.bare) j) :
    BeforeFields input K i i (primary inner) e j := by
  refine .cursor (.token ht hkt (h.bind fun o ho => ?_))
  obtain ⟨e', rfl, he'⟩ := ho
  exact withFields_before he'

/-- A node is the result of a word. -/
theorem someNode_finds {make : Info → Expr} (hmake : ∀ i j, (make i).withInfo j = make j)
    (h : ∀ info, (make info).bare = e.bare) :
    Finds input K i (some <$> node start make) (fun o => ∃ e', o = some e' ∧ e'.bare = e.bare) i :=
  .map (.node hmake fun info => ⟨_, rfl, h info⟩)

/-- A number whose text has a value. -/
theorem number_finds {ε α : Type} {value : Except ε α} {a : α} {make : α → Info → Expr}
    {fault : ε → Fault} (hvalue : value = .ok a) (hmake : ∀ i j, (make a i).withInfo j = make a j)
    (h : ∀ info, (make a info).bare = e.bare) :
    Finds input K i (number start value make fault) (·.bare = e.bare) i := by
  subst hvalue
  exact .node hmake h

section Primary

variable {inner : Precedence → Parser Expr} {t : Token}

theorem primary_before_whole {info : Info} {n : Int} (ht : input.tokens[i]? = some t)
    (hkt : t.kind = .integer) (hn : Decimal.readInteger t.text.toList = .ok n) :
    BeforeFields input K i i (primary inner) (.integer info n) (i + 1) := by
  refine .cursor (.token ht hkt (.advance (Input.kind_of_token ht ▸ hkt ▸ by decide) ?_))
  refine (number_finds hn (fun _ _ => rfl) fun _ => ?_).bind fun _ => withFields_before
  rfl

theorem primary_before_float {info : Info} {x : Binary64} (ht : input.tokens[i]? = some t)
    (hkt : t.kind = .float) (hx : Decimal.readReal t.text.toList = .ok x) :
    BeforeFields input K i i (primary inner) (.float info x) (i + 1) := by
  refine .cursor (.token ht hkt (.advance (Input.kind_of_token ht ▸ hkt ▸ by decide) ?_))
  refine (number_finds hx (fun _ _ => rfl) fun _ => ?_).bind fun _ => withFields_before
  rfl

theorem primary_before_hex {info : Info} {n : Int} (ht : input.tokens[i]? = some t)
    (hkt : t.kind = .hex) (hn : readHex t.text = some n) :
    BeforeFields input K i i (primary inner) (.integer info n) (i + 1) := by
  have hvalue : (readHex t.text).elim (.error ()) Except.ok = .ok n := by rw [hn]; rfl
  refine .cursor (.token ht hkt (.advance (Input.kind_of_token ht ▸ hkt ▸ by decide) ?_))
  refine (number_finds hvalue (fun _ _ => rfl) fun _ => ?_).bind fun _ => withFields_before
  rfl

theorem primary_before_string {info : Info} (ht : input.tokens[i]? = some t)
    (hkt : t.kind = .string) :
    BeforeFields input K i i (primary inner) (.string info t.text) (i + 1) := by
  refine .cursor (.token ht hkt (.advance (Input.kind_of_token ht ▸ hkt ▸ by decide) ?_))
  exact .node (fun _ _ => rfl) fun _ => withFields_before rfl

theorem primary_before_name (ht : input.tokens[i]? = some t) (hkt : t.kind = .identifier)
    (h : BeforeFields input K i i (nameExpr (inner .or)) e j) :
    BeforeFields input K i i (primary inner) e j :=
  .cursor (.token ht hkt h)

theorem primary_before_command (ht : input.tokens[i]? = some t) (hkt : t.kind = .command)
    (h : BeforeFields input K i i (commandExpr (inner .or)) e j) :
    BeforeFields input K i i (primary inner) e j :=
  .cursor (.token ht hkt h)

theorem primary_before_grouped {info : Info} {u : Token} (ht : input.tokens[i]? = some t)
    (hkt : t.kind = .leftParen) (h : Finds input K (i + 1) (inner .or) (·.bare = e.bare) j)
    (hu : input.tokens[j]? = some u) (hku : u.kind = .rightParen) :
    BeforeFields input K i i (primary inner) (.grouped info e) (j + 1) := by
  refine .cursor (.token ht hkt (.advance (Input.kind_of_token ht ▸ hkt ▸ by decide) ?_))
  refine h.bind fun e' he' => .expect hu hku (by decide) (.node (fun _ _ => rfl) fun _ => withFields_before ?_)
  simp only [Expr.relabel, Relabel.info_bare, he']

/-- A sign takes in powers, and `Not` comparisons. -/
theorem primary_before_unary {info : Info} {op : UnaryOp} (ht : input.tokens[i]? = some t)
    (hkt : t.kind = op.kind)
    (h : Finds input K (i + 1) (inner (if op = .not then .comparison else .power))
      (·.bare = e.bare) j) :
    BeforeFields input K i i (primary inner) (.unary info op e) j := by
  have hk : input.kind i ≠ .eof := by
    rw [Input.kind_of_token ht, hkt]
    cases op <;> decide
  cases op with
  | not =>
    refine primary_before_word ht hkt (.advance hk (h.bind fun e' he' => ?_))
    refine someNode_finds (fun _ _ => rfl) fun _ => ?_
    simp only [Expr.relabel, Relabel.info_bare, he']
  | negate | plus =>
    refine .cursor (.token ht hkt (.advance hk (h.bind fun e' he' => ?_)))
    refine .node (fun _ _ => rfl) fun _ => withFields_before ?_
    simp only [Expr.relabel, Relabel.info_bare, he']

end Primary

/-- An operand is read from the tokens that spell it, if its parts are. -/
theorem primary_before {ts : List Token} {nesting : Nat} (hown : e.Nested ∧ e.Greedy)
    (hquiet : e.ComparesNone input.commands)
    (hparts : ∀ part ∈ e.parts, Readable input scopes part) (hspelled : Spelled scopes e ts)
    (hhas : input.Has i ts) (hnesting : input.tokens.size < i + 1 + nesting)
    (hfollows : Follows input e (i + ts.length)) (hsingle : e.operator? = none) :
    BeforeFields input (Keeps scopes) i i (primary (expressionAt nesting)) e (i + ts.length) := by
  have hbehind : ∀ part ∈ e.parts,
      ReadsBehind input scopes i (expressionAt nesting .or) part :=
    fun part hpart => (hparts part hpart).behind hnesting
  -- a word with a type, and a word alone
  have htype : ∀ {t u : Token} {word : Keyword} {k : Option String → Parser (Option Expr)}
      {make : Info → Expr}, input.Has i [t, u] → t.kind = .keyword word → u.kind = .identifier →
      scopes.isType u.text = true →
      wordExpr (expressionAt nesting) i word = (do advance; k (← typeName)) →
      k (some u.text) = some <$> node i make → (∀ i j, (make i).withInfo j = make j) →
      (∀ info, (make info).bare = e.bare) →
      BeforeFields input (Keeps scopes) i i (primary (expressionAt nesting)) e (i + 2) := by
    intro t u word k make hhas hkt hku hknown hword hk hmake hbare
    obtain ⟨ht, hu, -⟩ := hhas
    refine primary_before_word ht hkt ?_
    rw [hword]
    refine .advance (by rw [Input.kind_of_token ht, hkt]; exact fun h => nomatch h) ?_
    refine (typeName_finds hu hku hknown).bind fun name hname => ?_
    rw [hname, hk]
    exact someNode_finds hmake hbare
  have hword : ∀ {t : Token} {word : Keyword} {make : Info → Expr}, input.Has i [t] →
      t.kind = .keyword word →
      wordExpr (expressionAt nesting) i word = (do advance; some <$> node i make) →
      (∀ i j, (make i).withInfo j = make j) → (∀ info, (make info).bare = e.bare) →
      BeforeFields input (Keeps scopes) i i (primary (expressionAt nesting)) e (i + 1) := by
    intro t word make hhas hkt hword hmake hbare
    refine primary_before_word hhas.1 hkt ?_
    rw [hword]
    refine .advance (by rw [Input.kind_of_token hhas.1, hkt]; exact fun h => nomatch h) ?_
    exact someNode_finds hmake hbare
  cases hspelled with
  | binary _ _ _ => cases hsingle
  | whole hkt hn => exact primary_before_whole hhas.1 hkt hn
  | hex hkt hn => exact primary_before_hex hhas.1 hkt hn
  | float hkt hx => exact primary_before_float hhas.1 hkt hx
  | string hkt => exact primary_before_string hhas.1 hkt
  | @boolean _ _ b hkt =>
    cases b with
    | true | false => exact hword hhas hkt rfl (fun _ _ => rfl) fun _ => rfl
  | null hkt => exact hword hhas hkt rfl (fun _ _ => rfl) fun _ => rfl
  | var hkt =>
    exact primary_before_name hhas.1 hkt
      (nameExpr_before_var hhas.1 hkt hfollows.paren hfollows.label)
  | tagged hkt hku hnext =>
    exact primary_before_name hhas.1 hkt (nameExpr_before_tagged hhas.1 hkt hhas.2.1 hku hnext)
  | @call info args t ts hkt harray hargs | @element info args t ts hkt harray hargs =>
    rw [List.length_cons, ← Nat.add_assoc, Nat.add_right_comm]
    refine primary_before_name hhas.1 hkt ?_
    have h := nameExpr_before_args info hhas.1 hkt hbehind hargs hhas.2
    rw [harray] at h
    exact h
  | bareCommand hkt =>
    exact primary_before_command hhas.1 hkt
      (commandExpr_before_bare hhas.1 hkt hfollows.paren)
  | @command info args t ts hkt hargs =>
    rw [List.length_cons, ← Nat.add_assoc, Nat.add_right_comm]
    exact primary_before_command hhas.1 hkt
      (commandExpr_before_args hhas.1 hkt hbehind hquiet hargs hhas.2)
  | @grouped _ inner t u ts hkt hinner hku =>
    obtain ⟨ht, hhas⟩ := hhas
    obtain ⟨hhas, hu, -⟩ := Input.has_append.mp hhas
    have hlen : i + (t :: (ts ++ [u])).length = i + 1 + ts.length + 1 := by
      simp only [List.length_cons, List.length_append, List.length_nil]
      omega
    have hends : input.Ends (i + 1 + ts.length) := by
      unfold Input.Ends
      rw [Input.kind_of_token hu, hku]
      decide
    rw [hlen]
    exact primary_before_grouped ht hkt
      (hbehind inner List.mem_cons_self (Nat.lt_succ_self i) hinner hhas hends) hu hku
  | @field _ object ts t u hobject hkt hku =>
    obtain ⟨hhas, ht, hu, -⟩ := Input.has_append.mp hhas
    have hkind : input.kind (i + ts.length) = .backslash := Input.kind_of_token ht ▸ hkt
    have hobjectFollows : Follows input object (i + ts.length) := by
      constructor
      · rw [hkind]
        decide
      · rw [hkind]
        decide
      · exact fun _ => hown.2
      · rw [hkind]
        exact fun _ h => nomatch h
    rw [List.length_append, ← Nat.add_assoc]
    have hread := hparts object List.mem_cons_self hobject hhas hnesting hobjectFollows
    exact (hread.1 hown.1).field ht hkt hu hku
  | new hkt hku hknown | first hkt hku hknown | last hkt hku hknown =>
    exact htype hhas hkt hku hknown rfl rfl (fun _ _ => rfl) fun _ => rfl
  | @unary info op operand t ts hkt hoperand =>
    rw [List.length_cons, Nat.add_comm ts.length, ← Nat.add_assoc] at hfollows ⊢
    refine primary_before_unary hhas.1 hkt ?_
    refine (hparts operand List.mem_cons_self).operand_finds hoperand hhas.2 hnesting
      hown.1.operand_atLeast hfollows rfl ?_
    cases op <;> rfl
  | @after info object t ts hkt hobject | @before info object t ts hkt hobject =>
    rw [List.length_cons, Nat.add_comm ts.length, ← Nat.add_assoc] at hfollows ⊢
    refine primary_before_word hhas.1 hkt ?_
    refine .advance (Input.kind_of_token hhas.1 ▸ hkt ▸ by decide) ?_
    refine ((hparts object List.mem_cons_self).operand_finds hobject hhas.2 hnesting
      (.of_none hown.1) hfollows rfl rfl).bind fun e' he' => ?_
    refine someNode_finds (fun _ _ => rfl) fun _ => ?_
    simp only [Expr.relabel, Relabel.info_bare, he']

/-- Every expression that is nested by precedence is read from the tokens that spell it. -/
theorem readable (hnested : e.ByPrecedence) (hquiet : e.Unchecked input.commands) :
    Readable input scopes e := by
  induction e using Expr.induction_on_parts with
  | h e ih =>
    obtain ⟨hown, hnestedParts⟩ := Expr.byPrecedence_iff.mp hnested
    obtain ⟨hquietOwn, hquietParts⟩ := Expr.unchecked_iff.mp hquiet
    have hparts : ∀ part ∈ e.parts, Readable input scopes part :=
      fun part hpart => ih part hpart (hnestedParts part hpart) (hquietParts part hpart)
    intro ts i nesting hspelled hhas hnesting hfollows
    have hprimary : e.operator? = none →
        BeforeFields input (Keeps scopes) i i (primary (expressionAt nesting)) e (i + ts.length) :=
      primary_before hown hquietOwn hparts hspelled hhas hnesting hfollows
    refine ⟨hprimary, fun level hlevel hends => ?_⟩
    cases hop : e.operator? with
    | none =>
      exact (hprimary hop).beforeOperators hends (Spelled.add_length_le hspelled hhas).2
    | some op =>
      cases hspelled with
      | @binary info left right op ts us t hleft ht hright =>
        obtain ⟨hhasLeft, htoken, hhasRight⟩ := Input.has_append.mp hhas
        have hkind : (input.kind (i + ts.length)).binaryOp? = some op :=
          Input.kind_of_token htoken ▸ ht
        have hlen : i + (ts ++ t :: us).length = i + ts.length + 1 + us.length := by
          rw [List.length_append, List.length_cons]
          omega
        rw [hlen] at hfollows hends ⊢
        -- the left operand, then the operator with the right one
        obtain ⟨hfollowsLeft, hback⟩ := Follows.of_operator (e := left) hkind hown.2
        have hreadLeft := hparts left List.mem_cons_self hleft hhasLeft hnesting hfollowsLeft
        refine (hreadLeft.2 level (hown.1.left_atLeast hlevel) hback).operator hkind
          (hlevel op rfl) ?_ (by omega)
        refine (hparts right (List.mem_cons_of_mem _ List.mem_cons_self)).operand_finds hright
          hhasRight (by omega) hown.1.right_atLeast hfollows rfl rfl
      | _ => cases hop

/-- An expression is read from the tokens that spell it, where none goes on. -/
theorem expression_finds {ts : List Token} (hnested : e.ByPrecedence)
    (hquiet : e.Unchecked input.commands) (hspelled : Spelled scopes e ts) (hhas : input.Has i ts)
    (hends : input.Ends (i + ts.length)) :
    Finds input (Keeps scopes) i expression (·.bare = e.bare) (i + ts.length) := by
  refine .bounded fun nesting hnesting => ?_
  obtain ⟨hfollows, hback⟩ := Follows.of_ends (e := e) hends
  refine (readable hnested hquiet).finds hspelled hhas hnesting (Expr.atLeast_or e) hfollows hback ?_
  intro op hop
  rw [hends.2] at hop
  cases hop

/-! ### One reading -/

/-- Tokens spell at most one expression that is nested by precedence. -/
theorem bare_eq_of_spelled {e e' : Expr} {ts : List Token} (h : Spelled scopes e ts)
    (h' : Spelled scopes e' ts) (hnested : e.ByPrecedence) (hnested' : e'.ByPrecedence) :
    e.bare = e'.bare := by
  -- both are what is read from the tokens alone
  let input : Input := ⟨ts.toArray, .empty⟩
  have hhas : input.Has 0 ts := Input.has_of_prefix_drop (List.prefix_refl _)
  have hend : input.kind (0 + ts.length) = .eof := by
    unfold Input.kind
    simp [input]
  have hends : input.Ends (0 + ts.length) := by
    unfold Input.Ends
    rw [hend]
    decide
  obtain ⟨a, _, ha, -, hrun⟩ := expression_finds hnested (Expr.unchecked_empty e) h hhas hends
    { scopes := scopes } rfl rfl
  obtain ⟨a', _, ha', -, hrun'⟩ := expression_finds hnested' (Expr.unchecked_empty e') h' hhas hends
    { scopes := scopes } rfl rfl
  obtain rfl : a = a' := congrArg Prod.fst (hrun.symm.trans hrun')
  exact ha.symm.trans ha'

/-! ### Behind the last token -/

/-- Behind the last token nothing can be read. -/
theorem expression_past_end {s : State} (h : input.tokens.size < s.cursor) :
    (expression input s).2.errors =
      s.errors ++ [⟨.endOfInput .expression, input.spanAt s.cursor⟩] := by
  have hnone : input.tokens[s.cursor]? = none := Array.getElem?_eq_none (Nat.le_of_lt h)
  have hpeek : peek? input s = (none, s) := congrArg (·, s) hnone
  let s' : State :=
    { s with errors := s.errors ++ [⟨.endOfInput .expression, input.spanAt s.cursor⟩] }
  have hreport : reportExpected .expression input s = ((), s') := by
    have hspan : currentSpan input s = (input.spanAt s.cursor, s) := rfl
    unfold reportExpected
    rw [run_look hspan, run_look hpeek]
    rfl
  have hprimary : ∀ inner, (primary inner input s).2 = s' := by
    intro inner
    have hrun : primary inner input s = errorHere input (reportExpected .expression input s).2 := by
      have hcursor : Parser.cursor input s = (s.cursor, s) := rfl
      unfold primary
      rw [run_look hcursor, run_look hpeek]
      rfl
    rw [hrun, hreport]
    rfl
  have hkind : Parser.kind input s' = (.eof, s') := by
    show (input.kind s.cursor, s') = _
    unfold Input.kind
    rw [hnone]
  have hclimb : ∀ inner level rounds left,
      (climb inner level s.cursor (rounds + 1) left input s').2 = s' := by
    intro inner level rounds left
    rw [climb, run_look hkind]
    rfl
  let left := primary (expressionAt (input.left s.cursor)) input s
  have hrun : expression input s = climb (expressionAt (input.left s.cursor)) .or s.cursor
      (input.left left.2.cursor + 1) left.1 input left.2 := rfl
  rw [hrun, hprimary, hclimb]

/-! ### The reading -/

/-- The expression is the reading of the tokens from `start` up to `stop`. -/
structure PrecedenceReading (input : Input) (scopes : Scopes) (start : Nat) (e : Expr) (stop : Nat) :
    Prop where
  /-- There are such tokens. -/
  within : start ≤ stop ∧ stop ≤ input.tokens.size
  /-- They spell the expression. -/
  spelled : Spelled scopes e (input.between start stop)
  /-- The operators right below each node bind tightly enough. -/
  nested : ∀ sub ∈ e.subterms, sub.Nested
  /-- What stands before an operand takes in all it may. -/
  greedy : ∀ sub ∈ e.subterms, sub.Greedy
  /-- No other expression is spelled by the tokens and nested like this. -/
  unique : ∀ e', Spelled scopes e' (input.between start stop) → e'.ByPrecedence → e'.bare = e.bare
  /-- No operator follows. -/
  ends : (input.kind stop).binaryOp? = none

/-- What is read without an error, from any token on, is the reading of the tokens that were passed.

Without `Expr.Greedy` it would not be the only one: `a * Not b + c` also reads as a sum whose first
operand is a product. -/
theorem expression_precedenceReading (input : Input) (s : State)
    (hsilent : (expression input s).2.errors = s.errors) :
    PrecedenceReading input s.scopes s.cursor (expression input s).1
      (expression input s).2.cursor := by
  have hstart : s.cursor ≤ input.tokens.size := by
    refine Nat.le_of_not_lt fun hpast => ?_
    have hlen := congrArg List.length ((expression_past_end hpast).symm.trans hsilent)
    rw [List.length_append, List.length_singleton] at hlen
    omega
  obtain ⟨hwent, htree⟩ := expression_from s rfl rfl hstart
  have htree := htree hsilent
  refine ⟨⟨hwent.cursor_le, hwent.le_size hstart⟩, htree.spelled, fun sub h => (htree.nested sub h).1,
    fun sub h => (htree.nested sub h).2, fun e' h hnested => ?_, ?_⟩
  · exact bare_eq_of_spelled h htree.spelled hnested htree.nested
  · -- an operator would bind more loosely than the loosest level
    cases hop : (input.kind (expression input s).2.cursor).binaryOp? with
    | none => rfl
    | some op =>
      have hbelow := htree.below op hop
      revert hbelow
      cases op <;> decide

/-- The tokens of `a * Not b + c`. -/
def notInProduct : Array Token :=
  #[⟨.identifier, "a", .unknown⟩, ⟨.star, "*", .unknown⟩, ⟨.keyword .not, "Not", .unknown⟩,
    ⟨.identifier, "b", .unknown⟩, ⟨.plus, "+", .unknown⟩, ⟨.identifier, "c", .unknown⟩,
    ⟨.newline, "", .unknown⟩]

/-- The product of `a` and `Not b`, and `c` added to it. -/
def sumWithNot : Expr :=
  .binary default (.binary default (.var default "a" none) .multiply
    (.unary default .not (.var default "b" none))) .add (.var default "c" none)

/-- Nesting alone does not single out a reading: `a * Not b + c` is read as a product, and a sum is
spelled by the same tokens and nested as well. -/
theorem nested_twice_notInProduct :
    (expression ⟨notInProduct, .empty⟩ {}).2.errors = [] ∧
      (expression ⟨notInProduct, .empty⟩ {}).2.cursor = 6 ∧
      (Input.kind ⟨notInProduct, .empty⟩ 6).binaryOp? = none ∧
      Spelled .empty sumWithNot (Input.between ⟨notInProduct, .empty⟩ 0 6) ∧
      (∀ sub ∈ sumWithNot.subterms, sub.Nested) ∧
      sumWithNot.bare ≠ (expression ⟨notInProduct, .empty⟩ {}).1.bare := by
  have herrors : (expression ⟨notInProduct, .empty⟩ {}).2.errors = [] := by rfl
  have hcursor : (expression ⟨notInProduct, .empty⟩ {}).2.cursor = 6 := by rfl
  have hproduct : (expression ⟨notInProduct, .empty⟩ {}).1.bare.operator? = some .multiply := by rfl
  refine ⟨herrors, hcursor, rfl, ?_, ?_, fun h => ?_⟩
  · have hname : ∀ name, Spelled .empty (.var default name none) [⟨.identifier, name, .unknown⟩] :=
      fun name => .var (t := ⟨.identifier, name, .unknown⟩) rfl
    have hnot : Spelled .empty (.unary default .not (.var default "b" none)) _ :=
      .unary (t := ⟨.keyword .not, "Not", .unknown⟩) rfl (hname "b")
    have hfirst := Spelled.binary (i := default) (t := ⟨.star, "*", .unknown⟩) (hname "a") rfl hnot
    exact .binary (t := ⟨.plus, "+", .unknown⟩) hfirst rfl (hname "c")
  · have htightness : BinaryOp.add.tightness ≤ BinaryOp.multiply.tightness := by decide
    simpa [sumWithNot, Expr.subterms, Expr.Nested, Expr.operator?] using htightness
  · rw [← h] at hproduct
    cases hproduct

/-- The tokens of `a * Not b ^ -c + d`. -/
def mixedOperators : Array Token :=
  #[⟨.identifier, "a", .unknown⟩, ⟨.star, "*", .unknown⟩, ⟨.keyword .not, "Not", .unknown⟩,
    ⟨.identifier, "b", .unknown⟩, ⟨.caret, "^", .unknown⟩, ⟨.minus, "-", .unknown⟩,
    ⟨.identifier, "c", .unknown⟩, ⟨.plus, "+", .unknown⟩, ⟨.identifier, "d", .unknown⟩,
    ⟨.newline, "", .unknown⟩]

theorem precedenceReading_mixedOperators :
    (expression ⟨mixedOperators, .empty⟩ {}).2.errors = [] ∧
      (expression ⟨mixedOperators, .empty⟩ {}).2.cursor = 9 ∧
      PrecedenceReading ⟨mixedOperators, .empty⟩ .empty 0
        (expression ⟨mixedOperators, .empty⟩ {}).1 9 := by
  have herrors : (expression ⟨mixedOperators, .empty⟩ {}).2.errors = [] := by rfl
  have hcursor : (expression ⟨mixedOperators, .empty⟩ {}).2.cursor = 9 := by rfl
  refine ⟨herrors, hcursor, ?_⟩
  exact expression_precedenceReading ⟨mixedOperators, .empty⟩ {} herrors

end Parser

end FrameBasic
