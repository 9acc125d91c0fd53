import FrameBasic.Proofs.Tree.Relabel
import FrameBasic.Proofs.Tree.Walk
import FrameBasic.Tree.Parser.Expression

/-!
# How expressions are spelled

An expression is spelled by its tokens in order, with parentheses only where the tree has a group or
a list of arguments.  Which of the trees that the same tokens spell is meant is decided by how tightly
the operators bind: an operand holds only operators that bind more tightly than the one it belongs
to, and a sign or a word before an operand takes in as much as its level allows.

## Main definitions

* `Spelled` — the tokens spell an expression.
* `BinaryOp.tightness` — the place of an operator in the order from the loosest to the tightest.
* `Expr.Nested` — the operators right below a node bind tightly enough.
* `Expr.Greedy` — what stands before an operand takes in all it may.
* `Expr.ByPrecedence` — both hold of all nodes of an expression.

## Main results

* `Expr.byPrecedence_iff` — from the parts to the whole.
* `Expr.nested_binary`, `Expr.nested_unary` — the conditions on a node, by the levels that the
  reader uses.
-/

namespace FrameBasic

/-! ### Spelling -/

/-- The token of a unary operator. -/
def UnaryOp.kind : UnaryOp → Kind
  | .negate => .minus
  | .plus => .plus
  | .not => .keyword .not

mutual

/-- The tokens spell the expression, where the names stand for what the scopes say. -/
inductive Spelled (scopes : Scopes) : Expr → List Token → Prop
  /-- A whole number. -/
  | whole {i : Info} {t : Token} {n : Int} : t.kind = .integer →
      Decimal.readInteger t.text.toList = .ok n → Spelled scopes (.integer i n) [t]
  /-- A hexadecimal number. -/
  | hex {i : Info} {t : Token} {n : Int} : t.kind = .hex → Parser.readHex t.text = some n →
      Spelled scopes (.integer i n) [t]
  /-- A number with a fraction or an exponent. -/
  | float {i : Info} {t : Token} {x : Binary64} : t.kind = .float →
      Decimal.readReal t.text.toList = .ok x → Spelled scopes (.float i x) [t]
  /-- A text. -/
  | string {i : Info} {t : Token} : t.kind = .string → Spelled scopes (.string i t.text) [t]
  /-- A truth value. -/
  | boolean {i : Info} {t : Token} {b : Bool} :
      t.kind = .keyword (if b then .true_ else .false_) → Spelled scopes (.boolean i b) [t]
  /-- The null reference. -/
  | null {i : Info} {t : Token} : t.kind = .keyword .null → Spelled scopes (.null i) [t]
  /-- A variable. -/
  | var {i : Info} {t : Token} : t.kind = .identifier → Spelled scopes (.var i t.text none) [t]
  /-- A variable with the name of its type right behind it. -/
  | tagged {i : Info} {t tag : Token} : t.kind = .identifier → tag.kind = .label →
      tag.span.start = t.span.stop → Spelled scopes (.var i t.text (some tag.text)) [t, tag]
  /-- Two operands with the operator between them. -/
  | binary {i : Info} {left right : Expr} {op : BinaryOp} {ts us : List Token} {t : Token} :
      Spelled scopes left ts → t.kind.binaryOp? = some op → Spelled scopes right us →
      Spelled scopes (.binary i left op right) (ts ++ t :: us)
  /-- An operator before its operand. -/
  | unary {i : Info} {op : UnaryOp} {operand : Expr} {t : Token} {ts : List Token} :
      t.kind = op.kind → Spelled scopes operand ts →
      Spelled scopes (.unary i op operand) (t :: ts)
  /-- An expression in parentheses. -/
  | grouped {i : Info} {inner : Expr} {t u : Token} {ts : List Token} : t.kind = .leftParen →
      Spelled scopes inner ts → u.kind = .rightParen →
      Spelled scopes (.grouped i inner) (t :: (ts ++ [u]))
  /-- The call of a function, whose name is no array. -/
  | call {i : Info} {args : List Expr} {t : Token} {ts : List Token} : t.kind = .identifier →
      scopes.isArray t.text = false → SpelledArgs scopes args ts →
      Spelled scopes (.call i t.text args) (t :: ts)
  /-- An element of an array. -/
  | element {i : Info} {indices : List Expr} {t : Token} {ts : List Token} :
      t.kind = .identifier → scopes.isArray t.text = true → SpelledArgs scopes indices ts →
      Spelled scopes (.element i t.text indices) (t :: ts)
  /-- A command without arguments and without parentheses. -/
  | bareCommand {i : Info} {t : Token} : t.kind = .command →
      Spelled scopes (.command i t.text []) [t]
  /-- A command with its arguments. -/
  | command {i : Info} {args : List Expr} {t : Token} {ts : List Token} : t.kind = .command →
      SpelledArgs scopes args ts → Spelled scopes (.command i t.text args) (t :: ts)
  /-- A field, which may have the name of a command. -/
  | field {i : Info} {object : Expr} {ts : List Token} {t u : Token} : Spelled scopes object ts →
      t.kind = .backslash → u.kind = .identifier ∨ u.kind = .command →
      Spelled scopes (.field i object u.text) (ts ++ [t, u])
  /-- A new object. -/
  | new {i : Info} {t u : Token} : t.kind = .keyword .new → u.kind = .identifier →
      scopes.isType u.text = true → Spelled scopes (.new i u.text) [t, u]
  /-- The first object of a type. -/
  | first {i : Info} {t u : Token} : t.kind = .keyword .first → u.kind = .identifier →
      scopes.isType u.text = true → Spelled scopes (.first i u.text) [t, u]
  /-- The last object of a type. -/
  | last {i : Info} {t u : Token} : t.kind = .keyword .last → u.kind = .identifier →
      scopes.isType u.text = true → Spelled scopes (.last i u.text) [t, u]
  /-- The object after another one. -/
  | after {i : Info} {object : Expr} {t : Token} {ts : List Token} : t.kind = .keyword .after →
      Spelled scopes object ts → Spelled scopes (.after i object) (t :: ts)
  /-- The object before another one. -/
  | before {i : Info} {object : Expr} {t : Token} {ts : List Token} :
      t.kind = .keyword .before → Spelled scopes object ts →
      Spelled scopes (.before i object) (t :: ts)

/-- The tokens spell a list of arguments in parentheses. -/
inductive SpelledArgs (scopes : Scopes) : List Expr → List Token → Prop
  /-- There are no arguments. -/
  | none {t u : Token} : t.kind = .leftParen → u.kind = .rightParen →
      SpelledArgs scopes [] [t, u]
  /-- There are arguments. -/
  | some {args : List Expr} {t u : Token} {ts : List Token} : t.kind = .leftParen →
      SpelledList scopes args ts → u.kind = .rightParen →
      SpelledArgs scopes args (t :: (ts ++ [u]))

/-- The tokens spell expressions with commas between them. -/
inductive SpelledList (scopes : Scopes) : List Expr → List Token → Prop
  /-- There is one expression. -/
  | one {e : Expr} {ts : List Token} : Spelled scopes e ts → SpelledList scopes [e] ts
  /-- Others follow after a comma. -/
  | cons {e : Expr} {es : List Expr} {t : Token} {ts us : List Token} : Spelled scopes e ts →
      t.kind = .comma → SpelledList scopes es us → SpelledList scopes (e :: es) (ts ++ t :: us)

end

/-! ### Precedence -/

namespace BinaryOp

/-- The operators from the loosest to the tightest. -/
def tiers : List (List BinaryOp) :=
  [ [.or, .xor],
    [.and],
    [.equal, .notEqual, .lessThan, .lessEqual, .greaterThan, .greaterEqual],
    [.shiftLeft, .shiftRight, .shiftArith],
    [.add, .subtract],
    [.multiply, .divide, .modulo],
    [.power] ]

/-- The place of an operator in the order from the loosest to the tightest. -/
def tightness (op : BinaryOp) : Nat :=
  tiers.findIdx fun tier => tier.contains op

/-- The reader's levels follow the order. -/
theorem rank_precedence (op : BinaryOp) : op.precedence.rank = op.tightness + 1 := by
  cases op <;> decide

theorem rank_operandLevel (op : BinaryOp) :
    op.operandLevel.rank = if op = .power then op.tightness + 1 else op.tightness + 2 := by
  cases op <;> decide

theorem tightness_power_le {op : BinaryOp} (h : power.tightness ≤ op.tightness) : op = .power := by
  revert h
  cases op <;> decide

end BinaryOp

namespace Expr

/-- The operator of an expression that joins two operands. -/
def operator? : Expr → Option BinaryOp
  | .binary _ _ op _ => some op
  | _ => none

/-- The operators right below a node bind tightly enough: more tightly than an operator in its right
operand, and at least as tightly in its left one, where the power has its sides exchanged; a sign
takes in powers only, `Not` comparisons and what binds more tightly, and what leads to an object
takes in no operator. -/
def Nested : Expr → Prop
  | .binary _ left op right =>
    (∀ inner, left.operator? = some inner →
      if op = .power then op.tightness < inner.tightness else op.tightness ≤ inner.tightness) ∧
    ∀ inner, right.operator? = some inner →
      if op = .power then op.tightness ≤ inner.tightness else op.tightness < inner.tightness
  | .unary _ .not operand =>
    ∀ inner, operand.operator? = some inner → BinaryOp.equal.tightness ≤ inner.tightness
  | .unary _ _ operand => ∀ inner, operand.operator? = some inner → inner = .power
  | .after _ object | .before _ object | .field _ object _ => object.operator? = none
  | _ => True

/-- The loosest level whose operators the right end of an expression takes in.  What is closed by a
token of its own takes in none. -/
def reach : Expr → Nat
  | .binary _ _ op right => min op.operandLevel.rank right.reach
  | .unary _ .not operand => min Precedence.comparison.rank operand.reach
  | .unary _ _ operand => min Precedence.power.rank operand.reach
  | .after _ object | .before _ object => min Precedence.unary.rank object.reach
  | _ => Precedence.unary.rank + 1

/-- Whether a field can follow the expression without going to its last operand. -/
def isClosed : Expr → Bool
  | .binary .. | .unary .. | .after .. | .before .. => false
  | _ => true

/-- The left operand could not have taken in the operator, and an object not the field. -/
def Greedy : Expr → Prop
  | .binary _ left op _ => op.precedence.rank < left.reach
  | .field _ object _ => object.isClosed = true
  | _ => True

/-- The tree is the one that the precedence of the operators asks for. -/
def ByPrecedence (e : Expr) : Prop :=
  ∀ sub ∈ e.subterms, sub.Nested ∧ sub.Greedy

theorem byPrecedence_iff {e : Expr} :
    e.ByPrecedence ↔ (e.Nested ∧ e.Greedy) ∧ ∀ part ∈ e.parts, part.ByPrecedence := by
  unfold ByPrecedence
  rw [subterms_eq, List.forall_mem_cons]
  simp only [List.forall_mem_flatMap]

/-- The operators of an expression bind at least as tightly as a level. -/
def AtLeast (level : Precedence) (e : Expr) : Prop :=
  ∀ op, e.operator? = some op → level.rank ≤ op.precedence.rank

theorem AtLeast.of_none {level : Precedence} {e : Expr} (h : e.operator? = none) :
    AtLeast level e := by
  intro op hop
  rw [h] at hop
  cases hop

theorem atLeast_or (e : Expr) : AtLeast .or e := by
  intro op _
  cases op <;> decide

/-- The condition on an operator, by the levels of its operands. -/
theorem nested_binary {i : Info} {left right : Expr} {op : BinaryOp}
    (hleft : op.precedence.rank < left.reach) (hright : AtLeast op.operandLevel right) :
    (Expr.binary i left op right).Nested := by
  constructor
  · intro inner hinner
    -- the left operand would have taken in an operator that binds more tightly
    have hreach : op.precedence.rank < inner.operandLevel.rank := by
      cases left <;> simp only [operator?, reduceCtorEq] at hinner
      cases hinner
      exact Nat.lt_of_lt_of_le hleft (Nat.min_le_left _ _)
    rw [BinaryOp.rank_precedence, BinaryOp.rank_operandLevel] at hreach
    split at hreach
    · next h =>
      split
      · next h => subst h; omega
      · omega
    · next hne =>
      split
      · next h =>
        subst h
        exact absurd (BinaryOp.tightness_power_le (by omega)) hne
      · omega
  · intro inner hinner
    have hlevel := hright inner hinner
    rw [BinaryOp.rank_precedence, BinaryOp.rank_operandLevel] at hlevel
    split
    · next h => simpa [h] using hlevel
    · next h => simpa [h, Nat.succ_le_iff] using hlevel

/-- The condition on a sign or `Not`, by the level of its operand. -/
theorem nested_unary {i : Info} {op : UnaryOp} {operand : Expr}
    (h : AtLeast (if op = .not then .comparison else .power) operand) :
    (Expr.unary i op operand).Nested := by
  cases op with
  | not =>
    intro inner hinner
    have hlevel := h inner hinner
    rw [BinaryOp.rank_precedence] at hlevel
    exact Nat.le_of_succ_le_succ hlevel
  | negate | plus =>
    intro inner hinner
    have hlevel := h inner hinner
    rw [BinaryOp.rank_precedence] at hlevel
    exact BinaryOp.tightness_power_le (Nat.le_of_succ_le_succ hlevel)

end Expr

end FrameBasic
