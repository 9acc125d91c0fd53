import FrameBasic.Proofs.Reader.Reads
import FrameBasic.Proofs.Tree.Walk
import Mathlib.Logic.Relation

/-!
# Where nodes stand

A node of a program spans the tokens that were passed while it was read, and the nodes below it were
read from some of these tokens, one after the other.  Only `Default` breaks the row: its statements
are kept behind all cases of its `Select`, wherever it was written.

## Main definitions

* `TreeNode` — what has a place in the source; `TreeNode.rows` lists the nodes right below in the
  order of the source.
* `Parser.Input.Ordered` — the tokens stand behind each other.
* `TreeNode.Proper`, `TreeNode.Sound` — a node, or also the nodes below it, has a proper place.
* `Parser.Lies`, `Parser.InRow` — a node was read from the tokens between two places, or several
  were read one after the other.
* `Parser.Stands` — the same of a statement, if there is one.

## Main results

* `Parser.Lies.of_rows` — a node that spans the tokens from which its rows were read.
* `Parser.Lies.congr` — a node of the same place with the same nodes below it.
-/

namespace FrameBasic

/-! ### Nodes -/

/-- A node of a program that has a place in the source. -/
inductive TreeNode where
  | expr (e : Expr)
  | stmt (s : Stmt)
  | var (v : VarDecl)
  | array (a : ArrayDecl)
  | param (p : Param)
  | field (f : FieldDecl)
  | clause (c : CaseClause)

/-- The nodes of a branch, which has no place of its own. -/
def ElseIf.nodes (branch : ElseIf) : List TreeNode :=
  .expr branch.condition :: branch.body.map .stmt

/-- The nodes right below a statement, in rows that follow the source.  The statements of `Default`
are a row of their own. -/
def Stmt.rows : Stmt → List (List TreeNode)
  | .assign _ target value => [[.expr target, .expr value]]
  | .declare _ _ vars => [vars.map .var]
  | .dim _ arrays => [arrays.map .array]
  | .const _ _ value => [[.expr value]]
  | .if_ _ condition thenBranch elseIfs elseBranch =>
    [.expr condition :: (thenBranch.map .stmt ++ elseIfs.flatMap ElseIf.nodes ++
      (elseBranch.getD []).map .stmt)]
  | .while_ _ condition body => [.expr condition :: body.map .stmt]
  | .repeat_ _ body condition => [body.map .stmt ++ condition.toList.map .expr]
  | .for_ _ _ first last step body =>
    [.expr first :: .expr last :: (step.toList.map .expr ++ body.map .stmt)]
  | .forEach _ _ _ body => [body.map .stmt]
  | .select _ subject cases default =>
    [.expr subject :: cases.map .clause, (default.getD []).map .stmt]
  | .function _ _ _ params body => [params.map .param ++ body.map .stmt]
  | .type _ _ fields => [fields.map .field]
  | .return_ _ value => [value.toList.map .expr]
  | .read _ targets => [targets.map .expr]
  | .delete _ object => [[.expr object]]
  | .insert _ object _ anchor => [[.expr object, .expr anchor]]
  | .expr _ e => [[.expr e]]
  | .exit _ | .end_ _ | .goto .. | .gosub .. | .label .. | .data .. | .restore ..
  | .deleteEach .. => []

namespace TreeNode

/-- The place of a node. -/
def span : TreeNode → Span
  | .expr e => e.span
  | .stmt s => s.span
  | .var v => v.span
  | .array a => a.span
  | .param p => p.span
  | .field f => f.span
  | .clause c => c.span

/-- The nodes right below one, in rows that follow the source. -/
def rows : TreeNode → List (List TreeNode)
  | .expr e => [e.parts.map .expr]
  | .stmt s => s.rows
  | .var v => [v.value.toList.map .expr]
  | .array a => [a.dimensions.map .expr]
  | .param p => [p.default.toList.map .expr]
  | .field _ => []
  | .clause c => [c.values.map .expr ++ c.body.map .stmt]

/-- The nodes right below one. -/
def children (n : TreeNode) : List TreeNode :=
  n.rows.flatten

/-- One node stands behind the other, as nodes in and below it do. -/
def Before (a b : TreeNode) : Prop :=
  a.span.stop ≤ b.span.start

/-- The second node is the first one or stands below it. -/
def Holds : TreeNode → TreeNode → Prop :=
  Relation.ReflTransGen fun n child => child ∈ n.children

end TreeNode

/-! ### Places -/

namespace Parser

/-- The tokens before the end stand behind each other. -/
structure Input.Ordered (input : Input) : Prop where
  /-- A token has a lexeme. -/
  wide : ∀ {i : Nat} {t : Token}, i < input.stop → input.tokens[i]? = some t →
    t.span.start < t.span.stop
  /-- The lexemes do not overlap. -/
  apart : ∀ {i j : Nat} {a b : Token}, i < j → input.tokens[i]? = some a →
    input.tokens[j]? = some b → a.span.stop ≤ b.span.start

namespace Input

variable {input : Input} {i j : Nat}

theorem token_of_lt (h : i < input.stop) :
    ∃ t, input.tokens[i]? = some t ∧ t.kind ≠ .eof := by
  have hkind := kind_ne_eof h
  unfold kind at hkind
  cases ht : input.tokens[i]? with
  | none =>
    rw [ht] at hkind
    exact absurd rfl hkind
  | some t =>
    rw [ht] at hkind
    exact ⟨t, rfl, hkind⟩

/-- The place of some tokens begins with the first one and ends with the last one. -/
theorem spanFrom_eq (hij : i < j) (hj : j ≤ input.stop) :
    ∃ first last, input.tokens[i]? = some first ∧ input.tokens[j - 1]? = some last ∧
      first.kind ≠ .eof ∧ last.kind ≠ .eof ∧
      input.spanFrom i j = { first.span with stop := last.span.stop } := by
  obtain ⟨first, hfirst, hfirstKind⟩ := token_of_lt (Nat.lt_of_lt_of_le hij hj)
  have hbefore : j - 1 < input.stop := by omega
  obtain ⟨last, hlast, hlastKind⟩ := token_of_lt hbefore
  refine ⟨first, last, hfirst, hlast, hfirstKind, hlastKind, ?_⟩
  unfold spanFrom
  rw [hfirst]
  dsimp only
  rw [if_pos hij, hlast, Option.getD_some]

namespace Ordered

variable (h : input.Ordered) {i' j' : Nat}
include h

/-- Some tokens among others lie inside of them. -/
theorem spanFrom_inside (hi : i ≤ i') (hij : i' < j') (hj : j' ≤ j) (hstop : j ≤ input.stop) :
    (input.spanFrom i j).start ≤ (input.spanFrom i' j').start ∧
      (input.spanFrom i' j').stop ≤ (input.spanFrom i j).stop := by
  have houter : i < j := by omega
  obtain ⟨first, last, hfirst, hlast, -, -, hspan⟩ := spanFrom_eq houter hstop
  obtain ⟨first', last', hfirst', hlast', -, -, hspan'⟩ :=
    spanFrom_eq hij (Nat.le_trans hj hstop)
  rw [hspan, hspan']
  constructor
  · rcases Nat.lt_or_eq_of_le hi with hlt | rfl
    · have hwide := h.wide (by omega) hfirst
      have hapart := h.apart hlt hfirst hfirst'
      show first.span.start ≤ first'.span.start
      omega
    · obtain rfl := Option.some.inj (hfirst.symm.trans hfirst')
      exact Nat.le_refl _
  · rcases Nat.lt_or_eq_of_le hj with hlt | rfl
    · have hwide := h.wide (by omega) hlast
      have hapart := h.apart (by omega) hlast' hlast
      show last'.span.stop ≤ last.span.stop
      omega
    · obtain rfl := Option.some.inj (hlast.symm.trans hlast')
      exact Nat.le_refl _

/-- Some tokens are not empty. -/
theorem spanFrom_nonempty (hij : i < j) (hj : j ≤ input.stop) :
    (input.spanFrom i j).start < (input.spanFrom i j).stop := by
  obtain ⟨first, last, hfirst, hlast, -, -, hspan⟩ := spanFrom_eq hij hj
  have hwide := h.wide (by omega) hfirst
  rw [hspan]
  show first.span.start < last.span.stop
  rcases Nat.lt_or_eq_of_le (Nat.le_sub_one_of_lt hij) with hlt | heq
  · have hapart := h.apart hlt hfirst hlast
    have hwide' := h.wide (by omega) hlast
    omega
  · rw [← heq] at hlast
    obtain rfl := Option.some.inj (hfirst.symm.trans hlast)
    exact hwide

/-- Some tokens behind others stand behind them. -/
theorem spanFrom_before (hij : i < j) (hjj : j ≤ i') (hij' : i' < j') (hstop : j' ≤ input.stop) :
    (input.spanFrom i j).stop ≤ (input.spanFrom i' j').start := by
  have hj : j ≤ input.stop := by omega
  obtain ⟨_, last, _, hlast, -, -, hspan⟩ := spanFrom_eq hij hj
  obtain ⟨first, _, hfirst, _, -, -, hspan'⟩ := spanFrom_eq hij' hstop
  rw [hspan, hspan']
  exact h.apart (by omega) hlast hfirst

end Ordered

end Input

end Parser

namespace TreeNode

variable {input : Parser.Input}

/-- The node spans some tokens, the nodes right below it lie inside, and their rows follow the
source. -/
structure Proper (input : Parser.Input) (n : TreeNode) : Prop where
  place : ∃ i j, i < j ∧ j ≤ input.stop ∧ n.span = input.spanFrom i j
  inside : ∀ child ∈ n.children, n.span.start ≤ child.span.start ∧ child.span.stop ≤ n.span.stop
  rows : ∀ row ∈ n.rows, row.Pairwise Before

/-- The node and those below it have proper places. -/
def Sound (input : Parser.Input) (n : TreeNode) : Prop :=
  ∀ m, n.Holds m → m.Proper input

theorem Sound.of_children {n : TreeNode} (h : n.Proper input)
    (hchildren : ∀ child ∈ n.children, child.Sound input) : n.Sound input := by
  intro m hm
  rcases Relation.ReflTransGen.cases_head hm with rfl | ⟨child, hchild, hm⟩
  · exact h
  · exact hchildren child hchild m hm

theorem Sound.proper {n : TreeNode} (h : n.Sound input) : n.Proper input :=
  h n .refl

theorem Sound.child {n child : TreeNode} (h : n.Sound input) (hchild : child ∈ n.children) :
    child.Sound input :=
  fun m hm => h m (.head hchild hm)

end TreeNode

namespace Parser

variable {input : Input} {i j k : Nat} {n : TreeNode} {as bs ns : List TreeNode}

/-- The node was read from the tokens from `i` up to `j`. -/
structure Lies (input : Input) (i j : Nat) (n : TreeNode) : Prop where
  lt : i < j
  le_stop : j ≤ input.stop
  span : n.span = input.spanFrom i j
  sound : input.Ordered → n.Sound input

/-- The nodes were read one after the other between the tokens `i` and `j`. -/
inductive InRow (input : Input) : Nat → Nat → List TreeNode → Prop
  | nil {i j : Nat} (h : i ≤ j) : InRow input i j []
  | cons {i first last j : Nat} {n : TreeNode} {rest : List TreeNode} (hi : i ≤ first)
      (hn : Lies input first last n) (hrest : InRow input last j rest) : InRow input i j (n :: rest)

namespace InRow

theorem le (h : InRow input i j ns) : i ≤ j := by
  induction h with
  | nil h => exact h
  | cons hi hn _ ih => exact Nat.le_trans hi (Nat.le_trans (Nat.le_of_lt hn.lt) ih)

theorem mono {i' j' : Nat} (h : InRow input i j ns) (hi : i' ≤ i) (hj : j ≤ j') :
    InRow input i' j' ns := by
  induction h generalizing i' with
  | nil h => exact .nil (Nat.le_trans hi (Nat.le_trans h hj))
  | cons hfirst hn _ ih => exact .cons (Nat.le_trans hi hfirst) hn (ih (Nat.le_refl _) hj)

theorem append (h : InRow input i j as) (h' : InRow input j k bs) : InRow input i k (as ++ bs) := by
  induction h with
  | nil h => exact h'.mono h (Nat.le_refl _)
  | cons hi hn _ ih => exact .cons hi hn (ih h')

theorem single (h : Lies input i j n) : InRow input i j [n] :=
  .cons (Nat.le_refl _) h (.nil (Nat.le_refl _))

theorem lies_of_mem (h : InRow input i j ns) (hn : n ∈ ns) :
    ∃ first last, i ≤ first ∧ last ≤ j ∧ Lies input first last n := by
  induction h with
  | nil => exact absurd hn List.not_mem_nil
  | cons hi hfirst hrest ih =>
    rcases List.mem_cons.mp hn with rfl | hn
    · exact ⟨_, _, hi, hrest.le, hfirst⟩
    · obtain ⟨first, last, hle, hlast, hlies⟩ := ih hn
      refine ⟨first, last, ?_, hlast, hlies⟩
      exact Nat.le_trans hi (Nat.le_trans (Nat.le_of_lt hfirst.lt) hle)

theorem pairwise (hinput : input.Ordered) (h : InRow input i j ns) :
    ns.Pairwise TreeNode.Before := by
  induction h with
  | nil => exact .nil
  | cons _ hfirst hrest ih =>
    refine .cons (fun n hn => ?_) ih
    obtain ⟨first, last, hle, _, hlies⟩ := hrest.lies_of_mem hn
    show _ ≤ _
    rw [hfirst.span, hlies.span]
    exact hinput.spanFrom_before hfirst.lt hle hlies.lt hlies.le_stop

end InRow

namespace Lies

/-- A node that spans the tokens from which its rows were read lies there. -/
theorem of_rows (hij : i < j) (hj : j ≤ input.stop) (hspan : n.span = input.spanFrom i j)
    (hrows : ∀ row ∈ n.rows, InRow input i j row) : Lies input i j n := by
  have hchildren : ∀ child ∈ n.children,
      ∃ first last, i ≤ first ∧ last ≤ j ∧ Lies input first last child := by
    intro child hchild
    obtain ⟨row, hrow, hmem⟩ := List.mem_flatten.mp hchild
    exact (hrows row hrow).lies_of_mem hmem
  refine ⟨hij, hj, hspan, fun hinput => .of_children ⟨⟨i, j, hij, hj, hspan⟩, ?_, ?_⟩ ?_⟩
  · intro child hchild
    obtain ⟨first, last, hfirst, hlast, hlies⟩ := hchildren child hchild
    rw [hspan, hlies.span]
    exact hinput.spanFrom_inside hfirst hlies.lt hlast hj
  · exact fun row hrow => (hrows row hrow).pairwise hinput
  · intro child hchild
    obtain ⟨_, _, _, _, hlies⟩ := hchildren child hchild
    exact hlies.sound hinput

theorem of_expr {e : Expr} (hij : i < j) (hj : j ≤ input.stop)
    (hspan : e.span = input.spanFrom i j) (hparts : InRow input i j (e.parts.map .expr)) :
    Lies input i j (.expr e) :=
  .of_rows hij hj hspan (List.forall_mem_singleton.mpr hparts)

/-- A node of the same place with the same nodes below it. -/
theorem congr {n' : TreeNode} (h : Lies input i j n) (hspan : n'.span = n.span)
    (hrows : n'.rows = n.rows) : Lies input i j n' := by
  have hchildren : n'.children = n.children := congrArg List.flatten hrows
  refine ⟨h.lt, h.le_stop, hspan.trans h.span, fun hinput => ?_⟩
  have hproper := (h.sound hinput).proper
  refine .of_children ⟨?_, ?_, ?_⟩ ?_
  · rw [hspan]
    exact hproper.place
  · rw [hspan, hchildren]
    exact hproper.inside
  · rw [hrows]
    exact hproper.rows
  · rw [hchildren]
    exact fun child hchild => (h.sound hinput).child hchild

end Lies

/-- The statement that was read lies where it was read. -/
def Stands (input : Input) (i : Nat) (o : Option Stmt) (j : Nat) : Prop :=
  ∀ s ∈ o, Lies input i j (.stmt s)

namespace Stands

variable {s : Stmt}

theorem of_rows (hij : i < j) (hj : j ≤ input.stop) (hspan : s.span = input.spanFrom i j)
    (hrows : ∀ row ∈ s.rows, InRow input i j row) : Stands input i (some s) j := by
  intro t ht
  cases ht
  exact .of_rows hij hj hspan hrows

/-- A statement whose nodes were read in one row. -/
theorem of_row {row : List TreeNode} (hij : i < j) (hj : j ≤ input.stop)
    (hspan : s.span = input.spanFrom i j) (hrows : s.rows = [row]) (hrow : InRow input i j row) :
    Stands input i (some s) j := by
  refine .of_rows hij hj hspan ?_
  rw [hrows]
  exact List.forall_mem_singleton.mpr hrow

/-- A statement without nodes. -/
theorem of_leaf (hij : i < j) (hj : j ≤ input.stop) (hspan : s.span = input.spanFrom i j)
    (hrows : s.rows = []) : Stands input i (some s) j := by
  refine .of_rows hij hj hspan ?_
  rw [hrows]
  exact List.forall_mem_nil _

theorem none : Stands input i none j :=
  nofun

end Stands

end Parser

end FrameBasic
