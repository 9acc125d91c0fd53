import FrameBasic.Program.Binding

/-!
# The parts of trees

An expression is followed by its parts in a walk, and a statement by its blocks.  What a walk meets
is thus said by one equation for each, whatever the form of the node is, and an induction over trees
goes from the parts to the whole.

## Main definitions

* `Expr.parts` — the expressions right below one.
* `Stmt.blocks` — the blocks right below a statement.
* `Expr.calls`, `Expr.names` — what an expression calls and which names it uses, in it or below.
* `namesIn` — the names that statements use.

## Main results

* `Expr.subterms_eq`, `Stmt.within_false_eq` — what a walk meets.
* `Expr.induction_on_parts`, `Stmt.induction_on_blocks` — from the parts to the whole.
* `stmtsWithin_subset_of_mem_blocks`, `subterms_subset_exprsWithin` — what a statement holds, its
  blocks and its expressions hold.
* `Expr.calls_subset_callees`, `Expr.names_subset_namesIn` — a statement calls and uses what its
  expressions do.
-/

namespace FrameBasic

namespace Expr

/-- The expressions right below one. -/
def parts : Expr → List Expr
  | .binary _ left _ right => [left, right]
  | .unary _ _ operand => [operand]
  | .grouped _ inner => [inner]
  | .call _ _ args | .command _ _ args | .element _ _ args => args
  | .field _ object _ | .after _ object | .before _ object => [object]
  | _ => []

theorem subtermsAll_eq_flatMap (es : List Expr) : subtermsAll es = es.flatMap subterms := by
  induction es with
  | nil => rfl
  | cons e rest ih => rw [subtermsAll, ih, List.flatMap_cons]

theorem subterms_eq (e : Expr) : e.subterms = e :: e.parts.flatMap subterms := by
  cases e <;> simp [subterms, parts, subtermsAll_eq_flatMap]

theorem subterms_sublist_of_mem_parts {e part : Expr} (h : part ∈ e.parts) :
    part.subterms.Sublist (e.parts.flatMap subterms) :=
  List.sublist_flatten_of_mem (List.mem_map_of_mem h)

/-- From the parts of expressions to the whole. -/
theorem induction_on_parts {motive : Expr → Prop}
    (h : ∀ e, (∀ part ∈ e.parts, motive part) → motive e) (e : Expr) : motive e :=
  h e fun part _ => induction_on_parts h part
termination_by e.subterms.length
decreasing_by
  rw [subterms_eq e]
  exact Nat.lt_succ_of_le (subterms_sublist_of_mem_parts ‹_›).length_le

end Expr

namespace Stmt

/-- The blocks right below a statement.  The body of a function is a routine of its own. -/
def blocks : Stmt → List (List Stmt)
  | .if_ _ _ thenBranch elseIfs elseBranch =>
    thenBranch :: (elseIfs.map ElseIf.body ++ elseBranch.toList)
  | .while_ _ _ body | .repeat_ _ body _ | .for_ _ _ _ _ _ body | .forEach _ _ _ body => [body]
  | .select _ _ cases default => cases.map CaseClause.body ++ default.toList
  | _ => []

end Stmt

theorem stmtsWithin_eq_flatMap (into : Bool) (stmts : List Stmt) :
    stmtsWithin into stmts = stmts.flatMap (Stmt.within into) := by
  induction stmts with
  | nil => rfl
  | cons s rest ih => rw [stmtsWithin_cons, ih, List.flatMap_cons]

theorem elseIfsWithin_eq_flatMap (into : Bool) (branches : List ElseIf) :
    elseIfsWithin into branches = (branches.map ElseIf.body).flatMap (stmtsWithin into) := by
  induction branches with
  | nil => rfl
  | cons branch rest ih =>
    obtain ⟨condition, body⟩ := branch
    rw [elseIfsWithin, ih]
    rfl

theorem casesWithin_eq_flatMap (into : Bool) (cases : List CaseClause) :
    casesWithin into cases = (cases.map CaseClause.body).flatMap (stmtsWithin into) := by
  induction cases with
  | nil => rfl
  | cons clause rest ih =>
    obtain ⟨values, body, span⟩ := clause
    rw [casesWithin, ih]
    rfl

namespace Stmt

theorem within_false_eq (s : Stmt) :
    s.within false = s :: s.blocks.flatMap (stmtsWithin false) := by
  cases s with
  | if_ _ _ _ _ elseBranch =>
    cases elseBranch <;> simp [within, blocks, elseIfsWithin_eq_flatMap]
  | select _ _ _ default =>
    cases default <;> simp [within, blocks, casesWithin_eq_flatMap]
  | _ => simp [within, blocks]

theorem within_sublist_of_mem_blocks {s inner : Stmt} {block : List Stmt}
    (hblock : block ∈ s.blocks) (h : inner ∈ block) :
    (inner.within false).Sublist (s.blocks.flatMap (stmtsWithin false)) := by
  have hblocks : (stmtsWithin false block).Sublist (s.blocks.flatMap (stmtsWithin false)) :=
    List.sublist_flatten_of_mem (List.mem_map_of_mem hblock)
  rw [stmtsWithin_eq_flatMap] at hblocks
  exact (List.sublist_flatten_of_mem (List.mem_map_of_mem h)).trans hblocks

/-- From the blocks of statements to the whole. -/
theorem induction_on_blocks {motive : Stmt → Prop}
    (h : ∀ s, (∀ block ∈ s.blocks, ∀ inner ∈ block, motive inner) → motive s) (s : Stmt) :
    motive s :=
  h s fun block _ inner _ => induction_on_blocks h inner
termination_by (s.within false).length
decreasing_by
  rw [within_false_eq s]
  exact Nat.lt_succ_of_le (within_sublist_of_mem_blocks ‹_› ‹_›).length_le

end Stmt

/-! ### What the parts of a statement hold -/

theorem flatMap_subset {α β : Type} {f : α → List β} {as bs : List α} (h : as ⊆ bs) :
    as.flatMap f ⊆ bs.flatMap f := by
  intro b hb
  obtain ⟨a, ha, hmem⟩ := List.mem_flatMap.mp hb
  exact List.mem_flatMap.mpr ⟨a, h ha, hmem⟩

theorem stmtsWithin_subset_of_mem {s : Stmt} {stmts : List Stmt} (h : s ∈ stmts) :
    stmtsWithin false [s] ⊆ stmtsWithin false stmts := by
  rw [stmtsWithin_eq_flatMap, stmtsWithin_eq_flatMap]
  exact flatMap_subset (List.cons_subset.mpr ⟨h, List.nil_subset _⟩)

theorem stmtsWithin_subset_of_mem_blocks {s : Stmt} {block : List Stmt} (h : block ∈ s.blocks) :
    stmtsWithin false block ⊆ stmtsWithin false [s] := by
  intro inner hinner
  rw [stmtsWithin_cons, Stmt.within_false_eq]
  refine List.mem_append_left _ (List.mem_cons_of_mem _ ?_)
  exact List.mem_flatMap.mpr ⟨block, h, hinner⟩

theorem exprsWithin_subset {fewer stmts : List Stmt}
    (h : stmtsWithin false fewer ⊆ stmtsWithin false stmts) :
    exprsWithin false fewer ⊆ exprsWithin false stmts :=
  flatMap_subset h

theorem subterms_subset_exprsWithin {s : Stmt} {e : Expr} (h : e ∈ s.ownExprs) :
    e.subterms ⊆ exprsWithin false [s] := by
  intro sub hsub
  refine List.mem_flatMap.mpr ⟨s, ?_, List.mem_flatMap.mpr ⟨e, h, hsub⟩⟩
  rw [stmtsWithin_cons, Stmt.within_false_eq]
  exact List.mem_append_left _ List.mem_cons_self

theorem Expr.subterms_subset_of_mem_parts {e part : Expr} (h : part ∈ e.parts) :
    part.subterms ⊆ e.subterms := by
  rw [subterms_eq e]
  exact ((subterms_sublist_of_mem_parts h).trans (List.sublist_cons_self e _)).subset

theorem Expr.mem_subterms_self (e : Expr) : e ∈ e.subterms := by
  rw [subterms_eq]
  exact List.mem_cons_self

/-! ### Calls -/

/-- What an expression calls, in it or below. -/
def Expr.calls (e : Expr) : List Callee :=
  e.subterms.filterMap Expr.callee?

theorem Expr.mem_calls_self {e : Expr} {callee : Callee} (h : e.callee? = some callee) :
    callee ∈ e.calls :=
  List.mem_filterMap.mpr ⟨e, e.mem_subterms_self, h⟩

theorem Expr.calls_subset_of_mem_parts {e part : Expr} (h : part ∈ e.parts) :
    part.calls ⊆ e.calls :=
  List.filterMap_subset _ (subterms_subset_of_mem_parts h)

theorem callees_subset {fewer stmts : List Stmt}
    (h : stmtsWithin false fewer ⊆ stmtsWithin false stmts) : callees fewer ⊆ callees stmts :=
  List.filterMap_subset _ (exprsWithin_subset h)

/-- A statement calls what its expressions call. -/
theorem Expr.calls_subset_callees {s : Stmt} {e : Expr} (h : e ∈ s.ownExprs) :
    e.calls ⊆ callees [s] :=
  List.filterMap_subset _ (subterms_subset_exprsWithin h)

/-! ### Names -/

/-- The names that an expression uses, in it or below. -/
def Expr.names (e : Expr) : List String :=
  (e.subterms.flatMap Expr.uses).map Prod.fst

/-- The names that statements use, outside of functions inside them. -/
def namesIn (stmts : List Stmt) : List String :=
  (usesIn stmts).map Prod.fst

theorem Expr.mem_names_self {e : Expr} {name : String} {first : Initial}
    (h : (name, first) ∈ e.uses) : name ∈ e.names :=
  List.mem_map.mpr ⟨_, List.mem_flatMap.mpr ⟨e, e.mem_subterms_self, h⟩, rfl⟩

theorem Expr.names_subset_of_mem_parts {e part : Expr} (h : part ∈ e.parts) :
    part.names ⊆ e.names :=
  List.map_subset _ (flatMap_subset (subterms_subset_of_mem_parts h))

theorem namesIn_subset {fewer stmts : List Stmt}
    (h : stmtsWithin false fewer ⊆ stmtsWithin false stmts) : namesIn fewer ⊆ namesIn stmts := by
  intro name hname
  obtain ⟨use, huse, rfl⟩ := List.mem_map.mp hname
  refine List.mem_map_of_mem ?_
  rcases List.mem_append.mp huse with huse | huse
  · exact List.mem_append_left _ (flatMap_subset h huse)
  · refine List.mem_append_right _ ?_
    exact flatMap_subset (exprsWithin_subset h) huse

/-- A statement uses the names that its expressions use. -/
theorem Expr.names_subset_namesIn {s : Stmt} {e : Expr} (h : e ∈ s.ownExprs) :
    e.names ⊆ namesIn [s] := by
  intro name hname
  obtain ⟨use, huse, rfl⟩ := List.mem_map.mp hname
  refine List.mem_map_of_mem (List.mem_append_right _ ?_)
  exact flatMap_subset (subterms_subset_exprsWithin h) huse

/-- A statement uses the names that it declares or counts with. -/
theorem mem_namesIn_of_uses {s : Stmt} {name : String} {first : Initial}
    (h : (name, first) ∈ s.uses) : name ∈ namesIn [s] := by
  refine List.mem_map.mpr ⟨_, List.mem_append_left _ (List.mem_flatMap.mpr ⟨s, ?_, h⟩), rfl⟩
  rw [stmtsWithin_cons, Stmt.within_false_eq]
  exact List.mem_append_left _ List.mem_cons_self

end FrameBasic
