import FrameBasic.Proofs.Reader.Faithful
import FrameBasic.Script.Program

/-!
# The order of the data

The data pool is filled on a walk through the tree, which meets the statements in the order in which
they are written, with one exception: it meets the statements of a `Default` behind those of all
cases of the same `Select`, and they may be written before.  So the pool follows the source exactly
when no `Data` of a `Default` is written before one of a case.

## Main definitions

* `Program.splits` — the statements in a case of a `Select`, each with each one in its `Default`.
* `MetBefore` — how a walk may meet one statement before another.
* `Program.dataStmts` — the `Data` statements as the walk meets them.

## Main results

* `Stmt.pairwise_within` — the walk follows the source unless a `Select` splits two statements.
* `Program.sublist_of_mem_splits` — a case is met before the `Default`.
* `DataPool.offset_eq` — a label stands for the values that the walk meets before it.
* `DataPool.ofProgram_order` — **when the pool follows the source**.
-/

namespace FrameBasic

/-! ### The walk -/

namespace Stmt

/-- The statements in a case of a `Select`, each with each one in its `Default`. -/
def splits : Stmt → List (Stmt × Stmt)
  | .select _ _ cases default =>
    (casesWithin true cases).product (stmtsWithin true (default.getD []))
  | _ => []

theorem mem_within_self (s : Stmt) : s ∈ s.within true := by
  rw [within_eq_inner]
  exact List.mem_cons_self

theorem within_sublist_of_mem {s t : Stmt} (h : t ∈ s.within true) :
    (t.within true).Sublist (s.within true) := by
  induction s using Stmt.induction_on_inner with
  | h s ih =>
    rw [within_eq_inner] at h
    rcases List.mem_cons.mp h with rfl | h
    · exact .refl _
    · rw [within_eq_inner s]
      obtain ⟨u, hu, ht⟩ := mem_stmtsWithin.mp h
      obtain ⟨block, hblock, hmem⟩ := List.mem_flatten.mp hu
      refine .cons _ ((ih block hblock u hmem ht).trans ?_)
      rw [stmtsWithin_eq_flatMap]
      exact List.sublist_flatten_of_mem (List.mem_map_of_mem hu)

/-- The walk meets the cases of a `Select` before its `Default`. -/
theorem sublist_of_mem_splits {s a b : Stmt} (h : (a, b) ∈ s.splits) :
    [a, b].Sublist (s.within true) := by
  cases s with
  | select span subject clauses default =>
    obtain ⟨ha, hb⟩ := List.pair_mem_product.mp h
    cases default with
    | none => cases hb
    | some default =>
      exact .cons _ ((List.singleton_sublist.mpr ha).append (List.singleton_sublist.mpr hb))
  | _ => cases h

end Stmt

variable {input : Parser.Input}

theorem TreeNode.Sound.inside {n m : TreeNode} (h : n.Sound input) (hm : n.Holds m) :
    n.span.start ≤ m.span.start ∧ m.span.stop ≤ n.span.stop := by
  induction hm with
  | refl => exact ⟨Nat.le_refl _, Nat.le_refl _⟩
  | tail hm hchild ih =>
    have hinside := (h _ hm).inside _ hchild
    exact ⟨Nat.le_trans ih.1 hinside.1, Nat.le_trans hinside.2 ih.2⟩

theorem TreeNode.Sound.of_holds {n m : TreeNode} (h : n.Sound input) (hm : n.Holds m) :
    m.Sound input :=
  fun k hk => h k (hm.trans hk)

namespace Stmt

/-- The statements of the cases of a `Select` stand behind each other. -/
theorem pairwise_clauses {span : Span} {subject : Expr} {clauses : List CaseClause}
    {default : Option (List Stmt)}
    (hs : (TreeNode.stmt (.select span subject clauses default)).Sound input) :
    (clauses.map CaseClause.body).flatten.Pairwise fun a b => a.span.stop ≤ b.span.start := by
  have hrow := (List.pairwise_cons.mp (hs.proper.rows _ List.mem_cons_self)).2
  have hclause : ∀ clause ∈ clauses, (TreeNode.clause clause).Sound input := by
    intro clause hmem
    refine hs.child (List.mem_flatten.mpr ⟨_, List.mem_cons_self, List.mem_cons_of_mem _ ?_⟩)
    exact List.mem_map_of_mem hmem
  have hchild : ∀ clause : CaseClause, ∀ s ∈ clause.body,
      TreeNode.stmt s ∈ (TreeNode.clause clause).children := by
    intro clause s hmem
    refine List.mem_flatten.mpr ⟨_, List.mem_cons_self, List.mem_append_right _ ?_⟩
    exact List.mem_map_of_mem hmem
  rw [← List.flatMap_def, List.pairwise_flatMap]
  constructor
  · intro clause hmem
    have hbody := (hclause clause hmem).proper.rows _ List.mem_cons_self
    exact List.pairwise_map.mp (hbody.sublist (List.sublist_append_right _ _))
  · refine (List.pairwise_map.mp hrow).imp_of_mem fun {c d} hc hd hbefore a ha b hb => ?_
    have hcase := (hclause c hc).proper.inside _ (hchild c a ha)
    have hcase' := (hclause d hd).proper.inside _ (hchild d b hb)
    exact Nat.le_trans hcase.2 (Nat.le_trans hbefore hcase'.1)

/-- The statements right below one stand behind each other, unless it is a `Select` that splits
them. -/
theorem pairwise_inner {s : Stmt} (hs : (TreeNode.stmt s).Sound input) :
    s.inner.Pairwise fun a b => a.span.stop ≤ b.span.start ∨
      ∀ x ∈ a.within true, ∀ y ∈ b.within true, (x, y) ∈ s.splits := by
  by_cases hselect : ∃ span subject clauses default, s = .select span subject clauses default
  · obtain ⟨span, subject, clauses, default, rfl⟩ := hselect
    simp only [inner, blocks, routines, List.append_nil, List.flatten_append]
    refine List.pairwise_append.mpr ⟨?_, ?_, ?_⟩
    · exact (pairwise_clauses hs).imp fun h => .inl h
    · have hrow := hs.proper.rows _ (List.mem_cons_of_mem _ List.mem_cons_self)
      cases default with
      | none => exact .nil
      | some default =>
        rw [Option.toList_some, List.flatten_singleton]
        exact (List.pairwise_map.mp hrow).imp fun h => .inl h
    · intro a ha b hb
      refine .inr fun x hx y hy => List.pair_mem_product.mpr ⟨?_, ?_⟩
      · rw [casesWithin_eq_flatMap]
        obtain ⟨body, hbody, ha⟩ := List.mem_flatten.mp ha
        exact List.mem_flatMap.mpr ⟨body, hbody, mem_stmtsWithin.mpr ⟨a, ha, hx⟩⟩
      · obtain ⟨block, hblock, hmem⟩ := List.mem_flatten.mp hb
        obtain rfl := Option.mem_toList.mp hblock
        exact mem_stmtsWithin.mpr ⟨b, hmem, hy⟩
  · have hother : ∀ span subject clauses default, s ≠ .select span subject clauses default :=
      fun span subject clauses default heq => hselect ⟨span, subject, clauses, default, heq⟩
    cases hblocks : s.blocks ++ s.routines with
    | nil =>
      rw [inner, hblocks]
      exact .nil
    | cons block rest =>
      have hblock : block ∈ s.blocks ++ s.routines := by
        rw [hblocks]
        exact List.mem_cons_self
      obtain ⟨row, hrow, hsub⟩ := exists_row_of_inner hother hblock
      have hpairwise := (hs.proper.rows row hrow).sublist hsub
      exact (List.pairwise_map.mp hpairwise).imp fun h => .inl h

theorem nonempty_of_sound (hinput : input.Ordered) {s : Stmt} (hs : (TreeNode.stmt s).Sound input) :
    s.span.start < s.span.stop := by
  obtain ⟨i, j, hij, hj, hspan⟩ := hs.proper.place
  have hspan : s.span = input.spanFrom i j := hspan
  rw [hspan]
  exact hinput.spanFrom_nonempty hij hj

end Stmt

/-- Of two statements that a walk meets, the first one begins before the second one, or it holds the
second one, or they are split. -/
def MetBefore (split : Stmt → Stmt → Prop) (a b : Stmt) : Prop :=
  a.span.start < b.span.start ∨ b ∈ stmtsWithin true a.inner ∨ split a b

/-- What stands in statements that stand behind each other does so too. -/
theorem pairwise_stmtsWithin {split : Stmt → Stmt → Prop} {stmts : List Stmt}
    (hinput : input.Ordered) (hsound : ∀ s ∈ stmts, (TreeNode.stmt s).Sound input)
    (hrow : stmts.Pairwise fun a b => a.span.stop ≤ b.span.start ∨
      ∀ x ∈ a.within true, ∀ y ∈ b.within true, split x y)
    (heach : ∀ s ∈ stmts, (s.within true).Pairwise (MetBefore split)) :
    (stmtsWithin true stmts).Pairwise (MetBefore split) := by
  rw [stmtsWithin_eq_flatMap, List.pairwise_flatMap]
  refine ⟨heach, hrow.imp_of_mem fun {s t} hs ht h x hx y hy => ?_⟩
  rcases h with hbefore | hsplit
  · -- `x` ends no later than `s`, and `y` begins no earlier than `t`
    have hx := Stmt.holds_of_mem_within hx
    have hfirst : x.span.stop ≤ s.span.stop := ((hsound s hs).inside hx).2
    have hsecond : t.span.start ≤ y.span.start :=
      ((hsound t ht).inside (Stmt.holds_of_mem_within hy)).1
    have hwide := Stmt.nonempty_of_sound hinput ((hsound s hs).of_holds hx)
    left
    omega
  · exact .inr (.inr (hsplit x hx y hy))

theorem MetBefore.of_leaf {split : Stmt → Stmt → Prop} {a b : Stmt} (h : MetBefore split a b)
    (ha : a.inner = []) : a.span.start < b.span.start ∨ split a b := by
  rcases h with h | h | h
  · exact .inl h
  · rw [ha] at h
    cases h
  · exact .inr h

theorem MetBefore.imp {split split' : Stmt → Stmt → Prop} {a b : Stmt}
    (himp : split a b → split' a b) (h : MetBefore split a b) : MetBefore split' a b :=
  h.imp_right (Or.imp_right himp)

/-- The walk through a statement follows the source, unless a `Select` splits two statements. -/
theorem Stmt.pairwise_within (hinput : input.Ordered) {s : Stmt}
    (hs : (TreeNode.stmt s).Sound input) :
    (s.within true).Pairwise (MetBefore fun a b => ∃ t ∈ s.within true, (a, b) ∈ t.splits) := by
  induction s using Stmt.induction_on_inner with
  | h s ih =>
    have hinner : ∀ t ∈ s.inner, t ∈ s.within true := by
      intro t ht
      rw [within_eq_inner]
      refine List.mem_cons_of_mem _ (mem_stmtsWithin.mpr ⟨t, ht, ?_⟩)
      exact t.mem_within_self
    have hsound : ∀ t ∈ s.inner, (TreeNode.stmt t).Sound input :=
      fun t ht => hs.of_holds (holds_of_mem_within (hinner t ht))
    have hrow := (pairwise_inner hs).imp fun {a b} h => h.imp_right fun hsplit x hx y hy =>
      (⟨s, s.mem_within_self, hsplit x hx y hy⟩ : ∃ t ∈ s.within true, (x, y) ∈ t.splits)
    have hstmts := pairwise_stmtsWithin hinput hsound hrow fun t ht => by
      obtain ⟨block, hblock, hmem⟩ := List.mem_flatten.mp ht
      refine (ih block hblock t hmem (hsound t ht)).imp fun h => h.imp fun ⟨u, hu, hsplit⟩ => ?_
      exact ⟨u, (within_sublist_of_mem (hinner t ht)).subset hu, hsplit⟩
    -- the statement itself is met first, and it holds all others
    rw [within_eq_inner s, List.pairwise_cons, ← within_eq_inner s]
    exact ⟨fun b hb => .inr (.inl hb), hstmts⟩

/-- The statements in a case of a `Select`, each with each one in its `Default`. -/
def Program.splits (p : Program) : List (Stmt × Stmt) :=
  (stmtsWithin true p.stmts).flatMap Stmt.splits

theorem Program.sublist_of_mem_splits {p : Program} {a b : Stmt} (h : (a, b) ∈ p.splits) :
    [a, b].Sublist (stmtsWithin true p.stmts) := by
  obtain ⟨s, hs, h⟩ := List.mem_flatMap.mp h
  obtain ⟨t, ht, hs⟩ := mem_stmtsWithin.mp hs
  refine ((Stmt.sublist_of_mem_splits h).trans (Stmt.within_sublist_of_mem hs)).trans ?_
  rw [stmtsWithin_eq_flatMap]
  exact List.sublist_flatten_of_mem (List.mem_map_of_mem ht)

/-- The walk through a program follows the source, unless a `Select` splits two statements. -/
theorem Program.pairwise_walk {commands : CommandTable} {source : String}
    (h : (Program.parse commands (tokens commands source)).errors = []) :
    let p := (Program.parse commands (tokens commands source)).program
    (stmtsWithin true p.stmts).Pairwise (MetBefore fun a b => (a, b) ∈ p.splits) := by
  intro p
  have hordered : (Parser.Input.ofTokens commands (tokens commands source)).Ordered :=
    Parser.Input.ordered_ofTokens
  have hsound : ∀ s ∈ p.stmts, (TreeNode.stmt s).Sound _ :=
    fun s hs => sound_of_holds h ⟨s, hs, .refl⟩
  have hrow := List.pairwise_map.mp ((Parser.readAll_inRow h).pairwise hordered)
  refine pairwise_stmtsWithin hordered hsound (hrow.imp fun hbefore => .inl hbefore) fun s hs => ?_
  refine (Stmt.pairwise_within hordered (hsound s hs)).imp fun h => h.imp fun ⟨t, ht, hsplit⟩ => ?_
  exact List.mem_flatMap.mpr ⟨t, mem_stmtsWithin.mpr ⟨s, hs, ht⟩, hsplit⟩

/-! ### The pool -/

/-- A `Data` statement. -/
def Stmt.isData : Stmt → Bool
  | .data .. => true
  | _ => false

/-- A label of this name, whatever the case of its letters. -/
def Stmt.declares (name : String) : Stmt → Bool
  | .label _ declared => Text.lower declared = Text.lower name
  | _ => false

theorem Stmt.inner_of_isData {s : Stmt} (h : s.isData = true) : s.inner = [] := by
  cases s with
  | data => rfl
  | _ => cases h

theorem Stmt.inner_of_declares {name : String} {s : Stmt} (h : s.declares name = true) :
    s.inner = [] := by
  cases s with
  | label => rfl
  | _ => cases h

theorem Stmt.isData_of_declares {name : String} {s : Stmt} (h : s.declares name = true) :
    s.isData = false := by
  cases s with
  | label => rfl
  | _ => cases h

/-- The `Data` statements as the walk meets them. -/
def Program.dataStmts (p : Program) : List Stmt :=
  (stmtsWithin true p.stmts).filter Stmt.isData

namespace DataPool

theorem labelsFrom_append (count : Nat) (as bs : List Stmt) :
    labelsFrom count (as ++ bs) =
      labelsFrom count as ++ labelsFrom (count + (as.flatMap Stmt.dataValues).length) bs := by
  induction as generalizing count with
  | nil => rfl
  | cons a rest ih =>
    cases a with
    | label span name => simp [labelsFrom, ih, Stmt.dataValues]
    | data span values => simp [labelsFrom, ih, Stmt.dataValues, Nat.add_assoc]
    | _ => simp [labelsFrom, ih, Stmt.dataValues]

theorem get?_labelsFrom_append {name : String} {as : List Stmt} {count : Nat}
    {rest : Dict Nat} (h : ∀ a ∈ as, a.declares name = false) :
    Dict.get? (Text.lower name) (labelsFrom count as ++ rest) =
      Dict.get? (Text.lower name) rest := by
  induction as generalizing count with
  | nil => rfl
  | cons a as ih =>
    have hrest := fun b hb => h b (List.mem_cons_of_mem _ hb)
    cases a with
    | label span label =>
      have hne : Text.lower label ≠ Text.lower name :=
        of_decide_eq_false (h _ List.mem_cons_self)
      rw [labelsFrom, List.cons_append, Dict.get?, if_neg hne]
      exact ih hrest
    | _ => exact ih hrest

variable {p : Program} {name : String} {before after : List Stmt} {l : Stmt}

/-- A label stands for the values that the walk meets before it, unless the name was declared
already. -/
theorem offset_eq (hwalk : stmtsWithin true p.stmts = before ++ l :: after)
    (hl : l.declares name = true) (hbefore : ∀ s ∈ before, s.declares name = false) :
    (ofProgram p).offset (some name) = (before.flatMap Stmt.dataValues).length := by
  cases l with
  | label span label =>
    have heq : Text.lower label = Text.lower name := of_decide_eq_true hl
    unfold offset
    rw [Option.bind_some, ofProgram, hwalk, labelsFrom_append, get?_labelsFrom_append hbefore,
      labelsFrom, Dict.get?, if_pos heq, Nat.zero_add, Option.getD_some]
  | _ => cases hl

theorem drop_offset (hwalk : stmtsWithin true p.stmts = before ++ l :: after)
    (hl : l.declares name = true) (hbefore : ∀ s ∈ before, s.declares name = false) :
    (ofProgram p).values.drop ((ofProgram p).offset (some name)) =
      after.flatMap Stmt.dataValues := by
  have hvalues : (ofProgram p).values =
      before.flatMap Stmt.dataValues ++ after.flatMap Stmt.dataValues := by
    cases l with
    | label span label => simp [ofProgram, hwalk, Stmt.dataValues]
    | _ => cases hl
  rw [offset_eq hwalk hl hbefore, hvalues, List.drop_left]

theorem flatMap_dataValues_filter (stmts : List Stmt) :
    (stmts.filter Stmt.isData).flatMap Stmt.dataValues = stmts.flatMap Stmt.dataValues := by
  induction stmts with
  | nil => rfl
  | cons s rest ih =>
    cases s with
    | data span values =>
      rw [List.filter_cons_of_pos rfl, List.flatMap_cons, List.flatMap_cons, ih]
    | _ => exact ih

/-- A place that the walk passes as the source does divides the `Data` statements. -/
theorem dataStmts_filter {place : Nat} (hwalk : stmtsWithin true p.stmts = before ++ l :: after)
    (hl : l.isData = false) (hbefore : ∀ s ∈ before, s.isData = true → s.span.start < place)
    (hafter : ∀ s ∈ after, s.isData = true → place < s.span.start) :
    p.dataStmts.filter (fun s => s.span.start < place) = before.filter Stmt.isData ∧
      p.dataStmts.filter (fun s => place < s.span.start) = after.filter Stmt.isData := by
  have hdata : p.dataStmts = before.filter Stmt.isData ++ after.filter Stmt.isData := by
    have hne : ¬ l.isData = true := by simp [hl]
    rw [Program.dataStmts, hwalk, List.filter_append, List.filter_cons_of_neg hne]
  have hall : ∀ (stmts : List Stmt) (q : Stmt → Bool),
      (∀ s ∈ stmts, s.isData = true → q s = true) →
      (stmts.filter Stmt.isData).filter q = stmts.filter Stmt.isData := fun stmts q h =>
    List.filter_eq_self.mpr fun s hs => h s (List.mem_filter.mp hs).1 (List.mem_filter.mp hs).2
  have hnone : ∀ (stmts : List Stmt) (q : Stmt → Bool),
      (∀ s ∈ stmts, s.isData = true → q s = false) → (stmts.filter Stmt.isData).filter q = [] := by
    intro stmts q h
    refine List.filter_eq_nil_iff.mpr fun s hs => ?_
    rw [h s (List.mem_filter.mp hs).1 (List.mem_filter.mp hs).2]
    exact Bool.false_ne_true
  rw [hdata, List.filter_append, List.filter_append]
  constructor
  · rw [hall before, hnone after, List.append_nil]
    · exact fun s hs hkind => decide_eq_false (Nat.not_lt.mpr (Nat.le_of_lt (hafter s hs hkind)))
    · exact fun s hs hkind => decide_eq_true (hbefore s hs hkind)
  · rw [hnone before, hall after, List.nil_append]
    · exact fun s hs hkind => decide_eq_true (hafter s hs hkind)
    · exact fun s hs hkind => decide_eq_false (Nat.not_lt.mpr (Nat.le_of_lt (hbefore s hs hkind)))

variable (hwalk : (stmtsWithin true p.stmts).Pairwise (MetBefore fun a b => (a, b) ∈ p.splits))
include hwalk

theorem pairwise_dataStmts_iff :
    p.dataStmts.Pairwise (fun a b => a.span.start < b.span.start) ↔
      ∀ pair ∈ p.splits, pair.1.isData = true → pair.2.isData = true →
        pair.1.span.start < pair.2.span.start := by
  constructor
  · -- the walk meets the case before the `Default`, so the order of the list is that of the pair
    intro hsorted ⟨a, b⟩ hpair ha hb
    have hsub := (Program.sublist_of_mem_splits hpair).filter Stmt.isData
    rw [List.filter_cons_of_pos ha, List.filter_cons_of_pos hb] at hsub
    exact List.pairwise_iff_forall_sublist.mp hsorted hsub
  · intro hsplits
    refine (hwalk.filter Stmt.isData).imp_of_mem fun {a b} ha hb hmet => ?_
    have ha := (List.mem_filter.mp ha).2
    rcases hmet.of_leaf (Stmt.inner_of_isData ha) with hlt | hpair
    · exact hlt
    · exact hsplits _ hpair ha (List.mem_filter.mp hb).2

/-- The walk meets the declaration of a label that is written first before any other, and behind the
`Data` statements that are written before it. -/
theorem exists_walk_of_declares (hl : l ∈ stmtsWithin true p.stmts)
    (hdeclares : l.declares name = true)
    (hfirst : ∀ m ∈ stmtsWithin true p.stmts, m.declares name = true →
      l.span.start ≤ m.span.start)
    (hsplits : ∀ pair ∈ p.splits, pair.1.declares name = true ∨ pair.2.declares name = true →
      pair.1.isData = true ∨ pair.1.declares name = true →
      pair.2.isData = true ∨ pair.2.declares name = true →
      pair.1.span.start < pair.2.span.start) :
    ∃ before after, stmtsWithin true p.stmts = before ++ l :: after ∧
      (∀ m ∈ before, m.declares name = false) ∧
      (∀ m ∈ before, m.isData = true → m.span.start < l.span.start) ∧
      ∀ m ∈ after, m.isData = true → l.span.start < m.span.start := by
  obtain ⟨before, after, heq⟩ := List.append_of_mem hl
  rw [heq] at hwalk
  obtain ⟨-, hafter, hbefore⟩ := List.pairwise_append.mp hwalk
  have hearlier : ∀ m ∈ before, m.isData = true ∨ m.declares name = true →
      m.span.start < l.span.start := by
    intro m hm hkind
    have hleaf : m.inner = [] := hkind.elim Stmt.inner_of_isData Stmt.inner_of_declares
    rcases (hbefore m hm l List.mem_cons_self).of_leaf hleaf with hlt | hpair
    · exact hlt
    · exact hsplits _ hpair (.inr hdeclares) hkind (.inr hdeclares)
  refine ⟨before, after, heq, ?_, fun m hm hdata => hearlier m hm (.inl hdata), ?_⟩
  · -- another label of the name that is met before would be written before the first one
    intro m hm
    by_contra hother
    have hother : m.declares name = true := by simpa using hother
    have hle := hfirst m (heq ▸ List.mem_append_left _ hm) hother
    have hlt := hearlier m hm (.inr hother)
    omega
  · intro m hm hdata
    have hmet := (List.pairwise_cons.mp hafter).1 m hm
    rcases hmet.of_leaf (Stmt.inner_of_declares hdeclares) with hlt | hpair
    · exact hlt
    · exact hsplits _ hpair (.inl hdeclares) (.inr hdeclares) (.inl hdata)

omit hwalk

/-- The pool of a program that is read without an error holds the values of its `Data` statements.
They stand in it as they are written exactly when, of a `Data` in a case of a `Select` and one in
its `Default`, the one in the case is written first.

When this is so for a label and any `Data`, or another label of the same name, it stands for the
number of values that are written before its first declaration, and `Restore` goes on with those
that are written behind it. -/
theorem ofProgram_order (commands : CommandTable) (source : String)
    (h : (Program.parse commands (tokens commands source)).errors = []) :
    let p := (Program.parse commands (tokens commands source)).program
    let pool := ofProgram p
    pool.values = p.dataStmts.flatMap Stmt.dataValues ∧
    (p.dataStmts.Pairwise (fun a b => a.span.start < b.span.start) ↔
      ∀ pair ∈ p.splits, pair.1.isData = true → pair.2.isData = true →
        pair.1.span.start < pair.2.span.start) ∧
    ∀ name, ∀ l ∈ stmtsWithin true p.stmts, l.declares name = true →
      (∀ m ∈ stmtsWithin true p.stmts, m.declares name = true → l.span.start ≤ m.span.start) →
      (∀ pair ∈ p.splits, pair.1.declares name = true ∨ pair.2.declares name = true →
        pair.1.isData = true ∨ pair.1.declares name = true →
        pair.2.isData = true ∨ pair.2.declares name = true →
        pair.1.span.start < pair.2.span.start) →
      let earlier := p.dataStmts.filter fun s => s.span.start < l.span.start
      let later := p.dataStmts.filter fun s => l.span.start < s.span.start
      pool.offset (some name) = (earlier.flatMap Stmt.dataValues).length ∧
      pool.values.drop (pool.offset (some name)) = later.flatMap Stmt.dataValues ∧
      ∀ routine enclosing number span,
        Script.stmtCode (Script.Plan.ofProgram commands p).context routine enclosing number
            (.restore span (some name)) =
          [.line (Script.plain ("$dataPtr = " ++
            toString (earlier.flatMap Stmt.dataValues).length ++ ";"))] := by
  intro p pool
  have hwalk : (stmtsWithin true p.stmts).Pairwise _ := Program.pairwise_walk h
  refine ⟨(flatMap_dataValues_filter _).symm, pairwise_dataStmts_iff hwalk, ?_⟩
  intro name l hl hdeclares hfirst hsplits earlier later
  obtain ⟨before, after, heq, hnone, hbefore, hafter⟩ :=
    exists_walk_of_declares hwalk hl hdeclares hfirst hsplits
  have hfilter := dataStmts_filter heq (Stmt.isData_of_declares hdeclares) hbefore hafter
  have hearlier : earlier = before.filter Stmt.isData := hfilter.1
  have hlater : later = after.filter Stmt.isData := hfilter.2
  have hoffset : pool.offset (some name) = (earlier.flatMap Stmt.dataValues).length := by
    rw [hearlier, flatMap_dataValues_filter]
    exact offset_eq heq hdeclares hnone
  refine ⟨hoffset, ?_, fun routine enclosing number span => ?_⟩
  · rw [hlater, flatMap_dataValues_filter]
    exact drop_offset heq hdeclares hnone
  · rw [← hoffset]
    rfl

/-- A `Default` behind the case. -/
theorem ofProgram_order_default_last :
    let source := "Data 7\nSelect 1\nCase 1\nData 2, 3\nDefault\n.L\nData 1\nEnd Select"
    let parsed := Program.parse (.ofList []) (tokens (.ofList []) source)
    let pool := ofProgram parsed.program
    parsed.errors = [] ∧
    parsed.program.dataStmts.Pairwise (fun a b => a.span.start < b.span.start) ∧
    pool.offset (some "l") = 3 := by
  intro source parsed pool
  have hruns : parsed.errors = [] ∧
      (∀ pair ∈ parsed.program.splits, pair.1.isData = true → pair.2.isData = true →
        pair.1.span.start < pair.2.span.start) ∧
      (∀ pair ∈ parsed.program.splits,
        pair.1.declares "l" = true ∨ pair.2.declares "l" = true →
        pair.1.isData = true ∨ pair.1.declares "l" = true →
        pair.2.isData = true ∨ pair.2.declares "l" = true →
        pair.1.span.start < pair.2.span.start) ∧
      ∃ l ∈ stmtsWithin true parsed.program.stmts, l.declares "l" = true ∧
        (∀ m ∈ stmtsWithin true parsed.program.stmts, m.declares "l" = true →
          l.span.start ≤ m.span.start) ∧
        ((parsed.program.dataStmts.filter fun s => s.span.start < l.span.start).flatMap
          Stmt.dataValues).length = 3 := by
    decide +kernel
  obtain ⟨herrors, hdata, hsplits, l, hl, hdeclares, hfirst, hcount⟩ := hruns
  obtain ⟨-, horder, hlabel⟩ := ofProgram_order (.ofList []) source herrors
  exact ⟨herrors, horder.mpr hdata, (hlabel "l" l hl hdeclares hfirst hsplits).1.trans hcount⟩

/-- A `Default` that is written before the case: the pool begins with the value that is written
last, and the label stands for one value though none is written before it. -/
theorem default_out_of_order :
    let source := "Select 1\nDefault\n.L\nData 1\nCase 1\nData 2\nEnd Select"
    let parsed := Program.parse (.ofList []) (tokens (.ofList []) source)
    let pool := ofProgram parsed.program
    parsed.errors = [] ∧ pool.values = [.integer 2, .integer 1] ∧
    ¬ parsed.program.dataStmts.Pairwise (fun a b => a.span.start < b.span.start) ∧
    pool.offset (some "L") = 1 ∧
    ∃ l ∈ stmtsWithin true parsed.program.stmts, l.declares "L" = true ∧
      (parsed.program.dataStmts.filter fun s => s.span.start < l.span.start).length = 0 := by
  decide +kernel

end DataPool

end FrameBasic
