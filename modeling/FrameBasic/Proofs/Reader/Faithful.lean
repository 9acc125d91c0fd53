import FrameBasic.Proofs.Program.Binding
import FrameBasic.Proofs.Reader.StatementSteps
import FrameBasic.Proofs.Source.Position
import FrameBasic.Proofs.Token.Tiling

/-!
# Faithful places

The tokens of a text stand behind each other, and a token knows the line and the column of its first
character.  So do the nodes of a program that is read without an error, which span some of the
tokens: a node lies inside the one above it, and the statements of a block do not overlap.

## Main definitions

* `Program.Holds` — a node stands in the program.
* `Program.blocks` — the blocks of a program at any depth, and the program itself.

## Main results

* `locate_of_mem_tokens` — the line and the column of a token.
* `Parser.Input.ordered_ofTokens` — the tokens of a text stand behind each other.
* `Stmt.exists_row_of_block` — the statements of a block are found among the nodes.
* `Program.parse_spans` — **the places of nodes are faithful**.
-/

namespace FrameBasic

open String (utf8Len)

/-! ### Tokens -/

variable {commands : CommandTable} {source : String}

theorem locate_of_mem_tiles {t : Tile} (h : t ∈ tiles source) :
    locate source.toList t.span.start = (t.span.line, t.span.column) := by
  obtain ⟨before, after, hstretches, hfirst, -⟩ := mem_tilesFrom h
  have hsource : source.toList =
      before.flatMap Stretch.text ++ (t.stretch :: after).flatMap Stretch.text := by
    rw [← List.flatMap_append, ← hstretches, flatMap_text_stretches]
  have hstart : t.span.start = utf8Len (before.flatMap Stretch.text) := by
    show t.first.offset = _
    rw [hfirst, Position.offset_after]
    exact Nat.zero_add _
  have hplace := LineIndex.position_append (before.flatMap Stretch.text)
    ((t.stretch :: after).flatMap Stretch.text)
  rw [← hfirst, ← hsource, ← hstart] at hplace
  exact hplace

/-- A token knows its line and column. -/
theorem locate_of_mem_tokens {token : Token} (h : token ∈ tokens commands source) :
    locate source.toList token.span.start = (token.span.line, token.span.column) := by
  rw [tokens_eq] at h
  rcases List.mem_append.mp h with h | h
  · obtain ⟨t, ht, htoken⟩ := List.mem_filterMap.mp h
    rw [Tile.span_of_token? htoken]
    exact locate_of_mem_tiles ht
  · have hend := LineIndex.position_append source.toList []
    rw [List.append_nil, String.utf8Len_toList, ← offset_end] at hend
    rw [List.mem_singleton.mp h]
    exact hend

namespace Parser.Input

theorem mem_tokens_of_ofTokens {ts : List Token} {i : Nat} {t : Token}
    (h : (ofTokens commands ts).tokens[i]? = some t) : t ∈ ts :=
  (List.mem_filter.mp (List.mem_toArray.mp (Array.mem_of_getElem? h))).1

/-- The tokens of a text stand behind each other. -/
theorem ordered_ofTokens {table : CommandTable} :
    (ofTokens table (FrameBasic.tokens commands source)).Ordered where
  wide := by
    intro i t hi ht
    obtain ⟨t', ht', hkind⟩ := token_of_lt hi
    obtain rfl := Option.some.inj (ht.symm.trans ht')
    have hmem := mem_tokens_of_ofTokens ht
    rw [tokens_eq] at hmem
    rcases List.mem_append.mp hmem with hmem | hmem
    · exact (token_of_tiles hmem).2.1
    · rw [List.mem_singleton.mp hmem] at hkind
      exact absurd rfl hkind
  apart := by
    intro i j a b hij ha hb
    have hpairwise := (pairwise_tokens commands source).filter fun token => token.kind ≠ .comment
    rw [ofTokens, List.getElem?_toArray] at ha hb
    obtain ⟨hi, rfl⟩ := List.getElem?_eq_some_iff.mp ha
    obtain ⟨hj, rfl⟩ := List.getElem?_eq_some_iff.mp hb
    exact (List.pairwise_iff_getElem.mp hpairwise i j hi hj hij).2

end Parser.Input

/-! ### Blocks -/

/-- The node stands in the program. -/
def Program.Holds (p : Program) (n : TreeNode) : Prop :=
  ∃ s ∈ p.stmts, (TreeNode.stmt s).Holds n

/-- The blocks of a program at any depth, and the program itself. -/
def Program.blocks (p : Program) : List (List Stmt) :=
  p.stmts :: (stmtsWithin true p.stmts).flatMap fun s => s.blocks ++ s.routines

/-- The statements right below one. -/
def Stmt.inner (s : Stmt) : List Stmt :=
  (s.blocks ++ s.routines).flatten

theorem Stmt.within_eq_inner (s : Stmt) : s.within true = s :: stmtsWithin true s.inner := by
  rw [within_true_eq, inner]
  congr 1
  induction s.blocks ++ s.routines with
  | nil => rfl
  | cons block rest ih => rw [List.flatMap_cons, List.flatten_cons, stmtsWithin_append, ih]

theorem ElseIf.sublist_nodes (branches : List ElseIf) :
    ((branches.map ElseIf.body).flatten.map TreeNode.stmt).Sublist
      (branches.flatMap ElseIf.nodes) := by
  induction branches with
  | nil => exact .refl _
  | cons branch rest ih =>
    rw [List.map_cons, List.flatten_cons, List.map_append, List.flatMap_cons]
    exact (List.sublist_cons_self _ _).append ih

/-- The statements right below one that is not `Select` stand in one row. -/
theorem Stmt.exists_row_of_inner {s : Stmt} {block : List Stmt}
    (hselect : ∀ span subject clauses default, s ≠ .select span subject clauses default)
    (h : block ∈ s.blocks ++ s.routines) :
    ∃ row ∈ s.rows, (s.inner.map TreeNode.stmt).Sublist row := by
  cases s with
  | if_ span condition thenBranch elseIfs elseBranch =>
    refine ⟨_, List.mem_cons_self, .cons _ ?_⟩
    simp only [inner, blocks, routines, List.append_nil, List.flatten_cons, List.flatten_append,
      List.map_append, List.append_assoc]
    refine (List.Sublist.refl _).append ((ElseIf.sublist_nodes elseIfs).append ?_)
    cases elseBranch with
    | none => exact .refl _
    | some branch => simp
  | while_ span condition body =>
    refine ⟨_, List.mem_cons_self, .cons _ ?_⟩
    simp [inner, blocks, routines]
  | repeat_ span body condition =>
    refine ⟨_, List.mem_cons_self, ?_⟩
    simp [inner, blocks, routines]
  | for_ span name first last step body =>
    refine ⟨_, List.mem_cons_self, .cons _ (.cons _ ?_)⟩
    simp [inner, blocks, routines]
  | forEach span name typeName body | function span name returns params body =>
    refine ⟨_, List.mem_cons_self, ?_⟩
    simp [inner, blocks, routines]
  | select span subject clauses default => exact absurd rfl (hselect span subject clauses default)
  | _ => cases h

/-- The statements of a block stand in a row of the statement, or of one of its clauses. -/
theorem Stmt.exists_row_of_block {s : Stmt} {block : List Stmt}
    (h : block ∈ s.blocks ++ s.routines) :
    ∃ n row, (TreeNode.stmt s).Holds n ∧ row ∈ n.rows ∧ (block.map TreeNode.stmt).Sublist row := by
  by_cases hselect : ∃ span subject clauses default, s = .select span subject clauses default
  · obtain ⟨span, subject, clauses, default, rfl⟩ := hselect
    simp only [blocks, routines, List.append_nil, List.mem_append, List.mem_map,
      Option.mem_toList] at h
    rcases h with ⟨clause, hclause, rfl⟩ | hdefault
    · refine ⟨.clause clause, _, .single ?_, List.mem_cons_self, List.sublist_append_right _ _⟩
      refine List.mem_flatten.mpr ⟨_, List.mem_cons_self, List.mem_cons_of_mem _ ?_⟩
      exact List.mem_map_of_mem hclause
    · obtain rfl := hdefault
      exact ⟨_, _, .refl, List.mem_cons_of_mem _ List.mem_cons_self, .refl _⟩
  · have hother : ∀ span subject clauses default, s ≠ .select span subject clauses default :=
      fun span subject clauses default heq => hselect ⟨span, subject, clauses, default, heq⟩
    obtain ⟨row, hrow, hsub⟩ := exists_row_of_inner hother h
    exact ⟨_, row, .refl, hrow, ((List.sublist_flatten_of_mem h).map _).trans hsub⟩

/-- A statement at any depth stands in the one around it. -/
theorem Stmt.holds_of_mem_within {s t : Stmt} (h : t ∈ s.within true) :
    (TreeNode.stmt s).Holds (.stmt t) := by
  induction s using Stmt.induction_on_inner with
  | h s ih =>
    rw [within_true_eq] at h
    rcases List.mem_cons.mp h with rfl | h
    · exact .refl
    · obtain ⟨block, hblock, ht⟩ := List.mem_flatMap.mp h
      obtain ⟨inner, hinner, ht⟩ := mem_stmtsWithin.mp ht
      obtain ⟨n, row, hn, hrow, hsub⟩ := exists_row_of_block hblock
      have hchild : .stmt inner ∈ n.children :=
        List.mem_flatten.mpr ⟨row, hrow, hsub.subset (List.mem_map_of_mem hinner)⟩
      exact (hn.tail hchild).trans (ih block hblock inner hinner ht)

/-! ### Programs -/

theorem Program.sound_of_holds {n : TreeNode}
    (h : (Program.parse commands (tokens commands source)).errors = [])
    (hn : (Program.parse commands (tokens commands source)).program.Holds n) :
    n.Sound (.ofTokens commands (tokens commands source)) := by
  obtain ⟨s, hs, hn⟩ := hn
  have hrow := Parser.readAll_inRow h
  obtain ⟨_, _, _, _, hlies⟩ := hrow.lies_of_mem (List.mem_map_of_mem hs)
  exact fun m hm => hlies.sound Parser.Input.ordered_ofTokens m (hn.trans hm)

/-- In a program that is read without an error, every node begins where a token begins and ends
where a token ends, it is not empty, its line and column are those of its first byte, and the nodes
right below it lie inside.  The statements of a block, in their order, stand behind each other. -/
theorem Program.parse_spans (commands : CommandTable) (source : String)
    (h : (Program.parse commands (tokens commands source)).errors = []) :
    let p := (Program.parse commands (tokens commands source)).program
    (∀ n, p.Holds n →
      (∃ first ∈ tokens commands source, first.kind ≠ .eof ∧ n.span.start = first.span.start) ∧
      (∃ last ∈ tokens commands source, last.kind ≠ .eof ∧ n.span.stop = last.span.stop) ∧
      n.span.start < n.span.stop ∧
      (n.span.line, n.span.column) = locate source.toList n.span.start ∧
      ∀ child ∈ n.children,
        n.span.start ≤ child.span.start ∧ child.span.stop ≤ n.span.stop) ∧
    ∀ block ∈ p.blocks, block.Pairwise fun a b => a.span.stop ≤ b.span.start := by
  intro p
  refine ⟨fun n hn => ?_, fun block hblock => ?_⟩
  · -- a node spans the tokens from `i` up to `j`: its place is that of the first and the last one
    have hproper := (sound_of_holds h hn).proper
    obtain ⟨i, j, hij, hj, hspan⟩ := hproper.place
    have hnonempty := Parser.Input.ordered_ofTokens.spanFrom_nonempty hij hj
    obtain ⟨first, last, hfirst, hlast, hfirstKind, hlastKind, heq⟩ :=
      Parser.Input.spanFrom_eq hij hj
    have hfirstMem := Parser.Input.mem_tokens_of_ofTokens hfirst
    have hlastMem := Parser.Input.mem_tokens_of_ofTokens hlast
    rw [← hspan] at hnonempty heq
    refine ⟨⟨first, hfirstMem, hfirstKind, ?_⟩, ⟨last, hlastMem, hlastKind, ?_⟩, hnonempty, ?_,
      hproper.inside⟩
    · rw [heq]
    · rw [heq]
    · rw [heq]
      exact (locate_of_mem_tokens hfirstMem).symm
  · rcases List.mem_cons.mp hblock with rfl | hblock
    · have hrow := Parser.readAll_inRow h
      exact List.pairwise_map.mp (hrow.pairwise Parser.Input.ordered_ofTokens)
    · obtain ⟨s, hs, hblock⟩ := List.mem_flatMap.mp hblock
      obtain ⟨t, ht, hs⟩ := mem_stmtsWithin.mp hs
      obtain ⟨n, row, hn, hrow, hsub⟩ := Stmt.exists_row_of_block hblock
      have hholds : p.Holds n := ⟨t, ht, (Stmt.holds_of_mem_within hs).trans hn⟩
      have hpairwise := (sound_of_holds h hholds).proper.rows row hrow
      exact List.pairwise_map.mp (hpairwise.sublist hsub)

/-- An array, a `Default` before a `Case`, a loop in it, and a comment with a two-byte letter. -/
theorem Program.parse_spans_select :
    let source :=
      "Dim b(3)\nSelect a ; é\nDefault\nWhile i\nb(i) = -a ^ 2\nWend\nCase 1, 2\nReturn\nEnd Select"
    let commands := CommandTable.ofList []
    let parsed := Program.parse commands (tokens commands source)
    parsed.errors = [] ∧
    (∀ n, parsed.program.Holds n →
      (∃ first ∈ tokens commands source, first.kind ≠ .eof ∧ n.span.start = first.span.start) ∧
      (∃ last ∈ tokens commands source, last.kind ≠ .eof ∧ n.span.stop = last.span.stop) ∧
      n.span.start < n.span.stop ∧
      (n.span.line, n.span.column) = locate source.toList n.span.start ∧
      ∀ child ∈ n.children,
        n.span.start ≤ child.span.start ∧ child.span.stop ≤ n.span.stop) ∧
    ∀ block ∈ parsed.program.blocks, block.Pairwise fun a b => a.span.stop ≤ b.span.start := by
  intro source commands parsed
  have herrors : parsed.errors = [] := by
    simp only [parsed, tokens, events_eq, stretches_eq_upTo (Nat.le_refl _)]
    decide +kernel
  exact ⟨herrors, Program.parse_spans commands source herrors⟩

end FrameBasic
