import FrameBasic.Proofs.Reader.Program

/-!
# The names of a program

The reader takes the names of variables, arrays and constants from tokens that are names.  Whatever
holds of these tokens thus holds of all names in the program that they spell.

## Main definitions

* `Expr.Names`, `Stmt.Names` — a condition holds of all names in an expression or a statement.

## Main results

* `Stmt.Names.namesIn` — the condition holds of all names that the statements use.
* `Program.parse_names` — **what holds of the names among the tokens holds of all names of the
  program**.
-/

namespace FrameBasic

open Script (identifier)

/-! ### The names in trees -/

/-- The condition holds of all names that an expression uses. -/
def Expr.Names (Q : String → Prop) (e : Expr) : Prop :=
  ∀ n ∈ e.names, Q n

/-- The condition holds of the names that a statement uses outside of its blocks. -/
def Stmt.OwnNames (Q : String → Prop) (s : Stmt) : Prop :=
  (∀ use ∈ s.uses, Q use.1) ∧ ∀ e ∈ s.ownExprs, e.Names Q

/-- The condition holds of all names in a statement, also in the body of a function. -/
def Stmt.Names (Q : String → Prop) (s : Stmt) : Prop :=
  ∀ t ∈ s.within true, t.OwnNames Q

variable {Q : String → Prop}

theorem name_of_mem_uses {uses : List Use} {name : String} {first : Initial}
    (h : ∀ use ∈ uses, Q use.1) (hmem : (name, first) ∈ uses) : Q name :=
  h (name, first) hmem

theorem Stmt.Names.namesIn {s : Stmt} (h : s.Names Q) : ∀ n ∈ namesIn [s], Q n := by
  have hwithin : ∀ t ∈ stmtsWithin false [s], t.OwnNames Q := by
    intro t ht
    obtain ⟨u, hu, htu⟩ := mem_stmtsWithin.mp ht
    rw [List.mem_singleton.mp hu] at htu
    exact h t (within_false_subset s htu)
  intro n hn
  obtain ⟨use, huse, rfl⟩ := List.mem_map.mp hn
  rcases List.mem_append.mp huse with huse | huse
  · obtain ⟨t, ht, hmem⟩ := List.mem_flatMap.mp huse
    exact (hwithin t ht).1 use hmem
  · obtain ⟨sub, hsub, hmem⟩ := List.mem_flatMap.mp huse
    obtain ⟨t, ht, hsub⟩ := List.mem_flatMap.mp hsub
    obtain ⟨e, he, hsub⟩ := List.mem_flatMap.mp hsub
    refine (hwithin t ht).2 e he _ (List.mem_map_of_mem ?_)
    exact List.mem_flatMap.mpr ⟨sub, hsub, hmem⟩

/-! ### The names among the tokens -/

theorem Expr.Grounded.names {input : Parser.Input} {e : Expr} (h : e.Grounded input)
    (hQ : ∀ text, input.Writes text → Q text) : e.Names Q := by
  intro n hn
  obtain ⟨use, huse, rfl⟩ := List.mem_map.mp hn
  obtain ⟨sub, hsub, hmem⟩ := List.mem_flatMap.mp huse
  have hown := h sub hsub
  cases sub with
  | var i name typeName | element i name args => exact hQ _ (Parser.writes_of_use hown use hmem)
  | _ => cases hmem

theorem Stmt.Grounded.names {input : Parser.Input} {s : Stmt} (h : s.Grounded input)
    (hQ : ∀ text, input.Writes text → Q text) : s.Names Q := by
  intro t ht
  have hown := h t ht
  exact ⟨fun use huse => hQ _ (hown.1 use huse), fun e he => (hown.2 e he).names hQ⟩

/-- What holds of the names among the tokens holds of all names of the program that they spell. -/
theorem Program.parse_names {commands : CommandTable} {tokens : List Token}
    (h : ∀ token ∈ tokens, token.kind = .identifier → Q (identifier token.text)) :
    ∀ s ∈ (Program.parse commands tokens).program.stmts, s.Names Q := by
  intro s hs
  refine (parse_grounded commands tokens s hs).names ?_
  rintro _ ⟨_, ⟨token, htoken, hkind, rfl⟩, rfl⟩
  have hmem : token ∈ tokens.filter fun token => token.kind ≠ .comment :=
    List.mem_toArray.mp htoken
  exact h token (List.mem_filter.mp hmem).1 hkind

end FrameBasic
