import FrameBasic.Proofs.Script.Grammar

/-!
# Operands

Some lexemes are read as an operand, whatever follows that does not belong to it: a literal or a
name, with fields behind it, or an operation in parentheses.  An operand with a sign in front is one
too, but a power does not take it on its left side, and what holds such a power cannot be read at all.

The depth of nesting is bounded by the number of lexemes that are left, so the bound of the reader is
never reached.

## Main definitions

* `Grammar.Whole` — the lexemes are read as an operand that fields may follow.
* `Grammar.Operand` — the lexemes are read as an operand.
* `Grammar.Refused` — the lexemes begin nothing that can be read.

## Main results

* `Grammar.Whole.binary` — an operation in parentheses.
* `Grammar.refused_power` — a power whose left operand begins with a sign.
-/

namespace FrameBasic.Script.Grammar

variable {ls rs rest : List Lexeme} {t u : Term} {m : List Char} {n tier : Nat}

/-- What may follow on an operand and does not belong to it. -/
def Ends : List Lexeme → Prop
  | [] => True
  | .mark m :: _ => m ≠ ['.'] ∧ m ∉ steps
  | _ => False

/-- The lexemes are read as an operand. -/
def Operand (ls : List Lexeme) (t : Term) : Prop :=
  ∀ n rest, Ends rest → (ls ++ rest).length ≤ n →
    unary (expressionAt n) (ls ++ rest) = some (t, rest)

/-- The lexemes are read as an operand that fields may follow. -/
def Whole (ls : List Lexeme) (t : Term) : Prop :=
  ∀ n rest, (ls ++ rest).length ≤ n →
    object (expressionAt n) (ls ++ rest) = some (fields t rest)

/-- The lexemes begin nothing that can be read. -/
def Refused (ls : List Lexeme) : Prop :=
  ∀ n rest, (ls ++ rest).length ≤ n → unary (expressionAt n) (ls ++ rest) = none

/-- Nothing or a closing parenthesis. -/
def Closes (rest : List Lexeme) : Prop :=
  rest = [] ∨ ∃ more, rest = .mark [')'] :: more

theorem Closes.ends (h : Closes rest) : Ends rest := by
  rcases h with rfl | ⟨more, rfl⟩
  · trivial
  · exact ⟨by decide, by decide⟩

theorem fields_of_ends (h : Ends rest) : fields t rest = (t, rest) := by
  unfold fields
  split
  · exact absurd rfl h.1
  · rfl

/-! ### Operands that fields may follow -/

theorem Whole.leaf {l : Lexeme} (hmark : ∀ m, l ≠ .mark m) (hword : ∀ name, l = .word name →
    name ∉ keywords) : Whole [l] (.leaf l) := by
  intro n rest _
  have hprimary : primary (expressionAt n) (l :: rest) = some (.leaf l, rest) := by
    cases l with
    | number text => rfl
    | text value => rfl
    | word name =>
      have hfree : keywords.contains name = false := by
        simpa using hword name rfl
      simp only [primary, hfree, Bool.false_eq_true, if_false]
    | mark m => exact absurd rfl (hmark m)
  rw [List.singleton_append, object, hprimary, Option.map_some]

theorem Whole.field (h : Whole ls t) (name : String) :
    Whole (ls ++ [.mark ['.'], .word name]) (.field t name) := by
  intro n rest hn
  rw [List.append_assoc] at hn ⊢
  rw [h n _ hn, List.cons_append, List.singleton_append, fields]

theorem Whole.ne_nil (h : Whole ls t) : ls ≠ [] := by
  rintro rfl
  cases h 0 [] (Nat.le_refl 0)

/-- What begins an operand is neither a sign nor a step. -/
theorem Whole.eq_open (h : Whole (.mark m :: ls) t) : m = ['('] := by
  refine Decidable.not_not.mp fun hm => ?_
  have hread := h _ [] (Nat.le_refl _)
  rw [List.cons_append, object, primary, if_neg hm] at hread
  cases hread

theorem Whole.not_beginsSigned (h : Whole ls t) (rest : List Lexeme) :
    beginsSigned (ls ++ rest) = false := by
  cases ls with
  | nil => exact absurd rfl h.ne_nil
  | cons l ls =>
    cases l with
    | mark m =>
      rw [h.eq_open]
      rfl
    | _ => rfl

theorem Whole.unary_eq (h : Whole ls t) (inner : Nat → Reader) :
    unary inner (ls ++ rest) = stepped inner (ls ++ rest) := by
  cases ls with
  | nil => exact absurd rfl h.ne_nil
  | cons l ls =>
    cases l with
    | mark m => rw [h.eq_open, List.cons_append, unary, if_neg (by decide), if_neg (by decide)]
    | _ => rfl

theorem Whole.operand (h : Whole ls t) : Operand ls t := by
  intro n rest hrest hn
  rw [h.unary_eq, stepped, h n rest hn, fields_of_ends hrest, Option.bind_some]
  dsimp only
  split
  · rw [if_pos hrest.2]
  · rfl

theorem Operand.sign (h : Operand ls t) (hm : m ∈ signs) :
    Operand (.mark m :: ls) (.signed m t) := by
  intro n rest hrest hn
  have hlen : (ls ++ rest).length ≤ n := Nat.le_of_succ_le hn
  rw [List.cons_append, unary, if_pos hm, h n rest hrest hlen, Option.map_some]

/-! ### Operations in parentheses -/

theorem climb_of_closes {inner : Nat → Reader} (h : Closes rest) (rounds : Nat) :
    climb inner tier (rounds + 1) t rest = some (t, rest) := by
  rcases h with rfl | ⟨more, rfl⟩
  · rfl
  · have htier : tier? [')'] = none := by decide
    rw [climb, htier]

/-- An operand at the end of an expression. -/
theorem Operand.expressionAt_eq (h : Operand ls t) (hrest : Closes rest)
    (hn : (ls ++ rest).length ≤ n) : expressionAt (n + 1) tier (ls ++ rest) = some (t, rest) := by
  have hfactor : factor (expressionAt n) (ls ++ rest) = some (t, rest) := by
    rw [factor, h n rest hrest.ends hn, Option.bind_some]
    rcases hrest with rfl | ⟨more, rfl⟩ <;> rfl
  rw [expressionAt, hfactor, Option.bind_some]
  exact climb_of_closes hrest _

/-- What stands in parentheses can be read up to the closing one. -/
theorem Whole.paren (h : ∀ n rest, Closes rest → (ls ++ rest).length ≤ n →
    expressionAt (n + 1) 0 (ls ++ rest) = some (t, rest)) :
    Whole (.mark ['('] :: (ls ++ [.mark [')']])) t := by
  intro n rest hn
  have hsplit : .mark ['('] :: (ls ++ [.mark [')']]) ++ rest =
      .mark ['('] :: (ls ++ .mark [')'] :: rest) := by
    simp
  rw [hsplit] at hn ⊢
  rw [List.length_cons] at hn
  obtain ⟨n, rfl⟩ : ∃ k, n = k + 1 := ⟨n - 1, by omega⟩
  have hinside := h n (.mark [')'] :: rest) (.inr ⟨rest, rfl⟩) (Nat.le_of_succ_le_succ hn)
  rw [object, primary, if_pos rfl, hinside, Option.bind_some]
  rfl

theorem Operand.paren (h : Operand ls t) : Whole (.mark ['('] :: (ls ++ [.mark [')']])) t :=
  .paren fun _ _ hrest hn => h.expressionAt_eq hrest hn

/-- An operator between two operands. -/
def IsOperator (m : List Char) : Prop :=
  m ≠ ['.'] ∧ m ∉ steps ∧ (m = ['*', '*'] ∨ (tier? m).isSome)

theorem IsOperator.ends (h : IsOperator m) : Ends (.mark m :: rest) :=
  ⟨h.1, h.2.1⟩

/-- The reader stands behind a left operand.  A power takes its right operand at once, and another
operator waits for the climb. -/
theorem Operand.factor_operator (h : Operand ls t) (hm : IsOperator m)
    (hn : (ls ++ .mark m :: rest).length ≤ n) : factor (expressionAt n) (ls ++ .mark m :: rest) =
      if m = ['*', '*'] then
        if beginsSigned (ls ++ .mark m :: rest) then none
        else (expressionAt n tiers.length rest).map fun r => (.binary t ['*', '*'] r.1, r.2)
      else some (t, .mark m :: rest) := by
  rw [factor, h n _ hm.ends hn, Option.bind_some]
  split
  · next heq =>
    cases heq
    rw [if_pos rfl]
  · next hne =>
    rw [if_neg]
    rintro rfl
    exact hne rest rfl

theorem Operand.binary_eq (h : Operand ls t) (hright : Operand rs u) (hm : IsOperator m)
    (hpower : m = ['*', '*'] → beginsSigned (ls ++ .mark m :: (rs ++ rest)) = false)
    (hrest : Closes rest) (hn : (ls ++ .mark m :: (rs ++ rest)).length ≤ n) :
    expressionAt (n + 1) 0 (ls ++ .mark m :: (rs ++ rest)) = some (.binary t m u, rest) := by
  have hlen : (rs ++ rest).length < n := by
    rw [List.length_append, List.length_cons] at hn
    omega
  obtain ⟨n, rfl⟩ : ∃ k, n = k + 1 := ⟨n - 1, by omega⟩
  have hinner : ∀ tier, expressionAt (n + 1) tier (rs ++ rest) = some (u, rest) :=
    fun tier => hright.expressionAt_eq hrest (Nat.le_of_lt_succ hlen)
  rw [expressionAt, h.factor_operator hm hn]
  by_cases hstars : m = ['*', '*']
  · rw [if_pos hstars, hpower hstars, hinner, hstars]
    exact climb_of_closes hrest _
  · obtain ⟨place, hplace⟩ := Option.isSome_iff_exists.mp (hm.2.2.resolve_left hstars)
    rw [if_neg hstars, Option.bind_some, List.length_cons, climb, hplace]
    dsimp only
    rw [if_pos (Nat.zero_le _), hinner, Option.bind_some]
    exact climb_of_closes hrest _

theorem Whole.binary (h : Operand ls t) (hright : Operand rs u) (hm : IsOperator m)
    (hpower : m = ['*', '*'] → ∀ rest, beginsSigned (ls ++ rest) = false) :
    Whole (.mark ['('] :: (ls ++ .mark m :: (rs ++ [.mark [')']]))) (.binary t m u) := by
  have hsplit : ls ++ .mark m :: (rs ++ [.mark [')']]) =
      (ls ++ .mark m :: rs) ++ [.mark [')']] := by
    simp
  rw [hsplit]
  refine .paren fun n rest hrest hn => ?_
  rw [List.append_assoc, List.cons_append] at hn ⊢
  exact h.binary_eq hright hm (fun hstars => hpower hstars _) hrest hn

/-! ### What cannot be read -/

theorem Refused.append (h : Refused ls) (more : List Lexeme) : Refused (ls ++ more) := by
  intro n rest hn
  rw [List.append_assoc] at hn ⊢
  exact h n _ hn

theorem Refused.sign (h : Refused ls) (hm : m ∈ signs) : Refused (.mark m :: ls) := by
  intro n rest hn
  rw [List.cons_append, unary, if_pos hm, h n rest (Nat.le_of_succ_le hn), Option.map_none]

theorem Refused.expressionAt_eq (h : Refused ls) (hn : (ls ++ rest).length ≤ n) :
    expressionAt (n + 1) tier (ls ++ rest) = none := by
  rw [expressionAt, factor, h n rest hn, Option.bind_none, Option.bind_none]

/-- What cannot be read in parentheses. -/
theorem refused_paren (h : ∀ n rest, (ls ++ rest).length ≤ n →
    expressionAt (n + 1) 0 (ls ++ rest) = none) : Refused (.mark ['('] :: ls) := by
  intro n rest hn
  rw [List.cons_append, List.length_cons] at hn
  obtain ⟨n, rfl⟩ : ∃ k, n = k + 1 := ⟨n - 1, by omega⟩
  rw [List.cons_append, unary, if_neg (by decide), if_neg (by decide), stepped, object, primary,
    if_pos rfl, h n rest (Nat.le_of_succ_le_succ hn)]
  rfl

theorem Refused.paren (h : Refused ls) : Refused (.mark ['('] :: ls) :=
  refused_paren fun _ _ hn => h.expressionAt_eq hn

/-- The right operand of an operator cannot be read. -/
theorem Refused.right (hleft : Operand ls t) (h : Refused rs) (hm : IsOperator m) :
    Refused (.mark ['('] :: (ls ++ .mark m :: rs)) := by
  refine refused_paren fun n rest hn => ?_
  rw [List.append_assoc, List.cons_append] at hn ⊢
  have hlen : (rs ++ rest).length < n := by
    rw [List.length_append, List.length_cons] at hn
    omega
  obtain ⟨n, rfl⟩ : ∃ k, n = k + 1 := ⟨n - 1, by omega⟩
  have hinner : ∀ tier, expressionAt (n + 1) tier (rs ++ rest) = none :=
    fun tier => h.expressionAt_eq (Nat.le_of_lt_succ hlen)
  rw [expressionAt, hleft.factor_operator hm hn]
  by_cases hstars : m = ['*', '*']
  · rw [if_pos hstars, hinner, Option.map_none, ite_self, Option.bind_none]
  · obtain ⟨place, hplace⟩ := Option.isSome_iff_exists.mp (hm.2.2.resolve_left hstars)
    rw [if_neg hstars, Option.bind_some, List.length_cons, climb, hplace]
    dsimp only
    rw [if_pos (Nat.zero_le _), hinner, Option.bind_none]

/-- A power whose left operand begins with a sign. -/
theorem refused_power (hleft : Operand ls t) (hsigned : ∀ rest, beginsSigned (ls ++ rest) = true) :
    Refused (.mark ['('] :: (ls ++ [.mark ['*', '*']])) := by
  have hpower : IsOperator ['*', '*'] := ⟨by decide, by decide, .inl rfl⟩
  refine refused_paren fun n rest hn => ?_
  rw [List.append_assoc, List.singleton_append] at hn ⊢
  rw [expressionAt, hleft.factor_operator hpower hn, if_pos rfl, hsigned]
  rfl

/-! ### Whole texts -/

theorem read_eq_of_operand {cs : List Char} (hlex : lex cs = some ls) (h : Operand ls t) :
    read cs = some t := by
  have hread : expressionAt (ls.length + 1) 0 (ls ++ []) = some (t, []) :=
    h.expressionAt_eq (.inl rfl) (Nat.le_of_eq (by rw [List.append_nil]))
  rw [List.append_nil] at hread
  rw [read, hlex, Option.bind_some, hread]
  rfl

theorem read_eq_none_of_refused {cs : List Char} (hlex : lex cs = some ls) (h : Refused ls) :
    read cs = none := by
  have hread : expressionAt (ls.length + 1) 0 (ls ++ []) = none :=
    h.expressionAt_eq (Nat.le_of_eq (by rw [List.append_nil]))
  rw [List.append_nil] at hread
  rw [read, hlex, Option.bind_some, hread]
  rfl

end FrameBasic.Script.Grammar
