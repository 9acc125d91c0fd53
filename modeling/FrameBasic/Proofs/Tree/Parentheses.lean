import FrameBasic.Proofs.Tree.Spelling

/-!
# Parentheses

An expression begins with as many parentheses as groups are nested on its left side.  So the tokens
of a list in parentheses never spell the same expressions without being such a list.

## Main definitions

* `leadingParens`, `Expr.openings` — the parentheses that tokens and an expression begin with.

## Main results

* `SpelledList.ne_of_args` — arguments with and without parentheses around them differ.
-/

namespace FrameBasic

variable {scopes : Scopes} {e : Expr} {es : List Expr} {t : Token} {ts : List Token}

/-- The number of parentheses that are opened first. -/
def leadingParens (ts : List Token) : Nat :=
  (ts.takeWhile fun t => t.kind = .leftParen).length

/-- The number of groups on the left side of an expression. -/
def Expr.openings : Expr → Nat
  | .grouped _ inner => inner.openings + 1
  | .binary _ left _ _ => left.openings
  | .field _ object _ => object.openings
  | _ => 0

theorem Expr.openings_relabel (r : Relabel) : ∀ e : Expr, (e.relabel r).openings = e.openings
  | .grouped _ inner => congrArg (· + 1) (openings_relabel r inner)
  | .binary _ left _ _ => openings_relabel r left
  | .field _ object _ => openings_relabel r object
  | .integer .. | .float .. | .string .. | .boolean .. | .null .. | .var .. | .unary .. | .call ..
  | .command .. | .element .. | .new .. | .first .. | .last .. | .after .. | .before ..
  | .error .. => rfl

theorem leadingParens_other (h : t.kind ≠ .leftParen) : leadingParens (t :: ts) = 0 := by
  simp [leadingParens, h]

theorem leadingParens_open (h : t.kind = .leftParen) :
    leadingParens (t :: ts) = leadingParens ts + 1 := by
  simp [leadingParens, h]

/-- The tokens of an expression begin with the parentheses of the groups on its left side. -/
theorem Spelled.leadingParens_eq : ∀ {ts : List Token}, Spelled scopes e ts →
    ∀ rest, leadingParens (ts ++ rest) = e.openings := by
  induction e using Expr.induction_on_parts with
  | h e ih =>
    intro ts h rest
    have hzero : ∀ {t : Token} {kind : Kind} {us : List Token}, t.kind = kind → kind ≠ .leftParen →
        leadingParens (t :: us) = 0 :=
      fun ht hkind => leadingParens_other (ht ▸ hkind)
    cases h with
    | grouped ht h hu =>
      rw [List.cons_append, leadingParens_open ht, List.append_assoc,
        ih _ List.mem_cons_self h]
      rfl
    | binary hl _ _ =>
      rw [List.append_assoc, ih _ List.mem_cons_self hl]
      rfl
    | field h _ _ =>
      rw [List.append_assoc, ih _ List.mem_cons_self h]
      rfl
    | @unary _ op _ _ _ ht _ => exact hzero ht (by cases op <;> nofun)
    | @boolean _ _ b ht => exact hzero ht (by cases b <;> nofun)
    | whole h _ | hex h _ | float h _ | string h | null h | var h | tagged h _ _
    | call h _ _ | element h _ _ | bareCommand h | command h _ | new h _ _ | first h _ _
    | last h _ _ | after h _ | before h _ => exact hzero h nofun

/-- Arguments that are read without the parentheses around them are others. -/
theorem SpelledList.ne_of_args {es' : List Expr} {r : Relabel} (h : SpelledList scopes es ts)
    (h' : SpelledArgs scopes es' ts) : es.map (Expr.relabel r) ≠ es'.map (Expr.relabel r) := by
  have hhead : ∀ {es : List Expr} {ts : List Token}, SpelledList scopes es ts →
      ∀ rest, ∃ e es₁, es = e :: es₁ ∧ leadingParens (ts ++ rest) = e.openings := by
    intro es ts h rest
    cases h with
    | one h => exact ⟨_, _, rfl, h.leadingParens_eq rest⟩
    | cons h _ _ =>
      rw [List.append_assoc]
      exact ⟨_, _, rfl, h.leadingParens_eq _⟩
  intro heq
  obtain ⟨e, es₁, rfl, he⟩ := hhead h []
  rw [List.append_nil] at he
  cases h' with
  | none => cases heq
  | some ht h' hu =>
    obtain ⟨e', es₂, rfl, he'⟩ := hhead h' [_]
    have hrelabel : e.relabel r = e'.relabel r := (List.cons.inj heq).1
    have hopenings : e.openings = e'.openings := by
      rw [← Expr.openings_relabel r e, hrelabel, Expr.openings_relabel]
    rw [leadingParens_open ht, he', hopenings] at he
    omega

end FrameBasic
