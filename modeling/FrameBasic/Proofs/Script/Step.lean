import FrameBasic.Proofs.Tree.Walk
import FrameBasic.Script.Stmt
import Mathlib.Algebra.Ring.Parity
import Mathlib.Data.EReal.Operations

/-!
# Steps of loops

A loop over numbers goes up or down as its step says.  If the step is a literal in parentheses and
behind signs, its sign is known beforehand and one test is written; otherwise the sign is asked for
in each round.  The sign is found by turning it with every minus, so that a zero behind a minus counts
as negative although its value is not.

## Main definitions

* `Expr.signedValue?` — the exact value of a literal in parentheses and behind signs.
* `Expr.minuses` — the minus signs before it.

## Main results

* `Script.isNegative?_eq` — which steps count as negative.
* `Script.forHead_agrees_iff` — **when the test that is fixed is the one that the value asks for**.
-/

namespace FrameBasic

/-- The exact value of a number. -/
noncomputable def Binary64.value? : Binary64 → Option EReal
  | .nan => none
  | .infinite negative => some (if negative then ⊥ else ⊤)
  | .finite negative significand exponent =>
    some ((if negative then -1 else 1) * significand * (2 : ℝ) ^ exponent : ℝ)

namespace Expr

/-- The exact value of a literal in parentheses and behind signs. -/
noncomputable def signedValue? : Expr → Option EReal
  | .integer _ n => some (n : ℝ)
  | .float _ x => x.value?
  | .grouped _ inner => inner.signedValue?
  | .unary _ .negate operand => operand.signedValue?.map Neg.neg
  | .unary _ .plus operand => operand.signedValue?
  | _ => none

/-- The number of minus signs before a literal. -/
def minuses : Expr → Nat
  | .grouped _ inner => inner.minuses
  | .unary _ .negate operand => operand.minuses + 1
  | .unary _ .plus operand => operand.minuses
  | _ => 0

end Expr

theorem Binary64.isBelowZero_iff {x : Binary64} {value : EReal} (h : x.value? = some value) :
    x.isBelowZero = true ↔ value < 0 := by
  cases x with
  | nan => cases h
  | infinite negative =>
    cases h
    cases negative <;> simp [isBelowZero]
  | finite negative significand exponent =>
    cases h
    have hpower : (0 : ℝ) < 2 ^ exponent := zpow_pos two_pos exponent
    rw [EReal.coe_neg']
    cases negative with
    | false =>
      have hnonneg : 0 ≤ (significand : ℝ) * 2 ^ exponent :=
        mul_nonneg significand.cast_nonneg hpower.le
      simpa [isBelowZero] using hnonneg
    | true =>
      simp [isBelowZero, hpower, pos_iff_ne_zero]

namespace Script

/-- A step counts as negative if it is, or if it is zero behind an odd number of minus signs. -/
theorem isNegative?_eq {step : Expr} : ∀ {value : EReal}, step.signedValue? = some value →
    ∃ negative, isNegative? step = some negative ∧
      (negative = true ↔ value < 0 ∨ value = 0 ∧ Odd step.minuses) := by
  induction step using Expr.induction_on_parts with
  | h step ih =>
    intro value h
    cases step with
    | integer info n =>
      cases h
      refine ⟨_, rfl, ?_⟩
      simp [Expr.minuses, EReal.coe_neg']
    | float info x => exact ⟨_, rfl, by simp [Binary64.isBelowZero_iff h, Expr.minuses]⟩
    | grouped info inner => exact ih inner List.mem_cons_self h
    | unary info op operand =>
      cases op with
      | plus => exact ih operand List.mem_cons_self h
      | negate =>
        obtain ⟨v, hv, rfl⟩ := Option.map_eq_some_iff.mp h
        obtain ⟨negative, hsign, hiff⟩ := ih operand List.mem_cons_self hv
        refine ⟨!negative, by simp [isNegative?, hsign], ?_⟩
        -- a minus turns the sign and the value, but a zero has no other sign to turn to
        rw [Bool.not_eq_true', ← Bool.not_eq_true, hiff, Expr.minuses]
        rcases lt_trichotomy v 0 with hlt | rfl | hgt
        · simp [hlt, hlt.ne, hlt.le]
        · simp [Nat.not_odd_iff_even, Nat.odd_add_one]
        · simp [hgt, hgt.ne', hgt.not_gt]
      | not => cases h
    | _ => cases h

/-- **The comparison that is chosen beforehand is the one that the step asks for, but for a zero
behind an odd number of minus signs.**  A step that is not known is compared with zero in each round,
to choose between two tests.  A literal in parentheses and behind signs always counts as negative or
not, and one of the same tests is fixed.  It is the one that the exact value asks for if and only if
the value is not zero or the number of minus signs is even. -/
theorem forHead_agrees_iff (ctx : Context) (number : Nat) (name : String) (first last : Expr)
    {step : Expr} {value : EReal} (hstep : step.signedValue? = some value) :
    let counter : Piece := .name (identifier name)
    let start := plain "for (" ++ counter :: plain " = " ++ exprCode ctx first ++ plain "; "
    let test (up : Bool) := counter :: plain (if up then " <= " else " >= ") ++ exprCode ctx last
    let fixed (up : Bool) : List Code × Fragment :=
      ([], start ++ test up ++ plain "; " ++ counter :: plain " += " ++ exprCode ctx step ++ plain ")")
    (∀ unknown, isNegative? unknown = none → forHead ctx number name first last (some unknown) =
      ([.step number (exprCode ctx unknown)],
        start ++ plain (stepName number ++ " >= 0 ? ") ++ test true ++ plain " : " ++ test false ++
          plain "; " ++ counter :: plain (" += " ++ stepName number ++ ")"))) ∧
      (∃ up, forHead ctx number name first last (some step) = fixed up) ∧
      (((isNegative? step = some true ↔ value < 0) ∧ (isNegative? step = some false ↔ 0 ≤ value) ∧
        forHead ctx number name first last (some step) = fixed (decide (0 ≤ value))) ↔
        (value = 0 → Even step.minuses)) := by
  intro counter start test fixed
  obtain ⟨negative, hsign, hiff⟩ := isNegative?_eq hstep
  have hfixed : forHead ctx number name first last (some step) = fixed !negative := by
    simp only [forHead, hsign]
    cases negative <;> rfl
  have hinj : ∀ {a b : Bool}, fixed a = fixed b ↔ a = b := by
    intro a b
    cases a <;> cases b <;> simp [fixed, test, plain]
  refine ⟨fun unknown hunknown => ?_, ⟨_, hfixed⟩, ?_⟩
  · simp only [forHead, hunknown]
    rfl
  rw [hfixed, hinj, hsign]
  rcases lt_trichotomy value 0 with hlt | rfl | hgt
  · have hnegative : negative = true := hiff.mpr (.inl hlt)
    simp [hnegative, hlt, hlt.ne]
  · cases negative <;> simp_all
  · have hpositive : negative = false := by
      rw [← Bool.not_eq_true, hiff]
      simp [hgt.not_gt, hgt.ne']
    simp [hpositive, hgt.le, hgt.ne', hgt.not_gt]

/-- One minus sign before a number in parentheses. -/
theorem forHead_agrees_minus_two :
    let step : Expr := .unary default .negate (.grouped default (.integer default 2))
    step.signedValue? = some (-2) ∧ step.minuses = 1 ∧
      (isNegative? step = some true ↔ (-2 : EReal) < 0) := by
  intro step
  have hvalue : step.signedValue? = some (-2) := by
    rfl
  have hzero : (-2 : EReal) ≠ 0 := by simp
  have hhead := forHead_agrees_iff default 0 "i" (.integer default 9) (.integer default 1) hvalue
  exact ⟨hvalue, rfl, (hhead.2.2.mpr fun h => absurd h hzero).1⟩

/-- `Step -0` is not negative, but the loop goes down. -/
theorem minus_zero_isNegative :
    let step : Expr := .unary default .negate (.integer default 0)
    step.signedValue? = some 0 ∧ isNegative? step = some true := by
  intro step
  exact ⟨by simp [step, Expr.signedValue?], rfl⟩

end Script

end FrameBasic
