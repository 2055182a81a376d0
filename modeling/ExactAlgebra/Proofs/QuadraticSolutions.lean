import ExactAlgebra.Proofs.Answers
import ExactAlgebra.Proofs.Completion

/-!
The answers for a quadratic are complete. A field has a root exactly when it has a square root of
the discriminant: for real roots the discriminant must not be negative, for rational ones it must be
a rational square, and then both closed forms are rational. So the list is empty, exact or in
doubles as there are no real roots, rational ones, or real roots of which none is rational.
-/
namespace ExactAlgebra

open Polynomial LaurentRing

namespace Quadratic

/-- What the list of roots tells about the quadratic. -/
structure CompleteList (p : Quadratic) (list : List Root) : Prop where
  empty_iff : list = [] ↔ ∀ x : ℝ, aeval x p.polynomial ≠ 0
  /-- Beside a rational root, all roots are listed exactly, once and in order. -/
  rational : (∃ x : ℚ, p.polynomial.eval x = 0) → ∃ values : List ℚ,
    list = values.map (fun x => .exact (.ofRat x)) ∧
      (∀ x, x ∈ values ↔ p.polynomial.eval x = 0) ∧
      (0 < p.a → values.Pairwise (· < ·)) ∧ (p.a < 0 → values.Pairwise (· > ·))
  approximate_iff : (∃ x y, list = [.approximate x, .approximate y]) ↔
    0 < p.discriminant ∧ ¬ IsSquare p.discriminant
  irrational_iff : (∃ x y, list = [.approximate x, .approximate y]) ↔
    (∃ x : ℝ, aeval x p.polynomial = 0) ∧ ∀ x : ℚ, p.polynomial.eval x ≠ 0

variable {p : Quadratic} (leading : p.a ≠ 0)

section Existence

include leading

theorem exists_real_root_iff : (∃ x : ℝ, aeval x p.polynomial = 0) ↔ 0 ≤ p.discriminant := by
  rw [exists_root_iff leading, Real.isSquare_iff, Rat.cast_nonneg]

theorem exists_rational_root_iff :
    (∃ x : ℚ, p.polynomial.eval x = 0) ↔ IsSquare p.discriminant := by
  simp only [← coe_aeval_eq_eval]
  exact exists_root_iff (K := ℚ) leading

theorem no_real_root_iff : (∀ x : ℝ, aeval x p.polynomial ≠ 0) ↔ p.discriminant < 0 := by
  rw [← not_le, ← exists_real_root_iff leading, not_exists]

theorem only_irrational_iff :
    ((∃ x : ℝ, aeval x p.polynomial = 0) ∧ ∀ x : ℚ, p.polynomial.eval x ≠ 0) ↔
      0 < p.discriminant ∧ ¬ IsSquare p.discriminant := by
  rw [exists_real_root_iff leading, ← not_exists, exists_rational_root_iff leading]
  exact and_congr_left fun irrational =>
    ⟨fun nonneg => pos_of_irrational nonneg irrational, le_of_lt⟩

end Existence

section ClosedForms

variable {w : ℚ}

include leading in
theorem mem_closedForms_iff (square : w * w = p.discriminant) (x : ℚ) :
    x ∈ p.closedForms w ↔ p.polynomial.eval x = 0 := by
  rw [eval_eq_zero_iff_of_square leading square, closedForms]
  split
  · next zero => simp [zero]
  · simp

theorem closedForms_ascending (nonneg : 0 ≤ w) (positive : 0 < p.a) :
    (p.closedForms w).Pairwise (· < ·) := by
  unfold closedForms
  split
  · simp
  · next nonzero =>
    have root : 0 < w := lt_of_le_of_ne nonneg (Ne.symm nonzero)
    have order : (-p.b - w) / (p.a * 2) < (-p.b + w) / (p.a * 2) := by gcongr; linarith
    simpa using order

theorem closedForms_descending (nonneg : 0 ≤ w) (negative : p.a < 0) :
    (p.closedForms w).Pairwise (· > ·) := by
  unfold closedForms
  split
  · simp
  · next nonzero =>
    have root : 0 < w := lt_of_le_of_ne nonneg (Ne.symm nonzero)
    have order : (-p.b + w) / (p.a * 2) < (-p.b - w) / (p.a * 2) := by
      rw [div_lt_div_right_of_neg (by linarith)]
      linarith
    simpa using order

end ClosedForms

section Lists

include leading

theorem completeList_of_negative (negative : p.discriminant < 0) : p.CompleteList [] := by
  have no_rational : ¬ ∃ x : ℚ, p.polynomial.eval x = 0 := by
    rw [exists_rational_root_iff leading]
    exact fun square => not_le.mpr negative square.nonneg
  have few : ¬ (0 < p.discriminant ∧ ¬ IsSquare p.discriminant) := fun h => h.1.not_gt negative
  have approximate : (∃ x y, [] = [Root.approximate x, .approximate y]) ↔
      0 < p.discriminant ∧ ¬ IsSquare p.discriminant := iff_of_false (by simp) few
  exact {
    empty_iff := iff_of_true rfl ((no_real_root_iff leading).mpr negative)
    rational := fun root => absurd root no_rational
    approximate_iff := approximate
    irrational_iff := approximate.trans (only_irrational_iff leading).symm }

theorem completeList_of_irrational (positive : 0 < p.discriminant)
    (irrational : ¬ IsSquare p.discriminant) (x y : Double) :
    p.CompleteList [.approximate x, .approximate y] := by
  have approximate : (∃ u v, [Root.approximate x, .approximate y] =
      [.approximate u, .approximate v]) ↔ 0 < p.discriminant ∧ ¬ IsSquare p.discriminant :=
    iff_of_true ⟨x, y, rfl⟩ ⟨positive, irrational⟩
  exact {
    empty_iff := iff_of_false (by simp) (fun none =>
      positive.not_gt ((no_real_root_iff leading).mp none))
    rational := fun root => absurd ((exists_rational_root_iff leading).mp root) irrational
    approximate_iff := approximate
    irrational_iff := approximate.trans (only_irrational_iff leading).symm }

theorem completeList_of_square {w : ℚ} (nonneg : 0 ≤ w) (square : w * w = p.discriminant) :
    p.CompleteList ((p.closedForms w).map fun x => .exact (.ofRat x)) := by
  have approximate : (∃ x y, (p.closedForms w).map (fun x => Root.exact (.ofRat x)) =
      [.approximate x, .approximate y]) ↔ 0 < p.discriminant ∧ ¬ IsSquare p.discriminant := by
    refine iff_of_false ?_ (fun h => h.2 ⟨w, square.symm⟩)
    rintro ⟨x, y, same⟩
    unfold closedForms at same
    split at same <;> simp at same
  have members := mem_closedForms_iff leading square
  exact {
    empty_iff := by
      refine iff_of_false ?_ fun none => ?_
      · unfold closedForms
        split <;> simp
      · exact (mul_self_nonneg w).not_gt (square ▸ (no_real_root_iff leading).mp none)
    rational := fun _ => ⟨_, rfl, members, closedForms_ascending nonneg,
      closedForms_descending nonneg⟩
    approximate_iff := approximate
    irrational_iff := approximate.trans (only_irrational_iff leading).symm }

theorem roots_completeList (f : RealFunctions) :
    ∃ list, p.roots f = .ok list ∧ p.CompleteList list := by
  obtain ⟨negative, solved⟩ | ⟨positive, irrational, solved⟩ | ⟨w, nonneg, square, solved⟩ :=
    roots_cases leading f
  · exact ⟨_, solved, completeList_of_negative leading negative⟩
  · exact ⟨_, solved, completeList_of_irrational leading positive irrational _ _⟩
  · exact ⟨_, solved, completeList_of_square leading nonneg square⟩

end Lists

end Quadratic

namespace Equation

variable {q : Equation} {s : String} {p : Quadratic}

/-- A quadratic equation in one symbol is answered with a list of roots that leaves nothing out:
none, all rational roots in order, or two doubles for two irrational ones. -/
theorem solveWith_quadratic_complete (method : NumericMethod) (leading : p.a ≠ 0)
    (whole : q.polynomial = inSymbol s p.polynomial) :
    ∃ list, q.solveWith method s = .ok (.roots list) ∧ p.CompleteList list := by
  obtain ⟨list, found, complete⟩ := Quadratic.roots_completeList leading method.functions
  exact ⟨list, by rw [solveWith_of_quadratic method leading whole, found]; rfl, complete⟩

/-- The equation x² = x + 2. -/
def crossing : Equation where
  left := (Laurent.symbol "x").mul (.symbol "x")
  right := (Laurent.symbol "x").add (.const (.ofInt 2))

theorem solveWith_quadratic_complete_of_crossing : ∃ list,
    crossing.solveWith .standard "x" = .ok (.roots list) ∧
      (⟨1, -1, -2⟩ : Quadratic).CompleteList list := by
  have whole : crossing.polynomial = inSymbol "x" (⟨1, -1, -2⟩ : Quadratic).polynomial := by
    simp [crossing, polynomial, Laurent.polynomial_mul, Laurent.polynomial_add,
      Laurent.polynomial_symbol, Quadratic.polynomial]
    ring
  exact solveWith_quadratic_complete .standard one_ne_zero whole

end Equation

end ExactAlgebra
