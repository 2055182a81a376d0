import ExactAlgebra.Proofs.Univariate
import ExactAlgebra.Solving.CubicRoots
import ExactAlgebra.Solving.QuadraticRoots

/-!
Completing the square and the cube. Up to a nonzero factor a quadratic is t² − D and a cubic is
t³ − 3Et + F in a shifted and stretched unknown, and the discriminants are those of the completed
forms: D itself, and 4E³ − F² up to the factor 27a². The same identities serve rational and real
unknowns.
-/
namespace ExactAlgebra

open Polynomial

variable {K : Type*} [Field K] [CharZero K]

namespace Quadratic

def shifted (p : Quadratic) (x : K) : K := 2 * p.a * x + p.b

theorem eval_polynomial (p : Quadratic) (x : ℚ) : p.polynomial.eval x = p.value x := by
  simp only [polynomial, value, eval_add, eval_mul, eval_pow, eval_C, eval_X]
  ring

theorem aeval_polynomial (p : Quadratic) (x : K) :
    aeval x p.polynomial = p.a * x ^ 2 + p.b * x + p.c := by
  simp [polynomial]

theorem completed (p : Quadratic) (x : K) :
    4 * p.a * aeval x p.polynomial = p.shifted x ^ 2 - p.discriminant := by
  rw [aeval_polynomial, shifted, discriminant]
  push_cast
  ring

theorem aeval_eq_zero_iff {p : Quadratic} (leading : p.a ≠ 0) (x : K) :
    aeval x p.polynomial = 0 ↔ p.shifted x ^ 2 = p.discriminant := by
  have nonzero : (4 * p.a : K) ≠ 0 := by simpa using leading
  rw [← sub_eq_zero (b := (p.discriminant : K)), ← completed, mul_eq_zero, or_iff_right nonzero]

theorem eq_closed_form_iff {p : Quadratic} (leading : p.a ≠ 0) {x w : K} :
    x = (-p.b + w) / (p.a * 2) ↔ p.shifted x = w := by
  have divisor : (p.a * 2 : K) ≠ 0 := by simpa using leading
  rw [eq_div_iff divisor, shifted]
  constructor <;> intro h <;> linear_combination h

/-- The closed forms with the two signs of a square root of the discriminant are the roots. -/
theorem aeval_eq_zero_iff_of_square {p : Quadratic} (leading : p.a ≠ 0) {w : K}
    (square : w * w = p.discriminant) (x : K) : aeval x p.polynomial = 0 ↔
      x = (-p.b - w) / (p.a * 2) ∨ x = (-p.b + w) / (p.a * 2) := by
  rw [aeval_eq_zero_iff leading, ← square, ← sq, sq_eq_sq_iff_eq_or_eq_neg, sub_eq_add_neg,
    eq_closed_form_iff leading, eq_closed_form_iff leading, or_comm]

theorem eval_eq_zero_iff_of_square {p : Quadratic} (leading : p.a ≠ 0) {w : ℚ}
    (square : w * w = p.discriminant) (x : ℚ) : p.polynomial.eval x = 0 ↔
      x = (-p.b - w) / (p.a * 2) ∨ x = (-p.b + w) / (p.a * 2) := by
  rw [← coe_aeval_eq_eval]
  exact aeval_eq_zero_iff_of_square (K := ℚ) leading square x

/-- A field has a root exactly when it has a square root of the discriminant. -/
theorem exists_root_iff {p : Quadratic} (leading : p.a ≠ 0) :
    (∃ x : K, aeval x p.polynomial = 0) ↔ IsSquare (p.discriminant : K) := by
  constructor
  · rintro ⟨x, root⟩
    exact ⟨p.shifted x, by rw [← (aeval_eq_zero_iff leading x).mp root, sq]⟩
  · rintro ⟨w, square⟩
    exact ⟨_, (aeval_eq_zero_iff_of_square leading square.symm _).mpr (.inr rfl)⟩

end Quadratic

namespace Cubic

def shifted (p : Cubic) (x : K) : K := 3 * p.a * x + p.b

def offset (p : Cubic) : ℚ := 2 * p.b ^ 3 - 9 * p.a * p.b * p.c + 27 * p.a ^ 2 * p.d

theorem eval_polynomial (p : Cubic) (x : ℚ) : p.polynomial.eval x = p.value x := by
  simp only [polynomial, value, eval_add, eval_mul, eval_pow, eval_C, eval_X]
  ring

theorem aeval_polynomial (p : Cubic) (x : K) :
    aeval x p.polynomial = p.a * x ^ 3 + p.b * x ^ 2 + p.c * x + p.d := by
  simp [polynomial]

theorem completed (p : Cubic) (x : K) :
    27 * p.a ^ 2 * aeval x p.polynomial =
      p.shifted x ^ 3 - 3 * p.tripleTest * p.shifted x + p.offset := by
  rw [aeval_polynomial, shifted, tripleTest, offset]
  push_cast
  ring

theorem completed_derivative (p : Cubic) (x : K) :
    3 * p.a * aeval x (derivative p.polynomial) = p.shifted x ^ 2 - p.tripleTest := by
  simp only [polynomial, derivative_C_mul, derivative_X_pow, derivative_X,
    derivative_C, map_add, map_mul, map_pow, aeval_C, aeval_X, shifted, tripleTest]
  simp
  ring

theorem discriminant_completed (p : Cubic) :
    27 * p.a ^ 2 * p.discriminant = 4 * p.tripleTest ^ 3 - p.offset ^ 2 := by
  simp only [discriminant, tripleTest, offset]
  ring

theorem aeval_eq_zero_iff {p : Cubic} (leading : p.a ≠ 0) (x : K) :
    aeval x p.polynomial = 0 ↔
      p.shifted x ^ 3 - 3 * p.tripleTest * p.shifted x + p.offset = 0 := by
  have nonzero : (27 * p.a ^ 2 : K) ≠ 0 := by simpa using leading
  rw [← completed, mul_eq_zero, or_iff_right nonzero]

/-- A repeated root: the square of the constant is four times the cube beside it. -/
theorem discriminant_eq_zero_iff {p : Cubic} (leading : p.a ≠ 0) :
    p.discriminant = 0 ↔ p.offset ^ 2 = 4 * p.tripleTest ^ 3 := by
  have nonzero : 27 * p.a ^ 2 ≠ 0 := by simpa using leading
  rw [eq_comm (a := p.offset ^ 2), ← sub_eq_zero (b := p.offset ^ 2), ← discriminant_completed,
    mul_eq_zero, or_iff_right nonzero]

end Cubic

def completedRoots (e f : K) : Set K := {t | t ^ 3 - 3 * e * t + f = 0}

end ExactAlgebra
