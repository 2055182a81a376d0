import ExactAlgebra.Proofs.Answers
import ExactAlgebra.Proofs.Completion

/-!
Cubics with a repeated root. In the completed form a zero discriminant says t³ − 3w²t + 2w³, which
is (t + 2w)(t − w)². The closed forms are the two roots of that in the unknown before the shift, and
fall together exactly when w is zero, so the roots that are listed factor the cubic. The derivative
completes to t² − E, and a root it shares makes the discriminant zero over any field.
-/
namespace ExactAlgebra

open Polynomial LaurentRing

namespace Cubic

/-- Lists whose roots factor the cubic: one triple root, or a simple one before a double one. -/
inductive Factored (p : Cubic) : List Root → Prop
  | triple {r : ℚ} (factors : p.polynomial = C p.a * (X - C r) ^ 3) :
    Factored p [.exact (.ofRat r)]
  | double {r t : ℚ} (apart : r ≠ t)
    (factors : p.polynomial = C p.a * (X - C r) * (X - C t) ^ 2) :
    Factored p [.exact (.ofRat r), .exact (.ofRat t)]

/-- The repeated solution of the completed form; zero beside a triple root. -/
def repeatedShift (p : Cubic) : ℚ := p.offset / (2 * p.tripleTest)

variable {p : Cubic} (leading : p.a ≠ 0)
include leading

section Shifts

theorem tripleTest_eq_sq (zero : p.discriminant = 0) : p.tripleTest = p.repeatedShift ^ 2 := by
  have square := (discriminant_eq_zero_iff leading).mp zero
  rw [repeatedShift]
  by_cases triple : p.tripleTest = 0
  · simp [triple]
  · field_simp
    linear_combination -square

theorem offset_eq_cube (zero : p.discriminant = 0) : p.offset = 2 * p.repeatedShift ^ 3 := by
  have square := (discriminant_eq_zero_iff leading).mp zero
  rw [repeatedShift]
  by_cases triple : p.tripleTest = 0
  · have offset : p.offset = 0 := by simpa [triple] using square
    simp [triple, offset]
  · field_simp
    linear_combination -p.offset * square

theorem shifted_tripleValue : p.shifted p.tripleValue = 0 := by
  simp only [shifted, tripleValue, Rat.cast_id]
  field_simp
  ring

theorem shifted_simpleValue (double : p.tripleTest ≠ 0) :
    p.shifted p.simpleValue = -2 * p.repeatedShift := by
  simp only [shifted, simpleValue, repeatedShift, Rat.cast_id]
  field_simp
  simp only [tripleTest, offset]
  ring

omit leading in
theorem shifted_doubleValue (double : p.tripleTest ≠ 0) :
    p.shifted p.doubleValue = p.repeatedShift := by
  simp only [shifted, doubleValue, repeatedShift, Rat.cast_id]
  field_simp
  simp only [tripleTest, offset]
  ring

end Shifts

section Factors

/-- The completed form is (t + 2w)(t − w)² in the shifted unknown. -/
theorem eval_of_shifted (zero : p.discriminant = 0) {r t : ℚ}
    (simple : p.shifted r = -2 * p.repeatedShift) (double : p.shifted t = p.repeatedShift)
    (x : ℚ) : p.polynomial.eval x = p.a * (x - r) * (x - t) ^ 2 := by
  have first : p.shifted x + 2 * p.repeatedShift = 3 * p.a * (x - r) := by
    simp only [shifted, Rat.cast_id] at simple ⊢
    linear_combination simple
  have second : p.shifted x - p.repeatedShift = 3 * p.a * (x - t) := by
    simp only [shifted, Rat.cast_id] at double ⊢
    linear_combination double
  have cube : 27 * p.a ^ 2 ≠ 0 := by simpa using leading
  apply mul_left_cancel₀ cube
  calc 27 * p.a ^ 2 * p.polynomial.eval x
      = p.shifted x ^ 3 - 3 * p.tripleTest * p.shifted x + p.offset := p.completed x
    _ = (p.shifted x + 2 * p.repeatedShift) * (p.shifted x - p.repeatedShift) ^ 2 := by
        rw [tripleTest_eq_sq leading zero, offset_eq_cube leading zero]
        ring
    _ = 27 * p.a ^ 2 * (p.a * (x - r) * (x - t) ^ 2) := by
        rw [first, second]
        ring

theorem polynomial_of_shifted (zero : p.discriminant = 0) {r t : ℚ}
    (simple : p.shifted r = -2 * p.repeatedShift) (double : p.shifted t = p.repeatedShift) :
    p.polynomial = C p.a * (X - C r) * (X - C t) ^ 2 :=
  Polynomial.funext fun x => by simp [eval_of_shifted leading zero simple double]

theorem factored_of_triple (zero : p.discriminant = 0) (triple : p.tripleTest = 0) :
    p.Factored [.exact (.ofRat p.tripleValue)] := by
  have shift : p.repeatedShift = 0 := by simp [repeatedShift, triple]
  have value := shifted_tripleValue leading
  have factors := polynomial_of_shifted leading zero (r := p.tripleValue) (t := p.tripleValue)
    (by simp [value, shift]) (by simp [value, shift])
  exact .triple (by rw [factors]; ring)

theorem factored_of_double (zero : p.discriminant = 0) (double : p.tripleTest ≠ 0) :
    p.Factored [.exact (.ofRat p.simpleValue), .exact (.ofRat p.doubleValue)] := by
  have first := shifted_simpleValue leading double
  have second := shifted_doubleValue double
  refine .double ?_ (polynomial_of_shifted leading zero first second)
  intro same
  rw [same, second] at first
  have shift : p.repeatedShift = 0 := by linarith
  exact double (by rw [tripleTest_eq_sq leading zero, shift, sq, mul_zero])

theorem factored_of_listed (zero : p.discriminant = 0) {list : List Root}
    (listed : p.Listed list) : p.Factored list := by
  cases listed with
  | triple _ triple => exact factored_of_triple leading zero triple
  | double _ double => exact factored_of_double leading zero double
  | single negative => exact absurd zero negative.ne
  | three positive => exact absurd zero positive.ne'

end Factors

section Multiplicity

/-- The root is the double one of the completed form, over any field. -/
theorem discriminant_of_repeated {K : Type*} [Field K] [CharZero K] {x : K}
    (root : aeval x p.polynomial = 0) (again : aeval x (derivative p.polynomial) = 0) :
    p.discriminant = 0 := by
  have form := p.completed x
  have slope := p.completed_derivative x
  rw [root, mul_zero] at form
  rw [again, mul_zero] at slope
  have square : (p.tripleTest : K) = p.shifted x ^ 2 := by linear_combination slope
  have cube : (p.offset : K) = 2 * p.shifted x ^ 3 := by
    rw [square] at form
    linear_combination -form
  have equal : (p.offset : K) ^ 2 = 4 * (p.tripleTest : K) ^ 3 := by
    rw [square, cube]
    ring
  exact (discriminant_eq_zero_iff leading).mpr (by exact_mod_cast equal)

theorem exists_double_factor (zero : p.discriminant = 0) :
    ∃ r t, p.polynomial = C p.a * (X - C r) * (X - C t) ^ 2 := by
  have back (w : ℚ) : p.shifted ((w - p.b) / (3 * p.a)) = w := by
    simp only [shifted, Rat.cast_id]
    field_simp
    ring
  exact ⟨_, _, polynomial_of_shifted leading zero (back _) (back _)⟩

theorem discriminant_eq_zero_iff_repeated : p.discriminant = 0 ↔
    ∃ z : ℂ, 1 < (p.polynomial.map (algebraMap ℚ ℂ)).rootMultiplicity z := by
  have polynomial : p.polynomial ≠ 0 := by
    intro zero
    have degree := natDegree_polynomial leading
    simp [zero] at degree
  have nonzero : p.polynomial.map (algebraMap ℚ ℂ) ≠ 0 := by simpa using polynomial
  constructor
  · intro zero
    obtain ⟨r, t, factors⟩ := exists_double_factor leading zero
    refine ⟨algebraMap ℚ ℂ t, (le_rootMultiplicity_iff nonzero).mpr ?_⟩
    rw [factors]
    simp
  · rintro ⟨z, multiple⟩
    obtain ⟨root, again⟩ := (one_lt_rootMultiplicity_iff_isRoot nonzero).mp multiple
    rw [IsRoot, eval_map_algebraMap] at root
    rw [derivative_map, IsRoot, eval_map_algebraMap] at again
    exact discriminant_of_repeated leading root again

end Multiplicity

end Cubic

namespace Equation

variable {q : Equation} {s : String} {p : Cubic}

/-- The discriminant is zero exactly when there is a repeated complex root, and then the roots that
are listed factor the cubic; no quotient in the closed forms fails. -/
theorem solveWith_repeated_factors (method : NumericMethod) (leading : p.a ≠ 0)
    (whole : q.polynomial = inSymbol s p.polynomial) :
    q.difference.cubic = .ok p ∧
      (p.discriminant = 0 ↔
        ∃ z : ℂ, 1 < (p.polynomial.map (algebraMap ℚ ℂ)).rootMultiplicity z) ∧
      (p.discriminant = 0 →
        ∃ list, q.solveWith method s = .ok (.roots list) ∧ p.Factored list) := by
  refine ⟨Laurent.cubic_of_inSymbol (q.polynomial_difference.trans whole),
    Cubic.discriminant_eq_zero_iff_repeated leading, fun zero => ?_⟩
  obtain ⟨list, found, listed⟩ :=
    Cubic.roots_listed leading method.functions method.snapTolerance
  rw [solveWith_of_cubic method leading whole, found]
  exact ⟨list, rfl, Cubic.factored_of_listed leading zero listed⟩

/-- The equation x³ = 3x - 2; the difference of its sides is (x + 2)(x - 1)². -/
def touching : Equation where
  left := ((Laurent.symbol "x").mul (.symbol "x")).mul (.symbol "x")
  right := ((Laurent.const (.ofInt 3)).mul (.symbol "x")).sub (.const (.ofInt 2))

theorem solveWith_repeated_factors_of_touching :
    (∃ z : ℂ, 1 < ((⟨1, 0, -3, 2⟩ : Cubic).polynomial.map (algebraMap ℚ ℂ)).rootMultiplicity z) ∧
      ∃ list, touching.solveWith .standard "x" = .ok (.roots list) ∧
        (⟨1, 0, -3, 2⟩ : Cubic).Factored list := by
  have zero : (⟨1, 0, -3, 2⟩ : Cubic).discriminant = 0 := by norm_num [Cubic.discriminant]
  have whole : touching.polynomial = inSymbol "x" (⟨1, 0, -3, 2⟩ : Cubic).polynomial := by
    simp [touching, polynomial, Laurent.polynomial_mul, Laurent.polynomial_sub,
      Laurent.polynomial_symbol, Cubic.polynomial]
    ring
  obtain ⟨-, repeated, factors⟩ := solveWith_repeated_factors .standard one_ne_zero whole
  exact ⟨repeated.mp zero, factors zero⟩

end Equation

end ExactAlgebra
