import ExactAlgebra.Proofs.RepeatedRoots
import Mathlib.RingTheory.Polynomial.RationalRoot

/-!
Why snapping tries only one fraction beside a double. The leading coefficient times the common
denominator is an integer, and times a rational root it is an integer again: the product is integral
over the integers, since the polynomial with its denominators cleared is monic in it. So every
rational root is a quotient by that integer, and a double close enough to the root is replaced by
the root itself.
-/
namespace ExactAlgebra

open Polynomial LaurentRing

namespace Cubic

/-- Times the number, every coefficient is an integer. -/
def Clears (p : Cubic) (k : ℕ) : Prop := ∀ c ∈ [p.a, p.b, p.c, p.d], ∃ n : ℤ, c * k = n

/-- The leading integer is the leading coefficient times a positive number that clears all
denominators, and it clears the denominator of every rational root. -/
structure LeadingClears (p : Cubic) : Prop where
  ne_zero : p.leading ≠ 0
  coefficients : ∃ k : ℕ, 0 < k ∧ (p.leading : ℚ) / p.a = k ∧ p.Clears k
  root : ∀ q, p.value q = 0 → ∃ n : ℤ, p.leading * q = n

/-- The double, times the leading integer and rounded, is the number times the leading integer. -/
def RoundsTo (method : NumericMethod) (p : Cubic) (x : Double) (q : ℚ) : Prop :=
  (method.functions.round (x * .ofInt p.leading)).toRat? = some (p.leading * q)

instance (method : NumericMethod) (p : Cubic) (x : Double) (q : ℚ) :
    Decidable (p.RoundsTo method x q) :=
  inferInstanceAs (Decidable (_ = _))

section Denominators

theorem exists_int_of_den_dvd {c : ℚ} {k : ℕ} (divides : c.den ∣ k) : ∃ n : ℤ, c * k = n := by
  obtain ⟨m, rfl⟩ := divides
  refine ⟨c.num * m, ?_⟩
  rw [Nat.cast_mul, ← mul_assoc, Rat.mul_den_eq_num, Int.cast_mul, Int.cast_natCast]

variable (p : Cubic)

theorem commonDenominator_pos : 0 < p.commonDenominator :=
  Nat.lcm_pos (Nat.lcm_pos (Nat.lcm_pos p.a.den_pos p.b.den_pos) p.c.den_pos) p.d.den_pos

theorem commonDenominator_clears : p.Clears p.commonDenominator := by
  have divides : ∀ c ∈ [p.a, p.b, p.c, p.d], c.den ∣ p.commonDenominator := by
    have all := dvd_refl p.commonDenominator
    simp only [commonDenominator, Nat.lcm_dvd_iff] at all
    obtain ⟨⟨⟨a, b⟩, c⟩, d⟩ := all
    simp [commonDenominator, a, b, c, d]
  exact fun c member => exists_int_of_den_dvd (divides c member)

theorem leading_eq : (p.leading : ℚ) = p.a * p.commonDenominator := by
  obtain ⟨n, whole⟩ := p.commonDenominator_clears p.a (by simp)
  rw [leading, whole, Rat.num_intCast]

end Denominators

variable {p : Cubic} (leading : p.a ≠ 0)
include leading

theorem leading_ne_zero : p.leading ≠ 0 := by
  rw [← Int.cast_ne_zero (α := ℚ), leading_eq]
  exact mul_ne_zero leading (Nat.cast_ne_zero.mpr p.commonDenominator_pos.ne')

/-- The rational root theorem, with the leading coefficient on the side of the root. -/
theorem exists_int_of_root {q : ℚ} (root : p.value q = 0) : ∃ n : ℤ, p.leading * q = n := by
  obtain ⟨b, hb⟩ := p.commonDenominator_clears p.b (by simp)
  obtain ⟨c, hc⟩ := p.commonDenominator_clears p.c (by simp)
  obtain ⟨d, hd⟩ := p.commonDenominator_clears p.d (by simp)
  let cleared : ℤ[X] := C p.leading * X ^ 3 + C b * X ^ 2 + C c * X + C d
  have vanishes : aeval q cleared = 0 := by
    calc aeval q cleared = p.value q * p.commonDenominator := by
          simp only [cleared, map_add, map_mul, map_pow, aeval_X, eq_intCast, map_intCast,
            leading_eq, ← hb, ← hc, ← hd, value]
          ring
      _ = 0 := by rw [root, zero_mul]
  -- rational numbers that are integral over ℤ are integers
  have integral := isIntegral_leadingCoeff_smul cleared q vanishes
  rw [leadingCoeff_cubic (leading_ne_zero leading), zsmul_eq_mul] at integral
  obtain ⟨n, same⟩ := IsIntegrallyClosed.isIntegral_iff.mp integral
  exact ⟨n, same.symm⟩

theorem leadingClears : p.LeadingClears where
  ne_zero := leading_ne_zero leading
  coefficients := by
    refine ⟨p.commonDenominator, p.commonDenominator_pos, ?_, p.commonDenominator_clears⟩
    rw [leading_eq, mul_div_cancel_left₀ _ leading]
  root _ zero := exists_int_of_root leading zero

theorem candidate?_of_roundsTo {method : NumericMethod} {x : Double} {q : ℚ}
    (root : p.value q = 0) (rounds : p.RoundsTo method x q) :
    candidate? method.functions p.leading x = some q := by
  have nonzero := leading_ne_zero leading
  have cast : (p.leading : ℚ) ≠ 0 := Int.cast_ne_zero.mpr nonzero
  obtain ⟨n, whole⟩ := exists_int_of_root leading root
  have truncated : (method.functions.round (x * .ofInt p.leading)).truncate? = some n := by
    rw [Double.truncate?, rounds, whole, Option.map_some, Rat.num_intCast, Rat.den_intCast,
      Nat.cast_one, Int.tdiv_one]
  rw [candidate?, truncated]
  simp only [if_neg nonzero, ← whole, mul_div_cancel_left₀ q cast]

end Cubic

namespace Laurent

/-- Whatever its sign, the leading integer of a cubic is the leading coefficient with all
denominators cleared, and a double that is rounded to a rational root and lies within the tolerance
of it is replaced by that root in lowest terms. -/
theorem cubic_snaps_to_rational_roots (e : Laurent) (s : String) (p : Cubic) (leading : p.a ≠ 0)
    (whole : e.polynomial = inSymbol s p.polynomial) :
    e.cubic = .ok p ∧ p.LeadingClears ∧
      (∀ r, e.normalize.substitute [(s, .ratio r)] = .ok ⟨[], .ofRat (p.value r.value)⟩) ∧
      ∀ method x q, p.value q = 0 → p.RoundsTo method x q →
        Cubic.isFar method.snapTolerance x q = false →
        p.snap method.functions method.snapTolerance x = .exact (.ofRat q) ∧
          (Ratio.ofRat q).LowestTerms := by
  refine ⟨cubic_of_inSymbol whole, Cubic.leadingClears leading, substitute_cubic whole, ?_⟩
  intro method x q root rounds near
  have candidate := Cubic.candidate?_of_roundsTo leading root rounds
  exact ⟨Cubic.snap_of_snapsTo ⟨candidate, near, root⟩, Ratio.ofRat_lowestTerms q⟩

/-- The product (1 - 3x/2)(x² + 1), with the coefficient written as 3 over -2. -/
def falling : Laurent :=
  (((const ⟨3, -2, by decide⟩).mul (symbol "x")).add (const (.ofInt 1))).mul
    (((symbol "x").mul (symbol "x")).add (const (.ofInt 1)))

/-- With the leading integer -3, the double nearest to 2/3 is replaced by 2/3. -/
theorem cubic_snaps_to_rational_roots_of_falling :
    falling.cubic = .ok ⟨-3 / 2, 1, -3 / 2, 1⟩ ∧ (⟨-3 / 2, 1, -3 / 2, 1⟩ : Cubic).leading = -3 ∧
      (⟨-3 / 2, 1, -3 / 2, 1⟩ : Cubic).snap .rounded NumericMethod.standard.snapTolerance
        (.ofRat (2 / 3)) = .exact (.ofRat (2 / 3)) := by
  have whole : falling.polynomial =
      inSymbol "x" (⟨-3 / 2, 1, -3 / 2, 1⟩ : Cubic).polynomial := by
    have written : (⟨3, -2, by decide⟩ : Ratio).value = -3 / 2 := by norm_num [Ratio.value_eq]
    simp [falling, polynomial_mul, polynomial_add, polynomial_symbol, written, constant_one,
      Cubic.polynomial]
    ring
  obtain ⟨extracted, -, -, snaps⟩ :=
    cubic_snaps_to_rational_roots falling "x" ⟨-3 / 2, 1, -3 / 2, 1⟩ (by norm_num) whole
  refine ⟨extracted, by decide +kernel, ?_⟩
  exact (snaps .standard (.ofRat (2 / 3)) (2 / 3) (by decide +kernel) (by decide +kernel)
    (by decide +kernel)).1

end Laurent

end ExactAlgebra
