import ExactAlgebra.Gaussian.Arithmetic
import ExactAlgebra.Proofs.Arithmetic
import ExactAlgebra.Proofs.Extraction
import ExactAlgebra.Proofs.Representation

/-!
Complex numbers as elements of the field ℚ(i). Multiplication goes through expressions in the symbol
i; the product of two of them is a quadratic polynomial in i, whatever cancels in it, so its
coefficients can always be read off. All operations give parts in lowest terms, and zero alone
divides nothing.
-/
namespace ExactAlgebra

open Polynomial LaurentRing

/-- The rational numbers with a square root of minus one. -/
abbrev GaussianField := QuadraticAlgebra ℚ (-1) 0

/-- Minus one is not a square, so that the numbers are a field. -/
instance GaussianField.rootless : Fact (∀ r : ℚ, r ^ 2 ≠ -1 + 0 * r) where
  out r square := by
    have nonneg := sq_nonneg r
    rw [square] at nonneg
    norm_num at nonneg

namespace Gaussian

/-- The number behind the parts. -/
def number (z : Gaussian) : GaussianField := ⟨z.re.value, z.im.value⟩

/-- A number of the field, with parts in lowest terms. -/
structure Holds (z : Gaussian) (v : GaussianField) : Prop where
  re : z.re.Holds v.re
  im : z.im.Holds v.im

section Holding

variable {z w : Gaussian} {v : GaussianField}

theorem Holds.number_eq (h : z.Holds v) : z.number = v :=
  QuadraticAlgebra.ext h.re.value h.im.value

theorem Holds.eq (hz : z.Holds v) (hw : w.Holds v) : z = w := by
  obtain ⟨re, im⟩ := z
  obtain ⟨re', im'⟩ := w
  exact congrArg₂ Gaussian.mk (hz.re.eq hw.re) (hz.im.eq hw.im)

theorem ofRatios_holds {r s : Ratio} (re : r.value = v.re) (im : s.value = v.im) :
    (ofRatios r s).Holds v :=
  ⟨re ▸ Ratio.ofRat_holds _, im ▸ Ratio.ofRat_holds _⟩

theorem same_iff (z w : Gaussian) : z.same w = true ↔ z.number = w.number := by
  rw [same, Bool.and_eq_true, Ratio.same_iff, Ratio.same_iff]
  exact (QuadraticAlgebra.ext_iff : z.number = w.number ↔ _).symm

end Holding

section Products

variable (z w : Gaussian)

theorem polynomial_toLaurent :
    z.toLaurent.polynomial = inSymbol "i" (C z.re.value + X * C z.im.value) := by
  rw [toLaurent, Laurent.polynomial_add, Laurent.polynomial_mul, Laurent.polynomial_symbol,
    Laurent.polynomial_const, Laurent.polynomial_const, map_add, map_mul, inSymbol_C, inSymbol_C,
    inSymbol_X]

/-- The coefficients of the product of two expressions in i. -/
def product : Quadratic where
  a := z.im.value * w.im.value
  b := z.re.value * w.im.value + z.im.value * w.re.value
  c := z.re.value * w.re.value

theorem polynomial_product :
    (z.toLaurent.mul w.toLaurent).polynomial = inSymbol "i" (z.product w).polynomial := by
  rw [Laurent.polynomial_mul, polynomial_toLaurent, polynomial_toLaurent, ← map_mul]
  simp only [Quadratic.polynomial, product, C_add, C_mul]
  congr 1
  ring

theorem number_mul : z.number * w.number =
    ⟨z.re.value * w.re.value - z.im.value * w.im.value,
      z.re.value * w.im.value + z.im.value * w.re.value⟩ := by
  apply QuadraticAlgebra.ext
  · rw [QuadraticAlgebra.re_mul]
    simp only [number]
    ring
  · rw [QuadraticAlgebra.im_mul]
    simp only [number]
    ring

theorem mul_eq : z.mul w = .ok (ofRatios
    ((Ratio.ofRat (z.re.value * w.re.value)).sub (.ofRat (z.im.value * w.im.value)))
    (.ofRat (z.re.value * w.im.value + z.im.value * w.re.value))) := by
  rw [mul, Laurent.quadratic_of_inSymbol (z.polynomial_product w)]
  rfl

theorem mul_holds : ∃ p, z.mul w = .ok p ∧ p.Holds (z.number * w.number) := by
  refine ⟨_, z.mul_eq w, ofRatios_holds ?_ ?_⟩
  · rw [number_mul, Ratio.value_sub, Ratio.value_ofRat, Ratio.value_ofRat]
  · rw [number_mul, Ratio.value_ofRat]

end Products

section Results

variable (z w : Gaussian)

theorem add_holds : (z.add w).Holds (z.number + w.number) :=
  ofRatios_holds (Ratio.value_add _ _) (Ratio.value_add _ _)

theorem sub_holds : (z.sub w).Holds (z.number - w.number) :=
  ofRatios_holds (Ratio.value_sub _ _) (Ratio.value_sub _ _)

theorem conjugate_holds : z.conjugate.Holds (star z.number) := by
  apply ofRatios_holds
  · rw [QuadraticAlgebra.re_star, zero_mul, add_zero]
    rfl
  · exact Ratio.value_neg _

theorem squaredModulus_holds : z.squaredModulus.Holds z.number.norm := by
  have norm : z.number.norm = z.re.value * z.re.value + z.im.value * z.im.value := by
    rw [QuadraticAlgebra.norm_def]
    simp only [number]
    ring
  rw [squaredModulus, Ratio.add_eq, Ratio.value_mul, Ratio.value_mul, norm]
  exact Ratio.ofRat_holds _

theorem value_squaredModulus_eq_zero_iff : w.squaredModulus.value = 0 ↔ w.number = 0 := by
  rw [w.squaredModulus_holds.value, QuadraticAlgebra.norm_eq_zero_iff_eq_zero]

theorem div_of_zero (zero : w.number = 0) : z.div w = .error .divisionByZero :=
  if_pos ((Ratio.isZero_iff _).mpr (w.value_squaredModulus_eq_zero_iff.mpr zero))

theorem div_of_ne_zero (nonzero : w.number ≠ 0) :
    ∃ q, z.div w = .ok q ∧ q.Holds (z.number / w.number) := by
  obtain ⟨p, product, hp⟩ := z.mul_holds w.conjugate
  have modulus : w.squaredModulus.value ≠ 0 := fun zero =>
    nonzero (w.value_squaredModulus_eq_zero_iff.mp zero)
  have quotient : z.div w = .ok (ofRatios (.ofRat (p.re.value / w.squaredModulus.value))
      (.ofRat (p.im.value / w.squaredModulus.value))) := by
    rw [div, if_neg (fun zero => modulus ((Ratio.isZero_iff _).mp zero)), product]
    simp only [Ratio.div_eq, if_neg modulus]
    rfl
  -- the conjugate over the norm is the inverse
  have inverse : z.number / w.number = w.number.norm⁻¹ • (z.number * star w.number) := by
    rw [div_eq_mul_inv, QuadraticAlgebra.inv_def, mul_smul_comm]
  rw [w.conjugate_holds.number_eq] at hp
  refine ⟨_, quotient, ofRatios_holds ?_ ?_⟩
  · rw [inverse, QuadraticAlgebra.re_smul, smul_eq_mul, Ratio.value_ofRat, hp.re.value,
      w.squaredModulus_holds.value, div_eq_inv_mul]
  · rw [inverse, QuadraticAlgebra.im_smul, smul_eq_mul, Ratio.value_ofRat, hp.im.value,
      w.squaredModulus_holds.value, div_eq_inv_mul]

end Results

/-- What the operations give, read as numbers of the field. -/
structure Operates (z w : Gaussian) : Prop where
  add : (z.add w).Holds (z.number + w.number)
  sub : (z.sub w).Holds (z.number - w.number)
  mul : ∃ p, z.mul w = .ok p ∧ p.Holds (z.number * w.number) ∧
    p.re.value = z.re.value * w.re.value - z.im.value * w.im.value ∧
    p.im.value = z.re.value * w.im.value + z.im.value * w.re.value
  div : Yields (z.div w) (w.number ≠ 0) (·.Holds (z.number / w.number)) .divisionByZero
  conjugate : z.conjugate.Holds (star z.number)
  squaredModulus : z.squaredModulus.Holds z.number.norm

/-- The laws of the field and of conjugation, for products and quotients that are always there. -/
structure Laws (z w : Gaussian) : Prop where
  div_mul : w.number ≠ 0 → ∃ q p, z.div w = .ok q ∧ q.mul w = .ok p ∧ p.same z = true
  mul_div : w.number ≠ 0 → ∃ p q, z.mul w = .ok p ∧ p.div w = .ok q ∧ q.same z = true
  conjugate_mul : ∃ p, z.mul w = .ok p ∧ z.conjugate.mul w.conjugate = .ok p.conjugate
  squaredModulus_mul : ∃ p, z.mul w = .ok p ∧
    p.squaredModulus = z.squaredModulus.mul w.squaredModulus

theorem operates (z w : Gaussian) : z.Operates w where
  add := z.add_holds w
  sub := z.sub_holds w
  mul := by
    obtain ⟨p, product, hp⟩ := z.mul_holds w
    refine ⟨p, product, hp, ?_, ?_⟩
    · rw [hp.re.value, number_mul]
    · rw [hp.im.value, number_mul]
  div := by
    by_cases zero : w.number = 0
    · rw [z.div_of_zero w zero]
      exact .of_error fun nonzero => nonzero zero
    · obtain ⟨q, quotient, hq⟩ := z.div_of_ne_zero w zero
      rw [quotient]
      exact .of_ok zero hq fun k other => other.eq hq
  conjugate := z.conjugate_holds
  squaredModulus := z.squaredModulus_holds

theorem laws (z w : Gaussian) : z.Laws w where
  div_mul nonzero := by
    obtain ⟨q, quotient, hq⟩ := z.div_of_ne_zero w nonzero
    obtain ⟨p, product, hp⟩ := q.mul_holds w
    refine ⟨q, p, quotient, product, (same_iff p z).mpr ?_⟩
    rw [hp.number_eq, hq.number_eq, div_mul_cancel₀ _ nonzero]
  mul_div nonzero := by
    obtain ⟨p, product, hp⟩ := z.mul_holds w
    obtain ⟨q, quotient, hq⟩ := p.div_of_ne_zero w nonzero
    refine ⟨p, q, product, quotient, (same_iff q z).mpr ?_⟩
    rw [hq.number_eq, hp.number_eq, mul_div_cancel_right₀ _ nonzero]
  conjugate_mul := by
    obtain ⟨p, product, hp⟩ := z.mul_holds w
    obtain ⟨c, conjugates, hc⟩ := z.conjugate.mul_holds w.conjugate
    have conjugate := p.conjugate_holds
    rw [z.conjugate_holds.number_eq, w.conjugate_holds.number_eq, ← star_mul', ← hp.number_eq] at hc
    exact ⟨p, product, conjugates.trans (congrArg Except.ok (hc.eq conjugate))⟩
  squaredModulus_mul := by
    obtain ⟨p, product, hp⟩ := z.mul_holds w
    refine ⟨p, product, ?_⟩
    have modulus := p.squaredModulus_holds
    rw [hp.number_eq, map_mul, ← z.squaredModulus_holds.value, ← w.squaredModulus_holds.value]
      at modulus
    exact modulus.eq (Ratio.operates _ _).mul

/-- Complex numbers compute in the field ℚ(i): a product is always there, a quotient unless the
divisor is zero, each undoes the other, and the squared modulus and the conjugate respect
products. -/
theorem field_arithmetic (z w : Gaussian) : z.Operates w ∧ z.Laws w := ⟨z.operates w, z.laws w⟩

/-- The number 1/2 - i/2, with parts that are not in lowest terms. -/
def halves : Gaussian := ⟨⟨2, 4, by decide⟩, ⟨3, -6, by decide⟩⟩

/-- The number -2i, with the real part 0/5. -/
def imaginary : Gaussian := ⟨⟨0, 5, by decide⟩, ⟨-4, 2, by decide⟩⟩

/-- A quotient by -2i times -2i is what was divided; zero divides nothing. -/
theorem field_arithmetic_of_halves :
    imaginary.number ≠ 0 ∧
    (∃ q p, halves.div imaginary = .ok q ∧ q.mul imaginary = .ok p ∧ p.same halves = true) ∧
    halves.div ⟨⟨0, -7, by decide⟩, .zero⟩ = .error .divisionByZero := by
  have nonzero : imaginary.number ≠ 0 := fun zero =>
    absurd (imaginary.value_squaredModulus_eq_zero_iff.mpr zero) (by decide +kernel)
  obtain ⟨-, laws⟩ := field_arithmetic halves imaginary
  obtain ⟨operates, -⟩ := field_arithmetic halves ⟨⟨0, -7, by decide⟩, .zero⟩
  refine ⟨nonzero, laws.div_mul nonzero, (operates.div.error_iff _).mpr ⟨not_not.mpr ?_, rfl⟩⟩
  exact (value_squaredModulus_eq_zero_iff _).mp (by decide +kernel)

end Gaussian

end ExactAlgebra
