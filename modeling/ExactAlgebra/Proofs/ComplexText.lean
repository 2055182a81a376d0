import ExactAlgebra.Proofs.GaussianField
import ExactAlgebra.Proofs.RoundTrip

/-!
Complex numbers as text. A complex number is written with its real part first, an expression in the
symbol i in the order of expressions; read back, the text of the one is the other, whatever signs,
zeros, units and fractions the parts are. So the parts are never lost in the text, and two numbers
are written alike exactly when they are the same.
-/
namespace ExactAlgebra

open Polynomial LaurentRing

/-- A complex number is written by the values of its parts, however these are stored. -/
theorem Script.gaussian_of_same (script : Script) {z w : Gaussian} (same : z.same w = true) :
    script.gaussian z = script.gaussian w := by
  rw [Gaussian.same, Bool.and_eq_true] at same
  have re := Ratio.same_iff_interchangeable.mp same.1
  have im := Ratio.same_iff_interchangeable.mp same.2
  simp only [gaussian, signedRatio, factor?, re.isZero, re.isNegative, re.abs, im.isZero,
    im.isNegative, im.abs]

namespace Gaussian

/-- The imaginary part stands in front of the i, unless it is a unit. -/
theorem stands_imaginary (greek : GreekNames) (r : Ratio) :
    Stands greek (r.isNegative, ((Script.plain.factor? r).getD "") ++ "i")
      (symbol "i" * constant r.value) := by
  have letter : Denotes greek .factor ['i'] (.single (Finsupp.single "i" 1) 1) := by
    have name : Denotes greek .atom ['i'] (.single (greek.exponents ['i']) 1) :=
      .name (List.cons_ne_nil _ _) (List.forall_mem_singleton.mpr rfl)
    rw [greek.exponents_singleton] at name
    exact name.factor
  have text : (((Script.plain.factor? r).getD "") ++ "i").toList =
      (Script.plain.factor? r).toList.flatMap String.toList ++ ['i'] := by
    cases Script.plain.factor? r <;> simp
  have value : symbol "i" * constant r.value = .single (Finsupp.single "i" 1) r.value := by
    rw [mul_comm, constant_mul_symbol]
  have magnitude := @Ratio.piece_of_factors greek r [(['i'], Finsupp.single "i" 1)]
    (List.cons_ne_nil _ _) (List.forall_mem_singleton.mpr ⟨List.cons_ne_nil _ _, letter⟩)
    (List.isChain_singleton _)
  rw [List.map_singleton, List.sum_singleton, List.flatMap_singleton, ← text] at magnitude
  rw [value]
  exact stands_of_magnitude r magnitude

/-- The text denotes the real part and the imaginary part times i, each left out when it is zero. -/
theorem text_denotes (greek : GreekNames) (z : Gaussian) :
    Denotes greek .sum z.text.toList z.toLaurent.polynomial := by
  have real : Stands greek (Script.plain.signedRatio z.re) (constant z.re.value) := z.re.stands
  obtain ⟨re, first, realPart⟩ := real.unless_zero fun zero => by rw [zero, constant_zero]
  obtain ⟨im, second, imaginaryPart⟩ := (stands_imaginary greek z.im).unless_zero
    fun zero => by rw [zero, constant_zero, mul_zero]
  have whole := sum_denotes (List.rel_append first second)
  rw [List.sum_append, realPart, imaginaryPart] at whole
  rwa [polynomial_toLaurent, map_add, map_mul, inSymbol_C, inSymbol_C, inSymbol_X]

theorem read_text (greek : GreekNames) (z : Gaussian) :
    Laurent.read greek z.text = .ok z.toLaurent := by
  obtain ⟨f, read, normal, value⟩ := (z.text_denotes greek).ofChars
  obtain rfl := normal.eq_of_polynomial_eq (Laurent.add_normal _ _) value
  exact read

/-- The parts are the coefficients of the expression. -/
theorem quadratic_toLaurent (z : Gaussian) :
    z.toLaurent.quadratic = .ok ⟨0, z.im.value, z.re.value⟩ := by
  apply Laurent.quadratic_of_inSymbol
  rw [polynomial_toLaurent, Quadratic.polynomial]
  congr 1
  simp only [C_0]
  ring

theorem same_of_text {z w : Gaussian} (same : w.text = z.text) : w.same z = true := by
  have written : w.toLaurent = z.toLaurent :=
    Except.ok.inj ((w.read_text .standard).symm.trans (same ▸ z.read_text .standard))
  have parts := w.quadratic_toLaurent
  rw [written, z.quadratic_toLaurent] at parts
  injection parts with parts
  injection parts with _ im re
  rw [Gaussian.same, Bool.and_eq_true, Ratio.same_iff, Ratio.same_iff]
  exact ⟨re.symm, im.symm⟩

/-- The text of a complex number is read as its expression, which has the two parts for its
coefficients; so only the same number is written alike. -/
theorem text_recovers (greek : GreekNames) (z : Gaussian) :
    Laurent.read greek z.text = .ok z.toLaurent ∧
      z.toLaurent.quadratic = .ok ⟨0, z.im.value, z.re.value⟩ ∧
      ∀ w : Gaussian, w.text = z.text ↔ w.same z = true :=
  ⟨z.read_text greek, z.quadratic_toLaurent,
    fun _ => ⟨same_of_text, Script.plain.gaussian_of_same⟩⟩

example : (⟨⟨2, 4, by decide⟩, ⟨3, -6, by decide⟩⟩ : Gaussian).text = "1/2 - 1/2i" := by
  decide +kernel

end Gaussian

end ExactAlgebra
