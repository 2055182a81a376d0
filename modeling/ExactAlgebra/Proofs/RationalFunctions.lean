import ExactAlgebra.Proofs.Arithmetic
import ExactAlgebra.RationalFunction.Arithmetic

/-!
Quotients of expressions as fractions. Every operation leaves both sides of a quotient in normal form
and its denominator other than the zero polynomial: Laurent polynomials have no zero divisors, so
the sums and products that are not checked cannot lose this while degrees are unbounded. Each
operation is the one on fractions, by cross-multiplication.
-/
namespace ExactAlgebra

open LaurentRing

namespace RationalFunction

/-- Both sides in normal form, and a denominator other than zero. -/
structure Valid (f : RationalFunction) : Prop where
  numerator : f.numerator.Normal
  denominator : f.denominator.Normal
  nonzero : f.denominator.polynomial ≠ 0

/-- The fraction of two polynomials, by cross-multiplication. -/
def Represents (f : RationalFunction) (n d : LaurentRing) : Prop :=
  f.numerator.polynomial * d = n * f.denominator.polynomial

variable {f g h : RationalFunction}

section Quotients

theorem quotient_of_zero (e : Laurent) {d : Laurent} (zero : d.polynomial = 0) :
    e.quotient d = .error .divisionByZero :=
  if_pos (d.normalize_normal.isZero_iff.mpr (d.polynomial_normalize.trans zero))

theorem quotient_of_ne_zero (e : Laurent) {d : Laurent} (nonzero : d.polynomial ≠ 0) :
    e.quotient d = .ok ⟨e.normalize, d.normalize⟩ := by
  apply if_neg
  rw [d.normalize_normal.isZero_iff, d.polynomial_normalize]
  exact nonzero

theorem exists_of_quotient {e d : Laurent} (made : e.quotient d = .ok h) :
    d.polynomial ≠ 0 ∧ h = ⟨e.normalize, d.normalize⟩ := by
  by_cases zero : d.polynomial = 0
  · rw [quotient_of_zero e zero] at made
    cases made
  · rw [quotient_of_ne_zero e zero] at made
    cases made
    exact ⟨zero, rfl⟩

theorem quotient_represents {e d : Laurent} (made : e.quotient d = .ok h) :
    h.Represents e.polynomial d.polynomial := by
  obtain ⟨-, rfl⟩ := exists_of_quotient made
  simp only [Represents, Laurent.polynomial_normalize]

theorem inv_eq (f : RationalFunction) : f.inv = f.denominator.quotient f.numerator := rfl

theorem inv_error_iff (f : RationalFunction) (failure : Failure) :
    f.inv = .error failure ↔ failure = .divisionByZero ∧ f.numerator.polynomial = 0 := by
  rw [inv_eq]
  by_cases zero : f.numerator.polynomial = 0
  · rw [quotient_of_zero _ zero, Except.error.injEq, eq_comm, and_iff_left zero]
  · rw [quotient_of_ne_zero _ zero]
    simp [zero]

theorem exists_of_div (made : f.div g = .ok h) : ∃ i, g.inv = .ok i ∧ f.mul i = h :=
  exists_of_map made

end Quotients

section Validity

theorem ofLaurent_valid (e : Laurent) : (ofLaurent e).Valid := by
  refine ⟨e.normalize_normal, Laurent.const_normal _, ?_⟩
  change Laurent.one.polynomial ≠ 0
  rw [Laurent.polynomial_one]
  exact one_ne_zero

theorem quotient_valid {e d : Laurent} (made : e.quotient d = .ok h) : h.Valid := by
  obtain ⟨nonzero, rfl⟩ := exists_of_quotient made
  exact ⟨e.normalize_normal, d.normalize_normal, by rwa [Laurent.polynomial_normalize]⟩

theorem Valid.neg (hf : f.Valid) : f.neg.Valid := ⟨hf.numerator.neg, hf.denominator, hf.nonzero⟩

/-- A product of denominators is not zero, as Laurent polynomials have no zero divisors. -/
theorem Valid.product_ne_zero (hf : f.Valid) (hg : g.Valid) :
    (f.denominator.mul g.denominator).polynomial ≠ 0 := by
  rw [Laurent.polynomial_mul]
  exact mul_ne_zero hf.nonzero hg.nonzero

theorem Valid.mul (hf : f.Valid) (hg : g.Valid) : (f.mul g).Valid :=
  ⟨Laurent.mul_normal _ _, Laurent.mul_normal _ _, hf.product_ne_zero hg⟩

theorem Valid.add (hf : f.Valid) (hg : g.Valid) : (f.add g).Valid := by
  unfold RationalFunction.add
  split
  · exact ⟨Laurent.add_normal _ _, hf.denominator, hf.nonzero⟩
  · exact ⟨Laurent.add_normal _ _, Laurent.mul_normal _ _, hf.product_ne_zero hg⟩

theorem Valid.sub (hf : f.Valid) (hg : g.Valid) : (f.sub g).Valid := hf.add hg.neg

theorem Valid.of_div (hf : f.Valid) (made : f.div g = .ok h) : h.Valid := by
  obtain ⟨i, inverse, rfl⟩ := exists_of_div made
  exact hf.mul (quotient_valid inverse)

theorem substitute_valid {b : Bindings} (made : f.substitute b = .ok h) : h.Valid := by
  obtain ⟨n, -, made⟩ := exists_of_bind made
  obtain ⟨d, -, made⟩ := exists_of_bind made
  exact quotient_valid made

theorem reduce_valid (made : f.reduce = .ok h) : h.Valid := by
  unfold reduce at made
  split at made
  · cases made
    exact ofLaurent_valid .zero
  · obtain ⟨n, -, made⟩ := exists_of_bind made
    obtain ⟨d, -, made⟩ := exists_of_bind made
    exact quotient_valid made

theorem toLaurent?_normal {e : Laurent} (made : f.toLaurent? = some e) : e.Normal := by
  unfold toLaurent? at made
  split at made
  · cases made
  · obtain ⟨g, -, rfl⟩ := Option.map_eq_some_iff.mp made
    exact g.normalize_normal

end Validity

section Fractions

/-- A sum over one denominator keeps it. -/
theorem add_of_same (hf : f.Valid) (hg : g.Valid)
    (same : f.denominator.polynomial = g.denominator.polynomial) :
    f.add g = ⟨f.numerator.add g.numerator, f.denominator⟩ :=
  if_pos ((hf.denominator.same_iff hg.denominator).mpr same)

theorem add_of_different (hf : f.Valid) (hg : g.Valid)
    (different : f.denominator.polynomial ≠ g.denominator.polynomial) :
    f.add g = ⟨(f.numerator.mul g.denominator).add (g.numerator.mul f.denominator),
      f.denominator.mul g.denominator⟩ :=
  if_neg fun h => different ((hf.denominator.same_iff hg.denominator).mp h)

theorem add_represents (hf : f.Valid) (hg : g.Valid) : (f.add g).Represents
    (f.numerator.polynomial * g.denominator.polynomial +
      g.numerator.polynomial * f.denominator.polynomial)
    (f.denominator.polynomial * g.denominator.polynomial) := by
  by_cases same : f.denominator.polynomial = g.denominator.polynomial
  · rw [add_of_same hf hg same, Represents, Laurent.polynomial_add, same]
    ring
  · rw [add_of_different hf hg same, Represents]
    simp only [Laurent.polynomial_add, Laurent.polynomial_mul]

theorem neg_represents (f : RationalFunction) :
    f.neg.Represents (-f.numerator.polynomial) f.denominator.polynomial := by
  rw [Represents, neg, Laurent.polynomial_neg]

theorem sub_represents (hf : f.Valid) (hg : g.Valid) : (f.sub g).Represents
    (f.numerator.polynomial * g.denominator.polynomial -
      g.numerator.polynomial * f.denominator.polynomial)
    (f.denominator.polynomial * g.denominator.polynomial) := by
  have sum := add_represents hf hg.neg
  rwa [neg, Laurent.polynomial_neg, neg_mul, ← sub_eq_add_neg] at sum

theorem mul_represents (f g : RationalFunction) : (f.mul g).Represents
    (f.numerator.polynomial * g.numerator.polynomial)
    (f.denominator.polynomial * g.denominator.polynomial) := by
  simp only [Represents, mul, Laurent.polynomial_mul]

theorem div_represents (made : f.div g = .ok h) : h.Represents
    (f.numerator.polynomial * g.denominator.polynomial)
    (f.denominator.polynomial * g.numerator.polynomial) := by
  obtain ⟨i, inverse, rfl⟩ := exists_of_div made
  have crossed := quotient_represents inverse
  simp only [Represents, mul, Laurent.polynomial_mul] at crossed ⊢
  linear_combination f.numerator.polynomial * f.denominator.polynomial * crossed

theorem toLaurent?_isSome_iff (hf : f.Valid) :
    f.toLaurent?.isSome = true ↔ f.denominator.polynomial.IsConstant := by
  rw [← Laurent.constantValue?_isSome_iff, toLaurent?]
  cases number : f.denominator.constantValue? with
  | none => simp
  | some r =>
    have value := Laurent.polynomial_of_constantValue? number
    have nonzero : r.value ≠ 0 := fun zero => hf.nonzero (by rw [value, zero, constant_zero])
    obtain ⟨e, divided, -⟩ := Laurent.divRatio?_of_ne_zero (e := f.numerator) nonzero
    simp [divided]

theorem polynomial_of_toLaurent? (hf : f.Valid) {e : Laurent} (made : f.toLaurent? = some e) :
    e.polynomial * f.denominator.polynomial = f.numerator.polynomial := by
  unfold toLaurent? at made
  split at made
  · cases made
  · next r number =>
    have value := Laurent.polynomial_of_constantValue? number
    have nonzero : r.value ≠ 0 := fun zero => hf.nonzero (by rw [value, zero, constant_zero])
    obtain ⟨q, divided, quotient⟩ := Laurent.divRatio?_of_ne_zero (e := f.numerator) nonzero
    rw [divided] at made
    cases made
    rw [Laurent.polynomial_normalize, quotient, value, mul_assoc, ← constant_mul,
      inv_mul_cancel₀ nonzero, constant_one, mul_one]

end Fractions

end RationalFunction

end ExactAlgebra
