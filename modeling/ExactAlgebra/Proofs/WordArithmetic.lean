import ExactAlgebra.Proofs.Arithmetic
import ExactAlgebra.Proofs.Words

/-!
Arithmetic of expressions with degrees of 64 bits. On residues it is the arithmetic of polynomials,
so what is stored obeys the laws of commutative rings even where degrees wrap. What an operation
gives is the sum, the product or the power itself as long as no degree of it leaves the range.
-/
namespace ExactAlgebra

open LaurentRing

/-- No degree of an operand leaves the range of words. -/
def Operand.InRange : Operand → Prop
  | monomial m => m.InRange
  | laurent e => e.InRange
  | _ => True

instance : DecidablePred Operand.InRange
  | .monomial m => inferInstanceAs (Decidable m.InRange)
  | .laurent e => inferInstanceAs (Decidable e.InRange)
  | .symbol _ | .integer _ | .ratio _ => inferInstanceAs (Decidable True)

theorem Laurent.polynomial_of_term (m : Monomial) :
    polynomial ⟨[m], .zero⟩ = m.polynomial := by
  rw [← polynomial_normalize, ← ofMonomial, polynomial_ofMonomial]

theorem Laurent.polynomial_of_power (p : Power) :
    polynomial ⟨[⟨.one, [p]⟩], .zero⟩ = .single (.single p.symbol p.degree) 1 := by
  rw [polynomial_of_term, ← Monomial.polynomial_normalize, ← Monomial.ofPower,
    Monomial.polynomial_ofPower]

namespace Operand

variable {o : Operand}

@[simp] theorem residue_wrapTerms (o : Operand) :
    residue o.wrapTerms.polynomial = residue o.polynomial := by
  cases o with
  | monomial m => exact m.residue_wrapped
  | laurent e => exact e.residue_wrapTerms
  | symbol | integer | ratio => rfl

theorem polynomial_wrapTerms (fits : o.InRange) : o.wrapTerms.polynomial = o.polynomial := by
  cases o with
  | monomial m =>
    change m.wrapped.polynomial = m.polynomial
    rw [Monomial.wrapped_eq fits, Monomial.polynomial_normalize]
  | laurent e =>
    exact e.wrapTerms_inRange.eq_of_residue_eq (e.inRange_iff.mp fits) e.residue_wrapTerms
  | symbol | integer | ratio => rfl

end Operand

namespace Wrapping

section Operands

variable {o : Operand}

@[simp] theorem residue_toLaurent (o : Operand) :
    residue (toLaurent o).polynomial = residue o.polynomial := by
  cases o with
  | monomial m =>
    change residue (Laurent.wrapped _).polynomial = residue m.polynomial
    rw [Laurent.residue_wrapped, Laurent.polynomial_of_term]
  | symbol | integer | ratio | laurent => simp only [toLaurent, Operand.polynomial_toLaurent]

theorem polynomial_toLaurent (fits : o.InRange) : (toLaurent o).polynomial = o.polynomial := by
  cases o with
  | monomial m =>
    apply Laurent.polynomial_wrapped_of_residue
    · exact single_inRange (m.inRange_iff.mp fits) _
    · rw [Laurent.polynomial_of_term]
      rfl
  | symbol | integer | ratio | laurent => simp only [toLaurent, Operand.polynomial_toLaurent]

/-- An operand in range has the same number behind it in words. -/
theorem scalar?_eq (fits : o.InRange) : scalar? o = o.scalar? := by
  cases o with
  | monomial m =>
    have wrapped := Monomial.wrapped_eq fits
    have constant : m.normalize.isConstant = m.isConstant := by
      rw [Bool.eq_iff_iff, Monomial.isConstant_iff, Monomial.isConstant_iff,
        Monomial.exponents_normalize]
    simp only [scalar?, Operand.wrapTerms, Operand.scalar?, wrapped, constant]
    simp only [Monomial.normalize, Ratio.reduce, Ratio.value_ofRat]
  | laurent e =>
    exact Laurent.constantValue?_eq (Operand.polynomial_wrapTerms (o := .laurent e) fits)
  | symbol | integer | ratio => rfl

end Operands

section Residues

variable (tidy : Bool) (e f : Laurent) (o : Operand)

@[simp] theorem residue_finish :
    residue (finish tidy e).polynomial = residue e.polynomial := by
  cases tidy with
  | false => rfl
  | true => exact e.residue_wrapped

theorem residue_addWith : residue (addWith tidy e o).polynomial =
    residue e.polynomial + residue o.polynomial := by
  rw [addWith, residue_finish, Laurent.polynomial_addRaw, map_add, residue_toLaurent]

theorem residue_subWith : residue (subWith tidy e o).polynomial =
    residue e.polynomial - residue o.polynomial := by
  rw [subWith, residue_finish, Laurent.polynomial_subRaw, map_sub, residue_toLaurent]

theorem residue_mulWith : residue (mulWith tidy e o).polynomial =
    residue e.polynomial * residue o.polynomial := by
  rw [mulWith, residue_finish, Laurent.polynomial_mulRaw, map_mul, residue_toLaurent]

theorem residue_mul :
    residue (mul e f).polynomial = residue e.polynomial * residue f.polynomial := by
  rw [mul, Laurent.residue_wrapped, Laurent.polynomial_mulRaw, map_mul]

theorem residue_repeatMul (n : ℕ) :
    residue (repeatMul tidy e n).polynomial = residue e.polynomial ^ n := by
  induction n with
  | zero => rw [repeatMul, Laurent.polynomial_one, map_one, pow_zero]
  | succ n ih =>
    rw [repeatMul, residue_finish, Laurent.polynomial_mulRaw, map_mul, ih, pow_succ]

theorem polynomial_repeatMul_false (n : ℕ) :
    (repeatMul false e n).polynomial = e.polynomial ^ n := by
  induction n with
  | zero => rw [repeatMul, Laurent.polynomial_one, pow_zero]
  | succ n ih =>
    change ((repeatMul false e n).mulRaw e).polynomial = _
    rw [Laurent.polynomial_mulRaw, ih, pow_succ]

theorem powWith_of_le {n : ℕ} (low : n ≤ 64) :
    powWith tidy e n = .ok (finish tidy (repeatMul tidy e n)) := if_neg (not_lt.mpr low)

theorem powWith_of_lt {n : ℕ} (high : 64 < n) :
    powWith tidy e n = .error (.exponentTooLarge n) := if_pos high

theorem powWith_wrapped {f : Laurent} {n : ℕ} (answer : powWith true e n = .ok f) :
    f.wrapped = f := by
  rcases le_or_gt n 64 with low | high
  · rw [powWith_of_le true e low] at answer
    cases answer
    exact Laurent.wrapped_wrapped _
  · rw [powWith_of_lt true e high] at answer
    cases answer

theorem divWith_of_none (scalar : scalar? o = none) :
    divWith tidy e o = .error (.divisorNotConstant (toLaurent o)) := by
  simp [divWith, scalar]

variable {r : Ratio}

theorem divWith_of_zero (scalar : scalar? o = some r) (zero : r.value = 0) :
    divWith tidy e o = .error .divisionByZero := by
  simp [divWith, scalar, Laurent.divRatio?_of_zero zero, orDivisionByZero]

theorem divWith_of_ne_zero (scalar : scalar? o = some r) (nonzero : r.value ≠ 0) :
    ∃ f : Laurent, divWith tidy e o = .ok (finish tidy f) ∧
      f.polynomial = e.polynomial * constant r.value⁻¹ := by
  obtain ⟨f, divided, quotient⟩ := Laurent.divRatio?_of_ne_zero (e := e) nonzero
  refine ⟨f, ?_, quotient⟩
  simp only [divWith, scalar, divided]
  rfl

/-- Division succeeds by a number other than zero only. -/
theorem exists_of_divWith {f : Laurent} (divided : divWith tidy e o = .ok f) :
    ∃ (r : Ratio) (g : Laurent), scalar? o = some r ∧ r.value ≠ 0 ∧ f = finish tidy g ∧
      g.polynomial = e.polynomial * constant r.value⁻¹ := by
  cases scalar : scalar? o with
  | none =>
    rw [divWith_of_none tidy e o scalar] at divided
    cases divided
  | some r =>
    by_cases zero : r.value = 0
    · rw [divWith_of_zero tidy e o scalar zero] at divided
      cases divided
    · obtain ⟨g, answer, quotient⟩ := divWith_of_ne_zero tidy e o scalar zero
      cases answer.symm.trans divided
      exact ⟨r, g, rfl, zero, rfl, quotient⟩

end Residues

section Exactness

variable {tidy : Bool} {e : Laurent} {o : Operand} {p : LaurentRing}

/-- Normalizing a result, if it is asked for, wraps no degree. -/
def Fits (tidy : Bool) (p : LaurentRing) : Prop := tidy = true → p.InRange

theorem polynomial_finish (fits : Fits tidy p) (same : e.polynomial = p) :
    (finish tidy e).polynomial = p := by
  cases tidy with
  | false => exact same
  | true => exact Laurent.polynomial_wrapped_of_residue (fits rfl) (congrArg residue same)

theorem polynomial_pow {n : ℕ} (fits : Fits tidy (e.polynomial ^ n)) :
    (finish tidy (repeatMul tidy e n)).polynomial = e.polynomial ^ n := by
  cases tidy with
  | false => exact polynomial_repeatMul_false e n
  | true =>
    apply Laurent.polynomial_wrapped_of_residue (fits rfl)
    rw [residue_repeatMul, map_pow]

theorem mul_constant_inRange (fits : p.InRange) (c : ℚ) : (p * constant c).InRange := by
  intro d counts
  apply fits d
  rw [constant, AddMonoidAlgebra.coeff_mul_single_apply, neg_zero, add_zero] at counts
  exact left_ne_zero_of_mul counts

theorem polynomial_of_divWith (small : o.InRange) (fits : Fits tidy e.polynomial) {f : Laurent}
    (divided : divWith tidy e o = .ok f) : f.polynomial * o.polynomial = e.polynomial := by
  obtain ⟨r, g, scalar, nonzero, rfl, quotient⟩ := exists_of_divWith tidy e o divided
  rw [scalar?_eq small] at scalar
  -- division by a number scales the coefficients, so the quotient has the degrees of the dividend
  rw [polynomial_finish (fun tidied => mul_constant_inRange (fits tidied) _) quotient,
    Operand.polynomial_of_scalar? scalar, mul_assoc, ← constant_mul, inv_mul_cancel₀ nonzero,
    constant_one, mul_one]

/-- What an expression, an operand in range and a flag give, read as polynomials, as long as
normalizing a result wraps no degree. -/
structure Operates (e : Laurent) (o : Operand) (tidy : Bool) : Prop where
  add : Fits tidy (e.polynomial + o.polynomial) →
    (addWith tidy e o).polynomial = e.polynomial + o.polynomial
  sub : Fits tidy (e.polynomial - o.polynomial) →
    (subWith tidy e o).polynomial = e.polynomial - o.polynomial
  mul : Fits tidy (e.polynomial * o.polynomial) →
    (mulWith tidy e o).polynomial = e.polynomial * o.polynomial
  neg : e.neg.polynomial = -e.polynomial
  pow : ∀ n ≤ 64, ∃ f, powWith tidy e n = .ok f ∧
    (Fits tidy (e.polynomial ^ n) → f.polynomial = e.polynomial ^ n)
  pow_limit : ∀ n > 64, ∃ f, powWith tidy e n = .error f ∧ f.kind = .invalidArgument
  div : Fits tidy e.polynomial → ∀ f, divWith tidy e o = .ok f →
    f.polynomial * o.polynomial = e.polynomial

theorem operates (small : o.InRange) (e : Laurent) (tidy : Bool) : Operates e o tidy where
  add fits := polynomial_finish fits (by rw [Laurent.polynomial_addRaw, polynomial_toLaurent small])
  sub fits := polynomial_finish fits (by rw [Laurent.polynomial_subRaw, polynomial_toLaurent small])
  mul fits := polynomial_finish fits (by rw [Laurent.polynomial_mulRaw, polynomial_toLaurent small])
  neg := Laurent.polynomial_neg e
  pow _ low := ⟨_, powWith_of_le tidy e low, polynomial_pow⟩
  pow_limit _ high := ⟨_, powWith_of_lt tidy e high, rfl⟩
  div fits _ divided := polynomial_of_divWith small fits divided

end Exactness

section Range

variable {e d : Laurent}

/-- A sum that stays in range is the sum with unbounded degrees. -/
theorem add_eq (fits : (e.add d).InRange) : add e d = e.add d :=
  Laurent.wrapped_eq ((Laurent.inRange_normalize _).mp fits)

theorem sub_eq (fits : (e.sub d).InRange) : sub e d = e.sub d :=
  Laurent.wrapped_eq ((Laurent.inRange_normalize _).mp fits)

theorem mul_eq (fits : (e.mul d).InRange) : mul e d = e.mul d :=
  Laurent.wrapped_eq ((Laurent.inRange_normalize _).mp fits)

end Range

section Laws

/-- The laws of commutative rings for what is stored when results are normalized. -/
structure RingLaws (e f : Laurent) (o : Operand) : Prop where
  add_comm : addWith true e o = addWith true (toLaurent o) (.laurent e)
  add_assoc : addWith true (addWith true e (.laurent f)) o =
    addWith true e (.laurent (addWith true f o))
  add_zero : o.polynomial = 0 → addWith true e o = e.wrapped
  sub_self : subWith true e (.laurent e) = .zero
  mul_comm : mulWith true e o = mulWith true (toLaurent o) (.laurent e)
  mul_assoc : mulWith true (mulWith true e (.laurent f)) o =
    mulWith true e (.laurent (mulWith true f o))
  mul_one : o.polynomial = 1 → mulWith true e o = e.wrapped
  mul_add : mulWith true e (.laurent (addWith true f o)) =
    addWith true (mulWith true e (.laurent f)) (.laurent (mulWith true e o))
  add_mul : mulWith true (addWith true e (.laurent f)) o =
    addWith true (mulWith true e o) (.laurent (mulWith true f o))
  pow_add : ∀ m n, m + n ≤ 64 → ∃ g h, powWith true e m = .ok g ∧ powWith true e n = .ok h ∧
    powWith true e (m + n) = .ok (mulWith true g (.laurent h))

/-- Sums and products are normal forms in words, which their residues determine. -/
theorem ringLaws (e f : Laurent) (o : Operand) : RingLaws e f o where
  add_comm := by
    apply Laurent.wrapped_eq_iff.mpr
    simp only [Laurent.polynomial_addRaw, map_add, residue_toLaurent, Operand.polynomial]
    ring
  add_assoc := by
    apply Laurent.wrapped_eq_iff.mpr
    simp only [Laurent.polynomial_addRaw, map_add, residue_toLaurent, residue_addWith,
      Operand.polynomial]
    ring
  add_zero zero := by
    apply Laurent.wrapped_eq_iff.mpr
    rw [Laurent.polynomial_addRaw, map_add, residue_toLaurent, zero, map_zero, add_zero]
  sub_self := by
    have zero : residue (e.subRaw e).polynomial = residue Laurent.zero.polynomial := by
      rw [Laurent.polynomial_subRaw, sub_self, Laurent.polynomial_zero]
    exact (Laurent.wrapped_eq_of_residue zero (by decide)).trans Laurent.zero_normal.normalize_eq
  mul_comm := by
    apply Laurent.wrapped_eq_iff.mpr
    simp only [Laurent.polynomial_mulRaw, map_mul, residue_toLaurent, Operand.polynomial]
    ring
  mul_assoc := by
    apply Laurent.wrapped_eq_iff.mpr
    simp only [Laurent.polynomial_mulRaw, map_mul, residue_toLaurent, residue_mulWith,
      Operand.polynomial]
    ring
  mul_one one := by
    apply Laurent.wrapped_eq_iff.mpr
    simp [Laurent.polynomial_mulRaw, one]
  mul_add := by
    apply Laurent.wrapped_eq_iff.mpr
    simp only [Laurent.polynomial_mulRaw, Laurent.polynomial_addRaw, map_mul, map_add,
      residue_toLaurent, residue_addWith, residue_mulWith, Operand.polynomial]
    ring
  add_mul := by
    apply Laurent.wrapped_eq_iff.mpr
    simp only [Laurent.polynomial_mulRaw, Laurent.polynomial_addRaw, map_mul, map_add,
      residue_toLaurent, residue_addWith, residue_mulWith, Operand.polynomial]
    ring
  pow_add m n low := by
    refine ⟨_, _, powWith_of_le true e (by omega), powWith_of_le true e (by omega), ?_⟩
    rw [powWith_of_le true e low, Except.ok.injEq]
    apply Laurent.wrapped_eq_iff.mpr
    simp only [Laurent.polynomial_mulRaw, map_mul, residue_repeatMul, residue_toLaurent,
      residue_finish, Operand.polynomial, pow_add]

/-- Arithmetic in words with an operand in range is the arithmetic of polynomials, unless normalizing
wraps a degree of the result. What it stores by default obeys the laws of commutative rings, also
where degrees wrap. -/
theorem arithmetic_in_range (e f : Laurent) (o : Operand) (tidy : Bool) :
    (o.InRange → Operates e o tidy) ∧ RingLaws e f o :=
  ⟨fun small => operates small e tidy, ringLaws e f o⟩

/-- The symbol x under the exponent 2 ^ 60. -/
def highPower : Laurent := ⟨[⟨.one, [⟨"x", 0x1000000000000000⟩]⟩], .zero⟩

/-- Its seventh power, half of it, its sum with zero, its product with one, and the powers of sums of
exponents. -/
theorem arithmetic_in_range_of_highPower :
    (∃ f, powWith true highPower 7 = .ok f ∧ f.polynomial = highPower.polynomial ^ 7) ∧
    (∃ f, powWith false highPower 65 = .error f ∧ f.kind = .invalidArgument) ∧
    (⟨[⟨.ofRat (1 / 2), [⟨"x", 0x1000000000000000⟩]⟩], .zero⟩ : Laurent).polynomial *
      (Operand.integer 2).polynomial = highPower.polynomial ∧
    addWith true highPower (.integer 0) = highPower ∧
    mulWith true highPower (.integer 1) = highPower ∧
    (∃ g h, powWith true highPower 3 = .ok g ∧ powWith true highPower 5 = .ok h ∧
      powWith true highPower (3 + 5) = .ok (mulWith true g (.laurent h))) := by
  obtain ⟨operates, laws⟩ := arithmetic_in_range highPower .zero (.integer 2) true
  obtain ⟨raw, sum⟩ := arithmetic_in_range highPower .zero (.integer 0) false
  obtain ⟨-, product⟩ := arithmetic_in_range highPower .zero (.integer 1) true
  have seventh : (highPower.polynomial ^ 7).InRange := by
    rw [← Laurent.polynomial_pow true, ← Laurent.inRange_iff]
    decide +kernel
  obtain ⟨f, raised, power⟩ := (operates trivial).pow 7 (by decide)
  refine ⟨⟨f, raised, power fun _ => seventh⟩, (raw trivial).pow_limit 65 (by decide), ?_, ?_, ?_,
    laws.pow_add 3 5 (by decide)⟩
  · refine (operates trivial).div (fun _ => ?_) _ (by decide +kernel)
    rw [← Laurent.inRange_iff]
    decide +kernel
  · rw [sum.add_zero (by simp [Operand.polynomial])]
    decide +kernel
  · rw [product.mul_one (by simp [Operand.polynomial, constant_one])]
    decide +kernel

/-- The eighth power has a degree of 2 ^ 63, which is stored as -2 ^ 63: not the eighth power. -/
theorem eighth_power_wraps :
    ∃ f, powWith true highPower 8 = .ok f ∧ f.polynomial ≠ highPower.polynomial ^ 8 := by
  refine ⟨⟨[⟨.one, [⟨"x", -0x8000000000000000⟩]⟩], .zero⟩, by decide +kernel, fun same => ?_⟩
  rw [← Laurent.polynomial_pow true, ← Laurent.normalize_eq_iff] at same
  exact absurd same (by decide +kernel)

end Laws

end Wrapping

end ExactAlgebra
