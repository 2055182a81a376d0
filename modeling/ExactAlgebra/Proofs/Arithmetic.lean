import ExactAlgebra.Proofs.Queries

/-!
Arithmetic with operands. An operand of any kind stands for a Laurent polynomial, and the operations
on expressions are the operations on polynomials, however the expressions were written and whether
or not the result is normalized. Degrees are unbounded here.
-/
namespace ExactAlgebra

open LaurentRing

theorem Monomial.polynomial_ofPower (p : Power) :
    (ofPower p).polynomial = .single (Finsupp.single p.symbol p.degree) 1 := by
  rw [polynomial, exponents_ofPower]
  simp [ofPower, normalize, Ratio.one]

theorem Monomial.divRatio?_of_ne_zero {r : Ratio} (nonzero : r.value ≠ 0) (m : Monomial) :
    ∃ k, m.divRatio? r = some k ∧ k.polynomial = m.polynomial * .constant r.value⁻¹ := by
  refine ⟨_, by rw [divRatio?, Ratio.div?_of_ne_zero nonzero, Option.map_some], ?_⟩
  rw [polynomial, polynomial, constant, AddMonoidAlgebra.single_mul_single, add_zero,
    Ratio.value_ofRat, div_eq_mul_inv]
  rfl

theorem Laurent.polynomial_symbol (name : String) :
    (Laurent.symbol name).polynomial = .symbol name := by
  rw [Laurent.symbol, polynomial_ofMonomial, Monomial.polynomial_ofPower, LaurentRing.symbol]

namespace Operand

/-- What an operand of each kind stands for. -/
noncomputable def polynomial : Operand → LaurentRing
  | symbol name => .symbol name
  | integer n => .constant n
  | ratio r => .constant r.value
  | monomial m => m.polynomial
  | laurent e => e.polynomial

theorem polynomial_toLaurent (o : Operand) : o.toLaurent.polynomial = o.polynomial := by
  cases o with
  | symbol name => exact Laurent.polynomial_symbol name
  | integer n => simp [toLaurent, polynomial]
  | ratio r => simp [toLaurent, polynomial]
  | monomial m => exact Laurent.polynomial_ofMonomial m
  | laurent e => rfl

/-- An operand with a number behind it stands for that number. -/
theorem polynomial_of_scalar? {o : Operand} {r : Ratio} (scalar : o.scalar? = some r) :
    o.polynomial = .constant r.value := by
  cases o with
  | symbol name => cases scalar
  | integer n =>
    cases scalar
    simp [polynomial]
  | ratio q =>
    cases scalar
    simp [polynomial]
  | monomial m =>
    simp only [scalar?] at scalar
    split at scalar
    · next constant =>
      cases scalar
      rw [Ratio.value_reduce]
      exact Monomial.polynomial_of_isConstant constant
    · cases scalar
  | laurent e => exact Laurent.polynomial_of_constantValue? scalar

end Operand

namespace Laurent

section Operations

variable (tidy : Bool) (e : Laurent) (o : Operand)

@[simp] theorem finish_true (e : Laurent) : e.finish true = e.normalize := rfl

theorem polynomial_finish : (e.finish tidy).polynomial = e.polynomial := by
  cases tidy with
  | false => rfl
  | true => exact e.polynomial_normalize

theorem polynomial_addWith : (e.addWith tidy o).polynomial = e.polynomial + o.polynomial := by
  rw [addWith, polynomial_finish, polynomial_addRaw, Operand.polynomial_toLaurent]

theorem polynomial_subWith : (e.subWith tidy o).polynomial = e.polynomial - o.polynomial := by
  rw [subWith, polynomial_finish, polynomial_subRaw, Operand.polynomial_toLaurent]

theorem polynomial_mulWith : (e.mulWith tidy o).polynomial = e.polynomial * o.polynomial := by
  rw [mulWith, polynomial_finish, polynomial_mulRaw, Operand.polynomial_toLaurent]

theorem polynomial_one : one.polynomial = 1 := by
  simp [one, Ratio.one, constant_one]

theorem polynomial_repeatMul (n : ℕ) :
    (repeatMul tidy e n).polynomial = e.polynomial ^ n := by
  induction n with
  | zero => simp [repeatMul, polynomial_one]
  | succ n ih => simp only [repeatMul, polynomial_finish, polynomial_mulRaw, ih, pow_succ]

theorem powWith_of_le {n : ℕ} (low : n ≤ 64) :
    e.powWith tidy n = .ok ((repeatMul tidy e n).finish tidy) :=
  if_neg (not_lt.mpr low)

theorem powWith_of_lt {n : ℕ} (high : 64 < n) :
    e.powWith tidy n = .error (.exponentTooLarge n) :=
  if_pos high

theorem polynomial_pow (n : ℕ) :
    ((repeatMul tidy e n).finish tidy).polynomial = e.polynomial ^ n := by
  rw [polynomial_finish, polynomial_repeatMul]

end Operations

section Division

variable (tidy : Bool) {e : Laurent} {o : Operand} {r : Ratio}

/-- What multiplies every term by one polynomial multiplies their sum by it. -/
theorem mapM_multiplies {answer : Monomial → Option Monomial} {p : LaurentRing}
    (each : ∀ m, ∃ k, answer m = some k ∧ k.polynomial = m.polynomial * p)
    (terms : List Monomial) : ∃ more, terms.mapM answer = some more ∧
      termsPolynomial more = termsPolynomial terms * p := by
  induction terms with
  | nil => exact ⟨[], rfl, (zero_mul p).symm⟩
  | cons m rest ih =>
    obtain ⟨more, answers, products⟩ := ih
    obtain ⟨k, first, product⟩ := each m
    refine ⟨k :: more, ?_, ?_⟩
    · rw [List.mapM_cons, first, answers]
      rfl
    · rw [termsPolynomial_cons, termsPolynomial_cons, product, products, add_mul]

theorem divRatio?_of_ne_zero (nonzero : r.value ≠ 0) :
    ∃ f, e.divRatio? r = some f ∧ f.polynomial = e.polynomial * .constant r.value⁻¹ := by
  obtain ⟨terms, divided, quotients⟩ :=
    mapM_multiplies (Monomial.divRatio?_of_ne_zero nonzero) e.terms
  refine ⟨⟨terms, .ofRat (e.constant.value / r.value)⟩, ?_, ?_⟩
  · rw [divRatio?, divided, Ratio.div?_of_ne_zero nonzero]
    rfl
  · rw [polynomial, quotients, Ratio.value_ofRat, div_eq_mul_inv, constant_mul, ← add_mul,
      ← polynomial]

theorem divRatio?_of_zero (zero : r.value = 0) : e.divRatio? r = none := by
  have divided : e.constant.div? r = none := dif_pos ((r.value_eq_zero_iff).mp zero)
  rw [divRatio?, divided]
  cases e.terms.mapM (·.divRatio? r) <;> rfl

theorem divWith_of_none (scalar : o.scalar? = none) :
    e.divWith tidy o = .error (.divisorNotConstant o.toLaurent) := by
  simp [divWith, scalar]

theorem divWith_of_zero (scalar : o.scalar? = some r) (zero : r.value = 0) :
    e.divWith tidy o = .error .divisionByZero := by
  simp [divWith, scalar, divRatio?_of_zero zero, orDivisionByZero]

theorem divWith_of_ne_zero (scalar : o.scalar? = some r) (nonzero : r.value ≠ 0) :
    ∃ f : Laurent, e.divWith tidy o = .ok (f.finish tidy) ∧
      f.polynomial = e.polynomial * .constant r.value⁻¹ := by
  obtain ⟨f, divided, quotient⟩ := divRatio?_of_ne_zero (e := e) nonzero
  refine ⟨f, ?_, quotient⟩
  simp only [divWith, scalar, divided]
  rfl

/-- Division succeeds by a number other than zero only. -/
theorem exists_of_divWith {f : Laurent} (divided : e.divWith tidy o = .ok f) :
    ∃ (r : Ratio) (g : Laurent), o.scalar? = some r ∧ r.value ≠ 0 ∧ f = g.finish tidy ∧
      g.polynomial = e.polynomial * .constant r.value⁻¹ := by
  cases scalar : o.scalar? with
  | none =>
    rw [divWith_of_none tidy scalar] at divided
    cases divided
  | some r =>
    by_cases zero : r.value = 0
    · rw [divWith_of_zero tidy scalar zero] at divided
      cases divided
    · obtain ⟨g, answer, quotient⟩ := divWith_of_ne_zero tidy (e := e) scalar zero
      cases answer.symm.trans divided
      exact ⟨r, g, rfl, zero, rfl, quotient⟩

theorem polynomial_of_divWith {f : Laurent} (divided : e.divWith tidy o = .ok f) :
    f.polynomial * o.polynomial = e.polynomial := by
  obtain ⟨r, g, scalar, nonzero, rfl, quotient⟩ := exists_of_divWith tidy divided
  rw [polynomial_finish, quotient, Operand.polynomial_of_scalar? scalar, mul_assoc,
    ← constant_mul, inv_mul_cancel₀ nonzero, constant_one, mul_one]

end Division

section NormalForms

theorem powWith_normal {e f : Laurent} {n : ℕ} (answer : e.powWith true n = .ok f) :
    f.Normal := by
  rcases le_or_gt n 64 with low | high
  · rw [powWith_of_le true e low] at answer
    cases answer
    exact normalize_normal _
  · rw [powWith_of_lt true e high] at answer
    cases answer

theorem divWith_normal {e f : Laurent} {o : Operand} (answer : e.divWith true o = .ok f) :
    f.Normal := by
  obtain ⟨r, g, -, -, rfl, -⟩ := exists_of_divWith true answer
  exact normalize_normal g

end NormalForms

end Laurent

end ExactAlgebra
