import ExactAlgebra.Laurent.Arithmetic
import ExactAlgebra.Proofs.Ratio
import ExactAlgebra.Proofs.Signature

/-!
Expressions as Laurent polynomials over the rational numbers. The polynomial of an expression adds
up its terms and its constant, however they were written. Raw arithmetic is the arithmetic of these
polynomials, and normalization does not change the polynomial.
-/
namespace ExactAlgebra

/-- Laurent polynomials with rational coefficients, one indeterminate for each symbol. -/
abbrev LaurentRing := AddMonoidAlgebra ℚ Exponents

namespace LaurentRing

noncomputable def constant (c : ℚ) : LaurentRing := .single 0 c

noncomputable def symbol (name : String) : LaurentRing := .single (Finsupp.single name 1) 1

@[simp] theorem constant_zero : constant 0 = 0 := AddMonoidAlgebra.single_zero 0

theorem constant_one : constant 1 = 1 := rfl

theorem constant_add (c d : ℚ) : constant (c + d) = constant c + constant d :=
  AddMonoidAlgebra.single_add 0 c d

theorem constant_neg (c : ℚ) : constant (-c) = -constant c :=
  AddMonoidAlgebra.single_neg 0 c

theorem constant_mul (c d : ℚ) : constant (c * d) = constant c * constant d := by
  rw [constant, constant, constant, AddMonoidAlgebra.single_mul_single, add_zero]

end LaurentRing

namespace Monomial

noncomputable def polynomial (m : Monomial) : LaurentRing :=
  .single m.exponents m.coefficient.value

@[simp] theorem polynomial_normalize (m : Monomial) : m.normalize.polynomial = m.polynomial := by
  rw [polynomial, exponents_normalize, normalize, Ratio.value_reduce, polynomial]

theorem alike_iff (m n : Monomial) : m.alike n = true ↔ m.exponents = n.exponents := by
  rw [alike, beq_iff_eq, signature_eq_iff]

theorem isConstant_iff (m : Monomial) : m.isConstant = true ↔ m.exponents = 0 := by
  rw [isConstant, beq_iff_eq, m.signature_inOrder.eq_unit_iff, exponents_signature]

theorem exponents_combine (m n : Monomial) : (m.combine n).exponents = m.exponents :=
  m.exponents_normalize

theorem gathers_by_exponents : GathersBy alike combine exponents := ⟨alike_iff, exponents_combine⟩

theorem polynomial_combine {m n : Monomial} (same : m.alike n = true) :
    (m.combine n).polynomial = m.polynomial + n.polynomial := by
  rw [polynomial, exponents_combine, combine, Ratio.value_add, Ratio.value_reduce,
    AddMonoidAlgebra.single_add, polynomial, polynomial, (alike_iff m n).mp same]

theorem polynomial_of_isConstant {m : Monomial} (h : m.isConstant = true) :
    m.polynomial = .constant m.coefficient.value := by
  rw [polynomial, (isConstant_iff m).mp h, LaurentRing.constant]

theorem polynomial_of_isZero {m : Monomial} (h : m.coefficient.isZero = true) :
    m.polynomial = 0 := by
  rw [polynomial, (Ratio.isZero_iff _).mp h, AddMonoidAlgebra.single_zero]

theorem polynomial_scale (m : Monomial) (r : Ratio) :
    (m.scale r).polynomial = m.polynomial * .constant r.value := by
  rw [polynomial, polynomial, LaurentRing.constant, AddMonoidAlgebra.single_mul_single, add_zero]
  simp [scale, exponents]

theorem polynomial_neg (m : Monomial) : m.neg.polynomial = -m.polynomial := by
  rw [neg, polynomial_scale, Ratio.value_ofInt, Int.cast_neg, Int.cast_one,
    LaurentRing.constant_neg, LaurentRing.constant_one, mul_neg, mul_one]

theorem polynomial_juxtapose (m n : Monomial) :
    (m.juxtapose n).polynomial = m.polynomial * n.polynomial := by
  rw [polynomial, exponents_juxtapose, polynomial, polynomial, AddMonoidAlgebra.single_mul_single]
  simp [juxtapose]

end Monomial

namespace Laurent

noncomputable def termsPolynomial (terms : List Monomial) : LaurentRing :=
  (terms.map Monomial.polynomial).sum

noncomputable def polynomial (e : Laurent) : LaurentRing :=
  termsPolynomial e.terms + .constant e.constant.value

section Terms

@[simp] theorem termsPolynomial_nil : termsPolynomial [] = 0 := rfl

@[simp] theorem termsPolynomial_cons (m : Monomial) (terms : List Monomial) :
    termsPolynomial (m :: terms) = m.polynomial + termsPolynomial terms := by
  simp [termsPolynomial]

theorem termsPolynomial_append (terms more : List Monomial) :
    termsPolynomial (terms ++ more) = termsPolynomial terms + termsPolynomial more := by
  simp [termsPolynomial]

theorem termsPolynomial_neg (terms : List Monomial) :
    termsPolynomial (terms.map Monomial.neg) = -termsPolynomial terms := by
  induction terms with
  | nil => simp
  | cons m rest ih =>
    rw [List.map_cons, termsPolynomial_cons, ih, Monomial.polynomial_neg, termsPolynomial_cons,
      neg_add]

theorem termsPolynomial_scale (terms : List Monomial) (r : Ratio) :
    termsPolynomial (terms.map fun m => m.scale r) = termsPolynomial terms * .constant r.value := by
  induction terms with
  | nil => simp
  | cons m rest ih =>
    rw [List.map_cons, termsPolynomial_cons, ih, Monomial.polynomial_scale, termsPolynomial_cons,
      add_mul]

theorem termsPolynomial_scaleTerms (terms : List Monomial) (r : Ratio) :
    termsPolynomial (scaleTerms terms r) = termsPolynomial terms * .constant r.value := by
  unfold scaleTerms
  split
  · next h => rw [(r.isZero_iff).mp h, LaurentRing.constant_zero, mul_zero, termsPolynomial_nil]
  · exact termsPolynomial_scale terms r

theorem termsPolynomial_juxtapose (m : Monomial) (terms : List Monomial) :
    termsPolynomial (terms.map m.juxtapose) = m.polynomial * termsPolynomial terms := by
  induction terms with
  | nil => simp
  | cons n rest ih =>
    rw [List.map_cons, termsPolynomial_cons, ih, Monomial.polynomial_juxtapose,
      termsPolynomial_cons, mul_add]

theorem termsPolynomial_distribute (m : Monomial) (f : Laurent) :
    termsPolynomial (distribute m f) = m.polynomial * f.polynomial := by
  rw [distribute, termsPolynomial_append, termsPolynomial_juxtapose, termsPolynomial_scaleTerms,
    termsPolynomial_cons, termsPolynomial_nil, add_zero, ← mul_add, polynomial]

theorem termsPolynomial_distributeAll (terms : List Monomial) (f : Laurent) :
    termsPolynomial (terms.flatMap (distribute · f)) = termsPolynomial terms * f.polynomial := by
  induction terms with
  | nil => simp
  | cons m rest ih =>
    rw [List.flatMap_cons, termsPolynomial_append, ih, termsPolynomial_distribute,
      termsPolynomial_cons, add_mul]

end Terms

section Arithmetic

@[simp] theorem polynomial_zero : zero.polynomial = 0 := by
  simp [polynomial, zero]

@[simp] theorem polynomial_const (r : Ratio) : (const r).polynomial = .constant r.value := by
  simp [polynomial, const]

theorem polynomial_addRaw (e f : Laurent) :
    (e.addRaw f).polynomial = e.polynomial + f.polynomial := by
  rw [polynomial, addRaw, termsPolynomial_append, Ratio.value_add, LaurentRing.constant_add,
    add_add_add_comm, polynomial, polynomial]

theorem polynomial_neg (e : Laurent) : e.neg.polynomial = -e.polynomial := by
  rw [polynomial, neg, termsPolynomial_neg, Ratio.value_neg, LaurentRing.constant_neg, polynomial,
    neg_add]

theorem polynomial_subRaw (e f : Laurent) :
    (e.subRaw f).polynomial = e.polynomial - f.polynomial := by
  rw [subRaw, polynomial_addRaw, polynomial_neg, sub_eq_add_neg]

/-- Distributing term by term is the product of polynomials. -/
theorem polynomial_mulRaw (e f : Laurent) :
    (e.mulRaw f).polynomial = e.polynomial * f.polynomial := by
  have scaled := termsPolynomial_scaleTerms f.terms e.constant
  calc (e.mulRaw f).polynomial
      = termsPolynomial e.terms * f.polynomial +
          termsPolynomial f.terms * .constant e.constant.value +
          .constant (e.constant.value * f.constant.value) := by
        rw [polynomial, mulRaw, termsPolynomial_append, termsPolynomial_distributeAll, scaled,
          Ratio.value_mul]
    _ = termsPolynomial e.terms * f.polynomial + .constant e.constant.value * f.polynomial := by
        rw [LaurentRing.constant_mul, mul_comm (termsPolynomial f.terms), add_assoc, ← mul_add,
          ← polynomial]
    _ = e.polynomial * f.polynomial := by rw [← add_mul, ← polynomial]

end Arithmetic

section Normalization

theorem termsPolynomial_perm {terms more : List Monomial} (same : terms.Perm more) :
    termsPolynomial terms = termsPolynomial more :=
  (same.map _).sum_eq

theorem termsPolynomial_normalize (terms : List Monomial) :
    termsPolynomial (terms.map (·.normalize)) = termsPolynomial terms := by
  rw [termsPolynomial, List.map_map, termsPolynomial]
  congr 2
  exact funext Monomial.polynomial_normalize

theorem termsPolynomial_combineTerms (terms : List Monomial) :
    termsPolynomial (combineTerms terms) = termsPolynomial (terms.filter (!·.isConstant)) :=
  sum_gather (fun _ _ => Monomial.polynomial_combine) _

theorem termsPolynomial_filter {keep : Monomial → Bool} (terms : List Monomial)
    (dropped : ∀ m, keep m = false → m.polynomial = 0) :
    termsPolynomial (terms.filter keep) = termsPolynomial terms := by
  induction terms with
  | nil => rfl
  | cons m rest ih =>
    rw [List.filter_cons, termsPolynomial_cons, ← ih]
    split
    · exact termsPolynomial_cons m _
    · next h => rw [dropped m (Bool.eq_false_of_not_eq_true h), zero_add]

theorem constant_addNumbers (start : Ratio) (terms : List Monomial) :
    termsPolynomial (terms.filter (!·.isConstant)) + .constant (addNumbers start terms).value =
      termsPolynomial terms + .constant start.value := by
  unfold addNumbers
  induction terms generalizing start with
  | nil => rfl
  | cons m rest ih =>
    rw [List.filter_cons, List.filter_cons, termsPolynomial_cons]
    cases h : m.isConstant with
    | true =>
      simp only [Bool.not_true, Bool.false_eq_true, if_true, if_false, List.foldl_cons]
      rw [ih, Ratio.value_add, LaurentRing.constant_add, Monomial.polynomial_of_isConstant h]
      abel
    | false =>
      simp only [Bool.not_false, Bool.false_eq_true, if_true, if_false, termsPolynomial_cons]
      rw [add_assoc, ih, add_assoc]

theorem terms_normalize_perm (e : Laurent) : e.normalize.terms.Perm
    ((combineTerms (e.terms.map (·.normalize))).filter (!·.coefficient.isZero)) :=
  sortBy_perm _

/-- No stage of normalization changes the polynomial. -/
@[simp] theorem polynomial_normalize (e : Laurent) : e.normalize.polynomial = e.polynomial := by
  have zero (m : Monomial) (h : (!m.coefficient.isZero) = false) : m.polynomial = 0 :=
    Monomial.polynomial_of_isZero (by simpa using h)
  calc e.normalize.polynomial
      = termsPolynomial ((e.terms.map (·.normalize)).filter (!·.isConstant)) +
          .constant (addNumbers e.constant.reduce (e.terms.map (·.normalize))).value := by
        rw [polynomial, termsPolynomial_perm e.terms_normalize_perm, termsPolynomial_filter _ zero,
          termsPolynomial_combineTerms, normalize]
    _ = e.polynomial := by
        rw [constant_addNumbers, termsPolynomial_normalize, Ratio.value_reduce, polynomial]

theorem polynomial_ofMonomial (m : Monomial) : (ofMonomial m).polynomial = m.polynomial := by
  rw [ofMonomial, polynomial_normalize, polynomial, termsPolynomial_cons, termsPolynomial_nil,
    Ratio.value_zero, LaurentRing.constant_zero, add_zero, add_zero]

theorem polynomial_add (e f : Laurent) : (e.add f).polynomial = e.polynomial + f.polynomial := by
  rw [add, polynomial_normalize, polynomial_addRaw]

theorem polynomial_sub (e f : Laurent) : (e.sub f).polynomial = e.polynomial - f.polynomial := by
  rw [sub, polynomial_normalize, polynomial_subRaw]

theorem polynomial_mul (e f : Laurent) : (e.mul f).polynomial = e.polynomial * f.polynomial := by
  rw [mul, polynomial_normalize, polynomial_mulRaw]

end Normalization

end Laurent

end ExactAlgebra
