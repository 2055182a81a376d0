import ExactAlgebra.Proofs.NormalForm
import ExactAlgebra.Proofs.Representation

/-!
Products, quotients and sums of monomials. Degrees are added and subtracted symbol by symbol, and
only monomials with the same degrees add up. A result is the one normal form with its degrees and
its coefficient, so a product does not depend on the order of its factors or on how they were
written, and dividing by a factor takes it out again.
-/
namespace ExactAlgebra.Monomial

/-- A monomial in normal form with these degrees and this coefficient. -/
structure Holds (m : Monomial) (degrees : String → ℤ) (c : ℚ) : Prop where
  degreeOf : ∀ s, m.degreeOf s = degrees s
  coefficient : m.coefficient.value = c
  normal : m.Normal

theorem exponents_eq_iff (m n : Monomial) :
    m.exponents = n.exponents ↔ ∀ s, m.degreeOf s = n.degreeOf s := by
  simp only [Finsupp.ext_iff, degreeOf_eq]

section Uniqueness

variable {m n : Monomial} {degrees : String → ℤ} {c : ℚ}

/-- Degrees and coefficient determine the normal form. -/
theorem Holds.eq (hm : m.Holds degrees c) (hn : n.Holds degrees c) : m = n := by
  have exponents : m.exponents = n.exponents := (exponents_eq_iff m n).mpr fun s =>
    (hm.degreeOf s).trans (hn.degreeOf s).symm
  exact hm.normal.eq_of_exponents_eq hn.normal exponents (hm.coefficient.trans hn.coefficient.symm)

theorem Holds.congr (hm : m.Holds degrees c) {others : String → ℤ} {k : ℚ}
    (same : ∀ s, degrees s = others s) (value : c = k) : m.Holds others k :=
  ⟨fun s => (hm.degreeOf s).trans (same s), hm.coefficient.trans value, hm.normal⟩

theorem normalize_holds (m : Monomial) : m.normalize.Holds m.degreeOf m.coefficient.value where
  degreeOf := (exponents_eq_iff _ _).mp m.exponents_normalize
  coefficient := m.coefficient.value_reduce
  normal := m.normal_normalize

theorem Normal.normalize_eq (normal : m.Normal) : m.normalize = m :=
  m.normalize_holds.eq ⟨fun _ => rfl, rfl, normal⟩

end Uniqueness

section Results

variable (m n : Monomial)

theorem total_inversePowers : Tally.total (n.inversePowers.map Power.entry) = -n.exponents := by
  rw [inversePowers, exponents]
  induction n.powers with
  | nil => exact neg_zero.symm
  | cons p rest ih =>
    rw [List.map_cons, List.map_cons, List.map_cons, Tally.total_cons, Tally.total_cons, ih,
      neg_add, ← Finsupp.single_neg]
    rfl

/-- The quotient by a monomial whose coefficient is not zero. -/
def quotient : Monomial :=
  normalize ⟨.ofRat (m.coefficient.value / n.coefficient.value), m.powers ++ n.inversePowers⟩

theorem exponents_quotient : (m.quotient n).exponents = m.exponents - n.exponents := by
  rw [quotient, exponents_normalize, exponents, List.map_append, Tally.total_append,
    total_inversePowers, sub_eq_add_neg]
  rfl

theorem value_quotient :
    (m.quotient n).coefficient.value = m.coefficient.value / n.coefficient.value := by
  rw [quotient, normalize, Ratio.value_reduce, Ratio.value_ofRat]

theorem div?_of_ne_zero (nonzero : n.coefficient.value ≠ 0) : m.div? n = some (m.quotient n) := by
  rw [div?, Ratio.div?_of_ne_zero nonzero, Option.map_some, quotient]

theorem div_eq : m.div n =
    if n.coefficient.value = 0 then .error .divisionByZero else .ok (m.quotient n) := by
  split
  · next zero =>
    rw [div, div?, Ratio.div?, dif_pos ((Ratio.value_eq_zero_iff _).mp zero)]
    rfl
  · next nonzero =>
    rw [div, m.div?_of_ne_zero n nonzero]
    rfl

theorem mul_holds : (m.mul n).Holds (fun s => m.degreeOf s + n.degreeOf s)
    (m.coefficient.value * n.coefficient.value) where
  degreeOf s := by
    rw [mul, degreeOf_eq, exponents_normalize, exponents_juxtapose, Finsupp.add_apply, degreeOf_eq,
      degreeOf_eq]
  coefficient := by rw [mul, normalize, Ratio.value_reduce, juxtapose, Ratio.value_mul]
  normal := normal_normalize _

theorem quotient_holds : (m.quotient n).Holds (fun s => m.degreeOf s - n.degreeOf s)
    (m.coefficient.value / n.coefficient.value) where
  degreeOf s := by
    rw [degreeOf_eq, exponents_quotient, Finsupp.sub_apply, degreeOf_eq, degreeOf_eq]
  coefficient := m.value_quotient n
  normal := normal_normalize _

theorem combine_holds :
    (m.combine n).Holds m.degreeOf (m.coefficient.value + n.coefficient.value) where
  degreeOf := (exponents_eq_iff _ _).mp (m.exponents_combine n)
  coefficient := by rw [combine, Ratio.value_add, Ratio.value_reduce]
  normal := m.normal_combine n

theorem add_eq : m.add n =
    if ¬m.exponents = n.exponents then .error (.unlikeTerms m n) else .ok (m.combine n) := by
  rw [add, ite_not]
  exact if_congr (m.alike_iff n) rfl rfl

end Results

/-- What products, quotients and sums are, by degrees and coefficient. -/
structure Operates (m n : Monomial) : Prop where
  mul : (m.mul n).Holds (fun s => m.degreeOf s + n.degreeOf s)
    (m.coefficient.value * n.coefficient.value)
  div : Yields (m.div n) (n.coefficient.value ≠ 0)
    (·.Holds (fun s => m.degreeOf s - n.degreeOf s) (m.coefficient.value / n.coefficient.value))
    .divisionByZero
  add : Yields (m.add n) (∀ s, m.degreeOf s = n.degreeOf s)
    (·.Holds m.degreeOf (m.coefficient.value + n.coefficient.value)) (.unlikeTerms m n)
  unlike : (Failure.unlikeTerms m n).kind = .invalidArgument

/-- The laws of products and quotients for what is stored. -/
structure Laws (m n k : Monomial) : Prop where
  mul_comm : m.mul n = n.mul m
  mul_assoc : (m.mul n).mul k = m.mul (n.mul k)
  mul_div : n.coefficient.value ≠ 0 → (m.mul n).div n = .ok m.normalize

theorem operates (m n : Monomial) : m.Operates n where
  mul := m.mul_holds n
  div := by
    rw [div_eq]
    have answer := m.quotient_holds n
    exact .of_ite Iff.rfl answer fun k other => other.eq answer
  add := by
    rw [add_eq]
    have answer := m.combine_holds n
    refine .of_ite ?_ answer fun k other => other.eq answer
    rw [not_not, exponents_eq_iff]
  unlike := rfl

theorem laws (m n k : Monomial) : m.Laws n k where
  mul_comm := (m.mul_holds n).eq ((n.mul_holds m).congr (fun _ => add_comm _ _) (mul_comm _ _))
  mul_assoc := by
    have left := ((m.mul n).mul_holds k).congr
      (fun s => by rw [(m.mul_holds n).degreeOf, add_assoc])
      (by rw [(m.mul_holds n).coefficient, mul_assoc])
    have right := (m.mul_holds (n.mul k)).congr (fun s => by rw [(n.mul_holds k).degreeOf])
      (by rw [(n.mul_holds k).coefficient])
    exact left.eq right
  mul_div nonzero := by
    have division := ((m.mul n).operates n).div
    refine (division.ok_iff _).mpr ⟨nonzero, m.normalize_holds.congr (fun s => ?_) ?_⟩
    · rw [(m.mul_holds n).degreeOf, add_sub_cancel_right]
    · rw [(m.mul_holds n).coefficient, mul_div_cancel_right₀ _ nonzero]

/-- Monomials multiply, divide and add by their degrees and coefficients, into normal forms and with
one cause of failure each; products commute and associate, and division takes a factor out again. -/
theorem monomial_arithmetic (m n k : Monomial) : m.Operates n ∧ m.Laws n k :=
  ⟨m.operates n, m.laws n k⟩

/-- The monomial 6/8 · x²y⁰x⁻³ with a negative denominator. -/
def unsorted : Monomial := ⟨⟨6, -8, by decide⟩, [⟨"x", 2⟩, ⟨"y", 0⟩, ⟨"x", -3⟩]⟩

/-- The monomial 4/6 · y · y. -/
def repeated : Monomial := ⟨⟨4, 6, by decide⟩, [⟨"y", 1⟩, ⟨"y", 1⟩]⟩

/-- A factor is taken out again, into the normal form; 0 · y divides nothing. -/
theorem monomial_arithmetic_of_unsorted :
    repeated.coefficient.value ≠ 0 ∧
    (unsorted.mul repeated).div repeated = .ok ⟨⟨-3, 4, by decide⟩, [⟨"x", -1⟩]⟩ ∧
    repeated.div ⟨.zero, [⟨"y", 1⟩]⟩ = .error .divisionByZero := by
  have nonzero : repeated.coefficient.value ≠ 0 := fun zero =>
    absurd ((Ratio.value_eq_zero_iff _).mp zero) (by decide)
  obtain ⟨-, laws⟩ := monomial_arithmetic unsorted repeated repeated
  obtain ⟨operates, -⟩ := monomial_arithmetic repeated ⟨.zero, [⟨"y", 1⟩]⟩ repeated
  refine ⟨nonzero, (laws.mul_div nonzero).trans (by decide +kernel), ?_⟩
  exact (operates.div.error_iff _).mpr ⟨not_not.mpr Ratio.value_zero, rfl⟩

end ExactAlgebra.Monomial
