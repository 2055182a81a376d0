import ExactAlgebra.Laurent.Coefficients
import ExactAlgebra.Proofs.Queries

/-!
Expressions that are polynomials in one symbol. Such an expression mentions no other symbol and no
negative degree; its terms are the powers of the symbol under nonzero coefficients, and its degree
is that of the polynomial.
-/
namespace ExactAlgebra

open Polynomial

noncomputable def Quadratic.polynomial (q : Quadratic) : ℚ[X] := C q.a * X ^ 2 + C q.b * X + C q.c

noncomputable def Cubic.polynomial (q : Cubic) : ℚ[X] :=
  C q.a * X ^ 3 + C q.b * X ^ 2 + C q.c * X + C q.d

theorem Quadratic.natDegree_polynomial {q : Quadratic} (leading : q.a ≠ 0) :
    q.polynomial.natDegree = 2 := natDegree_quadratic leading

theorem Cubic.natDegree_polynomial {q : Cubic} (leading : q.a ≠ 0) :
    q.polynomial.natDegree = 3 := natDegree_cubic leading

theorem Quadratic.coeff_polynomial (q : Quadratic) :
    q.polynomial.coeff 2 = q.a ∧ q.polynomial.coeff 1 = q.b ∧ q.polynomial.coeff 0 = q.c := by
  simp [polynomial, coeff_X, coeff_C]

theorem Cubic.coeff_polynomial (q : Cubic) :
    q.polynomial.coeff 3 = q.a ∧ q.polynomial.coeff 2 = q.b ∧ q.polynomial.coeff 1 = q.c ∧
      q.polynomial.coeff 0 = q.d := by
  simp [polynomial, coeff_X, coeff_C]

theorem Cubic.polynomial_injective {p q : Cubic} (same : p.polynomial = q.polynomial) : p = q := by
  obtain ⟨pa, pb, pc, pd⟩ := p.coeff_polynomial
  obtain ⟨qa, qb, qc, qd⟩ := q.coeff_polynomial
  rw [same] at pa pb pc pd
  cases p
  cases q
  simp_all

theorem Quadratic.polynomial_of_coeff {p : ℚ[X]} (degree : p.natDegree ≤ 2) :
    (Quadratic.mk (p.coeff 2) (p.coeff 1) (p.coeff 0)).polynomial = p := by
  conv_rhs => rw [p.as_sum_range_C_mul_X_pow' (Nat.lt_succ_of_le degree)]
  simp only [polynomial, Finset.sum_range_succ, Finset.sum_range_zero]
  ring

theorem Cubic.polynomial_of_coeff {p : ℚ[X]} (degree : p.natDegree ≤ 3) :
    (Cubic.mk (p.coeff 3) (p.coeff 2) (p.coeff 1) (p.coeff 0)).polynomial = p := by
  conv_rhs => rw [p.as_sum_range_C_mul_X_pow' (Nat.lt_succ_of_le degree)]
  simp only [polynomial, Finset.sum_range_succ, Finset.sum_range_zero]
  ring

theorem Quadratic.exists_polynomial {p : ℚ[X]} (degree : p.natDegree = 2) :
    ∃ q : Quadratic, q.a ≠ 0 ∧ q.polynomial = p := by
  have nonzero : p ≠ 0 := ne_zero_of_natDegree_gt (by omega : 0 < p.natDegree)
  exact ⟨_, degree ▸ leadingCoeff_ne_zero.mpr nonzero, polynomial_of_coeff degree.le⟩

theorem Cubic.exists_polynomial {p : ℚ[X]} (degree : p.natDegree = 3) :
    ∃ q : Cubic, q.a ≠ 0 ∧ q.polynomial = p := by
  have nonzero : p ≠ 0 := ne_zero_of_natDegree_gt (by omega : 0 < p.natDegree)
  exact ⟨_, degree ▸ leadingCoeff_ne_zero.mpr nonzero, polynomial_of_coeff degree.le⟩

namespace LaurentRing

/-- A polynomial with a symbol for its indeterminate. -/
noncomputable def inSymbol (s : String) : ℚ[X] →ₐ[ℚ] LaurentRing := aeval (symbol s)

noncomputable abbrev power (s : String) (k : ℕ) : Exponents := Finsupp.single s (k : ℤ)

variable {n : LaurentRing} {s : String}

theorem power_injective {k l : ℕ} (h : power s k = power s l) : k = l :=
  Int.ofNat_inj.mp (Finsupp.single_injective s h)

theorem symbol_pow (s : String) (k : ℕ) : symbol s ^ k = .single (power s k) 1 := by
  rw [symbol, AddMonoidAlgebra.single_pow, one_pow, Finsupp.smul_single, nsmul_one]

@[simp] theorem inSymbol_C (c : ℚ) : inSymbol s (C c) = constant c := by
  rw [inSymbol, aeval_C]
  rfl

@[simp] theorem inSymbol_X : inSymbol s X = symbol s := aeval_X _

theorem inSymbol_monomial (k : ℕ) (c : ℚ) : inSymbol s (monomial k c) = .single (power s k) c := by
  rw [← C_mul_X_pow_eq_monomial, map_mul, map_pow, inSymbol_C, inSymbol_X, symbol_pow, constant,
    AddMonoidAlgebra.single_mul_single, zero_add, mul_one]

theorem coeff_inSymbol (p : ℚ[X]) (k : ℕ) : (inSymbol s p).coeff (power s k) = p.coeff k := by
  induction p using Polynomial.induction_on' with
  | add p q hp hq =>
    rw [map_add, AddMonoidAlgebra.coeff_add, Finsupp.add_apply, hp, hq, coeff_add]
  | monomial l c =>
    rw [inSymbol_monomial, AddMonoidAlgebra.coeff_single, Finsupp.single_apply, coeff_monomial]
    exact if_congr ⟨fun h => power_injective h, fun h => h ▸ rfl⟩ rfl rfl

theorem inSymbol_injective {p q : ℚ[X]} (same : inSymbol s p = inSymbol s q) : p = q := by
  ext k
  rw [← coeff_inSymbol (s := s), same, coeff_inSymbol]

theorem exists_power_of_coeff_ne_zero {p : ℚ[X]} {d : Exponents}
    (nonzero : (inSymbol s p).coeff d ≠ 0) : ∃ k : ℕ, d = power s k := by
  by_contra none
  apply nonzero
  clear nonzero
  induction p using Polynomial.induction_on' with
  | add p q hp hq => rw [map_add, AddMonoidAlgebra.coeff_add, Finsupp.add_apply, hp, hq, add_zero]
  | monomial l c =>
    rw [inSymbol_monomial, AddMonoidAlgebra.coeff_single]
    exact Finsupp.single_eq_of_ne fun h => none ⟨l, h⟩

theorem not_mentionsOther_inSymbol (p : ℚ[X]) : ¬ (inSymbol s p).MentionsOther s := by
  rw [not_mentionsOther_iff]
  intro d hd
  obtain ⟨k, rfl⟩ := exists_power_of_coeff_ne_zero hd
  rw [Finsupp.single_eq_same]

theorem not_hasNegativeDegree_inSymbol (p : ℚ[X]) : ¬ (inSymbol s p).HasNegativeDegree s := by
  rw [not_hasNegativeDegree_iff]
  intro d hd
  obtain ⟨k, rfl⟩ := exists_power_of_coeff_ne_zero hd
  rw [Finsupp.single_eq_same]
  exact Int.natCast_nonneg k

/-- A Laurent polynomial without other symbols and negative degrees is a polynomial. -/
theorem exists_inSymbol (alone : ¬ n.MentionsOther s) (nonneg : ¬ n.HasNegativeDegree s) :
    ∃ p : ℚ[X], n = inSymbol s p := by
  refine ⟨∑ d ∈ n.coeff.support, monomial (d s).toNat (n.coeff d), ?_⟩
  have terms : ∀ d ∈ n.coeff.support,
      inSymbol s (monomial (d s).toNat (n.coeff d)) = .single d (n.coeff d) := by
    intro d hd
    have hd := Finsupp.mem_support_iff.mp hd
    have degree : ((d s).toNat : ℤ) = d s :=
      Int.toNat_of_nonneg (not_hasNegativeDegree_iff.mp nonneg d hd)
    rw [inSymbol_monomial, power, degree, ← not_mentionsOther_iff.mp alone d hd]
  rw [map_sum, Finset.sum_congr rfl terms]
  exact n.sum_coeff_single.symm

theorem hasDegreeAtLeast_inSymbol_iff {p : ℚ[X]} {k : ℕ} :
    (inSymbol s p).HasDegreeAtLeast s k ↔ ∃ l, k ≤ l ∧ p.coeff l ≠ 0 := by
  constructor
  · rintro ⟨d, hd, hk⟩
    obtain ⟨l, rfl⟩ := exists_power_of_coeff_ne_zero hd
    rw [Finsupp.single_eq_same, Int.ofNat_le] at hk
    rw [coeff_inSymbol] at hd
    exact ⟨l, hk, hd⟩
  · rintro ⟨l, hk, hl⟩
    refine ⟨power s l, ?_, ?_⟩
    · rwa [coeff_inSymbol]
    · rw [Finsupp.single_eq_same]
      exact Int.ofNat_le.mpr hk

theorem natDegree_lt_iff {p : ℚ[X]} {k : ℕ} (positive : 0 < k) :
    p.natDegree < k ↔ ¬ (inSymbol s p).HasDegreeAtLeast s k := by
  have above : ∀ l, k - 1 < l ↔ k ≤ l := fun l => by omega
  rw [hasDegreeAtLeast_inSymbol_iff, Nat.lt_iff_le_pred positive, natDegree_le_iff_coeff_eq_zero]
  simp only [above, not_exists, not_and, not_not]

theorem le_natDegree_iff {p : ℚ[X]} {k : ℕ} (positive : 0 < k) :
    k ≤ p.natDegree ↔ (inSymbol s p).HasDegreeAtLeast s k := by
  rw [← not_lt, natDegree_lt_iff (s := s) positive, not_not]

/-- Linear in a symbol means of degree at most one, when there is no other symbol. -/
theorem linearIn_inSymbol_iff {p : ℚ[X]} : (inSymbol s p).LinearIn s ↔ p.natDegree ≤ 1 := by
  rw [← Nat.lt_succ_iff, natDegree_lt_iff (s := s) (Nat.succ_pos 1), not_hasDegreeAtLeast_iff,
    linearIn_iff]
  apply forall₂_congr
  intro d hd
  obtain ⟨k, rfl⟩ := exists_power_of_coeff_ne_zero hd
  rw [Finsupp.single_eq_same]
  constructor
  · rintro (hk | hk)
    · omega
    · have := Finsupp.single_injective s hk
      omega
  · intro hk
    rcases Nat.le_one_iff_eq_zero_or_eq_one.mp (by omega : k ≤ 1) with rfl | rfl
    · exact .inl rfl
    · exact .inr rfl

theorem not_linearIn_inSymbol {p : ℚ[X]} (high : 1 < p.natDegree) :
    ¬ (inSymbol s p).LinearIn s := by
  rw [linearIn_inSymbol_iff]
  omega

theorem mentions_inSymbol {p : ℚ[X]} (high : 1 < p.natDegree) : (inSymbol s p).Mentions s := by
  by_contra absent
  have linear : (inSymbol s p).LinearIn s :=
    ⟨0, inSymbol s p, by rw [constant_zero, zero_mul, zero_add], absent⟩
  exact not_linearIn_inSymbol high linear

end LaurentRing

open LaurentRing

namespace Monomial

variable {m : Monomial} {s : String} {k : ℕ}

theorem maxDegree_of_single {z : ℤ} (nonzero : z ≠ 0) (h : m.exponents = Finsupp.single s z) :
    m.maxDegree = z := by
  have degrees : m.signature.degrees = [(s, z)] :=
    m.signature_inOrder.degrees_of_single nonzero (m.exponents_signature.trans h)
  rw [maxDegree, Signature.maxDegree, degrees]
  rfl

theorem maxDegree_of_power (positive : 0 < k) (h : m.exponents = power s k) :
    m.maxDegree = k :=
  maxDegree_of_single (by omega) h

end Monomial

namespace Laurent

variable {e : Laurent} {s : String} {p : ℚ[X]}

theorem exists_power_of_mem_normalize (h : e.polynomial = inSymbol s p) {m : Monomial}
    (member : m ∈ e.normalize.terms) : ∃ k : ℕ, 0 < k ∧ m.exponents = power s k := by
  have nonzero := coeff_ne_zero_of_mem_normalize member
  rw [h] at nonzero
  obtain ⟨k, hk⟩ := exists_power_of_coeff_ne_zero nonzero
  refine ⟨k, Nat.pos_of_ne_zero ?_, hk⟩
  rintro rfl
  apply exponents_ne_zero_of_mem_normalize member
  rw [hk, power, Nat.cast_zero, Finsupp.single_zero]

theorem maxDegree_normalize_le_iff (h : e.polynomial = inSymbol s p) (k : ℕ) :
    e.normalize.maxDegree ≤ k ↔ p.natDegree ≤ k := by
  have degrees : e.normalize.maxDegree ≤ k ↔ ∀ m ∈ e.normalize.terms, m.exponents s ≤ k := by
    have nonneg : (0 : ℤ) ≤ k := Int.natCast_nonneg k
    rw [maxDegree, max_le_iff, and_iff_left nonneg, getD_max?_le_iff _ nonneg,
      List.forall_mem_map]
    apply forall₂_congr
    intro m member
    obtain ⟨l, positive, hl⟩ := exists_power_of_mem_normalize h member
    rw [Monomial.maxDegree_of_power positive hl, hl, Finsupp.single_eq_same]
  rw [degrees, e.forall_terms_normalize_of_zero (P := fun d => d s ≤ k) (by simp), h,
    ← Nat.lt_succ_iff, natDegree_lt_iff (s := s) (Nat.succ_pos k), not_hasDegreeAtLeast_iff]
  simp only [Nat.cast_succ, Int.lt_add_one_iff]

theorem maxDegree_normalize (h : e.polynomial = inSymbol s p) :
    e.normalize.maxDegree = p.natDegree := by
  have nonneg : 0 ≤ e.normalize.maxDegree := le_max_right _ _
  obtain ⟨k, hk⟩ := Int.eq_ofNat_of_zero_le nonneg
  apply le_antisymm
  · exact (maxDegree_normalize_le_iff h _).mpr le_rfl
  · rw [hk, Int.ofNat_le]
    exact (maxDegree_normalize_le_iff h k).mp hk.le

end Laurent

end ExactAlgebra
