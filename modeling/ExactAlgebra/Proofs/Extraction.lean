import ExactAlgebra.Proofs.Univariate

/-!
Coefficients extracted from an expression. Extraction looks at each term by itself: it succeeds when
every term is a power of some symbol within the bound, and adds up what stands at each degree,
whichever symbols stand there. Of an expression in one symbol it gives the coefficients, and it
refuses every other shape except sums of powers of different symbols.
-/
namespace ExactAlgebra

open Polynomial LaurentRing

namespace LaurentRing

/-- Every term is a power of one symbol within the bound, and each may have its own symbol. -/
def PowersOnly (top : ℕ) (n : LaurentRing) : Prop :=
  ∀ d, n.coeff d ≠ 0 → ∃ s, ∃ k ≤ top, d = power s k

/-- All symbols taken for one: each term counts by its total degree. -/
noncomputable def merged : LaurentRing →+ ℚ[X] :=
  (Finsupp.liftAddHom fun d => (monomial (d.sum fun _ k => k).toNat).toAddMonoidHom).comp
    AddMonoidAlgebra.coeffAddEquiv.toAddMonoidHom

section Merging

variable {n : LaurentRing} {s : String} {p : ℚ[X]} {top : ℕ}

theorem merged_power (s : String) (k : ℕ) (c : ℚ) :
    merged (.single (power s k) c) = monomial k c := by
  simp [merged]

theorem merged_constant (c : ℚ) : merged (constant c) = C c := by
  simp [merged, constant]

@[simp] theorem merged_inSymbol (p : ℚ[X]) : merged (inSymbol s p) = p := by
  induction p using Polynomial.induction_on' with
  | add p q hp hq => rw [map_add, map_add, hp, hq]
  | monomial k c => rw [inSymbol_monomial, merged_power]

theorem powersOnly_inSymbol (degree : p.natDegree ≤ top) : (inSymbol s p).PowersOnly top := by
  intro d hd
  obtain ⟨k, rfl⟩ := exists_power_of_coeff_ne_zero hd
  rw [coeff_inSymbol] at hd
  exact ⟨s, k, (le_natDegree_of_ne_zero hd).trans degree, rfl⟩

theorem PowersOnly.exists_inSymbol (only : n.PowersOnly top) (alone : ¬ n.MentionsOther s) :
    ∃ p, n = inSymbol s p := by
  apply LaurentRing.exists_inSymbol alone
  rw [not_hasNegativeDegree_iff]
  intro d hd
  obtain ⟨t, k, -, rfl⟩ := only d hd
  rw [Finsupp.single_apply]
  split <;> simp

theorem PowersOnly.natDegree_merged_le (only : n.PowersOnly top) :
    (merged n).natDegree ≤ top := by
  rw [← n.sum_coeff_single, Finsupp.sum, map_sum]
  refine natDegree_sum_le_of_forall_le _ _ fun d hd => ?_
  obtain ⟨s, k, low, rfl⟩ := only d (Finsupp.mem_support_iff.mp hd)
  rw [merged_power]
  exact (natDegree_monomial_le _).trans low

end Merging

end LaurentRing

namespace Monomial

variable {m : Monomial} {top : ℕ}

theorem fits_iff : m.fits top = true ↔ ∃ s k, 0 < k ∧ k ≤ top ∧ m.exponents = power s k := by
  rw [fits, Bool.and_eq_true, Bool.and_eq_true, beq_iff_eq, decide_eq_true_eq, decide_eq_true_eq,
    symbolCount_eq, Finsupp.card_support_eq_one]
  constructor
  · rintro ⟨⟨⟨s, occurs, h⟩, low⟩, high⟩
    rw [maxDegree_of_single occurs h] at low high
    obtain ⟨k, hk⟩ := Int.eq_ofNat_of_zero_le (by omega : 0 ≤ m.exponents s)
    rw [hk] at h low high
    exact ⟨s, k, by omega, by omega, h⟩
  · rintro ⟨s, k, positive, low, h⟩
    have nonzero : (k : ℤ) ≠ 0 := by omega
    rw [maxDegree_of_single nonzero h, h]
    refine ⟨⟨⟨s, ?_, ?_⟩, by omega⟩, by omega⟩
    · rwa [Finsupp.single_eq_same]
    · rw [Finsupp.single_eq_same]

end Monomial

namespace Laurent

variable {e : Laurent} {s : String} {p : ℚ[X]} {top : ℕ}

/-- Terms that fit are merged degree by degree. -/
theorem coeff_merged_terms {terms : List Monomial} (fits : ∀ m ∈ terms, m.fits top = true) (k : ℕ) :
    (merged (termsPolynomial terms)).coeff k = (terms.filter fun m => m.maxDegree == (k : ℤ)).foldr
      (fun m total => m.coefficient.value + total) 0 := by
  induction terms with
  | nil => simp
  | cons m rest ih =>
    obtain ⟨first, others⟩ := List.forall_mem_cons.mp fits
    obtain ⟨s, l, positive, -, h⟩ := Monomial.fits_iff.mp first
    have degree : m.maxDegree = l := Monomial.maxDegree_of_power positive h
    rw [termsPolynomial_cons, map_add, coeff_add, ih others, Monomial.polynomial, h, merged_power,
      coeff_monomial, List.filter_cons, degree]
    by_cases same : l = k
    · rw [if_pos same, if_pos (by rw [same, beq_self_eq_true]), List.foldr_cons]
    · rw [if_neg same, if_neg (by rwa [beq_iff_eq, Int.ofNat_inj]), zero_add]

theorem coefficientAt_eq (fits : ∀ m ∈ e.terms, m.fits top = true) (k : ℕ) :
    e.coefficientAt k = (merged e.polynomial).coeff k := by
  rw [polynomial, map_add, coeff_add, merged_constant, coeff_merged_terms fits, coeff_C,
    coefficientAt]
  by_cases constant : k = 0
  · have none : (e.terms.filter fun m => m.maxDegree == (k : ℤ)) = [] := by
      rw [List.filter_eq_nil_iff]
      intro m member
      obtain ⟨s, l, positive, -, h⟩ := Monomial.fits_iff.mp (fits m member)
      rw [Monomial.maxDegree_of_power positive h, beq_iff_eq]
      omega
    rw [if_pos constant, if_pos constant, none, List.foldr_nil, zero_add]
  · rw [if_neg constant, if_neg constant, add_zero]

theorem powersOnly_iff (e : Laurent) (top : ℕ) :
    e.polynomial.PowersOnly top ↔ ∀ m ∈ e.normalize.terms, m.fits top = true := by
  have zero : ∃ s, ∃ k ≤ top, (0 : Exponents) = power s k := ⟨"", 0, Nat.zero_le _, by
    rw [power, Nat.cast_zero, Finsupp.single_zero]⟩
  rw [PowersOnly,
    ← e.forall_terms_normalize_of_zero (P := fun d => ∃ s, ∃ k ≤ top, d = power s k) zero]
  apply forall₂_congr
  intro m member
  rw [Monomial.fits_iff]
  constructor
  · rintro ⟨s, k, low, h⟩
    refine ⟨s, k, Nat.pos_of_ne_zero ?_, low, h⟩
    rintro rfl
    apply exponents_ne_zero_of_mem_normalize member
    rw [h, power, Nat.cast_zero, Finsupp.single_zero]
  · rintro ⟨s, k, -, low, h⟩
    exact ⟨s, k, low, h⟩

/-- Extraction succeeds exactly for sums of powers, and merges what stands at each degree. -/
theorem coefficients_eq_ok_iff (e : Laurent) (top : ℕ) (c : ℕ → ℚ) :
    e.coefficients top = .ok c ↔ e.polynomial.PowersOnly top ∧ (merged e.polynomial).coeff = c := by
  rw [powersOnly_iff, coefficients]
  cases found : e.normalize.terms.find? (!·.fits top) with
  | none =>
    have fits : ∀ m ∈ e.normalize.terms, m.fits top = true := by simpa using found
    have merged : e.normalize.coefficientAt = (merged e.polynomial).coeff := by
      funext k
      rw [coefficientAt_eq fits, polynomial_normalize]
    simp only [Except.ok.injEq, merged, and_iff_right fits]
  | some m =>
    have misfit : m.fits top = false := by simpa using List.find?_some found
    refine iff_of_false nofun fun h => ?_
    rw [h.1 m (List.mem_of_find?_eq_some found)] at misfit
    cases misfit

theorem coefficients_refused {failure : Failure} (refused : e.coefficients top = .error failure) :
    failure.kind = .invalidArgument := by
  unfold coefficients at refused
  split at refused
  · cases refused
    rfl
  · cases refused

/-- What an extraction of coefficients up to a degree gives. It merges sums of powers and refuses
all else; for an expression in one symbol it is exact, and only there can it be. -/
structure Extracts {α : Type} (e : Laurent) (top : ℕ) (polynomial : α → ℚ[X])
    (extracted : Except Failure α) : Prop where
  ok_iff : ∀ q, extracted = .ok q ↔
    e.polynomial.PowersOnly top ∧ merged e.polynomial = polynomial q
  refused : ∀ failure, extracted = .error failure → failure.kind = .invalidArgument
  single : (∃ s, ¬ e.polynomial.MentionsOther s) → ∀ q,
    extracted = .ok q ↔ ∃ s, e.polynomial = inSymbol s (polynomial q)
  several : (∀ s, e.polynomial.MentionsOther s) → ∀ q s,
    e.polynomial ≠ inSymbol s (polynomial q)

theorem extracts {α : Type} (e : Laurent) {top : ℕ} {polynomial : α → ℚ[X]}
    {build : (ℕ → ℚ) → α} (degree : ∀ q, (polynomial q).natDegree ≤ top)
    (read : ∀ q, build (polynomial q).coeff = q)
    (written : ∀ p : ℚ[X], p.natDegree ≤ top → polynomial (build p.coeff) = p) :
    e.Extracts top polynomial ((e.coefficients top).map build) := by
  have ok_iff (q : α) : (e.coefficients top).map build = .ok q ↔
      e.polynomial.PowersOnly top ∧ merged e.polynomial = polynomial q := by
    constructor
    · intro extracted
      obtain ⟨c, found, rfl⟩ := exists_of_map extracted
      obtain ⟨only, rfl⟩ := (e.coefficients_eq_ok_iff top c).mp found
      exact ⟨only, (written _ only.natDegree_merged_le).symm⟩
    · rintro ⟨only, same⟩
      rw [(e.coefficients_eq_ok_iff top _).mpr ⟨only, rfl⟩, same]
      exact congrArg Except.ok (read q)
  refine ⟨ok_iff, ?_, ?_, ?_⟩
  · intro failure refused
    cases found : e.coefficients top with
    | error f =>
      rw [found] at refused
      cases refused
      exact coefficients_refused found
    | ok c =>
      rw [found] at refused
      cases refused
  · rintro ⟨s, alone⟩ q
    rw [ok_iff]
    constructor
    · rintro ⟨only, same⟩
      obtain ⟨p, hp⟩ := only.exists_inSymbol alone
      rw [hp, merged_inSymbol] at same
      exact ⟨s, same ▸ hp⟩
    · rintro ⟨t, ht⟩
      rw [ht, merged_inSymbol]
      exact ⟨powersOnly_inSymbol (degree q), rfl⟩
  · intro several q s same
    exact not_mentionsOther_inSymbol _ (same ▸ several s)

theorem quadratic_extracts (e : Laurent) : e.Extracts 2 Quadratic.polynomial e.quadratic := by
  refine e.extracts (fun q => natDegree_quadratic_le) (fun q => ?_) fun p =>
    Quadratic.polynomial_of_coeff
  obtain ⟨a, b, c⟩ := q.coeff_polynomial
  rw [a, b, c]

theorem cubic_extracts (e : Laurent) : e.Extracts 3 Cubic.polynomial e.cubic := by
  refine e.extracts (fun q => natDegree_cubic_le) (fun q => ?_) fun p =>
    Cubic.polynomial_of_coeff
  obtain ⟨a, b, c, d⟩ := q.coeff_polynomial
  rw [a, b, c, d]

theorem quadratic_of_inSymbol {q : Quadratic} (h : e.polynomial = inSymbol s q.polynomial) :
    e.quadratic = .ok q :=
  (e.quadratic_extracts.single ⟨s, h ▸ not_mentionsOther_inSymbol _⟩ q).mpr ⟨s, h⟩

theorem cubic_of_inSymbol {q : Cubic} (h : e.polynomial = inSymbol s q.polynomial) :
    e.cubic = .ok q :=
  (e.cubic_extracts.single ⟨s, h ▸ not_mentionsOther_inSymbol _⟩ q).mpr ⟨s, h⟩

/-- The expression 3x² - 4. -/
def squareLessFour : Laurent := ⟨[⟨.ofInt 3, [⟨"x", 2⟩]⟩], .ofInt (-4)⟩

/-- The sum x² + y. -/
def squareAndOther : Laurent := ⟨[⟨.one, [⟨"x", 2⟩]⟩, ⟨.one, [⟨"y", 1⟩]⟩], .zero⟩

theorem squareAndOther_mentions {m : Monomial} {s : String} (member : m ∈ squareAndOther.terms)
    (occurs : m.degreeOf s ≠ 0) : squareAndOther.polynomial.Mentions s := by
  have stored : squareAndOther.normalize = squareAndOther := by decide +kernel
  have normal := stored ▸ squareAndOther.normalize_normal
  refine ⟨m.exponents, ?_, by rwa [← Monomial.degreeOf_eq]⟩
  rw [normal.coeff_of_mem member]
  exact (normal.terms m member).2.2

theorem squareAndOther_mentionsOther (s : String) : squareAndOther.polynomial.MentionsOther s := by
  by_cases same : s = "x"
  · refine ⟨"y", by simp [same], squareAndOther_mentions (m := ⟨.one, [⟨"y", 1⟩]⟩) ?_ ?_⟩ <;> decide
  · refine ⟨"x", Ne.symm same, squareAndOther_mentions (m := ⟨.one, [⟨"x", 2⟩]⟩) ?_ ?_⟩ <;> decide

end Laurent

end ExactAlgebra
