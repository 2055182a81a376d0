import ExactAlgebra.Proofs.NormalForm
import ExactAlgebra.Solving.Shape

/-!
Queries on a normal form, answered by its polynomial. The terms of a normal form are the
nonconstant exponent vectors of the polynomial, so a query that looks at each term is a statement
about the vectors that have a coefficient: which symbols occur, in which degrees, and whether a
symbol stands only as a number times itself.
-/
namespace ExactAlgebra

namespace LaurentRing

variable (n : LaurentRing) (s : String)

def Mentions : Prop := ∃ d, n.coeff d ≠ 0 ∧ d s ≠ 0

def MentionsOther : Prop := ∃ t, t ≠ s ∧ n.Mentions t

def HasNegativeDegree : Prop := ∃ d, n.coeff d ≠ 0 ∧ d s < 0

def HasDegreeAtLeast (k : ℤ) : Prop := ∃ d, n.coeff d ≠ 0 ∧ k ≤ d s

def IsConstant : Prop := ∃ c, n = constant c

/-- A number times the symbol, and terms free of the symbol. -/
def LinearIn : Prop := ∃ c rest, n = constant c * symbol s + rest ∧ ¬ rest.Mentions s

variable {n s}

theorem coeff_constant (c : ℚ) (d : Exponents) :
    (constant c).coeff d = if d = 0 then c else 0 := by
  rw [constant, AddMonoidAlgebra.coeff_single, Finsupp.single_apply]
  exact if_congr eq_comm rfl rfl

theorem constant_injective {c k : ℚ} (h : constant c = constant k) : c = k :=
  AddMonoidAlgebra.single_right_injective h

theorem constant_mul_symbol (c : ℚ) (name : String) :
    constant c * symbol name = .single (Finsupp.single name 1) c := by
  rw [constant, symbol, AddMonoidAlgebra.single_mul_single, zero_add, mul_one]

theorem isConstant_iff : n.IsConstant ↔ ∀ d, n.coeff d ≠ 0 → d = 0 := by
  constructor
  · rintro ⟨c, rfl⟩ d hd
    by_contra hne
    exact hd (by rw [coeff_constant, if_neg hne])
  · intro h
    refine ⟨n.coeff 0, AddMonoidAlgebra.ext (Finsupp.ext fun d => ?_)⟩
    rw [coeff_constant]
    split
    · next hd => rw [hd]
    · next hd =>
      by_contra hne
      exact hd (h d hne)

theorem IsConstant.neg (h : n.IsConstant) : (-n).IsConstant := by
  obtain ⟨c, rfl⟩ := h
  exact ⟨-c, (constant_neg c).symm⟩

theorem IsConstant.mul_constant (h : n.IsConstant) (k : ℚ) : (n * constant k).IsConstant := by
  obtain ⟨c, rfl⟩ := h
  exact ⟨c * k, (constant_mul c k).symm⟩

theorem not_mentions_iff : ¬ n.Mentions s ↔ ∀ d, n.coeff d ≠ 0 → d s = 0 := by
  simp only [Mentions, not_exists, not_and, not_not]

theorem Mentions.exists_nonconstant (h : n.Mentions s) : ∃ d ≠ 0, n.coeff d ≠ 0 ∧ d s ≠ 0 := by
  obtain ⟨d, nonzero, occurs⟩ := h
  refine ⟨d, ?_, nonzero, occurs⟩
  rintro rfl
  exact occurs rfl

theorem Mentions.not_isConstant (h : n.Mentions s) : ¬ n.IsConstant := by
  obtain ⟨d, nonconstant, nonzero, -⟩ := h.exists_nonconstant
  exact fun constant => nonconstant (isConstant_iff.mp constant d nonzero)

theorem Mentions.of_neg (h : (-n).Mentions s) : n.Mentions s := by
  obtain ⟨d, hd, hs⟩ := h
  refine ⟨d, fun hz => hd ?_, hs⟩
  rw [AddMonoidAlgebra.coeff_neg, Finsupp.neg_apply, hz, neg_zero]

theorem Mentions.of_mul_constant {k : ℚ} (h : (n * constant k).Mentions s) : n.Mentions s := by
  obtain ⟨d, hd, hs⟩ := h
  refine ⟨d, fun hz => hd ?_, hs⟩
  rw [constant, AddMonoidAlgebra.coeff_mul_single_zero, hz, zero_mul]

theorem not_mentionsOther_iff :
    ¬ n.MentionsOther s ↔ ∀ d, n.coeff d ≠ 0 → d = Finsupp.single s (d s) := by
  constructor
  · intro h d hd
    ext t
    by_cases ht : t = s
    · rw [ht, Finsupp.single_eq_same]
    · rw [Finsupp.single_eq_of_ne ht]
      by_contra hne
      exact h ⟨t, ht, d, hd, hne⟩
  · rintro h ⟨t, ht, d, hd, hne⟩
    rw [h d hd, Finsupp.single_eq_of_ne ht] at hne
    exact hne rfl

theorem not_hasNegativeDegree_iff :
    ¬ n.HasNegativeDegree s ↔ ∀ d, n.coeff d ≠ 0 → 0 ≤ d s := by
  simp only [HasNegativeDegree, not_exists, not_and, not_lt]

theorem not_hasDegreeAtLeast_iff {k : ℤ} :
    ¬ n.HasDegreeAtLeast s k ↔ ∀ d, n.coeff d ≠ 0 → d s < k := by
  simp only [HasDegreeAtLeast, not_exists, not_and, not_le]

theorem linearIn_iff :
    n.LinearIn s ↔ ∀ d, n.coeff d ≠ 0 → d s = 0 ∨ d = Finsupp.single s 1 := by
  constructor
  · rintro ⟨c, rest, rfl, free⟩ d hd
    by_cases hs : d = Finsupp.single s 1
    · exact .inr hs
    · refine .inl (not_mentions_iff.mp free d ?_)
      rwa [AddMonoidAlgebra.coeff_add, Finsupp.add_apply, constant_mul_symbol,
        AddMonoidAlgebra.coeff_single, Finsupp.single_eq_of_ne hs, zero_add] at hd
  · intro h
    refine ⟨n.coeff (Finsupp.single s 1), n.erase (Finsupp.single s 1), ?_, ?_⟩
    · rw [constant_mul_symbol, AddMonoidAlgebra.single_add_erase]
    · rintro ⟨d, hd, hs⟩
      rw [AddMonoidAlgebra.coeff_erase, Finsupp.erase_apply] at hd
      split at hd
      · exact hd rfl
      · next hne => exact (h d hd).elim hs hne

end LaurentRing

namespace Laurent

/-- A property of all terms of a normal form is one of all nonconstant exponent vectors. -/
theorem forall_terms_normalize (e : Laurent) (P : Exponents → Prop) :
    (∀ m ∈ e.normalize.terms, P m.exponents) ↔
      ∀ d, d ≠ 0 → e.polynomial.coeff d ≠ 0 → P d := by
  constructor
  · intro h d nonconstant nonzero
    obtain ⟨m, hm, rfl⟩ := exists_term_of_coeff_ne_zero nonconstant nonzero
    exact h m hm
  · intro h m hm
    exact h _ (exponents_ne_zero_of_mem_normalize hm) (coeff_ne_zero_of_mem_normalize hm)

theorem forall_terms_normalize_of_zero (e : Laurent) {P : Exponents → Prop} (zero : P 0) :
    (∀ m ∈ e.normalize.terms, P m.exponents) ↔ ∀ d, e.polynomial.coeff d ≠ 0 → P d := by
  rw [forall_terms_normalize]
  constructor
  · intro h d nonzero
    by_cases hd : d = 0
    · exact hd ▸ zero
    · exact h d hd nonzero
  · exact fun h d _ nonzero => h d nonzero

section Constants

theorem terms_normalize_eq_nil_iff (e : Laurent) :
    e.normalize.terms = [] ↔ e.polynomial.IsConstant := by
  rw [LaurentRing.isConstant_iff, List.eq_nil_iff_forall_not_mem]
  have h := e.forall_terms_normalize fun _ => False
  constructor
  · intro empty d nonzero
    by_contra hd
    exact h.mp empty d hd nonzero
  · intro constants
    exact h.mpr fun d hd nonzero => hd (constants d nonzero)

theorem normalize_of_constant {e : Laurent} {c : ℚ} (h : e.polynomial = .constant c) :
    e.normalize = ⟨[], .ofRat c⟩ := by
  have terms : e.normalize.terms = [] := e.terms_normalize_eq_nil_iff.mpr ⟨c, h⟩
  have constant : e.normalize.constant = .ofRat c := by
    rw [constant_normalize, h, LaurentRing.coeff_constant, if_pos rfl]
  calc e.normalize = ⟨e.normalize.terms, e.normalize.constant⟩ := rfl
    _ = ⟨[], .ofRat c⟩ := by rw [terms, constant]

theorem constantValue?_of_constant {e : Laurent} {c : ℚ} (h : e.polynomial = .constant c) :
    e.constantValue? = some (.ofRat c) := by
  rw [constantValue?, normalize_of_constant h]
  rfl

theorem constantValue?_of_not_constant {e : Laurent} (h : ¬ e.polynomial.IsConstant) :
    e.constantValue? = none := by
  have terms : e.normalize.terms ≠ [] := fun he => h (e.terms_normalize_eq_nil_iff.mp he)
  rw [constantValue?, if_neg fun he => terms (List.isEmpty_iff.mp he)]

theorem polynomial_of_constantValue? {e : Laurent} {r : Ratio} (h : e.constantValue? = some r) :
    e.polynomial = .constant r.value := by
  by_cases constant : e.polynomial.IsConstant
  · obtain ⟨c, number⟩ := constant
    cases (constantValue?_of_constant number).symm.trans h
    rw [number, Ratio.value_ofRat]
  · rw [constantValue?_of_not_constant constant] at h
    cases h

theorem reduce_of_constantValue? {e : Laurent} {r : Ratio} (h : e.constantValue? = some r) :
    r.reduce = r := by
  have stored := (constantValue?_of_constant (polynomial_of_constantValue? h)).symm.trans h
  rw [← Option.some.inj stored, Ratio.reduce_ofRat]

theorem constantValue?_isSome_iff (e : Laurent) :
    e.constantValue?.isSome = true ↔ e.polynomial.IsConstant := by
  constructor
  · intro found
    obtain ⟨r, hr⟩ := Option.isSome_iff_exists.mp found
    exact ⟨r.value, polynomial_of_constantValue? hr⟩
  · rintro ⟨c, number⟩
    rw [constantValue?_of_constant number]
    rfl

/-- The number behind an expression depends on the polynomial alone. -/
theorem constantValue?_eq {e f : Laurent} (same : e.polynomial = f.polynomial) :
    e.constantValue? = f.constantValue? := by
  rw [constantValue?, (normalize_eq_iff e f).mpr same, constantValue?]

end Constants

section Degrees

theorem getD_max?_le_iff (xs : List ℤ) {k : ℤ} (nonneg : 0 ≤ k) :
    xs.max?.getD 0 ≤ k ↔ ∀ x ∈ xs, x ≤ k := by
  cases h : xs.max? with
  | none =>
    rw [List.max?_eq_none_iff.mp h]
    simp [nonneg]
  | some a => exact List.max?_le_iff h

theorem hasNegativeDegree_normalize_iff (e : Laurent) (s : String) :
    e.normalize.hasNegativeDegree s = true ↔ e.polynomial.HasNegativeDegree s := by
  rw [← not_iff_not, LaurentRing.not_hasNegativeDegree_iff,
    ← e.forall_terms_normalize_of_zero (P := fun d => 0 ≤ d s) (le_refl _), hasNegativeDegree,
    List.any_eq_true]
  simp only [decide_eq_true_eq, Monomial.degreeOf_eq, not_exists, not_and, not_lt]

theorem hasSymbol_normalize_iff (e : Laurent) (s : String) :
    e.normalize.hasSymbol s = true ↔ e.polynomial.Mentions s := by
  rw [← not_iff_not, LaurentRing.not_mentions_iff,
    ← e.forall_terms_normalize_of_zero (P := fun d => d s = 0) rfl, hasSymbol, List.any_eq_true]
  simp only [Monomial.hasSymbol_iff, not_exists, not_and, not_not]

theorem mem_symbols_iff (e : Laurent) (s : String) :
    s ∈ e.symbols ↔ e.polynomial.Mentions s := by
  rw [← hasSymbol_normalize_iff, hasSymbol, List.any_eq_true]
  simp only [symbols, mem_sortedDistinct, List.mem_flatMap, Monomial.hasSymbol_iff,
    (Monomial.signature_inOrder _).mem_symbols_iff, Monomial.exponents_signature]

theorem onlyHasSymbol_normalize_iff (e : Laurent) (s : String) :
    e.normalize.onlyHasSymbol s = true ↔ ¬ e.polynomial.MentionsOther s := by
  rw [LaurentRing.not_mentionsOther_iff,
    ← e.forall_terms_normalize_of_zero (P := fun d => d = Finsupp.single s (d s)) (by simp),
    onlyHasSymbol, List.all_eq_true]
  apply forall₂_congr
  intro m _
  simp only [List.all_eq_true, beq_iff_eq, m.signature_inOrder.mem_symbols_iff,
    Monomial.exponents_signature]
  constructor
  · intro h
    ext t
    by_cases ht : t = s
    · rw [ht, Finsupp.single_eq_same]
    · rw [Finsupp.single_eq_of_ne ht]
      by_contra hne
      exact ht (h t hne)
  · intro h t ht
    by_contra hne
    rw [h, Finsupp.single_eq_of_ne hne] at ht
    exact ht rfl

theorem isLinearIn_normalize_iff (e : Laurent) {s : String}
    (nonneg : ¬ e.polynomial.HasNegativeDegree s) :
    e.normalize.isLinearIn s = true ↔ e.polynomial.LinearIn s := by
  have low : e.normalize.maxDegreeOf s ≤ 1 ↔ ∀ m ∈ e.normalize.terms, m.exponents s ≤ 1 := by
    rw [maxDegreeOf, getD_max?_le_iff _ (by decide), List.forall_mem_map]
    simp only [Monomial.degreeOf_eq]
  have alone : e.normalize.noCrossProductsWith s = true ↔
      ∀ m ∈ e.normalize.terms, m.exponents s ≠ 0 → m.exponents.support.card ≤ 1 := by
    rw [noCrossProductsWith, List.all_eq_true]
    simp only [List.mem_filter, Monomial.hasSymbol_iff, decide_eq_true_eq,
      Monomial.symbolCount_eq, and_imp]
  rw [isLinearIn, Bool.and_eq_true, decide_eq_true_eq, low, alone,
    e.forall_terms_normalize_of_zero (P := fun d => d s ≤ 1) (by simp),
    e.forall_terms_normalize_of_zero (P := fun d => d s ≠ 0 → d.support.card ≤ 1) (by simp),
    LaurentRing.linearIn_iff]
  constructor
  · rintro ⟨hlow, halone⟩ d hd
    by_cases hs : d s = 0
    · exact .inl hs
    -- the only symbol there is this one, and its degree is neither zero, negative nor above one
    · right
      obtain ⟨t, ht⟩ := Finsupp.card_support_le_one.mp (halone d hd hs)
      have hts : t = s := by
        by_contra hne
        rw [ht, Finsupp.single_eq_of_ne' hne] at hs
        exact hs rfl
      have h0 := LaurentRing.not_hasNegativeDegree_iff.mp nonneg d hd
      have h1 : d s = 1 := by have := hlow d hd; omega
      rw [ht, hts, h1]
  · intro h
    constructor
    · intro d hd
      rcases h d hd with hs | hs
      · omega
      · rw [hs, Finsupp.single_eq_same]
    · intro d hd hs
      have hd' := (h d hd).resolve_left hs
      rw [hd']
      exact Finsupp.card_support_le_one.mpr ⟨s, by rw [Finsupp.single_eq_same]⟩

end Degrees

end Laurent

end ExactAlgebra
