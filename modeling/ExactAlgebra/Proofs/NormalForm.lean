import ExactAlgebra.Proofs.Polynomial

/-!
The normal form of an expression. Terms stand in print order and no two are alike, powers stand in
print order with each symbol once, and every ratio is in lowest terms. Two expressions have the same
normal form exactly when they stand for the same polynomial, so equality of normal forms, stored or
by value, decides equality of polynomials.
-/
namespace ExactAlgebra

def Power.Before (p q : Power) : Prop :=
  q.degree < p.degree ∨ q.degree = p.degree ∧ compare p.symbol q.symbol = .lt

/-- A term with each symbol once, no zero degree, and a coefficient in lowest terms. -/
structure Monomial.Normal (m : Monomial) : Prop where
  ordered : m.powers.Pairwise Power.Before
  distinct : (m.powers.map Power.symbol).Nodup
  degrees : ∀ p ∈ m.powers, p.degree ≠ 0
  lowest : m.coefficient.LowestTerms

/-- No constant and no zero term, print order, and a constant in lowest terms. -/
structure Laurent.Normal (e : Laurent) : Prop where
  terms : ∀ m ∈ e.terms, m.Normal ∧ m.powers ≠ [] ∧ m.coefficient.value ≠ 0
  ordered : e.terms.Pairwise fun m n => compare m.signature n.signature = .lt
  constant : e.constant.LowestTerms

namespace Power

theorem before_iff (p q : Power) : p.Before q ↔ p.order q = .lt := by
  rw [order, Ordering.then_eq_lt, compare_lt_iff_lt, compare_eq_iff_eq, Before]

instance : Std.TransCmp order :=
  inferInstanceAs (Std.TransCmp (compareLex (fun p q => compareOn degree q p) (compareOn symbol)))

theorem eq_of_order {p q : Power} (tie : p.order q = .eq) : p = q := by
  obtain ⟨degrees, symbols⟩ := Ordering.then_eq_eq.mp tie
  have hd : p.degree = q.degree := (compare_eq_iff_eq.mp degrees).symm
  have hs : p.symbol = q.symbol := Std.LawfulEqOrd.eq_of_compare symbols
  exact congrArg₂ Power.mk hs hd

end Power

namespace Monomial

instance : Std.TransCmp order := inferInstanceAs (Std.TransCmp (compareOn signature))

section Powers

variable {m n : Monomial}

/-- Powers gathered by symbol, filtered and sorted are in the normal form, in whatever way the
degrees of one symbol are combined. -/
theorem normal_of_gathered {combine : Power → Power → Power}
    (by_symbol : GathersBy Power.hasSymbolOf combine fun p : Power => p.entry.1)
    (powers : List Power) {r : Ratio} (lowest : r.LowestTerms) : Normal ⟨r, sortBy Power.order
      ((gather Power.hasSymbolOf combine powers).filter (·.degree != 0))⟩ := by
  have apart := (distinct_gather by_symbol powers).filter (·.degree != 0)
  have sorted : (sortBy Power.order _).Perm _ :=
    sortBy_perm ((gather Power.hasSymbolOf combine powers).filter (·.degree != 0))
  constructor
  · have increasing := sortBy_increasing Power.order
      (apart.imp fun hne tie => hne (congrArg Power.symbol (Power.eq_of_order tie)))
    exact increasing.imp (Power.before_iff _ _).mpr
  · exact List.pairwise_map.mpr ((sorted.pairwise_iff fun h => h.symm).mpr apart)
  · intro p hp
    exact bne_iff_ne.mp (List.mem_filter.mp (sorted.mem_iff.mp hp)).2
  · exact lowest

/-- The powers of a normal form are in the normal form under any coefficient. -/
theorem normal_of_lowestTerms (m : Monomial) {r : Ratio} (lowest : r.LowestTerms) :
    Normal ⟨r, m.normalize.powers⟩ :=
  normal_of_gathered Power.gathers_by_symbol m.powers lowest

theorem normal_normalize (m : Monomial) : m.normalize.Normal :=
  m.normal_of_lowestTerms m.coefficient.reduce_lowestTerms

theorem normal_combine (m n : Monomial) : (m.combine n).Normal :=
  m.normal_of_lowestTerms (Ratio.add_lowestTerms _ _)

theorem Normal.neg (h : m.Normal) : m.neg.Normal :=
  ⟨h.ordered, h.distinct, h.degrees, Ratio.mul_lowestTerms _ _⟩

theorem Normal.mem_powers_iff (h : m.Normal) (p : Power) :
    p ∈ m.powers ↔ m.exponents p.symbol = p.degree ∧ p.degree ≠ 0 := by
  have entries : Tally.Distinct (m.powers.map Power.entry) := by
    constructor
    · exact List.pairwise_map.mpr (List.pairwise_map.mp h.distinct)
    · intro entry hentry
      obtain ⟨q, hq, rfl⟩ := List.mem_map.mp hentry
      exact h.degrees q hq
  refine Iff.trans ?_ (entries.mem_iff p.entry)
  rw [List.mem_map]
  constructor
  · exact fun hp => ⟨p, hp, rfl⟩
  · rintro ⟨⟨symbol, degree⟩, hq, he⟩
    cases he
    exact hq

theorem Normal.exponents_ne_zero (h : m.Normal) (nonempty : m.powers ≠ []) :
    m.exponents ≠ 0 := by
  obtain ⟨p, hp⟩ := List.exists_mem_of_ne_nil _ nonempty
  obtain ⟨value, nonzero⟩ := (h.mem_powers_iff p).mp hp
  intro zero
  rw [zero, Finsupp.zero_apply] at value
  exact nonzero value.symm

theorem Normal.powers_eq (hm : m.Normal) (hn : n.Normal) (same : m.exponents = n.exponents) :
    m.powers = n.powers := by
  apply eq_of_increasing Power.order
  · exact hm.ordered.imp (Power.before_iff _ _).mp
  · exact hn.ordered.imp (Power.before_iff _ _).mp
  · intro p
    rw [hm.mem_powers_iff, hn.mem_powers_iff, same]

/-- A term in normal form is determined by its exponents and its value. -/
theorem Normal.eq_of_exponents_eq (hm : m.Normal) (hn : n.Normal)
    (same : m.exponents = n.exponents)
    (value : m.coefficient.value = n.coefficient.value) : m = n := by
  have powers := hm.powers_eq hn same
  have coefficients := hm.lowest.eq_of_value_eq hn.lowest value
  obtain ⟨c, ps⟩ := m
  obtain ⟨k, qs⟩ := n
  exact congrArg₂ Monomial.mk coefficients powers

end Powers

theorem same_iff (m n : Monomial) :
    m.same n = true ↔ m.coefficient.value = n.coefficient.value ∧ m.exponents = n.exponents := by
  rw [same, Bool.and_eq_true, Ratio.same_iff, alike_iff]

end Monomial

namespace Laurent

section Stages

theorem addNumbers_lowestTerms {start : Ratio} (lowest : start.LowestTerms)
    (terms : List Monomial) : (addNumbers start terms).LowestTerms := by
  unfold addNumbers
  induction terms.filter (·.isConstant) generalizing start with
  | nil => exact lowest
  | cons m rest ih => exact ih (Ratio.add_lowestTerms _ _)

theorem normal_of_mem_combineTerms {terms : List Monomial} (normal : ∀ m ∈ terms, m.Normal) :
    ∀ m ∈ combineTerms terms, m.Normal ∧ m.exponents ≠ 0 := by
  refine forall_mem_gather (P := fun m : Monomial => m.Normal ∧ m.exponents ≠ 0) ?_ ?_
  · intro m n hm _
    rw [Monomial.exponents_combine]
    exact ⟨m.normal_combine n, hm.2⟩
  · intro m hm
    obtain ⟨member, nonconstant⟩ := List.mem_filter.mp hm
    refine ⟨normal m member, fun zero => ?_⟩
    rw [(Monomial.isConstant_iff m).mpr zero] at nonconstant
    cases nonconstant

theorem apart_combineTerms (terms : List Monomial) :
    (combineTerms terms).Pairwise fun m n => m.order n ≠ .eq := by
  apply (distinct_gather Monomial.gathers_by_exponents _).imp
  intro m n hne tie
  exact hne ((m.signature_eq_iff n).mp (Std.LawfulEqOrd.eq_of_compare tie))

theorem normalize_normal (e : Laurent) : e.normalize.Normal where
  terms m member := by
    obtain ⟨combined, nonzero⟩ := List.mem_filter.mp (e.terms_normalize_perm.mem_iff.mp member)
    have normal : ∀ n ∈ e.terms.map (·.normalize), n.Normal := by
      intro n hn
      obtain ⟨k, _, rfl⟩ := List.mem_map.mp hn
      exact k.normal_normalize
    obtain ⟨hm, nonconstant⟩ := normal_of_mem_combineTerms normal m combined
    refine ⟨hm, ?_, ?_⟩
    · intro empty
      apply nonconstant
      rw [Monomial.exponents, empty]
      rfl
    · exact fun zero => by simp [(Ratio.isZero_iff _).mpr zero] at nonzero
  ordered := sortBy_increasing Monomial.order ((apart_combineTerms _).filter _)
  constant := addNumbers_lowestTerms e.constant.reduce_lowestTerms _

theorem zero_normal : zero.Normal := ⟨by simp [zero], .nil, Ratio.ofRat_lowestTerms 0⟩

theorem const_normal (r : Ratio) : (const r).Normal := ⟨by simp [const], .nil, r.reduce_lowestTerms⟩

theorem add_normal (e f : Laurent) : (e.add f).Normal := normalize_normal _

theorem sub_normal (e f : Laurent) : (e.sub f).Normal := normalize_normal _

theorem mul_normal (e f : Laurent) : (e.mul f).Normal := normalize_normal _

theorem Normal.neg {e : Laurent} (h : e.Normal) : e.neg.Normal where
  terms m member := by
    obtain ⟨n, hn, rfl⟩ := List.mem_map.mp member
    obtain ⟨normal, powers, nonzero⟩ := h.terms n hn
    exact ⟨normal.neg, powers, by simpa [Monomial.neg, Monomial.scale] using nonzero⟩
  -- the signature looks at the powers alone, and these stay
  ordered := List.pairwise_map.mpr h.ordered
  constant := Ratio.reduce_lowestTerms _

end Stages

section Stored

variable {e f : Laurent} {m : Monomial}

noncomputable def entries (e : Laurent) : List (Exponents × ℚ) :=
  e.terms.map fun m => (m.exponents, m.coefficient.value)

theorem Normal.distinct_entries (h : e.Normal) : Tally.Distinct e.entries := by
  constructor
  · apply List.pairwise_map.mpr
    apply h.ordered.imp
    intro m n less same
    rw [(m.signature_eq_iff n).mpr same, Std.ReflOrd.compare_self] at less
    cases less
  · intro entry hentry
    obtain ⟨m, hm, rfl⟩ := List.mem_map.mp hentry
    exact (h.terms m hm).2.2

theorem Normal.exponents_ne_zero (h : e.Normal) (member : m ∈ e.terms) : m.exponents ≠ 0 :=
  (h.terms m member).1.exponents_ne_zero (h.terms m member).2.1

theorem coeff_termsPolynomial (terms : List Monomial) (d : Exponents) :
    (termsPolynomial terms).coeff d =
      Tally.total (terms.map fun m => (m.exponents, m.coefficient.value)) d := by
  induction terms with
  | nil => rfl
  | cons m rest ih =>
    rw [termsPolynomial_cons, AddMonoidAlgebra.coeff_add, Finsupp.add_apply, ih, List.map_cons,
      Tally.total_cons, Finsupp.add_apply, Monomial.polynomial, AddMonoidAlgebra.coeff_single]

theorem coeff_polynomial (e : Laurent) (d : Exponents) :
    e.polynomial.coeff d =
      Tally.total e.entries d + (LaurentRing.constant e.constant.value).coeff d := by
  rw [polynomial, AddMonoidAlgebra.coeff_add, Finsupp.add_apply, coeff_termsPolynomial, entries]

theorem coeff_polynomial_of_ne_zero (e : Laurent) {d : Exponents} (nonconstant : d ≠ 0) :
    e.polynomial.coeff d = Tally.total e.entries d := by
  rw [coeff_polynomial, LaurentRing.constant, AddMonoidAlgebra.coeff_single,
    Finsupp.single_eq_of_ne nonconstant, add_zero]

/-- What has a coefficient was written down. -/
theorem exists_term {d : Exponents} (nonconstant : d ≠ 0)
    (nonzero : e.polynomial.coeff d ≠ 0) : ∃ m ∈ e.terms, m.exponents = d := by
  rw [e.coeff_polynomial_of_ne_zero nonconstant] at nonzero
  by_contra! missing
  apply nonzero
  apply Tally.total_apply_of_absent
  intro entry hentry
  obtain ⟨m, hm, rfl⟩ := List.mem_map.mp hentry
  exact missing m hm

theorem Normal.coeff_zero (h : e.Normal) : e.polynomial.coeff 0 = e.constant.value := by
  have absent : Tally.total e.entries 0 = 0 := by
    apply Tally.total_apply_of_absent
    intro entry hentry
    obtain ⟨m, hm, rfl⟩ := List.mem_map.mp hentry
    exact h.exponents_ne_zero hm
  rw [coeff_polynomial, absent, zero_add, LaurentRing.constant, AddMonoidAlgebra.coeff_single,
    Finsupp.single_eq_same]

theorem Normal.coeff_of_mem (h : e.Normal) (member : m ∈ e.terms) :
    e.polynomial.coeff m.exponents = m.coefficient.value := by
  rw [e.coeff_polynomial_of_ne_zero (h.exponents_ne_zero member)]
  exact h.distinct_entries.total_apply (List.mem_map_of_mem member)

theorem Normal.mem_of_polynomial_eq (he : e.Normal) (hf : f.Normal)
    (same : e.polynomial = f.polynomial) (member : m ∈ e.terms) : m ∈ f.terms := by
  -- the exponents of m have the same coefficient in f, so f stores a term for them
  have value := he.coeff_of_mem member
  obtain ⟨hm, _, nonzero⟩ := he.terms m member
  have counts : f.polynomial.coeff m.exponents ≠ 0 := by
    rwa [← same, value]
  obtain ⟨n, hn, exponents⟩ := exists_term (he.exponents_ne_zero member) counts
  have coefficients : m.coefficient.value = n.coefficient.value := by
    rw [← value, same, ← exponents, hf.coeff_of_mem hn]
  rw [hm.eq_of_exponents_eq (hf.terms n hn).1 exponents.symm coefficients]
  exact hn

/-- A normal form is determined by its polynomial. -/
theorem Normal.eq_of_polynomial_eq (he : e.Normal) (hf : f.Normal)
    (same : e.polynomial = f.polynomial) : e = f := by
  have terms : e.terms = f.terms := by
    apply eq_of_increasing Monomial.order he.ordered hf.ordered
    intro m
    exact ⟨he.mem_of_polynomial_eq hf same, hf.mem_of_polynomial_eq he same.symm⟩
  have constants : e.constant = f.constant := by
    apply he.constant.eq_of_value_eq hf.constant
    rw [← he.coeff_zero, same, hf.coeff_zero]
  obtain ⟨ts, c⟩ := e
  obtain ⟨us, k⟩ := f
  exact congrArg₂ Laurent.mk terms constants

end Stored

section Normalized

/-- Expressions have one normal form exactly when they stand for one polynomial. -/
theorem normalize_eq_iff (e f : Laurent) :
    e.normalize = f.normalize ↔ e.polynomial = f.polynomial := by
  constructor
  · intro h
    rw [← polynomial_normalize, h, polynomial_normalize]
  · intro h
    apply e.normalize_normal.eq_of_polynomial_eq f.normalize_normal
    rw [polynomial_normalize, h, polynomial_normalize]

@[simp] theorem normalize_normalize (e : Laurent) : e.normalize.normalize = e.normalize :=
  (normalize_eq_iff _ _).mpr e.polynomial_normalize

theorem Normal.normalize_eq {e : Laurent} (h : e.Normal) : e.normalize = e :=
  e.normalize_normal.eq_of_polynomial_eq h e.polynomial_normalize

theorem Normal.isZero_iff {e : Laurent} (h : e.Normal) : e.isZero = true ↔ e.polynomial = 0 := by
  constructor
  · intro zero
    simp only [isZero, Bool.and_eq_true, List.all_eq_true, Ratio.isZero_iff] at zero
    have terms : e.terms = [] := List.eq_nil_iff_forall_not_mem.mpr fun m member =>
      (h.terms m member).2.2 (zero.2 m member)
    rw [polynomial, terms, zero.1, LaurentRing.constant_zero, termsPolynomial_nil, add_zero]
  · intro zero
    rw [h.eq_of_polynomial_eq zero_normal (zero.trans polynomial_zero.symm)]
    rfl

variable {e : Laurent} {m : Monomial}

theorem coeff_ne_zero_of_mem_normalize (member : m ∈ e.normalize.terms) :
    e.polynomial.coeff m.exponents ≠ 0 := by
  rw [← e.polynomial_normalize, e.normalize_normal.coeff_of_mem member]
  exact (e.normalize_normal.terms m member).2.2

theorem exponents_ne_zero_of_mem_normalize (member : m ∈ e.normalize.terms) : m.exponents ≠ 0 :=
  e.normalize_normal.exponents_ne_zero member

theorem exists_term_of_coeff_ne_zero {d : Exponents} (nonconstant : d ≠ 0)
    (nonzero : e.polynomial.coeff d ≠ 0) : ∃ m ∈ e.normalize.terms, m.exponents = d := by
  rw [← e.polynomial_normalize] at nonzero
  exact exists_term nonconstant nonzero

theorem constant_normalize (e : Laurent) :
    e.normalize.constant = .ofRat (e.polynomial.coeff 0) := by
  rw [← e.polynomial_normalize, e.normalize_normal.coeff_zero,
    e.normalize_normal.constant.ofRat_value]

end Normalized

section Same

theorem termsPolynomial_eq_of_sameTerms {terms more : List Monomial}
    (same : sameTerms terms more = true) : termsPolynomial terms = termsPolynomial more := by
  induction terms generalizing more with
  | nil =>
    cases more with
    | nil => rfl
    | cons n more => cases same
  | cons m rest ih =>
    cases more with
    | nil => cases same
    | cons n more =>
      rw [sameTerms, Bool.and_eq_true, Monomial.same_iff] at same
      rw [termsPolynomial_cons, termsPolynomial_cons, ih same.2, Monomial.polynomial,
        Monomial.polynomial, same.1.1, same.1.2]

theorem polynomial_eq_of_same {e f : Laurent} (same : e.same f = true) :
    e.polynomial = f.polynomial := by
  rw [Laurent.same, Bool.and_eq_true, Ratio.same_iff] at same
  rw [polynomial, polynomial, termsPolynomial_eq_of_sameTerms same.1, same.2]

theorem sameTerms_refl (terms : List Monomial) : sameTerms terms terms = true := by
  induction terms with
  | nil => rfl
  | cons m rest ih => rw [sameTerms, ih, (m.same_iff m).mpr ⟨rfl, rfl⟩, Bool.and_self]

theorem same_refl (e : Laurent) : e.same e = true := by
  rw [same, sameTerms_refl, (Ratio.same_iff _ _).mpr rfl, Bool.and_self]

theorem Normal.same_iff {e f : Laurent} (he : e.Normal) (hf : f.Normal) :
    e.same f = true ↔ e.polynomial = f.polynomial := by
  constructor
  · exact polynomial_eq_of_same
  · intro same
    rw [he.eq_of_polynomial_eq hf same]
    exact same_refl f

end Same

/-- Normalization keeps the polynomial, depends on nothing else, and ends in the normal form; so
normal forms are equal, as stored or by value, exactly when the polynomials are. -/
theorem normalize_canonical (e f : Laurent) :
    e.normalize.polynomial = e.polynomial ∧
    (e.normalize = f.normalize ↔ e.polynomial = f.polynomial) ∧
    (e.normalize.same f.normalize = true ↔ e.polynomial = f.polynomial) ∧
    e.normalize.normalize = e.normalize ∧ e.normalize.Normal := by
  refine ⟨e.polynomial_normalize, normalize_eq_iff e f, ?_, e.normalize_normalize,
    e.normalize_normal⟩
  constructor
  · intro same
    rw [← e.polynomial_normalize, polynomial_eq_of_same same, f.polynomial_normalize]
  · intro h
    rw [(normalize_eq_iff e f).mpr h]
    exact same_refl _

end Laurent

end ExactAlgebra
