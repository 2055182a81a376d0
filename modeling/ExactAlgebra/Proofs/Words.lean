import ExactAlgebra.Proofs.Queries
import ExactAlgebra.Wrapping

/-!
Degrees as words. Taking every degree to its word is a ring homomorphism of Laurent polynomials, and
it loses nothing on polynomials whose degrees are in the range of signed words. What is multiplied
out in words is in that range and has the words of what was written, however the sums wrapped on the
way, so it is the ordinary normal form exactly when that one stays in range.
-/
namespace ExactAlgebra

/-- The degrees of signed words. -/
def DegreeInRange (k : ℤ) : Prop := -0x8000000000000000 ≤ k ∧ k < 0x8000000000000000

instance (k : ℤ) : Decidable (DegreeInRange k) := inferInstanceAs (Decidable (_ ∧ _))

section Degrees

variable {k l : ℤ}

theorem zero_inRange : DegreeInRange 0 := by decide

theorem wrapDegree_inRange (k : ℤ) : DegreeInRange (wrapDegree k) :=
  ⟨BitVec.le_toInt _, BitVec.toInt_lt⟩

theorem wrapDegree_eq_self (fits : DegreeInRange k) : wrapDegree k = k := by
  obtain ⟨low, high⟩ := fits
  rw [wrapDegree, BitVec.toInt_ofInt]
  exact Int.bmod_eq_of_le_mul_two (by push_cast; omega) (by push_cast; omega)

/-- Wrapping does not change the word of a degree. -/
@[simp] theorem cast_wrapDegree (k : ℤ) : ((wrapDegree k : ℤ) : BitVec 64) = k :=
  BitVec.ofInt_toInt

/-- Degrees in range with one word are equal. -/
theorem DegreeInRange.eq_of_cast_eq (hk : DegreeInRange k) (hl : DegreeInRange l)
    (same : (k : BitVec 64) = l) : k = l := by
  rw [← wrapDegree_eq_self hk, ← wrapDegree_eq_self hl]
  exact congrArg BitVec.toInt same

end Degrees

/-- A word for each symbol. -/
abbrev Words := String →₀ BitVec 64

/-- Laurent polynomials whose degrees are words. -/
abbrev WordRing := AddMonoidAlgebra ℚ Words

namespace Exponents

/-- The word of every degree. -/
noncomputable def words : Exponents →+ Words :=
  Finsupp.mapRange.addMonoidHom (Int.castAddHom (BitVec 64))

def InRange (d : Exponents) : Prop := ∀ s, DegreeInRange (d s)

theorem words_single (s : String) (k : ℤ) :
    words (Finsupp.single s k) = Finsupp.single s (k : BitVec 64) := by
  rw [words, Finsupp.mapRange.addMonoidHom_apply, Finsupp.mapRange_single]
  rfl

theorem InRange.eq_of_words_eq {d e : Exponents} (hd : InRange d) (he : InRange e)
    (same : words d = words e) : d = e :=
  Finsupp.ext fun s => (hd s).eq_of_cast_eq (he s) (DFunLike.congr_fun same s)

theorem zero_inRange : InRange 0 := fun _ => ExactAlgebra.zero_inRange

end Exponents

namespace LaurentRing

/-- Degrees taken to their words. -/
noncomputable def residue : LaurentRing →+* WordRing :=
  AddMonoidAlgebra.mapDomainRingHom ℚ Exponents.words

theorem residue_single (d : Exponents) (c : ℚ) :
    residue (.single d c) = .single (Exponents.words d) c :=
  AddMonoidAlgebra.mapDomain_single

/-- Every exponent that counts is in range. -/
def InRange (p : LaurentRing) : Prop := ∀ d, p.coeff d ≠ 0 → Exponents.InRange d

variable {p q : LaurentRing}

/-- In range, a polynomial is determined by its residue. -/
theorem InRange.eq_of_residue_eq (hp : p.InRange) (hq : q.InRange)
    (same : residue p = residue q) : p = q := by
  have injective : Set.InjOn Exponents.words {d | Exponents.InRange d} :=
    fun _ hd _ he => hd.eq_of_words_eq he
  have supported (n : LaurentRing) (hn : n.InRange) :
      (n.coeff.support : Set Exponents) ⊆ {d | Exponents.InRange d} :=
    fun d counts => hn d (Finsupp.mem_support_iff.mp counts)
  apply AddMonoidAlgebra.coeff_injective
  -- outside the range two exponents may have one word, so this is injective on the supports only
  exact Finsupp.mapDomain_injOn _ injective (supported p hp) (supported q hq)
    (congrArg AddMonoidAlgebra.coeff same)

theorem InRange.add (hp : p.InRange) (hq : q.InRange) : (p + q).InRange := by
  intro d counts
  by_cases first : p.coeff d = 0
  · refine hq d fun second => counts ?_
    rw [AddMonoidAlgebra.coeff_add, Finsupp.add_apply, first, second, add_zero]
  · exact hp d first

theorem InRange.neg (hp : p.InRange) : (-p).InRange :=
  fun d counts => hp d fun zero => counts (by rw [AddMonoidAlgebra.coeff_neg, Finsupp.neg_apply, zero,
    neg_zero])

theorem single_inRange {d : Exponents} (fits : d.InRange) (c : ℚ) :
    InRange (.single d c) := by
  intro e counts
  rw [AddMonoidAlgebra.coeff_single, Finsupp.single_apply] at counts
  split at counts
  · next same => exact same ▸ fits
  · exact absurd rfl counts

theorem zero_inRange : InRange 0 := fun _ counts => absurd rfl counts

theorem constant_inRange (c : ℚ) : InRange (constant c) := single_inRange Exponents.zero_inRange c

end LaurentRing

open LaurentRing

theorem Power.gathers_wrapped :
    GathersBy Power.hasSymbolOf Power.combineWrapped fun p : Power => p.entry.1 where
  alike_iff _ _ := beq_iff_eq
  key_combine _ _ := rfl

namespace Monomial

section Wrapped

variable (m : Monomial)

/-- The powers multiplied out in words, before zero degrees are dropped. -/
def gatheredWords : List Power :=
  gather Power.hasSymbolOf Power.combineWrapped (m.powers.map Power.wrap)

theorem powers_wrapped_perm :
    m.wrapped.powers.Perm (m.gatheredWords.filter (·.degree != 0)) := sortBy_perm _

theorem wrapped_normal : m.wrapped.Normal :=
  normal_of_gathered Power.gathers_wrapped (m.powers.map Power.wrap) m.coefficient.reduce_lowestTerms

theorem degreeInRange_of_mem_wrapped {p : Power} (member : p ∈ m.wrapped.powers) :
    DegreeInRange p.degree := by
  -- a sum is wrapped when it is formed, and a power without a partner was wrapped before
  have gathered : ∀ q ∈ m.gatheredWords, DegreeInRange q.degree := by
    refine forall_mem_gather (P := fun q : Power => DegreeInRange q.degree)
      (fun _ _ _ _ => wrapDegree_inRange _) ?_
    rintro _ listed
    obtain ⟨q, -, rfl⟩ := List.mem_map.mp listed
    exact wrapDegree_inRange _
  exact gathered p (List.mem_of_mem_filter (m.powers_wrapped_perm.mem_iff.mp member))

theorem exponents_wrapped_inRange : m.wrapped.exponents.InRange := by
  intro s
  by_cases zero : m.wrapped.exponents s = 0
  · exact zero ▸ zero_inRange
  · exact m.degreeInRange_of_mem_wrapped
      ((m.wrapped_normal.mem_powers_iff ⟨s, m.wrapped.exponents s⟩).mpr ⟨rfl, zero⟩)

theorem words_exponents (powers : List Power) :
    Exponents.words (Tally.total (powers.map Power.entry)) =
      (powers.map fun p => Finsupp.single p.symbol (p.degree : BitVec 64)).sum := by
  rw [Tally.total_map, map_list_sum, List.map_map]
  congr 2
  exact funext fun p => Exponents.words_single p.symbol p.degree

/-- Multiplying out in words keeps the word of every degree. -/
theorem words_wrapped : m.wrapped.exponents.words = m.exponents.words := by
  have gathered : (m.gatheredWords.map fun p => Finsupp.single p.symbol (p.degree : BitVec 64)).sum =
      ((m.powers.map Power.wrap).map fun p =>
        Finsupp.single p.symbol (p.degree : BitVec 64)).sum := by
    apply sum_gather
    intro p q alike
    have symbols : p.symbol = q.symbol := beq_iff_eq.mp alike
    simp [Power.combineWrapped, Power.wrap, Power.combine, symbols, ← Finsupp.single_add]
  have dropped : ∀ p ∈ m.gatheredWords, (p.degree != 0) = false → p.entry.2 = 0 :=
    fun p _ h => bne_eq_false_iff_eq.mp h
  rw [exponents, Tally.total_perm (m.powers_wrapped_perm.map _), Tally.total_filter dropped,
    words_exponents, gathered, exponents, words_exponents, List.map_map]
  simp [Function.comp_def, Power.wrap]

theorem residue_wrapped : residue m.wrapped.polynomial = residue m.polynomial := by
  rw [polynomial, residue_single, words_wrapped, wrapped, Ratio.value_reduce, polynomial,
    residue_single]

theorem wrapped_normalize : m.normalize.wrapped = m.wrapped := by
  refine m.normalize.wrapped_normal.eq_of_exponents_eq m.wrapped_normal ?_ ?_
  · apply m.normalize.exponents_wrapped_inRange.eq_of_words_eq m.exponents_wrapped_inRange
    rw [words_wrapped, exponents_normalize, words_wrapped]
  · simp [wrapped, normalize]

end Wrapped

/-- No degree of the normal form leaves the range of words. -/
def InRange (m : Monomial) : Prop := ∀ p ∈ m.normalize.powers, DegreeInRange p.degree

instance (m : Monomial) : Decidable m.InRange := inferInstanceAs (Decidable (∀ _ ∈ _, _))

theorem inRange_iff (m : Monomial) : m.InRange ↔ m.exponents.InRange := by
  constructor
  · intro fits s
    by_cases zero : m.exponents s = 0
    · exact zero ▸ zero_inRange
    · refine fits ⟨s, m.exponents s⟩ ((m.normal_normalize.mem_powers_iff _).mpr ⟨?_, zero⟩)
      rw [exponents_normalize]
  · intro fits p member
    obtain ⟨degree, -⟩ := (m.normal_normalize.mem_powers_iff p).mp member
    rw [← degree, exponents_normalize]
    exact fits p.symbol

theorem wrapped_eq {m : Monomial} (fits : m.InRange) : m.wrapped = m.normalize := by
  refine m.wrapped_normal.eq_of_exponents_eq m.normal_normalize ?_ rfl
  rw [exponents_normalize]
  exact m.exponents_wrapped_inRange.eq_of_words_eq (m.inRange_iff.mp fits) m.words_wrapped

end Monomial

namespace Laurent

/-- No degree of the normal form leaves the range of words. -/
def InRange (e : Laurent) : Prop := ∀ m ∈ e.normalize.terms, m.InRange

instance (e : Laurent) : Decidable e.InRange := inferInstanceAs (Decidable (∀ _ ∈ _, _))

theorem inRange_iff (e : Laurent) : e.InRange ↔ e.polynomial.InRange := by
  constructor
  · intro fits d counts
    by_cases zero : d = 0
    · exact zero ▸ Exponents.zero_inRange
    · obtain ⟨m, member, rfl⟩ := exists_term_of_coeff_ne_zero zero counts
      exact m.inRange_iff.mp (fits m member)
  · exact fun fits m member => m.inRange_iff.mpr (fits _ (coeff_ne_zero_of_mem_normalize member))

theorem inRange_normalize (e : Laurent) : e.normalize.InRange ↔ e.InRange := by
  rw [inRange_iff, polynomial_normalize, ← inRange_iff]

section Wrapped

variable (e : Laurent)

theorem termsPolynomial_inRange {terms : List Monomial}
    (fits : ∀ m ∈ terms, m.exponents.InRange) : (termsPolynomial terms).InRange := by
  induction terms with
  | nil => exact LaurentRing.zero_inRange
  | cons m rest ih =>
    obtain ⟨first, others⟩ := List.forall_mem_cons.mp fits
    rw [termsPolynomial_cons]
    exact (single_inRange first _).add (ih others)

theorem residue_termsPolynomial (terms : List Monomial) :
    residue (termsPolynomial (terms.map (·.wrapped))) = residue (termsPolynomial terms) := by
  induction terms with
  | nil => rfl
  | cons m rest ih =>
    rw [List.map_cons, termsPolynomial_cons, map_add, ih, Monomial.residue_wrapped,
      termsPolynomial_cons, map_add]

@[simp] theorem residue_wrapTerms : residue e.wrapTerms.polynomial = residue e.polynomial := by
  rw [polynomial, wrapTerms, map_add, residue_termsPolynomial, ← map_add, polynomial]

theorem wrapTerms_inRange : e.wrapTerms.polynomial.InRange := by
  refine (termsPolynomial_inRange ?_).add (constant_inRange _)
  intro _ member
  obtain ⟨m, -, rfl⟩ := List.mem_map.mp member
  exact m.exponents_wrapped_inRange

theorem wrapped_normal : e.wrapped.Normal := normalize_normal _

theorem wrapped_inRange : e.wrapped.polynomial.InRange := by
  rw [wrapped, polynomial_normalize]
  exact e.wrapTerms_inRange

@[simp] theorem residue_wrapped : residue e.wrapped.polynomial = residue e.polynomial := by
  rw [wrapped, polynomial_normalize, residue_wrapTerms]

end Wrapped

section Agreement

variable {e f : Laurent}

theorem polynomial_wrapped_of_residue {p : LaurentRing} (fits : p.InRange)
    (same : residue e.polynomial = residue p) : e.wrapped.polynomial = p :=
  e.wrapped_inRange.eq_of_residue_eq fits (e.residue_wrapped.trans same)

theorem polynomial_wrapTerms_eq (same : residue e.polynomial = residue f.polynomial) :
    e.wrapTerms.polynomial = f.wrapTerms.polynomial := by
  apply e.wrapTerms_inRange.eq_of_residue_eq f.wrapTerms_inRange
  rw [residue_wrapTerms, residue_wrapTerms, same]

/-- Normal forms in words agree exactly when the degrees agree as words. -/
theorem wrapped_eq_iff : e.wrapped = f.wrapped ↔ residue e.polynomial = residue f.polynomial := by
  constructor
  · intro same
    rw [← e.residue_wrapped, same, f.residue_wrapped]
  · intro same
    apply e.wrapped_normal.eq_of_polynomial_eq f.wrapped_normal
    exact polynomial_wrapped_of_residue f.wrapped_inRange (same.trans f.residue_wrapped.symm)

/-- A normal form in range is the normal form in words of everything with its words. -/
theorem wrapped_eq_of_residue (same : residue e.polynomial = residue f.polynomial)
    (fits : f.InRange) : e.wrapped = f.normalize := by
  apply e.wrapped_normal.eq_of_polynomial_eq f.normalize_normal
  rw [polynomial_normalize]
  exact polynomial_wrapped_of_residue (f.inRange_iff.mp fits) same

theorem wrapped_eq (fits : e.InRange) : e.wrapped = e.normalize := wrapped_eq_of_residue rfl fits

@[simp] theorem wrapped_wrapped (e : Laurent) : e.wrapped.wrapped = e.wrapped :=
  wrapped_eq_iff.mpr e.residue_wrapped

theorem wrapped_wrapTerms (e : Laurent) : e.wrapTerms.wrapped = e.wrapped :=
  wrapped_eq_iff.mpr e.residue_wrapTerms

theorem wrapped_normalize (e : Laurent) : e.normalize.wrapped = e.wrapped :=
  wrapped_eq_iff.mpr (congrArg residue e.polynomial_normalize)

end Agreement

end Laurent

end ExactAlgebra
