import ExactAlgebra.Proofs.Content
import ExactAlgebra.Proofs.Monomials

/-!
Reduction of quotients. Both sides are divided by the greatest monomial that divides every term of
them; the quotient stays the same fraction, and what is left has no common factor but one. The
greatest factor of a multiple is the multiple of the greatest factor, so reducing again changes
nothing and a monomial that was multiplied into both sides cancels.
-/
namespace ExactAlgebra

open LaurentRing

namespace Monomial

/-- What division by a monomial multiplies with. -/
noncomputable def inverse (n : Monomial) : LaurentRing :=
  .single (-n.exponents) n.coefficient.value⁻¹

theorem div?_multiplies {n : Monomial} (nonzero : n.coefficient.value ≠ 0) (m : Monomial) :
    ∃ k, m.div? n = some k ∧ k.polynomial = m.polynomial * n.inverse := by
  refine ⟨m.quotient n, m.div?_of_ne_zero n nonzero, ?_⟩
  rw [polynomial, exponents_quotient, value_quotient, polynomial, inverse,
    AddMonoidAlgebra.single_mul_single, sub_eq_add_neg, div_eq_mul_inv]

theorem polynomial_ofRatio (r : Ratio) : (ofRatio r).polynomial = constant r.value := by
  rw [polynomial, ofRatio, Ratio.value_reduce]
  rfl

theorem degreeOf_nonneg {m : Monomial} (powers : ∀ p ∈ m.powers, 0 ≤ p.degree) (s : String) :
    0 ≤ m.degreeOf s :=
  List.foldrRecOn (motive := (0 ≤ ·)) _ _ le_rfl
    fun _ total p hp => add_nonneg (powers p (List.mem_of_mem_filter hp)) total

theorem ofRatio_normal (r : Ratio) : (ofRatio r).Normal :=
  ⟨.nil, List.nodup_nil, nofun, r.reduce_lowestTerms⟩

theorem entries_append (ms more : List Monomial) :
    entries (ms ++ more) = entries ms ∪ entries more := by
  ext t
  simp only [entries, List.mem_append, or_and_right, exists_or, Set.mem_ofPred_eq, Set.mem_union]

end Monomial

namespace LaurentRing

/-- The exponents and the coefficients of the terms of a polynomial. -/
def terms (n : LaurentRing) : Set (Exponents × ℚ) := {t | n.coeff t.1 = t.2 ∧ t.2 ≠ 0}

theorem mem_terms_iff {n : LaurentRing} {d : Exponents} {c : ℚ} :
    (d, c) ∈ n.terms ↔ n.coeff d = c ∧ c ≠ 0 := Iff.rfl

theorem terms_nonempty {n : LaurentRing} (nonzero : n ≠ 0) : n.terms.Nonempty := by
  by_contra! empty
  apply nonzero
  ext d
  by_contra counts
  have member : (d, n.coeff d) ∈ n.terms := ⟨rfl, counts⟩
  rw [empty] at member
  exact member

theorem terms_mul_single (n : LaurentRing) (e : Exponents) {r : ℚ} (nonzero : r ≠ 0) :
    (n * .single e r).terms = (fun t => (t.1 + e, t.2 * r)) '' n.terms := by
  ext ⟨d, c⟩
  rw [mem_terms_iff, AddMonoidAlgebra.coeff_mul_single_apply, ← sub_eq_add_neg]
  constructor
  · rintro ⟨rfl, counts⟩
    have counted : n.coeff (d - e) ≠ 0 := fun zero => counts (by rw [zero, zero_mul])
    exact ⟨(d - e, n.coeff (d - e)), ⟨rfl, counted⟩, Prod.ext (sub_add_cancel d e) rfl⟩
  · rintro ⟨⟨d, c⟩, member, same⟩
    obtain ⟨coeff, counts⟩ := mem_terms_iff.mp member
    cases same
    rw [add_sub_cancel_right, coeff]
    exact ⟨rfl, mul_ne_zero counts nonzero⟩

end LaurentRing

namespace Laurent

variable {e : Laurent}

section Division

/-- The constant divided by a monomial, as a list of at most one term. -/
theorem constant_div?_of_ne_zero (r : Ratio) {n : Monomial} (nonzero : n.coefficient.value ≠ 0) :
    ∃ last, (if r.isZero then some [] else ((Monomial.ofRatio r).div? n).map fun k => [k]) =
        some last ∧ termsPolynomial last = .constant r.value * n.inverse := by
  split
  · next zero =>
    rw [Ratio.isZero_iff] at zero
    exact ⟨[], rfl, by simp [zero]⟩
  · obtain ⟨k, divided, quotient⟩ := Monomial.div?_multiplies nonzero (.ofRatio r)
    refine ⟨[k], by rw [divided, Option.map_some], ?_⟩
    rw [termsPolynomial_cons, termsPolynomial_nil, add_zero, quotient, Monomial.polynomial_ofRatio]

/-- A monomial other than zero divides every expression. -/
theorem divMonomial?_of_ne_zero (e : Laurent) {n : Monomial} (nonzero : n.coefficient.value ≠ 0) :
    ∃ f, e.divMonomial? n = some f ∧ f.polynomial = e.polynomial * n.inverse := by
  obtain ⟨more, terms, quotients⟩ := mapM_multiplies (Monomial.div?_multiplies nonzero) e.terms
  obtain ⟨last, rest, quotient⟩ := constant_div?_of_ne_zero e.constant nonzero
  refine ⟨normalize ⟨more ++ last, .zero⟩, ?_, ?_⟩
  · rw [divMonomial?, terms]
    split at rest
    · next zero =>
      cases rest
      simp only [Option.bind_eq_bind, Option.bind_some, if_pos zero]
    · next zero => simp only [Option.bind_eq_bind, Option.bind_some, if_neg zero, rest]
  · rw [polynomial_normalize, polynomial, termsPolynomial_append, quotients, quotient,
      Ratio.value_zero, constant_zero, add_zero, ← add_mul, ← polynomial]

end Division

section Terms

theorem Normal.monomials_eq (normal : e.Normal) : e.monomials =
    e.terms ++ if e.constant.isZero then [] else [.ofRatio e.constant] := by
  rw [monomials, List.map_congr_left fun m hm => (normal.terms m hm).1.normalize_eq, List.map_id']

theorem Normal.normal_of_mem_monomials (normal : e.Normal) {m : Monomial}
    (member : m ∈ e.monomials) : m.Normal := by
  rw [normal.monomials_eq] at member
  rcases List.mem_append.mp member with term | member
  · exact (normal.terms m term).1
  · split at member
    · cases member
    · rw [List.mem_singleton.mp member]
      exact Monomial.ofRatio_normal e.constant

/-- The monomials of a normal form are the terms of its polynomial. -/
theorem Normal.entries_monomials (normal : e.Normal) :
    Monomial.entries e.monomials = e.polynomial.terms := by
  have last : (Monomial.ofRatio e.constant).coefficient.value = e.polynomial.coeff 0 := by
    rw [normal.coeff_zero, Monomial.ofRatio, Ratio.value_reduce]
  ext ⟨d, c⟩
  rw [Monomial.entries, normal.monomials_eq]
  constructor
  · rintro ⟨m, member, same⟩
    cases same
    rcases List.mem_append.mp member with term | member
    · exact ⟨normal.coeff_of_mem term, (normal.terms m term).2.2⟩
    · split at member
      · cases member
      · next nonzero =>
        rw [List.mem_singleton.mp member]
        rw [Ratio.isZero_iff, ← normal.coeff_zero, ← last] at nonzero
        exact ⟨last.symm, nonzero⟩
  · rintro ⟨coeff, nonzero⟩
    dsimp only at coeff nonzero
    -- the constant stands apart from the terms, and no term has its exponents
    by_cases constant : d = 0
    · subst constant
      have kept : ¬ e.constant.isZero = true := by
        rwa [Ratio.isZero_iff, ← normal.coeff_zero, coeff]
      refine ⟨.ofRatio e.constant, List.mem_append_right _ ?_, Prod.ext rfl (last.trans coeff)⟩
      rw [if_neg kept]
      exact List.mem_singleton_self _
    · obtain ⟨m, term, rfl⟩ := exists_term constant (coeff.trans_ne nonzero)
      exact ⟨m, List.mem_append_left _ term,
        Prod.ext rfl ((normal.coeff_of_mem term).symm.trans coeff)⟩

end Terms

end Laurent

namespace RationalFunction

variable {f g h : RationalFunction} {p q : LaurentRing}

/-- The monomials of both sides. -/
def monomials (f : RationalFunction) : List Monomial :=
  f.numerator.monomials ++ f.denominator.monomials

/-- The terms of both sides. -/
def terms (f : RationalFunction) : Set (Exponents × ℚ) :=
  f.numerator.polynomial.terms ∪ f.denominator.polynomial.terms

theorem Valid.entries_monomials (hf : f.Valid) : Monomial.entries f.monomials = f.terms := by
  rw [monomials, Monomial.entries_append, hf.numerator.entries_monomials,
    hf.denominator.entries_monomials, terms]

theorem Valid.commonFactor (hf : f.Valid) : CommonFactor f.terms
    (Monomial.commonFactor f.monomials).exponents
    (Monomial.commonFactor f.monomials).coefficient.value := by
  rw [← hf.entries_monomials]
  apply Monomial.commonFactor_greatest
  · intro m member
    rcases List.mem_append.mp member with above | below
    · exact hf.numerator.normal_of_mem_monomials above
    · exact hf.denominator.normal_of_mem_monomials below
  · obtain ⟨t, member⟩ := terms_nonempty hf.nonzero
    have entry : t ∈ Monomial.entries f.monomials := by
      rw [hf.entries_monomials]
      exact .inr member
    obtain ⟨m, listed, rfl⟩ := entry
    exact ⟨m, listed, member.2⟩

/-- Both sides are multiplied by a polynomial. -/
structure Expands (f g : RationalFunction) (p : LaurentRing) : Prop where
  numerator : g.numerator.polynomial = f.numerator.polynomial * p
  denominator : g.denominator.polynomial = f.denominator.polynomial * p

namespace Expands

theorem trans (first : f.Expands g p) (second : g.Expands h q) : f.Expands h (p * q) where
  numerator := by rw [second.numerator, first.numerator, mul_assoc]
  denominator := by rw [second.denominator, first.denominator, mul_assoc]

theorem represents (expands : f.Expands g p) :
    g.Represents f.numerator.polynomial f.denominator.polynomial := by
  rw [Represents, expands.numerator, expands.denominator, mul_assoc, mul_comm p]

theorem normalize (expands : f.Expands g p) :
    f.Expands ⟨g.numerator.normalize, g.denominator.normalize⟩ p where
  numerator := by rw [Laurent.polynomial_normalize, expands.numerator]
  denominator := by rw [Laurent.polynomial_normalize, expands.denominator]

/-- Multiples by one polynomial are stored in one way. -/
theorem unique (hg : g.Valid) (hh : h.Valid) (one : f.Expands g p) (other : f.Expands h p) :
    g = h := by
  have numerators := hg.numerator.eq_of_polynomial_eq hh.numerator
    (one.numerator.trans other.numerator.symm)
  have denominators := hg.denominator.eq_of_polynomial_eq hh.denominator
    (one.denominator.trans other.denominator.symm)
  obtain ⟨n, d⟩ := g
  exact congrArg₂ RationalFunction.mk numerators denominators

section Single

variable {e : Exponents} {r : ℚ}

theorem numerator_ne_zero (expands : f.Expands g (.single e r))
    (nonzero : f.numerator.polynomial ≠ 0) (counts : r ≠ 0) : g.numerator.polynomial ≠ 0 := by
  rw [expands.numerator]
  exact mul_ne_zero nonzero (AddMonoidAlgebra.single_ne_zero.mpr counts)

theorem denominator_ne_zero (expands : f.Expands g (.single e r))
    (nonzero : f.denominator.polynomial ≠ 0) (counts : r ≠ 0) : g.denominator.polynomial ≠ 0 := by
  rw [expands.denominator]
  exact mul_ne_zero nonzero (AddMonoidAlgebra.single_ne_zero.mpr counts)

theorem terms (expands : f.Expands g (.single e r)) (nonzero : r ≠ 0) :
    g.terms = (fun t => (t.1 + e, t.2 * r)) '' f.terms := by
  rw [RationalFunction.terms, expands.numerator, expands.denominator, terms_mul_single _ _ nonzero,
    terms_mul_single _ _ nonzero, ← Set.image_union, RationalFunction.terms]

end Single

end Expands

theorem reduce_of_zero (hf : f.Valid) (zero : f.numerator.polynomial = 0) :
    f.reduce = .ok ⟨.zero, .one⟩ :=
  if_pos (hf.numerator.isZero_iff.mpr zero)

/-- Reduction divides both sides by their greatest common factor. -/
theorem reduce_of_ne_zero (hf : f.Valid) (nonzero : f.numerator.polynomial ≠ 0) :
    ∃ g d r, f.reduce = .ok g ∧ g.Valid ∧ CommonFactor f.terms d r ∧
      f.Expands g (.single (-d) r⁻¹) := by
  have factor := hf.commonFactor
  obtain ⟨n, above, numerator⟩ := f.numerator.divMonomial?_of_ne_zero factor.positive.ne'
  obtain ⟨d, below, denominator⟩ := f.denominator.divMonomial?_of_ne_zero factor.positive.ne'
  have divided : f.Expands ⟨n, d⟩ (Monomial.commonFactor f.monomials).inverse :=
    ⟨numerator, denominator⟩
  have valid := divided.denominator_ne_zero hf.nonzero (inv_ne_zero factor.positive.ne')
  have made := quotient_of_ne_zero n valid
  refine ⟨_, _, _, ?_, quotient_valid made, factor, divided.normalize⟩
  rw [reduce, if_neg (mt hf.numerator.isZero_iff.mp nonzero), ← made]
  rw [monomials] at above below
  simp only [above, below, orDivisionByZero]
  rfl

section LowestTerms

/-- The coefficients are integers without a common divisor, and no symbol has a positive degree in
every monomial. -/
structure LowestTerms (f : RationalFunction) : Prop where
  integers : ∀ m ∈ f.monomials, m.coefficient.value.den = 1
  coprime : ∀ k : ℤ, (∀ m ∈ f.monomials, k ∣ m.coefficient.value.num) → IsUnit k
  degrees : ∀ s, ∃ m ∈ f.monomials, m.degreeOf s ≤ 0

theorem Valid.forall_mem_terms (hf : f.Valid) {P : Exponents × ℚ → Prop} :
    (∀ t ∈ f.terms, P t) ↔ ∀ m ∈ f.monomials, P (m.exponents, m.coefficient.value) := by
  rw [← hf.entries_monomials, Monomial.forall_mem_entries]

theorem den_of_one (hf : f.Valid) (factor : CommonFactor f.terms 0 1) {m : Monomial}
    (member : m ∈ f.monomials) : m.coefficient.value.den = 1 := by
  have measured := hf.forall_mem_terms.mp ((factor.content 1).mpr (.refl 1)) m member
  exact Nat.dvd_one.mp ((Measures.iff_parts _ _).mp measured).2

theorem lowestTerms_of_one (hf : f.Valid) (factor : CommonFactor f.terms 0 1) : f.LowestTerms where
  integers _ member := den_of_one hf factor member
  coprime k divides := by
    have measured : ∀ t ∈ f.terms, Measures k t.2 := by
      rw [hf.forall_mem_terms]
      intro m member
      rw [Measures.iff_parts, Rat.num_intCast, den_of_one hf factor member]
      exact ⟨divides m member, one_dvd _⟩
    have unit := ((Measures.iff_parts _ _).mp ((factor.content k).mp measured)).1
    rw [Rat.num_intCast] at unit
    exact isUnit_of_dvd_one unit
  degrees s := by
    by_contra! positive
    have all : ∀ t ∈ f.terms, 1 ≤ t.1 s := by
      rw [hf.forall_mem_terms]
      intro m member
      rw [← Monomial.degreeOf_eq]
      exact positive m member
    exact absurd ((factor.greatest s 1 one_pos).mp all) (by simp)

/-- What has no common factor but one stays as it is. -/
theorem reduce_of_one (hf : f.Valid) (nonzero : f.numerator.polynomial ≠ 0)
    (factor : CommonFactor f.terms 0 1) : f.reduce = .ok f := by
  obtain ⟨g, d, r, reduced, valid, greatest, expands⟩ := reduce_of_ne_zero hf nonzero
  obtain ⟨rfl, rfl⟩ := factor.unique greatest
  have one : (.single (-0) 1⁻¹ : LaurentRing) = 1 := by
    rw [neg_zero, inv_one]
    rfl
  have same : f.Expands f (.single (-0) 1⁻¹) := by
    constructor <;> rw [one, mul_one]
  rw [reduced, expands.unique valid hf same]

/-- A quotient divided by its greatest common factor has none left. -/
theorem Expands.commonFactor {d : Exponents} {r : ℚ} (factor : CommonFactor f.terms d r)
    (expands : f.Expands g (.single (-d) r⁻¹)) : CommonFactor g.terms 0 1 := by
  have rest := factor.shift (e := -d) (inv_pos.mpr factor.positive) ?_ ?_
  · rwa [add_neg_cancel, mul_inv_cancel₀ factor.positive.ne',
      ← expands.terms (inv_ne_zero factor.positive.ne')] at rest
  · intro s raise
    have nonneg := factor.nonneg s
    rw [Finsupp.neg_apply] at raise
    omega
  · intro s
    rw [Finsupp.neg_apply, add_neg_cancel]

end LowestTerms

section Cancellation

variable {t : Monomial}

theorem exists_quotient_mul (hf : f.Valid) (nonzero : t.coefficient.value ≠ 0) :
    ∃ h, (f.numerator.mul (.ofMonomial t)).quotient (f.denominator.mul (.ofMonomial t)) = .ok h ∧
      h.Valid ∧ f.Expands h t.polynomial := by
  have product (e : Laurent) :
      (e.mul (.ofMonomial t)).polynomial = e.polynomial * t.polynomial := by
    rw [Laurent.polynomial_mul, Laurent.polynomial_ofMonomial]
  have multiplied : f.Expands ⟨f.numerator.mul (.ofMonomial t), f.denominator.mul (.ofMonomial t)⟩
      t.polynomial := ⟨product _, product _⟩
  have valid := multiplied.denominator_ne_zero hf.nonzero nonzero
  have made := quotient_of_ne_zero (f.numerator.mul (.ofMonomial t)) valid
  exact ⟨_, made, quotient_valid made, multiplied.normalize⟩

/-- A monomial that was multiplied into both sides cancels. -/
theorem Expands.reduce_eq (hf : f.Valid) (hh : h.Valid) (expands : f.Expands h t.polynomial)
    (positive : 0 < t.coefficient.value) (raises : ∀ s, 0 ≤ t.exponents s)
    (degrees : ∀ s, ∀ u ∈ f.terms, 0 ≤ u.1 s) : h.reduce = f.reduce := by
  by_cases zero : f.numerator.polynomial = 0
  · rw [reduce_of_zero hf zero, reduce_of_zero hh (by rw [expands.numerator, zero, zero_mul])]
  · obtain ⟨g, d, r, reduced, valid, factor, divided⟩ := reduce_of_ne_zero hf zero
    have nonzero := expands.numerator_ne_zero zero positive.ne'
    obtain ⟨i, e, q, again, valid', factor', divided'⟩ := reduce_of_ne_zero hh nonzero
    -- the greatest factor of the multiple is the multiple of the greatest factor
    have multiple := factor.shift positive (fun s _ => degrees s)
      fun s => add_nonneg (factor.nonneg s) (raises s)
    rw [← expands.terms positive.ne'] at multiple
    obtain ⟨rfl, rfl⟩ := multiple.unique factor'
    have cancelled : t.polynomial * .single (-(d + t.exponents)) (r * t.coefficient.value)⁻¹ =
        .single (-d) r⁻¹ := by
      rw [Monomial.polynomial, AddMonoidAlgebra.single_mul_single]
      congr 1
      · abel
      · have := positive.ne'
        have := factor.positive.ne'
        field_simp
    have both := expands.trans divided'
    rw [cancelled] at both
    rw [again, reduced, both.unique valid' valid divided]

end Cancellation

/-- What reduction makes of a quotient. -/
structure Reduces (f g : RationalFunction) : Prop where
  represents : g.Represents f.numerator.polynomial f.denominator.polynomial
  again : g.reduce = .ok g
  lowest : f.numerator.polynomial ≠ 0 → g.LowestTerms
  cancels : (∀ m ∈ f.monomials, ∀ s, 0 ≤ m.degreeOf s) →
    ∀ t : Monomial, 0 < t.coefficient.value → (∀ s, 0 ≤ t.degreeOf s) →
      ∃ h, (f.numerator.mul (.ofMonomial t)).quotient (f.denominator.mul (.ofMonomial t)) = .ok h ∧
        h.reduce = .ok g

/-- Reduction always succeeds, keeps the fraction, leaves nothing to reduce, and ends in lowest
terms; what both sides were multiplied with does not show. -/
theorem reduce_to_lowest_terms (hf : f.Valid) : ∃ g, f.reduce = .ok g ∧ f.Reduces g := by
  have cancels {g : RationalFunction} (reduced : f.reduce = .ok g)
      (degrees : ∀ m ∈ f.monomials, ∀ s, 0 ≤ m.degreeOf s) (t : Monomial)
      (positive : 0 < t.coefficient.value) (raises : ∀ s, 0 ≤ t.degreeOf s) :
      ∃ h, (f.numerator.mul (.ofMonomial t)).quotient (f.denominator.mul (.ofMonomial t)) = .ok h ∧
        h.reduce = .ok g := by
    obtain ⟨h, made, valid, expands⟩ := exists_quotient_mul (t := t) hf positive.ne'
    refine ⟨h, made, (expands.reduce_eq hf valid positive ?_ ?_).trans reduced⟩
    · exact fun s => t.degreeOf_eq s ▸ raises s
    · intro s
      rw [hf.forall_mem_terms]
      exact fun m member => m.degreeOf_eq s ▸ degrees m member s
  by_cases zero : f.numerator.polynomial = 0
  · have reduced := reduce_of_zero hf zero
    refine ⟨_, reduced, ?_, rfl, absurd zero, cancels reduced⟩
    rw [Represents, zero, Laurent.polynomial_zero, zero_mul, zero_mul]
  · obtain ⟨g, d, r, reduced, valid, factor, expands⟩ := reduce_of_ne_zero hf zero
    have left := expands.commonFactor factor
    have nonzero := expands.numerator_ne_zero zero (inv_ne_zero factor.positive.ne')
    exact ⟨g, reduced, expands.represents, reduce_of_one valid nonzero left,
      fun _ => lowestTerms_of_one valid left, cancels reduced⟩

end RationalFunction

end ExactAlgebra
