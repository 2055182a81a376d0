import ExactAlgebra.Proofs.Reduction
import ExactAlgebra.Proofs.RationalFunctions
import ExactAlgebra.Proofs.WordEvaluation
import ExactAlgebra.Wrapping.Fractions

/-!
Quotients of expressions with degrees of 64 bits. An operation whose result with unbounded degrees
is in range stores that result, so the quotients that such operations build are fractions with a
denominator other than zero. Reduction lowers degrees only and never leaves the range, but a
product may: two denominators may multiply to the zero expression, and a monomial that was
multiplied into both sides need not cancel.
-/
namespace ExactAlgebra

open LaurentRing

/-- No degree on either side leaves the range of words. -/
def RationalFunction.InRange (f : RationalFunction) : Prop :=
  f.numerator.InRange ∧ f.denominator.InRange

instance (f : RationalFunction) : Decidable f.InRange := inferInstanceAs (Decidable (_ ∧ _))

/-- What a common factor leaves of a polynomial in range is in range: degrees are lowered only where
all of them are positive. -/
theorem CommonFactor.mul_inRange {p : LaurentRing} {ts : Set (Exponents × ℚ)} {d : Exponents}
    {q : ℚ} (factor : CommonFactor ts d q) (among : p.terms ⊆ ts) (fits : p.InRange) (r : ℚ) :
    (p * .single (-d) r).InRange := by
  intro e counts s
  rw [AddMonoidAlgebra.coeff_mul_single_apply, neg_neg] at counts
  have occurs : p.coeff (e + d) ≠ 0 := left_ne_zero_of_mul counts
  have range := fits _ occurs s
  have nonneg := factor.nonneg s
  rw [Finsupp.add_apply] at range
  rcases nonneg.eq_or_lt with zero | positive
  · rwa [← zero, add_zero] at range
  -- a positive least degree is taken off degrees that are at least as great
  · have least := (factor.greatest s (d s) positive).mpr le_rfl (e + d, _) (among ⟨rfl, occurs⟩)
    rw [Finsupp.add_apply] at least
    obtain ⟨low, high⟩ := range
    constructor <;> omega

namespace Wrapping

section Stored

variable {e e' d : Laurent} {f g h : RationalFunction} {b : Bindings}

theorem mul_ofMonomial_eq {t : Monomial} (fits : (e.mul (.ofMonomial t)).InRange) :
    mul e (ofMonomial t) = e.mul (.ofMonomial t) := by
  refine Laurent.wrapped_eq_of_residue ?_ ((Laurent.inRange_normalize _).mp fits)
  rw [Laurent.polynomial_mulRaw, Laurent.polynomial_mulRaw, map_mul, map_mul, ofMonomial,
    Laurent.residue_wrapped, Laurent.polynomial_of_term, Laurent.polynomial_ofMonomial]

/-- Products inside a sum may wrap when the sum does not. -/
theorem add_mul_eq {a c : Laurent} (fits : ((e.mul d).add (a.mul c)).InRange) :
    add (mul e d) (mul a c) = (e.mul d).add (a.mul c) := by
  refine Laurent.wrapped_eq_of_residue ?_ ((Laurent.inRange_normalize _).mp fits)
  simp only [Laurent.polynomial_addRaw, map_add, residue_mul, Laurent.polynomial_mul, map_mul]

theorem quotient_eq (above : e.InRange) (below : d.InRange) : quotient e d = e.quotient d := by
  rw [quotient, Laurent.wrapped_eq above, Laurent.wrapped_eq below, Laurent.quotient]

theorem addFractions_eq (fits : (f.add g).InRange) : addFractions f g = f.add g := by
  unfold addFractions
  unfold RationalFunction.add at fits ⊢
  split
  · next same =>
    rw [if_pos same] at fits
    rw [add_eq fits.1]
  · next different =>
    rw [if_neg different] at fits
    rw [add_mul_eq fits.1, mul_eq fits.2]

theorem mulFractions_eq (fits : (f.mul g).InRange) : mulFractions f g = f.mul g := by
  rw [mulFractions, mul_eq fits.1, mul_eq fits.2, RationalFunction.mul]

theorem inv_eq (fits : f.InRange) : inv f = f.inv := quotient_eq fits.2 fits.1

theorem divFractions_eq (hg : g.InRange) (fits : ∀ k, f.div g = .ok k → k.InRange) :
    divFractions f g = f.div g := by
  unfold divFractions
  unfold RationalFunction.div at fits ⊢
  rw [inv_eq hg]
  cases inverse : g.inv with
  | error => rfl
  | ok i =>
    rw [inverse] at fits
    exact congrArg Except.ok (mulFractions_eq (fits _ rfl))

theorem toLaurent?_eq (fits : f.InRange) : toLaurent? f = f.toLaurent? := by
  have number : scalar? (.laurent f.denominator) = f.denominator.constantValue? :=
    scalar?_eq (o := .laurent f.denominator) fits.2
  unfold toLaurent? RationalFunction.toLaurent?
  rw [number]
  cases f.denominator.constantValue? with
  | none => rfl
  | some r =>
    dsimp only
    by_cases zero : r.value = 0
    · rw [Laurent.divRatio?_of_zero zero]
      rfl
    · obtain ⟨q, divided, quotient⟩ := Laurent.divRatio?_of_ne_zero (e := f.numerator) zero
      have range : q.InRange := by
        rw [Laurent.inRange_iff, quotient]
        exact mul_constant_inRange ((Laurent.inRange_iff _).mp fits.1) _
      rw [divided, Option.map_some, Option.map_some, Laurent.wrapped_eq range]

end Stored

section Reduction

variable {f g h : RationalFunction}

theorem divideMonomial?_eq (m n : Monomial) :
    divideMonomial? m n = (m.div? n).map Monomial.wrapped := by
  rw [divideMonomial?, Monomial.div?, Option.map_map]
  congr 1
  exact funext fun c => (Monomial.wrapped_normalize _).symm

theorem mapM_wrapped (answer : Monomial → Option Monomial) (terms : List Monomial) :
    terms.mapM (fun m => (answer m).map Monomial.wrapped) =
      (terms.mapM answer).map (List.map Monomial.wrapped) := by
  induction terms with
  | nil => rfl
  | cons m rest ih =>
    rw [List.mapM_cons, List.mapM_cons, ih]
    cases answer m with
    | none => rfl
    | some k => cases rest.mapM answer <;> rfl

/-- Division by a monomial is the one with unbounded degrees, wrapped at the end. -/
theorem divMonomial?_eq (e : Laurent) (n : Monomial) :
    divMonomial? e n = (e.divMonomial? n).map Laurent.wrapped := by
  have together (terms last : List Monomial) :
      Laurent.wrapped ⟨terms.map Monomial.wrapped ++ last.map Monomial.wrapped, .zero⟩ =
        (Laurent.normalize ⟨terms ++ last, .zero⟩).wrapped := by
    rw [Laurent.wrapped_normalize, ← Laurent.wrapped_wrapTerms ⟨terms ++ last, .zero⟩,
      Laurent.wrapTerms, List.map_append]
  simp only [divMonomial?, Laurent.divMonomial?, divideMonomial?_eq, mapM_wrapped]
  cases e.terms.mapM (·.div? n) with
  | none => rfl
  | some terms =>
    split
    · exact congrArg some (together terms [])
    · cases (Monomial.ofRatio e.constant).div? n with
      | none => rfl
      | some k => exact congrArg some (together terms [k])

/-- Reduction of a quotient in range is the one with unbounded degrees. -/
theorem reduce_eq (hf : f.Valid) (fits : f.InRange) : reduce f = f.reduce := by
  have factor := hf.commonFactor
  obtain ⟨n, above, numerator⟩ := f.numerator.divMonomial?_of_ne_zero factor.positive.ne'
  obtain ⟨d, below, denominator⟩ := f.denominator.divMonomial?_of_ne_zero factor.positive.ne'
  have hn : n.InRange := by
    rw [Laurent.inRange_iff, numerator]
    exact factor.mul_inRange Set.subset_union_left ((Laurent.inRange_iff _).mp fits.1) _
  have hd : d.InRange := by
    rw [Laurent.inRange_iff, denominator]
    exact factor.mul_inRange Set.subset_union_right ((Laurent.inRange_iff _).mp fits.2) _
  -- the two reductions end in one check, of sides that were wrapped before and of sides that were not
  have final : quotient n.wrapped d.wrapped = n.quotient d := by
    rw [← quotient_eq hn hd, quotient, n.wrapped_wrapped, d.wrapped_wrapped, quotient]
  rw [RationalFunction.monomials] at above below
  simp only [reduce, RationalFunction.reduce, divMonomial?_eq, above, below, Option.map_some,
    orDivisionByZero]
  exact if_congr Iff.rfl rfl final

end Reduction

section Building

/-- A quotient as it is stored: both sides in normal form and in range, and a denominator other than
zero. -/
structure Stored (f : RationalFunction) : Prop where
  valid : f.Valid
  range : f.InRange

/-- Quotients that operations in words build, starting from expressions, where no unchecked result
with unbounded degrees leaves the range. -/
inductive Built : RationalFunction → Prop
  | ofLaurent (e : Laurent) : Built (ofLaurent e)
  | quotient {e d : Laurent} {f : RationalFunction} (made : quotient e d = .ok f) : Built f
  | add {f g : RationalFunction} (hf : Built f) (hg : Built g) (fits : (f.add g).InRange) :
    Built (addFractions f g)
  | sub {f g : RationalFunction} (hf : Built f) (hg : Built g) (fits : (f.sub g).InRange) :
    Built (subFractions f g)
  | mul {f g : RationalFunction} (hf : Built f) (hg : Built g) (fits : (f.mul g).InRange) :
    Built (mulFractions f g)
  | div {f g h : RationalFunction} (hf : Built f) (hg : Built g)
    (fits : ∀ k, f.div g = .ok k → k.InRange) (made : divFractions f g = .ok h) : Built h
  | inv {f h : RationalFunction} (hf : Built f) (made : inv f = .ok h) : Built h
  | neg {f : RationalFunction} (hf : Built f) : Built f.neg
  | substitute {f h : RationalFunction} (hf : Built f) (b : Bindings)
    (made : substituteFraction b f = .ok h) : Built h
  | reduce {f h : RationalFunction} (hf : Built f) (made : reduce f = .ok h) : Built h

variable {f g h : RationalFunction} {e d : Laurent} {b : Bindings}

theorem wrapped_inRange (e : Laurent) : e.wrapped.InRange := e.wrapped.inRange_iff.mpr e.wrapped_inRange

/-- What is checked is stored, also where degrees wrap. -/
theorem quotient_stored (made : quotient e d = .ok f) : Stored f := by
  unfold quotient at made
  split at made
  · cases made
  · next nonzero =>
    cases made
    rw [d.wrapped_normal.isZero_iff] at nonzero
    exact ⟨⟨e.wrapped_normal, d.wrapped_normal, nonzero⟩, wrapped_inRange e, wrapped_inRange d⟩

theorem ofLaurent_stored (e : Laurent) : Stored (ofLaurent e) where
  valid := by
    refine ⟨e.wrapped_normal, Laurent.const_normal _, ?_⟩
    change Laurent.one.polynomial ≠ 0
    rw [Laurent.polynomial_one]
    exact one_ne_zero
  range := by
    have one : Laurent.one.InRange := by decide
    exact ⟨wrapped_inRange e, one⟩

theorem Stored.neg (hf : Stored f) : Stored f.neg where
  valid := hf.valid.neg
  range := by
    refine ⟨?_, hf.range.2⟩
    rw [Laurent.inRange_iff, RationalFunction.neg, Laurent.polynomial_neg]
    exact ((Laurent.inRange_iff _).mp hf.range.1).neg

theorem reduce_stored (made : reduce f = .ok g) : Stored g := by
  unfold reduce at made
  split at made
  · cases made
    exact ofLaurent_stored .zero
  · obtain ⟨n, -, made⟩ := exists_of_bind made
    obtain ⟨d, -, made⟩ := exists_of_bind made
    exact quotient_stored made

theorem Built.stored (built : Built f) : Stored f := by
  induction built with
  | ofLaurent e => exact ofLaurent_stored e
  | quotient made => exact quotient_stored made
  | add _ _ fits hf hg =>
    rw [addFractions_eq fits]
    exact ⟨hf.valid.add hg.valid, fits⟩
  | sub _ _ fits hf hg =>
    rw [subFractions, addFractions_eq fits]
    exact ⟨hf.valid.sub hg.valid, fits⟩
  | mul _ _ fits hf hg =>
    rw [mulFractions_eq fits]
    exact ⟨hf.valid.mul hg.valid, fits⟩
  | div _ _ fits made hf hg =>
    rw [divFractions_eq hg.range fits] at made
    exact ⟨hf.valid.of_div made, fits _ made⟩
  | inv _ made _ => exact quotient_stored made
  | neg _ hf => exact hf.neg
  | substitute _ b made _ =>
    obtain ⟨n, -, made⟩ := exists_of_bind made
    obtain ⟨d, -, made⟩ := exists_of_bind made
    exact quotient_stored made
  | reduce _ made _ => exact reduce_stored made

end Building

section Fractions

variable {f g : RationalFunction}

/-- What the operations in words give of two quotients, as fractions as long as no unchecked result
leaves the range, and when they give nothing. -/
structure OperatesOnFractions (f g : RationalFunction) : Prop where
  add : (f.add g).InRange → (addFractions f g).Represents
    (f.numerator.polynomial * g.denominator.polynomial +
      g.numerator.polynomial * f.denominator.polynomial)
    (f.denominator.polynomial * g.denominator.polynomial)
  add_same : f.denominator.polynomial = g.denominator.polynomial →
    addFractions f g = ⟨Wrapping.add f.numerator g.numerator, f.denominator⟩
  add_different : f.denominator.polynomial ≠ g.denominator.polynomial →
    addFractions f g = ⟨Wrapping.add (Wrapping.mul f.numerator g.denominator)
      (Wrapping.mul g.numerator f.denominator), Wrapping.mul f.denominator g.denominator⟩
  sub : (f.sub g).InRange → (subFractions f g).Represents
    (f.numerator.polynomial * g.denominator.polynomial -
      g.numerator.polynomial * f.denominator.polynomial)
    (f.denominator.polynomial * g.denominator.polynomial)
  mul : (f.mul g).InRange → (mulFractions f g).Represents
    (f.numerator.polynomial * g.numerator.polynomial)
    (f.denominator.polynomial * g.denominator.polynomial)
  div : (∀ k, f.div g = .ok k → k.InRange) → ∀ h, divFractions f g = .ok h → h.Represents
    (f.numerator.polynomial * g.denominator.polynomial)
    (f.denominator.polynomial * g.numerator.polynomial)
  div_fails : ∀ failure, divFractions f g = .error failure ↔
    failure = .divisionByZero ∧ g.numerator.polynomial = 0
  inv : ∀ h, Wrapping.inv g = .ok h → h.Represents g.denominator.polynomial g.numerator.polynomial
  inv_fails : ∀ failure, Wrapping.inv g = .error failure ↔
    failure = .divisionByZero ∧ g.numerator.polynomial = 0
  neg : f.neg.Represents (-f.numerator.polynomial) f.denominator.polynomial
  toLaurent_some : (toLaurent? f).isSome = true ↔ f.denominator.polynomial.IsConstant
  toLaurent : ∀ e, toLaurent? f = some e →
    e.polynomial * f.denominator.polynomial = f.numerator.polynomial

theorem operatesOnFractions (hf : Stored f) (hg : Stored g) : OperatesOnFractions f g where
  add fits := addFractions_eq fits ▸ RationalFunction.add_represents hf.valid hg.valid
  add_same same := if_pos ((hf.valid.denominator.same_iff hg.valid.denominator).mpr same)
  add_different different :=
    if_neg fun h => different ((hf.valid.denominator.same_iff hg.valid.denominator).mp h)
  sub fits := by
    rw [subFractions, addFractions_eq fits]
    exact RationalFunction.sub_represents hf.valid hg.valid
  mul fits := mulFractions_eq fits ▸ RationalFunction.mul_represents f g
  div fits h made := by
    rw [divFractions_eq hg.range fits] at made
    exact RationalFunction.div_represents made
  div_fails failure := by
    rw [← RationalFunction.inv_error_iff, ← inv_eq hg.range, divFractions]
    cases inv g with
    | error => rfl
    | ok => simp [Except.map]
  inv h made := by
    rw [inv_eq hg.range] at made
    exact RationalFunction.quotient_represents made
  inv_fails failure := by
    rw [inv_eq hg.range]
    exact g.inv_error_iff failure
  neg := f.neg_represents
  toLaurent_some := by
    rw [toLaurent?_eq hf.range]
    exact RationalFunction.toLaurent?_isSome_iff hf.valid
  toLaurent e made := by
    rw [toLaurent?_eq hf.range] at made
    exact RationalFunction.polynomial_of_toLaurent? hf.valid made

/-- However two quotients were built in range, both sides of each are normal forms and the
denominators are not zero, and the operations on them are those on fractions as long as no unchecked
result leaves the range. -/
theorem fractions_in_range (hf : Built f) (hg : Built g) :
    (f.numerator.wrapped = f.numerator ∧ f.denominator.wrapped = f.denominator ∧
      f.denominator.polynomial ≠ 0) ∧ OperatesOnFractions f g := by
  obtain ⟨valid, range⟩ := hf.stored
  refine ⟨⟨?_, ?_, valid.nonzero⟩, operatesOnFractions ⟨valid, range⟩ hg.stored⟩
  · rw [Laurent.wrapped_eq range.1, valid.numerator.normalize_eq]
  · rw [Laurent.wrapped_eq range.2, valid.denominator.normalize_eq]

/-- One over the difference of two symbols. -/
def overDifference : RationalFunction := ⟨.one, (Laurent.symbol "x").sub (.symbol "y")⟩

theorem fractions_in_range_of_difference :
    (Built overDifference ∧ Built (ofLaurent .zero)) ∧
    overDifference.denominator.polynomial ≠ 0 ∧
    divFractions overDifference (ofLaurent .zero) = .error .divisionByZero ∧
    (mulFractions overDifference overDifference).Represents (1 * 1)
      (overDifference.denominator.polynomial * overDifference.denominator.polynomial) ∧
    (addFractions overDifference overDifference).denominator = overDifference.denominator := by
  have built : Built overDifference :=
    .quotient (e := .one) (d := (Laurent.symbol "x").sub (.symbol "y")) (by decide +kernel)
  have zero : Built (ofLaurent .zero) := .ofLaurent .zero
  have empty : (ofLaurent .zero).numerator = .zero := by decide
  obtain ⟨⟨-, -, nonzero⟩, operates⟩ := fractions_in_range built zero
  obtain ⟨-, twice⟩ := fractions_in_range built built
  refine ⟨⟨built, zero⟩, nonzero, (operates.div_fails _).mpr ⟨rfl, ?_⟩, ?_, ?_⟩
  · rw [empty, Laurent.polynomial_zero]
  · have square := twice.mul (by decide +kernel)
    rwa [overDifference, Laurent.polynomial_one] at square
  · rw [twice.add_same rfl]

/-- One over the sum of a number and x under the least degree of words. -/
def overLeast (n : ℤ) : RationalFunction :=
  ⟨.one, ⟨[⟨.one, [⟨"x", -0x8000000000000000⟩]⟩], .ofInt n⟩⟩

/-- The denominators with minus one and with one multiply to zero: the degree of the square wraps to
zero, so that a one is left, less one. -/
theorem denominators_wrap_to_zero : Built (overLeast (-1)) ∧ Built (overLeast 1) ∧
    (mulFractions (overLeast (-1)) (overLeast 1)).denominator.polynomial = 0 := by
  refine ⟨.quotient (e := .one) (d := (overLeast (-1)).denominator) (by decide +kernel),
    .quotient (e := .one) (d := (overLeast 1).denominator) (by decide +kernel), ?_⟩
  have zero : (mulFractions (overLeast (-1)) (overLeast 1)).denominator = .zero := by
    decide +kernel
  rw [zero, Laurent.polynomial_zero]

end Fractions

section Cancellation

variable {f : RationalFunction}

/-- What reduction in words makes of a quotient. What both sides were multiplied with does not show,
as long as the products stay in range. -/
structure Reduces (f g : RationalFunction) : Prop where
  represents : g.Represents f.numerator.polynomial f.denominator.polynomial
  again : reduce g = .ok g
  lowest : f.numerator.polynomial ≠ 0 → g.LowestTerms
  cancels : (∀ m ∈ f.monomials, ∀ s, 0 ≤ m.degreeOf s) →
    ∀ t : Monomial, 0 < t.coefficient.value → (∀ s, 0 ≤ t.degreeOf s) →
      (f.numerator.mul (.ofMonomial t)).InRange → (f.denominator.mul (.ofMonomial t)).InRange →
      ∃ h, quotient (mul f.numerator (ofMonomial t)) (mul f.denominator (ofMonomial t)) = .ok h ∧
        reduce h = .ok g

/-- Reduction always succeeds, keeps the fraction, leaves nothing to reduce, and ends in lowest
terms; what both sides were multiplied with does not show, as long as the products stay in range. -/
theorem reduce_in_range (hf : Stored f) : ∃ g, reduce f = .ok g ∧ Reduces f g := by
  obtain ⟨g, reduced, outcome⟩ := RationalFunction.reduce_to_lowest_terms hf.valid
  rw [← reduce_eq hf.valid hf.range] at reduced
  have hg := reduce_stored reduced
  refine ⟨g, reduced, outcome.represents, ?_, outcome.lowest, ?_⟩
  · rw [reduce_eq hg.valid hg.range]
    exact outcome.again
  · intro degrees t positive raises above below
    obtain ⟨h, made, again⟩ := outcome.cancels degrees t positive raises
    rw [← quotient_eq above below, ← mul_ofMonomial_eq above, ← mul_ofMonomial_eq below] at made
    have hh := quotient_stored made
    exact ⟨h, made, (reduce_eq hh.valid hh.range).trans again⟩

/-- Four times a square and a symbol and six times a symbol, over twice their product. -/
def sharedFactor : RationalFunction where
  numerator := ⟨[⟨.ofInt 4, [⟨"x", 2⟩, ⟨"y", 1⟩]⟩, ⟨.ofInt 6, [⟨"x", 1⟩]⟩], .zero⟩
  denominator := ⟨[⟨.ofInt 2, [⟨"x", 1⟩, ⟨"y", 1⟩]⟩], .zero⟩

/-- The same with twice the first symbol cancelled. -/
def reducedFactor : RationalFunction where
  numerator := ⟨[⟨.ofInt 2, [⟨"x", 1⟩, ⟨"y", 1⟩]⟩], .ofInt 3⟩
  denominator := ⟨[⟨.one, [⟨"y", 1⟩]⟩], .zero⟩

theorem reduce_in_range_of_shared :
    Stored sharedFactor ∧ reduce sharedFactor = .ok reducedFactor ∧
    reduce reducedFactor = .ok reducedFactor ∧ reducedFactor.LowestTerms ∧
    ∃ h, quotient (mul sharedFactor.numerator (ofMonomial ⟨.ofInt 3, [⟨"z", 2⟩]⟩))
      (mul sharedFactor.denominator (ofMonomial ⟨.ofInt 3, [⟨"z", 2⟩]⟩)) = .ok h ∧
      reduce h = .ok reducedFactor := by
  have stored : Stored sharedFactor :=
    quotient_stored (e := sharedFactor.numerator) (d := sharedFactor.denominator) (by decide +kernel)
  have value : reduce sharedFactor = .ok reducedFactor := by decide +kernel
  obtain ⟨g, reduced, outcome⟩ := reduce_in_range stored
  cases reduced.symm.trans value
  refine ⟨stored, value, outcome.again, outcome.lowest ?_,
    outcome.cancels ?_ _ ?_ ?_ (by decide +kernel) (by decide +kernel)⟩
  · exact mt stored.valid.numerator.isZero_iff.mpr (by decide +kernel)
  · intro m member
    exact Monomial.degreeOf_nonneg (by revert m; decide +kernel)
  · rw [Ratio.value_ofInt]
    norm_num
  · exact Monomial.degreeOf_nonneg (by decide)

/-- The symbol x over one, multiplied on both sides by x under the greatest degree of words: nothing
cancels, as the degree of the product wraps to a negative one. -/
theorem cancellation_wraps :
    reduce ⟨.symbol "x", .one⟩ = .ok ⟨.symbol "x", .one⟩ ∧
    ∃ h k, quotient (mul (.symbol "x") (ofMonomial ⟨.one, [⟨"x", 0x7fffffffffffffff⟩]⟩))
        (mul .one (ofMonomial ⟨.one, [⟨"x", 0x7fffffffffffffff⟩]⟩)) = .ok h ∧
      reduce h = .ok k ∧ k ≠ ⟨.symbol "x", .one⟩ := by
  refine ⟨by decide +kernel, ⟨⟨[⟨.one, [⟨"x", -0x8000000000000000⟩]⟩], .zero⟩,
    ⟨[⟨.one, [⟨"x", 0x7fffffffffffffff⟩]⟩], .zero⟩⟩, ⟨⟨[⟨.one, [⟨"x", -0x8000000000000000⟩]⟩], .zero⟩,
    ⟨[⟨.one, [⟨"x", 0x7fffffffffffffff⟩]⟩], .zero⟩⟩, ?_, ?_, ?_⟩ <;> decide +kernel

end Cancellation

end Wrapping

end ExactAlgebra
