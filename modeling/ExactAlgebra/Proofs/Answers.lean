import ExactAlgebra.Proofs.ClosedForms
import ExactAlgebra.Proofs.Extraction
import ExactAlgebra.Proofs.Isolation
import ExactAlgebra.Solving

/-!
What solving an equation can answer. The difference of the sides is one Laurent polynomial, and the
answer depends on that polynomial once the symbol stands in the equation as it is written. Each
answer comes with what it says about the polynomial; no case is left out, whatever the functions on
doubles compute.
-/
namespace ExactAlgebra

open Polynomial LaurentRing

/-- Why an equation with symbols left is not solved: a negative degree, no occurrence, or a symbol
that is not linear and has company or a degree above three. -/
def LaurentRing.Unsupported (n : LaurentRing) (s : String) : Prop :=
  n.HasNegativeDegree s ∨ ¬ n.Mentions s ∨
    ¬ n.LinearIn s ∧ (n.MentionsOther s ∨ n.HasDegreeAtLeast s 4)

namespace Equation

noncomputable def polynomial (q : Equation) : LaurentRing := q.left.polynomial - q.right.polynomial

/-- No term of either side, as stored, has the symbol in a nonzero degree. -/
def Lacks (q : Equation) (s : String) : Prop :=
  ∀ m ∈ q.left.terms ++ q.right.terms, m.exponents s = 0

/-- Answers and what they say about the equation. -/
inductive Answered (q : Equation) (s : String) : Except Failure Solution → Prop
  | absent (lacks : q.Lacks s) : Answered q s (.error (.symbolAbsent s q))
  | identity (present : ¬ q.Lacks s) (zero : q.polynomial = 0) :
    Answered q s (.ok .anything)
  | contradiction (present : ¬ q.Lacks s) {c : ℚ} (nonzero : c ≠ 0)
    (number : q.polynomial = .constant c) : Answered q s (.error .noSolution)
  | unsupported (present : ¬ q.Lacks s) (symbols : ¬ q.polynomial.IsConstant)
    (reason : q.polynomial.Unsupported s) {f : Failure} (kind : f.kind = .unsupportedEquation) :
    Answered q s (.error f)
  | value (present : ¬ q.Lacks s) {c x : ℚ} (nonzero : c ≠ 0)
    (factors : q.polynomial = .constant c * (.symbol s - .constant x)) :
    Answered q s (.ok (.value (.ofRat x)))
  | expression (present : ¬ q.Lacks s) {c : ℚ} (nonzero : c ≠ 0) {f : Laurent}
    (symbols : ¬ f.polynomial.IsConstant) (free : ¬ f.polynomial.Mentions s)
    (factors : q.polynomial = .constant c * (.symbol s - f.polynomial)) :
    Answered q s (.ok (.expression f.normalize))
  | quadratic (present : ¬ q.Lacks s) {p : Quadratic} (leading : p.a ≠ 0)
    (whole : q.polynomial = inSymbol s p.polynomial) {list : List Root} (listed : p.Listed list) :
    Answered q s (.ok (.roots list))
  | cubic (present : ¬ q.Lacks s) {p : Cubic} (leading : p.a ≠ 0)
    (whole : q.polynomial = inSymbol s p.polynomial) {list : List Root} (listed : p.Listed list) :
    Answered q s (.ok (.roots list))

variable {method : NumericMethod} {q : Equation} {s : String}

theorem hasSymbol_iff : q.hasSymbol s = true ↔ ¬ q.Lacks s := by
  simp only [hasSymbol, Laurent.hasSymbol, Lacks, ← List.any_append, List.any_eq_true,
    Monomial.hasSymbol_iff, not_forall, exists_prop]

/-- What has a coefficient in the difference was written down on one of the sides. -/
theorem exists_term {d : Exponents} (nonconstant : d ≠ 0) (nonzero : q.polynomial.coeff d ≠ 0) :
    ∃ m ∈ q.left.terms ++ q.right.terms, m.exponents = d := by
  by_cases left : q.left.polynomial.coeff d = 0
  · have right : q.right.polynomial.coeff d ≠ 0 := fun right => nonzero (by
      rw [polynomial, AddMonoidAlgebra.coeff_sub, Finsupp.sub_apply, left, right, sub_zero])
    obtain ⟨m, hm, same⟩ := Laurent.exists_term nonconstant right
    exact ⟨m, List.mem_append_right _ hm, same⟩
  · obtain ⟨m, hm, same⟩ := Laurent.exists_term nonconstant left
    exact ⟨m, List.mem_append_left _ hm, same⟩

theorem not_lacks_of_mentions (mentions : q.polynomial.Mentions s) : ¬ q.Lacks s := by
  obtain ⟨d, nonconstant, nonzero, occurs⟩ := mentions.exists_nonconstant
  obtain ⟨m, member, rfl⟩ := exists_term nonconstant nonzero
  exact fun lacks => occurs (lacks m member)

theorem polynomial_difference (q : Equation) : q.difference.polynomial = q.polynomial :=
  Laurent.polynomial_sub q.left q.right

theorem normalize_difference (q : Equation) : q.difference.normalize = q.difference :=
  Laurent.normalize_normalize _

theorem shape_eq (q : Equation) (s : String) : q.shape s = q.difference.normalize.shape s := by
  rw [normalize_difference, shape]

section Shapes

theorem shape_of_negative (negative : q.polynomial.HasNegativeDegree s) :
    q.shape s = .error (.negativeExponent s) := by
  rw [← polynomial_difference] at negative
  rw [shape_eq, Laurent.shape,
    if_pos ((Laurent.hasNegativeDegree_normalize_iff _ _).mpr negative)]

theorem shape_of_linear (nonneg : ¬ q.polynomial.HasNegativeDegree s)
    (linear : q.polynomial.LinearIn s) : q.shape s = .ok .linear := by
  rw [← polynomial_difference] at nonneg linear
  rw [shape_eq, Laurent.shape, if_neg (mt (Laurent.hasNegativeDegree_normalize_iff _ _).mp nonneg),
    if_pos ((Laurent.isLinearIn_normalize_iff _ nonneg).mpr linear)]

theorem shape_of_several (nonneg : ¬ q.polynomial.HasNegativeDegree s)
    (nonlinear : ¬ q.polynomial.LinearIn s) (company : q.polynomial.MentionsOther s) :
    q.shape s = .error (.severalSymbols q.difference) := by
  rw [← polynomial_difference] at nonneg nonlinear company
  have several : q.difference.normalize.onlyHasSymbol s = false :=
    Bool.eq_false_iff.mpr fun h => (Laurent.onlyHasSymbol_normalize_iff _ _).mp h company
  rw [shape_eq, Laurent.shape, if_neg (mt (Laurent.hasNegativeDegree_normalize_iff _ _).mp nonneg),
    if_neg (mt (Laurent.isLinearIn_normalize_iff _ nonneg).mp nonlinear), several,
    normalize_difference]
  rfl

theorem shape_of_inSymbol {p : ℚ[X]} (whole : q.polynomial = inSymbol s p)
    (high : 1 < p.natDegree) :
    q.shape s = if p.natDegree = 2 then .ok .quadratic else if p.natDegree = 3 then .ok .cubic
      else .error (.degreeNotSolved p.natDegree s) := by
  rw [← polynomial_difference] at whole
  have nonneg : ¬ q.difference.polynomial.HasNegativeDegree s :=
    whole ▸ not_hasNegativeDegree_inSymbol p
  have nonlinear : ¬ q.difference.polynomial.LinearIn s := whole ▸ not_linearIn_inSymbol high
  have alone : q.difference.normalize.onlyHasSymbol s = true :=
    (Laurent.onlyHasSymbol_normalize_iff _ _).mpr (whole ▸ not_mentionsOther_inSymbol p)
  rw [shape_eq, Laurent.shape, if_neg (mt (Laurent.hasNegativeDegree_normalize_iff _ _).mp nonneg),
    if_neg (mt (Laurent.isLinearIn_normalize_iff _ nonneg).mp nonlinear), alone,
    Laurent.maxDegree_normalize whole]
  norm_cast

end Shapes

section Steps

theorem solveWith_of_lacks (lacks : q.Lacks s) :
    q.solveWith method s = .error (.symbolAbsent s q) := by
  have absent : q.hasSymbol s = false := Bool.eq_false_iff.mpr fun h => hasSymbol_iff.mp h lacks
  rw [solveWith, absent]
  rfl

theorem solveWith_of_constant (present : ¬ q.Lacks s) {c : ℚ}
    (number : q.polynomial = .constant c) :
    q.solveWith method s = if c = 0 then .ok .anything else .error .noSolution := by
  have form : q.difference = ⟨[], .ofRat c⟩ := by
    rw [← normalize_difference]
    exact Laurent.normalize_of_constant (q.polynomial_difference.trans number)
  have zero : (Ratio.ofRat c).isZero = true ↔ c = 0 := by
    rw [Ratio.isZero_iff, Ratio.value_ofRat]
  rw [solveWith, hasSymbol_iff.mpr present, form]
  change solveConstant (.ofRat c) = _
  exact if_congr zero rfl rfl

theorem solveWith_of_shape (present : ¬ q.Lacks s) (symbols : ¬ q.polynomial.IsConstant) :
    q.solveWith method s = q.shape s >>= fun shape => match shape with
      | .linear => q.difference.isolate s
      | .quadratic => q.difference.quadratic >>= fun p => (p.roots method.functions).map .roots
      | .cubic => q.difference.cubic >>= fun p =>
        (p.roots method.functions method.snapTolerance).map .roots := by
  have terms : q.difference.terms.isEmpty = false := by
    rw [Bool.eq_false_iff, ne_eq, List.isEmpty_iff, ← normalize_difference,
      Laurent.terms_normalize_eq_nil_iff, polynomial_difference]
    exact symbols
  rw [solveWith, hasSymbol_iff.mpr present, terms]
  rfl

theorem answered_constant (present : ¬ q.Lacks s) (constant : q.polynomial.IsConstant) :
    Answered q s (q.solveWith method s) := by
  obtain ⟨c, number⟩ := constant
  rw [solveWith_of_constant present number]
  split
  · next zero => exact .identity present (by rw [number, zero, constant_zero])
  · next nonzero => exact .contradiction present nonzero number

theorem answered_linear (present : ¬ q.Lacks s) (symbols : ¬ q.polynomial.IsConstant)
    (nonneg : ¬ q.polynomial.HasNegativeDegree s) (linear : q.polynomial.LinearIn s) :
    Answered q s (q.solveWith method s) := by
  have isolated : q.solveWith method s = q.difference.isolate s := by
    rw [solveWith_of_shape present symbols, shape_of_linear nonneg linear]
    rfl
  have parts := q.difference.polynomial_eq_lead_add_rest s
  rw [polynomial_difference] at parts
  rw [isolated]
  by_cases lead : q.difference.lead s = 0
  · -- the symbol has cancelled out, and the symbols left are others
    rw [lead, constant_zero, zero_mul, zero_add] at parts
    rw [← polynomial_difference] at linear
    have free := Laurent.not_mentions_rest linear
    rw [Laurent.isolate_cancelled lead (parts ▸ symbols)]
    exact .unsupported present symbols (.inr (.inl (parts ▸ free))) rfl
  · have unit : constant (q.difference.lead s) * constant (q.difference.lead s)⁻¹ = 1 := by
      rw [← constant_mul, mul_inv_cancel₀ lead, constant_one]
    -- minus the rest over the lead, taken from the symbol, leaves the difference over the lead
    have factors : q.polynomial = constant (q.difference.lead s) *
        (symbol s - -q.difference.rest s * constant (q.difference.lead s)⁻¹) := by
      rw [mul_sub, mul_left_comm, unit, mul_one, sub_neg_eq_add, ← parts]
    by_cases number : (q.difference.rest s).IsConstant
    · obtain ⟨c, hc⟩ := number
      rw [Laurent.isolate_value lead hc]
      refine .value present lead ?_
      rw [factors, hc, ← constant_neg, ← constant_mul]
    · obtain ⟨f, answer, nonconstant, quotient⟩ := Laurent.isolate_expression lead number
      rw [answer]
      rw [← polynomial_difference] at linear
      refine .expression present lead nonconstant ?_ (quotient ▸ factors)
      rw [quotient]
      exact fun h => Laurent.not_mentions_rest linear h.of_mul_constant.of_neg

theorem solveWith_of_quadratic (method : NumericMethod) {p : Quadratic} (leading : p.a ≠ 0)
    (whole : q.polynomial = inSymbol s p.polynomial) :
    q.solveWith method s = (p.roots method.functions).map .roots := by
  have degree := Quadratic.natDegree_polynomial leading
  have mentions : q.polynomial.Mentions s := whole ▸ mentions_inSymbol (by omega)
  have extracted := Laurent.quadratic_of_inSymbol (q.polynomial_difference.trans whole)
  rw [solveWith_of_shape (not_lacks_of_mentions mentions) mentions.not_isConstant,
    shape_of_inSymbol whole (by omega), if_pos degree]
  change (q.difference.quadratic >>= _) = _
  rw [extracted]
  rfl

theorem solveWith_of_cubic (method : NumericMethod) {p : Cubic} (leading : p.a ≠ 0)
    (whole : q.polynomial = inSymbol s p.polynomial) :
    q.solveWith method s = (p.roots method.functions method.snapTolerance).map .roots := by
  have degree := Cubic.natDegree_polynomial leading
  have mentions : q.polynomial.Mentions s := whole ▸ mentions_inSymbol (by omega)
  have extracted := Laurent.cubic_of_inSymbol (q.polynomial_difference.trans whole)
  rw [solveWith_of_shape (not_lacks_of_mentions mentions) mentions.not_isConstant,
    shape_of_inSymbol whole (by omega), if_neg (by omega), if_pos degree]
  change (q.difference.cubic >>= _) = _
  rw [extracted]
  rfl

theorem answered_inSymbol (present : ¬ q.Lacks s) (symbols : ¬ q.polynomial.IsConstant)
    {p : ℚ[X]} (whole : q.polynomial = inSymbol s p) (high : 1 < p.natDegree) :
    Answered q s (q.solveWith method s) := by
  by_cases two : p.natDegree = 2
  · obtain ⟨r, leading, rfl⟩ := Quadratic.exists_polynomial two
    obtain ⟨list, solved, listed⟩ := Quadratic.roots_listed leading method.functions
    rw [solveWith_of_quadratic method leading whole, solved]
    exact .quadratic present leading whole listed
  by_cases three : p.natDegree = 3
  · obtain ⟨r, leading, rfl⟩ := Cubic.exists_polynomial three
    obtain ⟨list, solved, listed⟩ :=
      Cubic.roots_listed leading method.functions method.snapTolerance
    rw [solveWith_of_cubic method leading whole, solved]
    exact .cubic present leading whole listed
  have above : q.polynomial.HasDegreeAtLeast s 4 :=
    whole ▸ (le_natDegree_iff (by decide)).mp (by omega : 4 ≤ p.natDegree)
  have nonlinear : ¬ q.polynomial.LinearIn s := whole ▸ not_linearIn_inSymbol high
  rw [solveWith_of_shape present symbols, shape_of_inSymbol whole high, if_neg two, if_neg three]
  exact .unsupported present symbols (.inr (.inr ⟨nonlinear, .inr above⟩)) rfl

end Steps

/-- Every answer is one of these, with what it says about the equation. -/
theorem answered (method : NumericMethod) (q : Equation) (s : String) :
    Answered q s (q.solveWith method s) := by
  by_cases present : q.Lacks s
  · rw [solveWith_of_lacks present]
    exact .absent present
  by_cases symbols : q.polynomial.IsConstant
  · exact answered_constant present symbols
  by_cases negative : q.polynomial.HasNegativeDegree s
  · rw [solveWith_of_shape present symbols, shape_of_negative negative]
    exact .unsupported present symbols (.inl negative) rfl
  by_cases linear : q.polynomial.LinearIn s
  · exact answered_linear present symbols negative linear
  by_cases company : q.polynomial.MentionsOther s
  · rw [solveWith_of_shape present symbols, shape_of_several negative linear company]
    exact .unsupported present symbols (.inr (.inr ⟨linear, .inl company⟩)) rfl
  obtain ⟨p, whole⟩ := exists_inSymbol company negative
  rw [whole, linearIn_inSymbol_iff, not_le] at linear
  exact answered_inSymbol present symbols whole linear

theorem answered_of_solveWith {method : NumericMethod} {answer : Except Failure Solution}
    (solved : q.solveWith method s = answer) : Answered q s answer :=
  solved ▸ answered method q s

end Equation

end ExactAlgebra
