import ExactAlgebra.Proofs.Outcomes

/-!
The solution of a linear equation. What is free of the symbol solves an equation when the difference
of the sides is a nonzero number times the symbol minus it. There is at most one such solution.
Solving answers with a number or with an expression exactly when there is one, and the answer is its
normal form.
-/
namespace ExactAlgebra

open LaurentRing

/-- The expression that a solution puts for the symbol, when it is one. -/
def Solution.isolated? : Solution → Option Laurent
  | value r => some (.const r)
  | expression e => some e
  | _ => none

namespace Equation

/-- The difference of the sides is a nonzero number times the symbol minus the solution. -/
structure SolvedBy (q : Equation) (s : String) (n : LaurentRing) : Prop where
  free : ¬ n.Mentions s
  factors : ∃ c ≠ 0, q.polynomial = constant c * (symbol s - n)

variable {q : Equation} {s : String} {n k : LaurentRing} {e : Laurent} {c : ℚ}
  {solution : Solution}

/-- The number in front is the coefficient of the symbol, so two solutions share it. -/
theorem SolvedBy.unique (first : q.SolvedBy s n) (second : q.SolvedBy s k) : n = k := by
  obtain ⟨c, nonzero, left⟩ := first.factors
  obtain ⟨d, -, right⟩ := second.factors
  have same : c = d := by
    rw [← coeff_single_of_factors first.free left, coeff_single_of_factors second.free right]
  have divisor : constant c ≠ 0 := fun zero =>
    nonzero (constant_injective (zero.trans constant_zero.symm))
  rw [← same, left] at right
  exact sub_right_injective (mul_left_cancel₀ divisor right)

/-- Isolation computes an expression of the solution, whatever polynomial that is. -/
theorem exists_of_factors (method : NumericMethod) (nonzero : c ≠ 0) (free : ¬ n.Mentions s)
    (factors : q.polynomial = constant c * (symbol s - n)) :
    ∃ f : Laurent, f.polynomial = n ∧
      q.solveWith method s = .ok (f.constantValue?.elim (.expression f.normalize) .value) := by
  have mentions := mentions_of_factors nonzero free factors
  have linear := (isolable_of_factors nonzero free factors).linearIn
  have lead : q.difference.lead s = c := by
    rw [Laurent.lead, polynomial_difference]
    exact coeff_single_of_factors free factors
  have rest : q.difference.rest s = -(constant c * n) := by
    have parts := q.difference.polynomial_eq_lead_add_rest s
    rw [polynomial_difference, lead, factors] at parts
    linear_combination -parts
  obtain ⟨f, quotient, isolated⟩ :=
    Laurent.isolate_of_lead_ne_zero (e := q.difference) (s := s) (lead ▸ nonzero)
  refine ⟨f, ?_, ?_⟩
  · rw [quotient, rest, lead, neg_neg, mul_right_comm, ← constant_mul, mul_inv_cancel₀ nonzero,
      constant_one, one_mul]
  -- the shape is linear, so what was isolated is the answer, as a number where it is one
  rw [solveWith_of_shape (not_lacks_of_mentions mentions) mentions.not_isConstant,
    shape_of_linear linear.not_hasNegativeDegree linear]
  refine isolated.trans ?_
  cases number : f.constantValue? with
  | none => rfl
  | some r => simp only [Option.elim_some, Laurent.reduce_of_constantValue? number]

/-- A linear equation is solved by the one expression that its factors name. -/
theorem solveWith_of_factors (method : NumericMethod) (nonzero : c ≠ 0)
    (free : ¬ e.polynomial.Mentions s)
    (factors : q.polynomial = constant c * (symbol s - e.polynomial)) :
    q.solveWith method s =
      .ok (e.constantValue?.elim (.expression e.normalize) .value) := by
  obtain ⟨f, same, answer⟩ := exists_of_factors method nonzero free factors
  rw [answer, Laurent.constantValue?_eq same, (Laurent.normalize_eq_iff f e).mpr same]

theorem Answered.factors (h : Answered q s (.ok solution)) (linear : solution.isolated? = some e) :
    e.Normal ∧ q.SolvedBy s e.polynomial := by
  cases h with
  | @value _ c x nonzero factors =>
    cases linear
    have value : (Laurent.const (.ofRat x)).polynomial = constant x := by simp
    rw [value]
    have free : ¬ (constant x).Mentions s := fun h => h.not_isConstant ⟨x, rfl⟩
    exact ⟨Laurent.const_normal _, free, c, nonzero, factors⟩
  | @expression _ c nonzero f symbols free factors =>
    cases linear
    rw [f.polynomial_normalize]
    exact ⟨f.normalize_normal, free, c, nonzero, factors⟩
  | _ => cases linear

section Characterization

variable (method : NumericMethod) (q : Equation) (s : String)

theorem solveWith_value_iff (r : Ratio) : q.solveWith method s = .ok (.value r) ↔
    r.LowestTerms ∧ q.SolvedBy s (constant r.value) := by
  constructor
  · intro answer
    have answered := answered_of_solveWith answer
    have solved := (answered.factors rfl).2
    rw [Laurent.polynomial_const] at solved
    cases answered with
    | value => exact ⟨Ratio.ofRat_lowestTerms _, solved⟩
  · rintro ⟨lowest, free, c, nonzero, factors⟩
    have number := Laurent.polynomial_const r
    rw [← number] at free factors
    rw [solveWith_of_factors method nonzero free factors, Laurent.constantValue?_of_constant number,
      lowest.ofRat_value, Option.elim_some]

theorem solveWith_expression_iff (e : Laurent) : q.solveWith method s = .ok (.expression e) ↔
    e.normalize = e ∧ ¬ e.polynomial.IsConstant ∧ q.SolvedBy s e.polynomial := by
  constructor
  · intro answer
    have answered := answered_of_solveWith answer
    have solved := (answered.factors rfl).2
    cases answered with
    | @expression _ _ _ f symbols =>
      rw [← f.polynomial_normalize] at symbols
      exact ⟨f.normalize_normalize, symbols, solved⟩
  · rintro ⟨normal, symbols, free, c, nonzero, factors⟩
    rw [solveWith_of_factors method nonzero free factors,
      Laurent.constantValue?_of_not_constant symbols, normal, Option.elim_none]

/-- A number or an expression is the answer exactly when it solves the equation, and it is answered
in normal form; every solution is answered, and there is no second one. The symbol then stands in
one of the sides. -/
theorem solveWith_linear_iff :
    (∀ r, q.solveWith method s = .ok (.value r) ↔
      r.LowestTerms ∧ q.SolvedBy s (constant r.value)) ∧
    (∀ e, q.solveWith method s = .ok (.expression e) ↔
      e.normalize = e ∧ ¬ e.polynomial.IsConstant ∧ q.SolvedBy s e.polynomial) ∧
    ∀ n, q.SolvedBy s n → q.hasSymbol s = true ∧ (∀ k, q.SolvedBy s k → n = k) ∧
      ∃ e : Laurent, e.polynomial = n ∧
        q.solveWith method s = .ok (e.constantValue?.elim (.expression e.normalize) .value) := by
  refine ⟨solveWith_value_iff method q s, solveWith_expression_iff method q s, ?_⟩
  intro n solved
  obtain ⟨c, nonzero, factors⟩ := solved.factors
  have present := not_lacks_of_mentions (mentions_of_factors nonzero solved.free factors)
  exact ⟨hasSymbol_iff.mpr present, fun _ => solved.unique,
    exists_of_factors method nonzero solved.free factors⟩

end Characterization

/-- The equation 2x + y = 3. -/
def parametric : Equation where
  left := ⟨[⟨.ofInt 2, [⟨"x", 1⟩]⟩, ⟨.one, [⟨"y", 1⟩]⟩], .zero⟩
  right := .const (.ofInt 3)

/-- The solution for x is (3 - y)/2, and no other. -/
theorem solveWith_linear_iff_of_parameter : ∃ e : Laurent, parametric.SolvedBy "x" e.polynomial ∧
    ∀ k, parametric.SolvedBy "x" k → e.polynomial = k := by
  let e : Laurent := ⟨[⟨.ofRat (-1 / 2), [⟨"y", 1⟩]⟩], .ofRat (3 / 2)⟩
  obtain ⟨-, expression, unique⟩ := solveWith_linear_iff .standard parametric "x"
  have solved := ((expression e).mp (by decide +kernel)).2.2
  exact ⟨e, solved, (unique _ solved).2.1⟩

end Equation

end ExactAlgebra
