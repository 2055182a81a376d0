import ExactAlgebra.Proofs.Outcomes

/-!
What a shape promises. The shape of an equation and the answer to solving it agree wherever the
symbol is left in the difference of the sides: a linear equation has a number or an expression, the
higher shapes have roots, and otherwise both fail for one reason. A symbol that has cancelled out
counts as linear, though nothing can be isolated. An equation that looks linear on both sides is
linear in every symbol, unless the symbol stands in a negative degree.
-/
namespace ExactAlgebra

open Polynomial LaurentRing

/-- An answer of the kind that the shape promises, or one failure of both. -/
inductive Agrees : Except Failure Shape → Except Failure Solution → Prop
  | value (r : Ratio) : Agrees (.ok .linear) (.ok (.value r))
  | expression (e : Laurent) : Agrees (.ok .linear) (.ok (.expression e))
  | quadratic (list : List Root) : Agrees (.ok .quadratic) (.ok (.roots list))
  | cubic (list : List Root) : Agrees (.ok .cubic) (.ok (.roots list))
  | failure (f : Failure) : Agrees (.error f) (.error f)

namespace LaurentRing

variable {n : LaurentRing} {s : String}

theorem linearIn_of_not_mentions (absent : ¬ n.Mentions s) : n.LinearIn s :=
  ⟨0, n, by simp, absent⟩

/-- Every term has at most one symbol, in a degree of at most one. -/
def AtMostLinear (n : LaurentRing) : Prop :=
  ∀ d, n.coeff d ≠ 0 → ∃ t, ∃ k ≤ 1, d = Finsupp.single t k

theorem AtMostLinear.linearIn (h : n.AtMostLinear) (nonneg : ¬ n.HasNegativeDegree s) :
    n.LinearIn s := by
  rw [linearIn_iff]
  intro d hd
  have low := not_hasNegativeDegree_iff.mp nonneg d hd
  obtain ⟨t, k, high, rfl⟩ := h d hd
  by_cases same : t = s
  · subst same
    simp only [Finsupp.single_eq_same] at low ⊢
    obtain rfl | rfl : k = 0 ∨ k = 1 := by omega
    · exact .inl rfl
    · exact .inr rfl
  · exact .inl (Finsupp.single_eq_of_ne' same)

end LaurentRing

theorem Monomial.exponents_of_linear {m : Monomial} (degree : m.maxDegree ≤ 1)
    (alone : m.symbolCount ≤ 1) : ∃ t, ∃ k ≤ 1, m.exponents = Finsupp.single t k := by
  rw [symbolCount_eq] at alone
  obtain ⟨t, single⟩ := Finsupp.card_support_le_one.mp alone
  refine ⟨t, m.exponents t, ?_, single⟩
  by_cases zero : m.exponents t = 0
  · omega
  · rwa [maxDegree_of_single zero single] at degree

namespace Equation

variable {method : NumericMethod} {q : Equation} {s : String} {answer : Except Failure Solution}

section Agreement

theorem hasSymbol_difference_iff : q.difference.hasSymbol s = true ↔ q.polynomial.Mentions s := by
  rw [← normalize_difference, Laurent.hasSymbol_normalize_iff, polynomial_difference]

theorem hasNegativeDegree_difference_iff :
    q.difference.hasNegativeDegree s = true ↔ q.polynomial.HasNegativeDegree s := by
  rw [← normalize_difference, Laurent.hasNegativeDegree_normalize_iff, polynomial_difference]

theorem terms_difference_iff : q.difference.terms ≠ [] ↔ ¬ q.polynomial.IsConstant := by
  rw [← normalize_difference, ne_eq, Laurent.terms_normalize_eq_nil_iff, polynomial_difference]

theorem solveWith_of_shape_error (mentions : q.polynomial.Mentions s) {f : Failure}
    (failed : q.shape s = .error f) : q.solveWith method s = .error f := by
  rw [solveWith_of_shape (not_lacks_of_mentions mentions) mentions.not_isConstant, failed]
  rfl

/-- What keeps an equation from being solved keeps it from having a shape. -/
theorem exists_shape_error (mentions : q.polynomial.Mentions s)
    (reason : q.polynomial.Unsupported s) : ∃ f, q.shape s = .error f := by
  by_cases negative : q.polynomial.HasNegativeDegree s
  · exact ⟨_, shape_of_negative negative⟩
  obtain ⟨nonlinear, cause⟩ : ¬ q.polynomial.LinearIn s ∧
      (q.polynomial.MentionsOther s ∨ q.polynomial.HasDegreeAtLeast s 4) := by
    rcases reason with h | h | h
    · exact absurd h negative
    · exact absurd mentions h
    · exact h
  by_cases company : q.polynomial.MentionsOther s
  · exact ⟨_, shape_of_several negative nonlinear company⟩
  obtain ⟨p, whole⟩ := exists_inSymbol company negative
  have above : 4 ≤ p.natDegree := by
    have degree := cause.resolve_left company
    rw [whole] at degree
    exact (le_natDegree_iff (by decide)).mpr degree
  rw [shape_of_inSymbol whole (by omega), if_neg (by omega), if_neg (by omega)]
  exact ⟨_, rfl⟩

theorem shape_of_isolable (isolable : q.polynomial.Isolable s) : q.shape s = .ok .linear :=
  shape_of_linear isolable.linearIn.not_hasNegativeDegree isolable.linearIn

/-- Each row of the answers has its shape. -/
theorem Answered.agrees (mentions : q.polynomial.Mentions s) (h : Answered q s answer)
    (solved : q.solveWith method s = answer) : Agrees (q.shape s) answer := by
  cases h with
  | absent lacks => exact absurd lacks (not_lacks_of_mentions mentions)
  | identity _ zero => exact absurd ⟨0, zero.trans constant_zero.symm⟩ mentions.not_isConstant
  | contradiction _ _ number => exact absurd ⟨_, number⟩ mentions.not_isConstant
  | unsupported _ _ reason _ =>
    obtain ⟨f, failed⟩ := exists_shape_error mentions reason
    rw [failed, ← solved, solveWith_of_shape_error mentions failed]
    exact .failure f
  | @value _ c x nonzero factors =>
    have free : ¬ (constant x).Mentions s := fun h => h.not_isConstant ⟨x, rfl⟩
    rw [shape_of_isolable (isolable_of_factors nonzero free factors)]
    exact .value _
  | expression _ nonzero _ free factors =>
    rw [shape_of_isolable (isolable_of_factors nonzero free factors)]
    exact .expression _
  | @quadratic _ p leading whole list _ =>
    have degree := Quadratic.natDegree_polynomial leading
    rw [shape_of_inSymbol whole (by omega), if_pos degree]
    exact .quadratic list
  | @cubic _ p leading whole list _ =>
    have degree := Cubic.natDegree_polynomial leading
    rw [shape_of_inSymbol whole (by omega), if_neg (by omega), if_pos degree]
    exact .cubic list

/-- A symbol that is not left counts as linear, and isolating it fails. -/
theorem solveWith_of_cancelled (method : NumericMethod) (present : ¬ q.Lacks s)
    (symbols : ¬ q.polynomial.IsConstant) (absent : ¬ q.polynomial.Mentions s) :
    q.shape s = .ok .linear ∧
      q.solveWith method s = .error (.symbolCancels s (q.difference.remainder s)) := by
  have linear := linearIn_of_not_mentions absent
  have shape := shape_of_linear linear.not_hasNegativeDegree linear
  have lead : q.difference.lead s = 0 := by
    by_contra counts
    rw [Laurent.lead, polynomial_difference] at counts
    exact absent ⟨_, counts, by simp⟩
  have rest : q.difference.rest s = q.polynomial := by
    have parts := q.difference.polynomial_eq_lead_add_rest s
    simpa [polynomial_difference, lead] using parts.symm
  refine ⟨shape, ?_⟩
  rw [solveWith_of_shape present symbols, shape]
  exact Laurent.isolate_cancelled lead (rest ▸ symbols)

/-- Where symbols are left, the shape and the answer agree exactly when the symbol is one of them. -/
theorem shape_agrees_iff (method : NumericMethod) (q : Equation) (s : String)
    (present : q.hasSymbol s = true) (symbols : q.difference.terms ≠ []) :
    (Agrees (q.shape s) (q.solveWith method s) ↔ q.difference.hasSymbol s = true) ∧
    (q.difference.hasSymbol s = false → q.shape s = .ok .linear ∧
      q.solveWith method s = .error (.symbolCancels s (q.difference.remainder s))) := by
  rw [hasSymbol_iff] at present
  rw [terms_difference_iff] at symbols
  rw [← Bool.not_eq_true, hasSymbol_difference_iff]
  refine ⟨⟨fun agrees => ?_, fun mentions => ?_⟩, solveWith_of_cancelled method present symbols⟩
  · by_contra absent
    obtain ⟨shape, answer⟩ := solveWith_of_cancelled method present symbols absent
    rw [shape, answer] at agrees
    cases agrees
  · exact (answered method q s).agrees mentions rfl

/-- The equation x² + x = x² + 3, which is linear in x. -/
def squaresOnBothSides : Equation where
  left := ⟨[⟨.one, [⟨"x", 2⟩]⟩, ⟨.one, [⟨"x", 1⟩]⟩], .zero⟩
  right := ⟨[⟨.one, [⟨"x", 2⟩]⟩], .ofInt 3⟩

/-- The equation x + y = x + 1, in which x cancels out. -/
def cancelling : Equation where
  left := ⟨[⟨.one, [⟨"x", 1⟩]⟩, ⟨.one, [⟨"y", 1⟩]⟩], .zero⟩
  right := ⟨[⟨.one, [⟨"x", 1⟩]⟩], .one⟩

theorem shape_agrees_iff_of_squares :
    Agrees (squaresOnBothSides.shape "x") (squaresOnBothSides.solveFor "x") ∧
      cancelling.solveFor "x" = .error (.symbolCancels "x" (cancelling.difference.remainder "x")) :=
  ⟨(shape_agrees_iff .standard squaresOnBothSides "x" (by decide +kernel)
      (by decide +kernel)).1.mpr (by decide +kernel),
    ((shape_agrees_iff .standard cancelling "x" (by decide +kernel)
      (by decide +kernel)).2 (by decide +kernel)).2⟩

/-- Both symbols stand in the equation and one is left, but for the other the shape is linear and
there is no answer. -/
theorem shape_without_answer : cancelling.hasSymbol "x" = true ∧ cancelling.difference.terms ≠ [] ∧
    cancelling.shape "x" = .ok .linear ∧ ∃ f, cancelling.solveFor "x" = .error f := by
  refine ⟨by decide +kernel, by decide +kernel, by decide +kernel,
    .symbolCancels "x" (cancelling.difference.remainder "x"), by decide +kernel⟩

end Agreement

section Linearity

/-- What the two sides look like bounds what is left of their difference. -/
theorem atMostLinear_of_isLinear (linear : q.isLinear = true) : q.polynomial.AtMostLinear := by
  have terms : ∀ m ∈ q.left.terms ++ q.right.terms, m.maxDegree ≤ 1 ∧ m.symbolCount ≤ 1 := by
    simp only [isLinear, List.all_cons, List.all_nil, Laurent.noCrossProducts, Laurent.maxDegree,
      Bool.and_true, Bool.and_eq_true, decide_eq_true_eq, List.all_eq_true, max_le_iff,
      Laurent.getD_max?_le_iff _ (by decide : (0 : ℤ) ≤ 1), List.forall_mem_map] at linear
    obtain ⟨⟨⟨left, -⟩, left'⟩, ⟨right, -⟩, right'⟩ := linear
    exact List.forall_mem_append.mpr
      ⟨fun m hm => ⟨left m hm, left' m hm⟩, fun m hm => ⟨right m hm, right' m hm⟩⟩
  intro d hd
  by_cases number : d = 0
  · exact ⟨"", 0, by decide, by simp [number]⟩
  obtain ⟨m, member, rfl⟩ := exists_term number hd
  exact Monomial.exponents_of_linear (terms m member).1 (terms m member).2

/-- A shape that is linear is kept by the answer, where the symbol is left. -/
theorem isolated_of_shape (method : NumericMethod) (mentions : q.polynomial.Mentions s)
    (linear : q.shape s = .ok .linear) : (∃ r, q.solveWith method s = .ok (.value r)) ∨
      ∃ e, q.solveWith method s = .ok (.expression e) := by
  have agrees := (answered method q s).agrees mentions rfl
  rw [linear] at agrees
  generalize q.solveWith method s = answer at agrees
  cases agrees with
  | value r => exact .inl ⟨r, rfl⟩
  | expression e => exact .inr ⟨e, rfl⟩

theorem mentions_of_hasNegativeDegree (negative : q.polynomial.HasNegativeDegree s) :
    q.polynomial.Mentions s := by
  obtain ⟨d, hd, hs⟩ := negative
  exact ⟨d, hd, hs.ne⟩

/-- An equation that looks linear has the linear shape for every symbol and is solved for each one
that is left, unless a negative degree of the symbol is left; then it has no shape and no answer. -/
theorem isLinear_outcome (method : NumericMethod) (q : Equation) (s : String)
    (linear : q.isLinear = true) :
    (q.difference.hasNegativeDegree s = false → q.shape s = .ok .linear ∧
      (q.difference.hasSymbol s = true → (∃ r, q.solveWith method s = .ok (.value r)) ∨
        ∃ e, q.solveWith method s = .ok (.expression e))) ∧
    (q.difference.hasNegativeDegree s = true → q.shape s = .error (.negativeExponent s) ∧
      q.solveWith method s = .error (.negativeExponent s)) := by
  rw [← Bool.not_eq_true, hasNegativeDegree_difference_iff, hasSymbol_difference_iff]
  constructor
  · intro nonneg
    have shape := shape_of_linear nonneg ((atMostLinear_of_isLinear linear).linearIn nonneg)
    exact ⟨shape, fun mentions => isolated_of_shape method mentions shape⟩
  · intro negative
    have shape := shape_of_negative negative
    have mentions := mentions_of_hasNegativeDegree negative
    exact ⟨shape, solveWith_of_shape_error mentions shape⟩

/-- The equation x + 2y = 4. -/
def line : Equation where
  left := ⟨[⟨.one, [⟨"x", 1⟩]⟩, ⟨.ofInt 2, [⟨"y", 1⟩]⟩], .zero⟩
  right := .const (.ofInt 4)

/-- The equation 1/x = 1. -/
def reciprocal : Equation where
  left := ⟨[⟨.one, [⟨"x", -1⟩]⟩], .zero⟩
  right := .one

theorem isLinear_outcome_of_line :
    ((∃ r, line.solveFor "x" = .ok (.value r)) ∨ ∃ e, line.solveFor "x" = .ok (.expression e)) ∧
      reciprocal.solveFor "x" = .error (.negativeExponent "x") :=
  ⟨((isLinear_outcome .standard line "x" (by decide +kernel)).1 (by decide +kernel)).2
      (by decide +kernel),
    ((isLinear_outcome .standard reciprocal "x" (by decide +kernel)).2 (by decide +kernel)).2⟩

/-- It looks linear, as degrees below zero count as zero, but has no shape. -/
theorem isLinear_reciprocal : reciprocal.isLinear = true ∧
    reciprocal.shape "x" = .error (.negativeExponent "x") ∧
    reciprocal.solveFor "x" = .error (.negativeExponent "x") := by
  decide +kernel

end Linearity

end Equation

end ExactAlgebra
