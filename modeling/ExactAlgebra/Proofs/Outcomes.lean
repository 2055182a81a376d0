import ExactAlgebra.Proofs.Answers

/-!
The table of outcomes. Whether an equation is solved for a symbol, and by what kind of answer, is
decided by the symbol's presence in the stored sides and by the polynomial of their difference.
The rows are read from the top; the last one leaves a polynomial in the symbol alone, of degree
two or three.
-/
namespace ExactAlgebra

open Polynomial LaurentRing

/-- An answer without its numbers and texts. -/
inductive Outcome
  | value
  | expression
  | anything
  | roots
  | failure (kind : FailureKind)
deriving DecidableEq

def Outcome.of : Except Failure Solution → Outcome
  | .ok (.value _) => .value
  | .ok (.expression _) => .expression
  | .ok .anything => .anything
  | .ok (.roots _) => .roots
  | .error f => .failure f.kind

namespace LaurentRing

variable {n f : LaurentRing} {s : String} {c : ℚ}

/-- A nonzero number times the symbol, and terms free of the symbol. -/
def Isolable (n : LaurentRing) (s : String) : Prop :=
  ∃ c rest, c ≠ 0 ∧ n = constant c * symbol s + rest ∧ ¬ rest.Mentions s

theorem Isolable.linearIn (h : n.Isolable s) : n.LinearIn s := by
  obtain ⟨c, rest, -, parts, free⟩ := h
  exact ⟨c, rest, parts, free⟩

theorem LinearIn.not_hasNegativeDegree (h : n.LinearIn s) : ¬ n.HasNegativeDegree s := by
  rw [not_hasNegativeDegree_iff]
  intro d hd
  rcases linearIn_iff.mp h d hd with hs | rfl
  · exact hs.ge
  · rw [Finsupp.single_eq_same]
    decide

/-- Once a symbol is known to occur linearly, nothing speaks against solving for it. -/
theorem LinearIn.not_unsupported (h : n.LinearIn s) (present : n.Mentions s) :
    ¬ n.Unsupported s := by
  rintro (negative | absent | ⟨nonlinear, -⟩)
  · exact h.not_hasNegativeDegree negative
  · exact absent present
  · exact nonlinear h

theorem coeff_constant_mul (c : ℚ) (n : LaurentRing) (d : Exponents) :
    (constant c * n).coeff d = c * n.coeff d :=
  AddMonoidAlgebra.coeff_single_zero_mul n c d

section Factors

variable (nonzero : c ≠ 0) (free : ¬ f.Mentions s) (factors : n = constant c * (symbol s - f))
include nonzero free factors

omit nonzero in
theorem coeff_single_of_factors : n.coeff (Finsupp.single s 1) = c := by
  have absent : f.coeff (Finsupp.single s 1) = 0 := by
    by_contra h
    have := not_mentions_iff.mp free _ h
    rw [Finsupp.single_eq_same] at this
    exact one_ne_zero this
  rw [factors, coeff_constant_mul, AddMonoidAlgebra.coeff_sub, Finsupp.sub_apply, absent, symbol,
    AddMonoidAlgebra.coeff_single, Finsupp.single_eq_same, sub_zero, mul_one]

theorem mentions_of_factors : n.Mentions s :=
  ⟨Finsupp.single s 1, by rwa [coeff_single_of_factors free factors],
    by rw [Finsupp.single_eq_same]; exact one_ne_zero⟩

theorem isolable_of_factors : n.Isolable s := by
  refine ⟨c, constant c * -f, nonzero, ?_, fun h => ?_⟩
  · rw [factors, sub_eq_add_neg, mul_add]
  · rw [mul_comm] at h
    exact free h.of_mul_constant.of_neg

theorem mentionsOther_of_factors_iff : n.MentionsOther s ↔ ¬ f.IsConstant := by
  -- where the symbol does not occur, the coefficients are those of the other factor, scaled
  have outside {d : Exponents} (hd : d s = 0) : n.coeff d = -(c * f.coeff d) := by
    have other : d ≠ Finsupp.single s 1 := by
      rintro rfl
      rw [Finsupp.single_eq_same] at hd
      exact one_ne_zero hd
    rw [factors, coeff_constant_mul, AddMonoidAlgebra.coeff_sub, Finsupp.sub_apply, symbol,
      AddMonoidAlgebra.coeff_single, Finsupp.single_eq_of_ne other, zero_sub, mul_neg]
  constructor
  · rintro ⟨t, ht, d, hd, hdt⟩ number
    rcases linearIn_iff.mp (isolable_of_factors nonzero free factors).linearIn d hd with hs | rfl
    · have inside : f.coeff d ≠ 0 := by
        intro h
        rw [outside hs, h, mul_zero, neg_zero] at hd
        exact hd rfl
      rw [isConstant_iff.mp number d inside, Finsupp.zero_apply] at hdt
      exact hdt rfl
    · rw [Finsupp.single_eq_of_ne ht] at hdt
      exact hdt rfl
  · intro symbols
    rw [isConstant_iff] at symbols
    push Not at symbols
    obtain ⟨d, hd, hne⟩ := symbols
    obtain ⟨t, ht⟩ := Finsupp.ne_iff.mp hne
    have hs : d s = 0 := not_mentions_iff.mp free d hd
    refine ⟨t, ?_, d, ?_, ht⟩
    · rintro rfl
      exact ht hs
    · rw [outside hs]
      exact neg_ne_zero.mpr (mul_ne_zero nonzero hd)

end Factors

theorem not_unsupported_inSymbol {p : ℚ[X]} (high : 1 < p.natDegree) (low : p.natDegree < 4) :
    ¬ (inSymbol s p).Unsupported s := by
  rintro (negative | absent | ⟨-, company | above⟩)
  · exact not_hasNegativeDegree_inSymbol p negative
  · exact absent (mentions_inSymbol high)
  · exact not_mentionsOther_inSymbol p company
  · exact absurd ((le_natDegree_iff (by decide)).mpr above) (not_le.mpr low)

end LaurentRing

namespace Equation

variable {q : Equation} {s : String} {answer : Except Failure Solution}

open Classical in
noncomputable def expectedOutcome (q : Equation) (s : String) : Outcome :=
  if q.Lacks s then .failure .invalidArgument
  else if q.polynomial = 0 then .anything
  else if q.polynomial.IsConstant then .failure .noSolution
  else if q.polynomial.Unsupported s then .failure .unsupportedEquation
  else if q.polynomial.Isolable s then
    if q.polynomial.MentionsOther s then .expression else .value
  else .roots

theorem expectedOutcome_of_supported (present : ¬ q.Lacks s) (mentions : q.polynomial.Mentions s)
    (supported : ¬ q.polynomial.Unsupported s) [Decidable (q.polynomial.Isolable s)]
    [Decidable (q.polynomial.MentionsOther s)] :
    q.expectedOutcome s = if q.polynomial.Isolable s then
      if q.polynomial.MentionsOther s then .expression else .value
    else .roots := by
  have symbols := mentions.not_isConstant
  have nonzero : q.polynomial ≠ 0 := fun h => symbols ⟨0, by rw [h, constant_zero]⟩
  rw [expectedOutcome, if_neg present, if_neg nonzero, if_neg symbols, if_neg supported]
  congr

theorem expectedOutcome_of_factors (present : ¬ q.Lacks s) {c : ℚ} {f : LaurentRing}
    (nonzero : c ≠ 0) (free : ¬ f.Mentions s)
    (factors : q.polynomial = constant c * (symbol s - f)) [Decidable f.IsConstant] :
    q.expectedOutcome s = if f.IsConstant then .value else .expression := by
  classical
  have mentions := mentions_of_factors nonzero free factors
  have isolable := isolable_of_factors nonzero free factors
  rw [expectedOutcome_of_supported present mentions (isolable.linearIn.not_unsupported mentions),
    if_pos isolable, ← ite_not]
  exact if_congr (not_iff_comm.mp (mentionsOther_of_factors_iff nonzero free factors).symm) rfl rfl

theorem expectedOutcome_of_degree (present : ¬ q.Lacks s) {p : ℚ[X]}
    (whole : q.polynomial = inSymbol s p) (high : 1 < p.natDegree) (low : p.natDegree < 4) :
    q.expectedOutcome s = .roots := by
  classical
  have mentions : q.polynomial.Mentions s := whole ▸ mentions_inSymbol high
  have supported : ¬ q.polynomial.Unsupported s := whole ▸ not_unsupported_inSymbol high low
  have nonlinear : ¬ q.polynomial.LinearIn s := whole ▸ not_linearIn_inSymbol high
  rw [expectedOutcome_of_supported present mentions supported,
    if_neg (mt Isolable.linearIn nonlinear)]

theorem Answered.outcome (h : Answered q s answer) :
    Outcome.of answer = q.expectedOutcome s := by
  classical
  cases h with
  | absent lacks => rw [expectedOutcome, if_pos lacks]; rfl
  | identity present zero => rw [expectedOutcome, if_neg present, if_pos zero]; rfl
  | @contradiction present c nonzero number =>
    have different : q.polynomial ≠ 0 := fun h =>
      nonzero (constant_injective (number.symm.trans (h.trans constant_zero.symm)))
    rw [expectedOutcome, if_neg present, if_neg different, if_pos ⟨c, number⟩]
    rfl
  | unsupported present symbols reason kind =>
    have nonzero : q.polynomial ≠ 0 := fun h => symbols ⟨0, by rw [h, constant_zero]⟩
    rw [expectedOutcome, if_neg present, if_neg nonzero, if_neg symbols, if_pos reason]
    exact congrArg Outcome.failure kind
  | @value present c x nonzero factors =>
    have free : ¬ (constant x).Mentions s := fun h => h.not_isConstant ⟨x, rfl⟩
    rw [expectedOutcome_of_factors present nonzero free factors, if_pos ⟨x, rfl⟩]
    rfl
  | expression present nonzero symbols free factors =>
    rw [expectedOutcome_of_factors present nonzero free factors, if_neg symbols]
    rfl
  | @quadratic present p leading whole _ _ =>
    have degree := Quadratic.natDegree_polynomial leading
    rw [expectedOutcome_of_degree present whole (by omega) (by omega)]
    rfl
  | @cubic present p leading whole _ _ =>
    have degree := Cubic.natDegree_polynomial leading
    rw [expectedOutcome_of_degree present whole (by omega) (by omega)]
    rfl

theorem Answered.degree_of_roots (h : Answered q s answer)
    (roots : Outcome.of answer = .roots) :
    ∃ p : ℚ[X], q.polynomial = inSymbol s p ∧ (p.natDegree = 2 ∨ p.natDegree = 3) := by
  cases h with
  | quadratic present leading whole =>
    exact ⟨_, whole, .inl (Quadratic.natDegree_polynomial leading)⟩
  | cubic present leading whole => exact ⟨_, whole, .inr (Cubic.natDegree_polynomial leading)⟩
  | _ => nomatch roots

/-- Of the kinds of failure three are possible, and an invalid argument means an absent symbol. -/
theorem Answered.kind {f : Failure} (h : Answered q s (.error f)) :
    f.kind = .invalidArgument ∧ q.Lacks s ∨ f.kind = .noSolution ∨
      f.kind = .unsupportedEquation := by
  cases h with
  | absent lacks => exact .inl ⟨rfl, lacks⟩
  | contradiction => exact .inr (.inl rfl)
  | unsupported _ _ _ kind => exact .inr (.inr kind)

/-- The table covers every equation, and its last row is what it says. -/
theorem solveWith_outcome (method : NumericMethod) (q : Equation) (s : String) :
    Outcome.of (q.solveWith method s) = q.expectedOutcome s ∧
      (q.expectedOutcome s = .roots →
        ∃ p : ℚ[X], q.polynomial = inSymbol s p ∧ (p.natDegree = 2 ∨ p.natDegree = 3)) ∧
      ∀ f, q.solveWith method s = .error f →
        f.kind = .invalidArgument ∧ q.Lacks s ∨ f.kind = .noSolution ∨
          f.kind = .unsupportedEquation := by
  have row := answered method q s
  refine ⟨row.outcome, fun roots => row.degree_of_roots (row.outcome.trans roots), ?_⟩
  intro f failed
  exact (answered_of_solveWith failed).kind

/-- The last row at x² = 4 and the first at 1 = 2. -/
theorem solveWith_outcome_at_four :
    (∃ p : ℚ[X], (⟨⟨[⟨.one, [⟨"x", 2⟩]⟩], .zero⟩, .const (.ofInt 4)⟩ : Equation).polynomial =
        inSymbol "x" p ∧ (p.natDegree = 2 ∨ p.natDegree = 3)) ∧
      (⟨.const .one, .const (.ofInt 2)⟩ : Equation).Lacks "x" := by
  obtain ⟨row, shape, -⟩ := solveWith_outcome .standard
    ⟨⟨[⟨.one, [⟨"x", 2⟩]⟩], .zero⟩, .const (.ofInt 4)⟩ "x"
  obtain ⟨-, -, kinds⟩ := solveWith_outcome .standard ⟨.const .one, .const (.ofInt 2)⟩ "x"
  refine ⟨shape (row.symm.trans (by decide +kernel)), ?_⟩
  rcases kinds (.symbolAbsent "x" ⟨.const .one, .const (.ofInt 2)⟩) (by decide +kernel) with
    invalid | none | unsupported
  · exact invalid.2
  · cases none
  · cases unsupported

end Equation

end ExactAlgebra
