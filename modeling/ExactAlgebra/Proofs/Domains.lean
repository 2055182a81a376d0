import ExactAlgebra.Proofs.ExactRoots
import ExactAlgebra.Proofs.Shapes

/-!
Where an exact answer may be put back. An answer is found from the difference of the sides, in which
terms of a negative degree may have cancelled; the sides keep them as they were written. At a number
where both sides have a value, an exact answer makes them one expression. At zero under a negative
degree there is no value, though the equation was solved.
-/
namespace ExactAlgebra

open LaurentRing

variable {s : String} {r : Ratio}

namespace Equation

variable {method : NumericMethod} {q : Equation}

/-- A number may be put for the symbol in both sides as they are written. -/
def Regular (q : Equation) (s : String) (r : Ratio) : Prop :=
  q.left.Regular s r ∧ q.right.Regular s r

instance (q : Equation) (s : String) (r : Ratio) : Decidable (q.Regular s r) :=
  inferInstanceAs (Decidable (_ ∧ _))

/-- The number is the answer, or one of the roots as an exact root. -/
def ExactAnswer (method : NumericMethod) (q : Equation) (s : String) (r : Ratio) : Prop :=
  q.solveWith method s = .ok (.value r) ∨
    ∃ list, q.solveWith method s = .ok (.roots list) ∧ .exact r ∈ list

theorem ExactAnswer.hasRoot (exact : q.ExactAnswer method s r) : q.HasRoot s r := by
  rcases exact with solved | ⟨list, solved, member⟩
  · exact (answered_of_solveWith solved).value_hasRoot
  · exact (answered_of_solveWith solved).roots_hasRoot member

/-- Solving fails for a negative degree that is left, so those of a solved equation cancel. -/
theorem ExactAnswer.nonneg (exact : q.ExactAnswer method s r) :
    q.difference.hasNegativeDegree s = false := by
  rw [← Bool.not_eq_true, hasNegativeDegree_difference_iff]
  intro negative
  have failed : q.solveWith method s = .error (.negativeExponent s) :=
    solveWith_of_shape_error (mentions_of_hasNegativeDegree negative) (shape_of_negative negative)
  rcases exact with solved | ⟨list, solved, -⟩
  · cases failed.symm.trans solved
  · cases failed.symm.trans solved

theorem HasRoot.image_eq (root : q.HasRoot s r) :
    Bindings.mapPowers [(s, .ratio r)] q.left.polynomial =
      Bindings.mapPowers [(s, .ratio r)] q.right.polynomial := by
  have computes := q.difference.substituteWith_computes [(s, .ratio r)] true
  rw [show q.difference.substituteWith true _ = _ from root.1, polynomial_difference] at computes
  generalize q.difference.obstacle? [(s, .ratio r)] = obstacle at computes
  cases computes with
  | value same =>
    rw [Laurent.polynomial_zero, polynomial, map_sub] at same
    exact sub_eq_zero.mp same.symm

theorem HasRoot.substitute (root : q.HasRoot s r) (regular : q.Regular s r) :
    ∃ e, q.substitute [(s, .ratio r)] = .ok ⟨e, e⟩ := by
  obtain ⟨e, left, normal, image⟩ := Laurent.exists_value_of_regular regular.1
  obtain ⟨f, right, normal', image'⟩ := Laurent.exists_value_of_regular regular.2
  have same : e = f := normal.eq_of_polynomial_eq normal' (by rw [image, image', root.image_eq])
  refine ⟨e, ?_⟩
  rw [Equation.substitute, left, right, ← same]
  rfl

theorem substitute_of_not_regular (irregular : ¬ q.Regular s r) :
    q.substitute [(s, .ratio r)] = .error .divisionByZero := by
  by_cases left : q.left.Regular s r
  · obtain ⟨e, value, -⟩ := Laurent.exists_value_of_regular left
    have right := Laurent.substitute_of_not_regular fun right => irregular ⟨left, right⟩
    rw [substitute, value, right]
    rfl
  · rw [substitute, Laurent.substitute_of_not_regular left]
    rfl

/-- An exact answer put back makes the sides one expression, unless it is zero and a side as it is
written has a negative degree of the symbol, which has then cancelled in the difference. -/
theorem substitute_exact (exact : q.ExactAnswer method s r) :
    (q.Regular s r → ∃ e, q.substitute [(s, .ratio r)] = .ok ⟨e, e⟩) ∧
    (¬ q.Regular s r → r.value = 0 ∧ q.difference.hasNegativeDegree s = false ∧
      q.substitute [(s, .ratio r)] = .error .divisionByZero) := by
  refine ⟨exact.hasRoot.substitute, fun irregular => ?_⟩
  refine ⟨?_, exact.nonneg, substitute_of_not_regular irregular⟩
  by_contra nonzero
  exact irregular ⟨fun zero => absurd zero nonzero, fun zero => absurd zero nonzero⟩

/-- The equation x + 1/x = 1/x + c, which is solved by c. -/
def withPoles (c : Ratio) : Equation where
  left := ⟨[⟨.one, [⟨"x", 1⟩]⟩, ⟨.one, [⟨"x", -1⟩]⟩], .zero⟩
  right := ⟨[⟨.one, [⟨"x", -1⟩]⟩], c⟩

/-- The answers 2 and 0, put back. -/
theorem substitute_exact_with_poles :
    (∃ e, (withPoles (.ofInt 2)).substitute [("x", .ratio (.ofInt 2))] = .ok ⟨e, e⟩) ∧
      (withPoles .zero).substitute [("x", .ratio .zero)] = .error .divisionByZero := by
  have two : (withPoles (.ofInt 2)).ExactAnswer .standard "x" (.ofInt 2) :=
    .inl (by decide +kernel)
  have zero : (withPoles .zero).ExactAnswer .standard "x" .zero := .inl (by decide +kernel)
  exact ⟨(substitute_exact two).1 (by decide +kernel),
    ((substitute_exact zero).2 (by decide +kernel)).2.2⟩

/-- Zero is an answer that cannot be put back. -/
theorem answer_at_pole : (withPoles .zero).solveFor "x" = .ok (.value .zero) ∧
    (withPoles .zero).substitute [("x", .ratio .zero)] = .error .divisionByZero := by
  decide +kernel

end Equation

end ExactAlgebra
