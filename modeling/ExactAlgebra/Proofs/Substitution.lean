import ExactAlgebra.Proofs.Evaluation
import ExactAlgebra.Proofs.Univariate

/-!
A number put in place of a symbol. Only a zero under a negative degree forbids it. When an
expression is a polynomial in one symbol, its normal form has no negative degrees, and what comes
out is the value of the polynomial at the number, in lowest terms.
-/
namespace ExactAlgebra

open Polynomial LaurentRing

variable {s : String} {r : Ratio}

theorem Bindings.image_ratio (k : ℤ) :
    Bindings.image [(s, .ratio r)] s k = constant (r.value ^ k) := by
  simp [image, Operand.scalar?]

theorem Bindings.mapPowers_inSymbol (p : ℚ[X]) :
    Bindings.mapPowers [(s, .ratio r)] (inSymbol s p) = constant (p.eval r.value) := by
  induction p using Polynomial.induction_on' with
  | add p q hp hq => rw [map_add, map_add, hp, hq, eval_add, constant_add]
  | monomial k c =>
    rw [inSymbol_monomial, mapPowers_single, Finsupp.prod_single_index (image_zero _ _),
      image_ratio, zpow_natCast, eval_monomial, constant_mul]

section Allowed

theorem Failure.kind_eq_divisionByZero_iff {f : Failure} :
    f.kind = .divisionByZero ↔ f = .divisionByZero := by
  cases f <;> simp [kind]

theorem Power.obstacle?_ratio (p : Power) : p.obstacle? [(s, .ratio r)] =
    if p.symbol = s ∧ r.value = 0 ∧ p.degree < 0 then some .divisionByZero else none := by
  by_cases bound : p.symbol = s
  · simp [obstacle?, bound, Operand.scalar?]
  · have unbound : (p.symbol == s) = false := by simpa using bound
    simp [obstacle?, bound, List.lookup_cons, unbound]

theorem Monomial.obstacle?_ratio_eq_none_iff (m : Monomial) :
    m.obstacle? [(s, .ratio r)] = none ↔ (r.value = 0 → 0 ≤ m.degreeOf s) := by
  simp only [obstacle?_eq_none_iff, Power.obstacle?_ratio, degreeOf_eq, ite_eq_right_iff,
    reduceCtorEq, imp_false, not_and, not_lt]
  constructor
  · intro allowed zero
    by_contra negative
    exact negative (allowed s (by omega) rfl zero)
  · rintro allowed _ - rfl zero
    exact allowed zero

end Allowed

namespace Laurent

variable {e : Laurent}

/-- A number may be put for the symbol: it is not zero, or no term as it is written has a negative
degree of the symbol. -/
def Regular (e : Laurent) (s : String) (r : Ratio) : Prop :=
  r.value = 0 → ∀ m ∈ e.terms, 0 ≤ m.degreeOf s

instance (e : Laurent) (s : String) (r : Ratio) : Decidable (e.Regular s r) :=
  inferInstanceAs (Decidable (_ → _))

theorem regular_iff : e.Regular s r ↔ e.obstacle? [(s, .ratio r)] = none := by
  simp only [Regular, obstacle?_eq_none_iff, Monomial.obstacle?_ratio_eq_none_iff]
  exact ⟨fun h m member zero => h zero m member, fun h zero m member => h m member zero⟩

theorem obstacle?_of_not_regular (irregular : ¬ e.Regular s r) :
    e.obstacle? [(s, .ratio r)] = some .divisionByZero := by
  rw [regular_iff] at irregular
  obtain ⟨kind, first⟩ := Option.ne_none_iff_exists'.mp irregular
  obtain ⟨m, -, inTerm⟩ := List.exists_of_findSome?_eq_some first
  obtain ⟨p, -, inPower⟩ := List.exists_of_findSome?_eq_some inTerm
  simp only [Power.obstacle?_ratio, Option.ite_none_right_eq_some, Option.some.injEq] at inPower
  rw [first, inPower.2]

theorem exists_value_of_regular (regular : e.Regular s r) :
    ∃ f, e.substitute [(s, .ratio r)] = .ok f ∧ f.Normal ∧
      f.polynomial = Bindings.mapPowers [(s, .ratio r)] e.polynomial := by
  have computes := e.substituteWith_computes [(s, .ratio r)] true
  rw [regular_iff.mp regular] at computes
  obtain ⟨f, answer, image⟩ := computes.exists_value
  exact ⟨f, answer, substituteWith_normal answer, image⟩

theorem substitute_of_not_regular (irregular : ¬ e.Regular s r) :
    e.substitute [(s, .ratio r)] = .error .divisionByZero := by
  have computes := e.substituteWith_computes [(s, .ratio r)] true
  rw [obstacle?_of_not_regular irregular] at computes
  obtain ⟨f, failed, cause⟩ := (computes.obstacle_eq_some_iff _).mp rfl
  exact Failure.kind_eq_divisionByZero_iff.mp cause ▸ failed

variable {p : ℚ[X]}

theorem regular_inSymbol (h : e.polynomial = inSymbol s p) : e.normalize.Regular s r := by
  intro _ m member
  obtain ⟨k, -, power⟩ := exists_power_of_mem_normalize h member
  simp [Monomial.degreeOf_eq, power]

/-- Putting a number for the symbol gives the value of the polynomial at the number. -/
theorem substitute_inSymbol (h : e.polynomial = inSymbol s p) :
    e.normalize.substitute [(s, .ratio r)] = .ok ⟨[], .ofRat (p.eval r.value)⟩ := by
  obtain ⟨f, answer, normal, image⟩ := exists_value_of_regular (regular_inSymbol h)
  rw [polynomial_normalize, h, Bindings.mapPowers_inSymbol] at image
  rw [answer, ← normal.normalize_eq, normalize_of_constant image]

end Laurent

end ExactAlgebra
