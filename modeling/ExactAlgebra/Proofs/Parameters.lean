import ExactAlgebra.Proofs.Evaluation
import ExactAlgebra.Proofs.LinearSolutions

/-!
Binding the other symbols of an equation that is linear in one of them. The map of polynomials that
a substitution computes keeps that symbol, and what is put for the others does not bring it in, so
the difference of the sides stays a number times the symbol minus the bound solution. Solving before
and after the substitution gives the same answer.
-/
namespace ExactAlgebra

open LaurentRing

namespace LaurentRing

variable {n k : LaurentRing} {s t : String}

/-- The polynomials that do not mention a symbol. -/
def without (s : String) : Subring LaurentRing where
  carrier := {n | ¬ n.Mentions s}
  zero_mem' := by simp [Mentions]
  one_mem' := fun h => by
    obtain ⟨d, hd, hs⟩ := h
    rw [← constant_one, coeff_constant] at hd
    split at hd
    · next zero => exact hs (by rw [zero, Finsupp.zero_apply])
    · exact hd rfl
  add_mem' {n k} hn hk := by
    rw [Set.mem_ofPred_eq, not_mentions_iff] at hn hk ⊢
    intro d hd
    rw [AddMonoidAlgebra.coeff_add, Finsupp.add_apply] at hd
    by_cases first : n.coeff d = 0
    · exact hk d fun second => hd (by rw [first, second, add_zero])
    · exact hn d first
  neg_mem' h := fun mentions => h mentions.of_neg
  mul_mem' {n k} hn hk := by
    classical
    rw [Set.mem_ofPred_eq, not_mentions_iff] at hn hk ⊢
    intro d hd
    have member := AddMonoidAlgebra.support_coeff_mul_subset n k (Finsupp.mem_support_iff.mpr hd)
    obtain ⟨a, ha, c, hc, rfl⟩ := Finset.mem_add.mp member
    rw [Finsupp.add_apply, hn a (Finsupp.mem_support_iff.mp ha),
      hk c (Finsupp.mem_support_iff.mp hc), add_zero]

theorem mem_without : n ∈ without s ↔ ¬ n.Mentions s := Iff.rfl

theorem single_mem_without {d : Exponents} (absent : d s = 0) (c : ℚ) :
    (AddMonoidAlgebra.single d c : LaurentRing) ∈ without s := by
  rw [mem_without, not_mentions_iff]
  intro f hf
  rw [AddMonoidAlgebra.coeff_single, Finsupp.single_apply] at hf
  split at hf
  · next same => rw [← same, absent]
  · exact absurd rfl hf

theorem constant_mem_without (c : ℚ) : constant c ∈ without s := single_mem_without rfl c

end LaurentRing

namespace Bindings

/-- The symbol is not bound, and nothing that is bound mentions it. -/
structure FreeOf (b : Bindings) (s : String) : Prop where
  unbound : b.lookup s = none
  values : ∀ t o, b.lookup t = some o → ¬ o.polynomial.Mentions s

variable {b : Bindings} {s : String}

theorem mapPowers_constant_mul (b : Bindings) (c : ℚ) (n : LaurentRing) :
    b.mapPowers (constant c * n) = constant c * b.mapPowers n := by
  induction n using AddMonoidAlgebra.induction_linear with
  | zero => simp
  | add n k hn hk => rw [mul_add, map_add, hn, hk, map_add, mul_add]
  | single d x =>
    rw [constant, AddMonoidAlgebra.single_mul_single, zero_add, mapPowers_single, constant_mul,
      mul_assoc, mapPowers_single, constant]

theorem mapPowers_symbol (unbound : b.lookup s = none) : b.mapPowers (symbol s) = symbol s := by
  rw [symbol, mapPowers_single, Finsupp.prod_single_index (b.image_zero s), constant_one, one_mul,
    image, unbound]

theorem FreeOf.image_mem (free : b.FreeOf s) {t : String} (other : t ≠ s) (k : ℤ) :
    b.image t k ∈ without s := by
  unfold image
  split
  · exact single_mem_without (Finsupp.single_eq_of_ne other.symm) 1
  · next o bound =>
    split
    · exact constant_mem_without _
    · exact pow_mem (mem_without.mpr (free.values t o bound)) _

/-- Substitution does not bring the symbol in. -/
theorem FreeOf.mapPowers_mem (free : b.FreeOf s) {n : LaurentRing} (absent : n ∈ without s) :
    b.mapPowers n ∈ without s := by
  rw [← n.sum_coeff_single, Finsupp.sum, map_sum]
  refine sum_mem fun d hd => ?_
  have hs : d s = 0 := not_mentions_iff.mp absent d (Finsupp.mem_support_iff.mp hd)
  rw [mapPowers_single]
  refine mul_mem (constant_mem_without _) (prod_mem fun t ht => free.image_mem ?_ _)
  rintro rfl
  exact Finsupp.mem_support_iff.mp ht hs

end Bindings

theorem Laurent.of_substitute {e f : Laurent} {b : Bindings} (answer : e.substitute b = .ok f) :
    e.obstacle? b = none ∧ f.polynomial = b.mapPowers e.polynomial := by
  have computes := e.substituteWith_computes b true
  rw [substitute] at answer
  rw [answer] at computes
  generalize e.obstacle? b = obstacle at computes
  cases computes with
  | value same => exact ⟨rfl, same⟩

namespace Equation

variable {method : NumericMethod} {q r : Equation} {s : String} {b : Bindings} {e : Laurent}
  {c : ℚ} {answer : Except Failure Solution} {solution : Solution}

section Binding

theorem of_substitute (bound : q.substitute b = .ok r) :
    (∀ m ∈ q.left.terms ++ q.right.terms, m.obstacle? b = none) ∧
      r.polynomial = b.mapPowers q.polynomial := by
  obtain ⟨f, left, bound⟩ := exists_of_bind bound
  obtain ⟨g, right, bound⟩ := exists_of_bind bound
  cases bound
  obtain ⟨allowed, first⟩ := Laurent.of_substitute left
  obtain ⟨also, second⟩ := Laurent.of_substitute right
  constructor
  · intro m member
    rcases List.mem_append.mp member with hm | hm
    · exact (Laurent.obstacle?_eq_none_iff _).mp allowed m hm
    · exact (Laurent.obstacle?_eq_none_iff _).mp also m hm
  · rw [polynomial, first, second, ← map_sub, ← polynomial]

/-- Each term of the solution has the exponents of a term on one of the sides, so what forbids
nothing there forbids nothing here. -/
theorem obstacle?_of_factors (normal : e.Normal) (free : ¬ e.polynomial.Mentions s)
    (nonzero : c ≠ 0) (factors : q.polynomial = constant c * (symbol s - e.polynomial))
    (allowed : ∀ m ∈ q.left.terms ++ q.right.terms, m.obstacle? b = none) :
    e.obstacle? b = none := by
  rw [Laurent.obstacle?_eq_none_iff]
  intro m member
  have counts : e.polynomial.coeff m.exponents ≠ 0 := by
    rw [normal.coeff_of_mem member]
    exact (normal.terms m member).2.2
  have other : m.exponents ≠ Finsupp.single s 1 := fun same => by
    have absent := not_mentions_iff.mp free _ counts
    rw [same, Finsupp.single_eq_same] at absent
    exact one_ne_zero absent
  have occurs : q.polynomial.coeff m.exponents ≠ 0 := by
    rw [factors, coeff_constant_mul, AddMonoidAlgebra.coeff_sub, Finsupp.sub_apply, symbol,
      AddMonoidAlgebra.coeff_single, Finsupp.single_eq_of_ne other, zero_sub]
    exact mul_ne_zero nonzero (neg_ne_zero.mpr counts)
  obtain ⟨n, hn, same⟩ := exists_term (normal.exponents_ne_zero member) occurs
  rw [m.obstacle?_eq_none_iff, ← same]
  exact n.obstacle?_eq_none_iff.mp (allowed n hn)

end Binding

end Equation

end ExactAlgebra
