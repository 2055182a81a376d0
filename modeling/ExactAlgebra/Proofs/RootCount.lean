import ExactAlgebra.Proofs.RepeatedFactors

/-!
The number of real roots. The completed square has as many solutions as its discriminant has square
roots. With a zero discriminant a cubic has the roots of its factors. Else the completed cube has a
real solution r; the others solve a completed square with discriminant 3(4E − r²), whose sign is
read off 4E³ − F². So the list of roots is as long as there are real roots, however well the doubles
in it come out.
-/
namespace ExactAlgebra

open Polynomial LaurentRing

section Squares

variable {w : ℝ}

theorem ncard_sq_eq_of_neg (negative : w < 0) : {t : ℝ | t ^ 2 = w}.ncard = 0 := by
  have empty : {t : ℝ | t ^ 2 = w} = ∅ := by
    ext t
    have := sq_nonneg t
    simp only [Set.mem_ofPred_eq, Set.mem_empty_iff_false, iff_false]
    intro h
    linarith
  rw [empty, Set.ncard_empty]

theorem ncard_sq_eq_zero : {t : ℝ | t ^ 2 = 0}.ncard = 1 := by
  simp

theorem sq_eq_iff_of_pos (positive : 0 < w) (t : ℝ) : t ^ 2 = w ↔ t = √w ∨ t = -√w := by
  rw [← sq_eq_sq_iff_eq_or_eq_neg, Real.sq_sqrt positive.le]

theorem ncard_sq_eq_of_pos (positive : 0 < w) : {t : ℝ | t ^ 2 = w}.ncard = 2 := by
  have pair : {t : ℝ | t ^ 2 = w} = {√w, -√w} := Set.ext (sq_eq_iff_of_pos positive)
  have root := Real.sqrt_pos.mpr positive
  rw [pair, Set.ncard_pair]
  linarith

/-- Stretching and shifting the unknown keeps the number of solutions. -/
theorem ncard_shift {a : ℝ} (nonzero : a ≠ 0) (b : ℝ) (solutions : Set ℝ) :
    {x | a * x + b ∈ solutions}.ncard = solutions.ncard := by
  refine Set.ncard_preimage_of_injective_subset_range (f := fun x => a * x + b) ?_ ?_
  · intro x y h
    exact mul_left_cancel₀ nonzero (add_right_cancel h)
  · intro t _
    refine ⟨(t - b) / a, ?_⟩
    field_simp
    ring

end Squares

section Cubes

variable {e f r t : ℝ}

theorem exists_mem_completedRoots (e f : ℝ) : ∃ r, r ∈ completedRoots e f := by
  have continuous : Continuous fun t : ℝ => t ^ 3 - 3 * e * t + f := by fun_prop
  have he := abs_le.mp (le_refl |e|)
  have hf := abs_le.mp (le_refl |f|)
  have e_nonneg := abs_nonneg e
  have f_nonneg := abs_nonneg f
  -- from this bound on the cube has the sign of the unknown
  set m := 1 + 3 * |e| + |f| with hm
  have large : 1 ≤ m := by linarith
  have square : m ≤ m ^ 2 := by nlinarith
  have cube : 3 * |e| * m + |f| ≤ m ^ 3 := by
    have first := mul_le_mul_of_nonneg_left square e_nonneg
    have last := mul_le_mul_of_nonneg_left (large.trans square) f_nonneg
    have split : m ^ 3 = m ^ 2 + 3 * (|e| * m ^ 2) + |f| * m ^ 2 := by
      rw [pow_succ]
      nth_rewrite 2 [hm]
      ring
    linarith
  refine mem_range_of_exists_le_of_exists_ge continuous ⟨-m, ?_⟩ ⟨m, ?_⟩
  · nlinarith
  · nlinarith

theorem offset_of_mem (root : r ∈ completedRoots e f) : f = 3 * e * r - r ^ 3 := by
  have : r ^ 3 - 3 * e * r + f = 0 := root
  linarith

/-- Beside one root stand the solutions of a completed square. -/
theorem mem_completedRoots_iff (root : r ∈ completedRoots e f) :
    t ∈ completedRoots e f ↔ t = r ∨ 2 * t + r ∈ {u : ℝ | u ^ 2 = 3 * (4 * e - r ^ 2)} := by
  have factors : t ^ 3 - 3 * e * t + f = (t - r) * (t ^ 2 + r * t + r ^ 2 - 3 * e) := by
    rw [offset_of_mem root]
    ring
  have square : t ^ 2 + r * t + r ^ 2 - 3 * e = 0 ↔ (2 * t + r) ^ 2 = 3 * (4 * e - r ^ 2) := by
    constructor
    · intro h
      linear_combination 4 * h
    · intro h
      linear_combination h / 4
  rw [completedRoots, Set.mem_ofPred_eq, factors, mul_eq_zero, sub_eq_zero, square]
  rfl

theorem discriminant_of_mem (root : r ∈ completedRoots e f) :
    4 * e ^ 3 - f ^ 2 = (4 * e - r ^ 2) * (e - r ^ 2) ^ 2 := by
  rw [offset_of_mem root]
  ring

theorem ncard_completedRoots_of_neg (negative : 4 * e ^ 3 - f ^ 2 < 0) :
    (completedRoots e f).ncard = 1 := by
  obtain ⟨r, root⟩ := exists_mem_completedRoots e f
  rw [discriminant_of_mem root] at negative
  have none : 3 * (4 * e - r ^ 2) < 0 := by
    by_contra h
    have := mul_nonneg (by linarith : 0 ≤ 4 * e - r ^ 2) (sq_nonneg (e - r ^ 2))
    linarith
  have single : completedRoots e f = {r} := by
    ext t
    rw [mem_completedRoots_iff root, Set.mem_singleton_iff, or_iff_left]
    intro h
    have := sq_nonneg (2 * t + r)
    rw [Set.mem_ofPred_eq.mp h] at this
    linarith
  rw [single, Set.ncard_singleton]

theorem ncard_completedRoots_of_pos (positive : 0 < 4 * e ^ 3 - f ^ 2) :
    (completedRoots e f).ncard = 3 := by
  obtain ⟨r, root⟩ := exists_mem_completedRoots e f
  rw [discriminant_of_mem root] at positive
  have two : 0 < 3 * (4 * e - r ^ 2) := by
    have := pos_of_mul_pos_left positive (sq_nonneg _)
    linarith
  have apart : e ≠ r ^ 2 := by
    rintro rfl
    simp at positive
  have others : {t : ℝ | 2 * t + r ∈ {u : ℝ | u ^ 2 = 3 * (4 * e - r ^ 2)}}.ncard = 2 := by
    rw [ncard_shift two_ne_zero, ncard_sq_eq_of_pos two]
  have whole : completedRoots e f =
      insert r {t : ℝ | 2 * t + r ∈ {u : ℝ | u ^ 2 = 3 * (4 * e - r ^ 2)}} :=
    Set.ext fun _ => mem_completedRoots_iff root
  have new : r ∉ {t : ℝ | 2 * t + r ∈ {u : ℝ | u ^ 2 = 3 * (4 * e - r ^ 2)}} := by
    intro h
    have square : (2 * r + r) ^ 2 = 3 * (4 * e - r ^ 2) := h
    exact apart (by linear_combination -square / 12)
  rw [whole, Set.ncard_insert_of_notMem new (Set.finite_of_ncard_ne_zero (by omega)), others]

end Cubes

section Lists

theorem Quadratic.ncard_of_listed {p : Quadratic} (leading : p.a ≠ 0) {list : List Root}
    (listed : p.Listed list) : {x : ℝ | aeval x p.polynomial = 0}.ncard = list.length := by
  have stretch : (2 * p.a : ℝ) ≠ 0 := by simpa using leading
  have solutions : {x : ℝ | aeval x p.polynomial = 0} =
      {x : ℝ | 2 * p.a * x + p.b ∈ {t : ℝ | t ^ 2 = p.discriminant}} :=
    Set.ext fun x => aeval_eq_zero_iff leading x
  rw [solutions, ncard_shift stretch]
  cases listed with
  | none negative => exact ncard_sq_eq_of_neg (by exact_mod_cast negative)
  | double zero => rw [zero, Rat.cast_zero, ncard_sq_eq_zero, List.length_singleton]
  | exact positive => exact ncard_sq_eq_of_pos (by exact_mod_cast positive)
  | approximate positive => exact ncard_sq_eq_of_pos (by exact_mod_cast positive)

theorem Quadratic.length_of_listed {p : Quadratic} {list : List Root} (listed : p.Listed list) :
    list.length ≤ 2 := by
  cases listed <;> simp

/-- Without the multiplicity, the factors are as many as the roots. -/
theorem Cubic.ncard_of_factored {p : Cubic} (leading : p.a ≠ 0) {list : List Root}
    (factored : p.Factored list) : {x : ℝ | aeval x p.polynomial = 0}.ncard = list.length := by
  cases factored with
  | @triple r factors =>
    have single : {x : ℝ | aeval x p.polynomial = 0} = {(r : ℝ)} := by
      ext x
      simp [factors, leading, sub_eq_zero]
    rw [single, Set.ncard_singleton, List.length_singleton]
  | @double r t apart factors =>
    have pair : {x : ℝ | aeval x p.polynomial = 0} = {(r : ℝ), (t : ℝ)} := by
      ext x
      simp [factors, leading, sub_eq_zero]
    have different : (r : ℝ) ≠ t := by exact_mod_cast apart
    rw [pair, Set.ncard_pair different]
    rfl

theorem Cubic.ncard_of_listed {p : Cubic} (leading : p.a ≠ 0) {list : List Root}
    (listed : p.Listed list) : {x : ℝ | aeval x p.polynomial = 0}.ncard = list.length := by
  by_cases zero : p.discriminant = 0
  · exact ncard_of_factored leading (factored_of_listed leading zero listed)
  have stretch : (3 * p.a : ℝ) ≠ 0 := by simpa using leading
  have solutions : {x : ℝ | aeval x p.polynomial = 0} =
      {x : ℝ | 3 * p.a * x + p.b ∈ completedRoots (p.tripleTest : ℝ) p.offset} :=
    Set.ext fun x => aeval_eq_zero_iff leading x
  have factor : 0 < 27 * p.a ^ 2 := by positivity
  have completed : (4 * p.tripleTest ^ 3 - p.offset ^ 2 : ℝ) = 27 * p.a ^ 2 * p.discriminant := by
    exact_mod_cast p.discriminant_completed.symm
  rw [solutions, ncard_shift stretch]
  cases listed with
  | triple | double => contradiction
  | single negative =>
    apply ncard_completedRoots_of_neg
    rw [completed]
    exact_mod_cast mul_neg_of_pos_of_neg factor negative
  | three positive =>
    apply ncard_completedRoots_of_pos
    rw [completed]
    exact_mod_cast mul_pos factor positive

theorem Cubic.length_of_listed {p : Cubic} {list : List Root} (listed : p.Listed list) :
    1 ≤ list.length ∧ list.length ≤ 3 := by
  cases listed <;> simp

end Lists

namespace Equation

/-- There are as many roots in the list as the polynomial has real roots. -/
theorem solveWith_root_count (method : NumericMethod) (q : Equation) (s : String)
    (list : List Root) (solved : q.solveWith method s = .ok (.roots list)) :
    ∃ p : ℚ[X], q.polynomial = inSymbol s p ∧ {x : ℝ | aeval x p = 0}.ncard = list.length ∧
      (p.natDegree = 2 ∧ list.length ≤ 2 ∨
        p.natDegree = 3 ∧ 1 ≤ list.length ∧ list.length ≤ 3) := by
  cases answered_of_solveWith solved with
  | quadratic present leading whole listed =>
    have degree := Quadratic.natDegree_polynomial leading
    exact ⟨_, whole, Quadratic.ncard_of_listed leading listed,
      .inl ⟨degree, Quadratic.length_of_listed listed⟩⟩
  | cubic present leading whole listed =>
    have degree := Cubic.natDegree_polynomial leading
    exact ⟨_, whole, Cubic.ncard_of_listed leading listed,
      .inr ⟨degree, Cubic.length_of_listed listed⟩⟩

/-- The three roots of x³ = x. -/
theorem solveWith_root_count_three :
    ∃ p : ℚ[X],
      (⟨⟨[⟨.one, [⟨"x", 3⟩]⟩], .zero⟩, ⟨[⟨.one, [⟨"x", 1⟩]⟩], .zero⟩⟩ : Equation).polynomial =
        inSymbol "x" p ∧
      {x : ℝ | aeval x p = 0}.ncard = 3 ∧
      (p.natDegree = 2 ∧ 3 ≤ 2 ∨ p.natDegree = 3 ∧ 1 ≤ 3 ∧ 3 ≤ 3) :=
  solveWith_root_count .standard _ "x" [.exact (.ofInt (-1)), .exact .zero, .exact .one]
    (by decide +kernel)

end Equation

end ExactAlgebra
